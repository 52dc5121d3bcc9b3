import Pintos.Lib.Buckets
import Mathlib.Order.Defs.Unbundled
import Mathlib.Data.List.Pairwise
import Mathlib.Algebra.Group.Nat.Defs
import Mathlib.Algebra.Group.Int.Defs

/-! # Hash tables

`lib/kernel/hash.c` at the level of its buckets' sequences: a `struct hash`
is its element count, its bucket count and its buckets, bucket `i` the
sequence of the list `buckets[i]`. The hash and comparison functions are the
parameters of every operation; `rehash` takes the outcome of its `malloc`.

A table is well formed (`Inv`) when its bucket count is a power of two at
least 4, every element lies in the bucket its hash selects, the element
count is the number of elements, and no two elements are equivalent under
`less`. Every operation keeps that, whether or not `rehash` gets its memory,
and acts on the elements as the finite map of `mapStep` does on a list of
pairwise inequivalent elements (`hash_table_finite_map`). Both need `less` to
be a strict weak order and equivalent elements to hash equally.
-/

namespace Pintos.Hash

open Buckets

variable {α : Type*}

/-- `struct hash`: `elem_cnt`, `bucket_cnt` and the sequences of `buckets[i]`. -/
structure Table (α : Type*) where
  elemCnt : ℕ
  bucketCnt : ℕ
  buckets : ℕ → List α

/-- The elements of a table, bucket by bucket. -/
def Table.contents (t : Table α) : List α := Buckets.contents t.bucketCnt t.buckets

/-- The operations on a table, each with the outcome of the `malloc` of its `rehash`. -/
inductive Op (α : Type*)
  | insert (new : α) (allocOk : Bool)
  | replace (new : α) (allocOk : Bool)
  | find (e : α)
  | delete (e : α) (allocOk : Bool)
  | clear

section Model

variable (hash : α → ℕ) (less : α → α → Bool)

/-- `!less (a, b) && !less (b, a)`: neither comes before the other. -/
def equiv (a b : α) : Bool := !less a b && !less b a

def findBucket (t : Table α) (e : α) : ℕ := hash e &&& (t.bucketCnt - 1)

def findElem (bucket : List α) (e : α) : Option α := bucket.find? fun hi => equiv less hi e

def turnOffLeast1bit (x : ℕ) : ℕ := x &&& (x - 1)

def isPowerOf2 (x : ℕ) : Bool := x != 0 && turnOffLeast1bit x == 0

/-- `while (!is_power_of_2 (x)) x = turn_off_least_1bit (x)`, a round for each unit of fuel. -/
def powerLoop : ℕ → ℕ → ℕ
  | 0, x => x
  | n + 1, x => if isPowerOf2 x then x else powerLoop n (turnOffLeast1bit x)

/-- The bucket count `rehash` computes: `elem_cnt / BEST_ELEMS_PER_BUCKET`, at least 4, turned
into a power of two; the loop runs with its starting value as fuel. -/
def newBucketCnt (elemCnt : ℕ) : ℕ :=
  let n := elemCnt / 2
  let n := if n < 4 then 4 else n
  powerLoop n n

/-- `list_push_front (new_bucket, elem)` in the move loop of `rehash`. -/
def moveElem (t : Table α) (e : α) : Table α :=
  let i := findBucket hash t e
  { t with buckets := Function.update t.buckets i (e :: t.buckets i) }

/-- `rehash`, with `allocOk` whether `malloc` returned the new buckets. -/
def rehash (allocOk : Bool) (t : Table α) : Table α :=
  let newCnt := newBucketCnt t.elemCnt
  if newCnt = t.bucketCnt then t
  else if !allocOk then t
  else
    let t₀ : Table α := { t with bucketCnt := newCnt, buckets := fun _ => [] }
    (List.range t.bucketCnt).foldl (fun acc i => (t.buckets i).foldl (moveElem hash) acc) t₀

/-- `insert_elem`: `list_push_front` onto bucket `i`. -/
def insertElem (t : Table α) (i : ℕ) (e : α) : Table α :=
  { t with elemCnt := t.elemCnt + 1, buckets := Function.update t.buckets i (e :: t.buckets i) }

/-- `remove_elem` of an element found in bucket `i`: `list_remove` takes it out of that list. -/
def removeElem [DecidableEq α] (t : Table α) (i : ℕ) (e : α) : Table α :=
  { t with elemCnt := t.elemCnt - 1, buckets := Function.update t.buckets i ((t.buckets i).erase e) }

def hashInit (allocOk : Bool) : Option (Table α) :=
  if allocOk then some ⟨0, 4, fun _ => []⟩ else none

/-- `hash_insert`: the equivalent element already there, if any, and the table after. -/
def hashInsert (allocOk : Bool) (t : Table α) (new : α) : Option α × Table α :=
  let bucket := findBucket hash t new
  let old := findElem less (t.buckets bucket) new
  let t := if old.isNone then insertElem t bucket new else t
  (old, rehash hash allocOk t)

/-- `hash_replace`: the equivalent element taken out, if any, and the table after. -/
def hashReplace [DecidableEq α] (allocOk : Bool) (t : Table α) (new : α) : Option α × Table α :=
  let bucket := findBucket hash t new
  let old := findElem less (t.buckets bucket) new
  let t := match old with
    | none => t
    | some o => removeElem t bucket o
  (old, rehash hash allocOk (insertElem t bucket new))

def hashFind (t : Table α) (e : α) : Option α := findElem less (t.buckets (findBucket hash t e)) e

/-- `hash_delete`: `rehash` runs only when an element is removed. -/
def hashDelete [DecidableEq α] (allocOk : Bool) (t : Table α) (e : α) : Option α × Table α :=
  let bucket := findBucket hash t e
  match findElem less (t.buckets bucket) e with
  | none => (none, t)
  | some found => (some found, rehash hash allocOk (removeElem t bucket found))

/-- `hash_clear`: every bucket `list_init`ed and the count zeroed; the bucket count stays. -/
def hashClear (t : Table α) : Table α := { t with elemCnt := 0, buckets := fun _ => [] }

def tableStep [DecidableEq α] (t : Table α) : Op α → Option α × Table α
  | .insert new allocOk => hashInsert hash less allocOk t new
  | .replace new allocOk => hashReplace hash less allocOk t new
  | .find e => (hashFind hash less t e, t)
  | .delete e allocOk => hashDelete hash less allocOk t e
  | .clear => (none, hashClear t)

/-- A run of operations: what each returns, and the table at the end. -/
def runTable [DecidableEq α] (t : Table α) : List (Op α) → List (Option α) × Table α
  | [] => ([], t)
  | op :: ops =>
    let r := tableStep hash less t op
    let rest := runTable r.2 ops
    (r.1 :: rest.1, rest.2)

end Model

section Bits

theorem turnOffLeast1bit_le (x : ℕ) : turnOffLeast1bit x ≤ x - 1 := Nat.and_le_right

theorem isPowerOf2_two_pow (k : ℕ) : isPowerOf2 (2 ^ k) = true := by
  have h : turnOffLeast1bit (2 ^ k) = 0 := by
    rw [turnOffLeast1bit, Nat.and_two_pow_sub_one_eq_mod, Nat.mod_self]
  simp [isPowerOf2, h]

/-- Above `2 ^ k` and below `2 ^ (k + 1)`, turning off the lowest set bit keeps bit `k`. -/
theorem two_pow_le_turnOffLeast1bit {x k : ℕ} (h₁ : 2 ^ k < x) (h₂ : x < 2 ^ (k + 1)) :
    2 ^ k ≤ turnOffLeast1bit x := by
  apply Nat.ge_two_pow_of_testBit
  rw [turnOffLeast1bit, Nat.testBit_and,
    Nat.testBit_of_two_pow_le_and_two_pow_add_one_gt (Nat.le_of_lt h₁) h₂,
    Nat.testBit_of_two_pow_le_and_two_pow_add_one_gt (by omega) (by omega), Bool.and_self]

/-- The loop of `rehash` from between `2 ^ k` and `2 ^ (k + 1)` ends at `2 ^ k`. -/
theorem powerLoop_eq {k : ℕ} : ∀ {n x : ℕ}, 2 ^ k ≤ x → x < 2 ^ (k + 1) → x - 2 ^ k < n →
    powerLoop n x = 2 ^ k
  | 0, _, _, _, hn => absurd hn (Nat.not_lt_zero _)
  | n + 1, x, h₁, h₂, hn => by
    rcases Nat.lt_or_eq_of_le h₁ with h₁ | rfl
    · have hle := two_pow_le_turnOffLeast1bit h₁ h₂
      have hnot : isPowerOf2 x = false := by
        simp [isPowerOf2, Nat.pos_iff_ne_zero.mp (Nat.lt_of_lt_of_le (Nat.two_pow_pos k) hle)]
      have hlt := turnOffLeast1bit_le x
      rw [powerLoop, hnot, if_neg Bool.false_ne_true]
      exact powerLoop_eq hle (by omega) (by omega)
    · rw [powerLoop, isPowerOf2_two_pow, if_pos rfl]

/-- `rehash` aims for the largest power of two not above `max 4 (elem_cnt / 2)`. -/
theorem newBucketCnt_eq (elemCnt : ℕ) :
    newBucketCnt elemCnt = 2 ^ (max 4 (elemCnt / 2)).log2 := by
  have hn : max 4 (elemCnt / 2) ≠ 0 := by omega
  have hmax : (if elemCnt / 2 < 4 then 4 else elemCnt / 2) = max 4 (elemCnt / 2) := by
    split <;> omega
  have h₁ := Nat.log2_self_le hn
  rw [newBucketCnt, hmax]
  exact powerLoop_eq h₁ Nat.lt_log2_self (by have := Nat.two_pow_pos (max 4 (elemCnt / 2)).log2; omega)

theorem four_le_newBucketCnt (elemCnt : ℕ) : 4 ≤ newBucketCnt elemCnt := by
  rw [newBucketCnt_eq]
  have h : 2 ≤ (max 4 (elemCnt / 2)).log2 := (Nat.le_log2 (by omega)).mpr (by omega)
  calc 4 = 2 ^ 2 := rfl
    _ ≤ 2 ^ (max 4 (elemCnt / 2)).log2 := Nat.pow_le_pow_right (by omega) h

end Bits

section Equiv

variable {less : α → α → Bool}

theorem equiv_comm (a b : α) : equiv less a b = equiv less b a := Bool.and_comm _ _

/-- In a list of pairwise inequivalent elements, equivalent members are one element. -/
theorem eq_of_equiv {l : List α} (hd : l.Pairwise fun a b => equiv less a b = false) {x y : α}
    (hx : x ∈ l) (hy : y ∈ l) (hxy : equiv less x y = true) : x = y := by
  have : Std.Symm fun a b => equiv less a b = false := ⟨fun a b h => by rwa [equiv_comm]⟩
  by_contra hne
  have := hd.forall hx hy hne
  simp [hxy] at this

variable [IsStrictWeakOrder α fun a b => less a b = true]

theorem equiv_self (a : α) : equiv less a a = true := by
  have h : ¬ less a a = true := irrefl_of (fun a b => less a b = true) a
  simp [equiv, h]

/-- Equivalence under a strict weak order is transitive. -/
theorem equiv_trans {a b c : α} (hab : equiv less a b = true) (hbc : equiv less b c = true) :
    equiv less a c = true := by
  simp only [equiv, Bool.and_eq_true, Bool.not_eq_true'] at hab hbc ⊢
  have h := @IsStrictWeakOrder.incomp_trans α (fun a b => less a b = true) _ a b c
    ⟨by simp [hab.1], by simp [hab.2]⟩ ⟨by simp [hbc.1], by simp [hbc.2]⟩
  simpa using h

end Equiv

section Spec

variable (hash : α → ℕ) (less : α → α → Bool)

/-- A well-formed table: a power of two at least 4 buckets, each element in the bucket its
hash selects, `elem_cnt` the number of elements, and no two elements equivalent. -/
structure Inv (t : Table α) : Prop where
  pow : ∃ k, t.bucketCnt = 2 ^ k
  four : 4 ≤ t.bucketCnt
  placed : ∀ i, ∀ e ∈ t.buckets i, i = findBucket hash t e
  count : t.elemCnt = t.contents.length
  distinct : t.contents.Pairwise fun a b => equiv less a b = false

/-- The element of `m` equivalent to `e`, if any. -/
def lookup (m : List α) (e : α) : Option α := m.find? fun x => equiv less x e

/-- A finite map from the equivalence classes of `less` to elements, as the list of its
elements, one for each class it maps: what each operation returns and the map after. -/
def mapStep [DecidableEq α] (m : List α) : Op α → Option α × List α
  | .insert new _ =>
    match lookup less m new with
    | none => (none, new :: m)
    | some o => (some o, m)
  | .replace new _ =>
    match lookup less m new with
    | none => (none, new :: m)
    | some o => (some o, new :: m.erase o)
  | .find e => (lookup less m e, m)
  | .delete e _ =>
    match lookup less m e with
    | none => (none, m)
    | some o => (some o, m.erase o)
  | .clear => (none, [])

def runMap [DecidableEq α] (m : List α) : List (Op α) → List (Option α) × List α
  | [] => ([], m)
  | op :: ops =>
    let r := mapStep less m op
    let rest := runMap r.2 ops
    (r.1 :: rest.1, rest.2)

/-- A table stands for the map `m`: it is well formed and holds the elements of `m`. -/
structure Represents (t : Table α) (m : List α) : Prop where
  inv : Inv hash less t
  perm : t.contents.Perm m

variable {hash less}

theorem findBucket_lt {t : Table α} (h : 0 < t.bucketCnt) (e : α) :
    findBucket hash t e < t.bucketCnt :=
  Nat.lt_of_le_of_lt Nat.and_le_right (by omega)

theorem Inv.mem_contents {t : Table α} (hi : Inv hash less t) {e : α} :
    e ∈ t.contents ↔ e ∈ t.buckets (findBucket hash t e) := by
  constructor
  · intro he
    obtain ⟨i, -, hei⟩ := Buckets.mem_contents.mp he
    rwa [← hi.placed i e hei]
  · exact fun he => Buckets.mem_contents.mpr ⟨_, findBucket_lt (by have := hi.four; omega) e, he⟩

theorem lookup_eq_none {m : List α} {e : α} :
    lookup less m e = none ↔ ∀ x ∈ m, equiv less x e = false := by
  simp [lookup, List.find?_eq_none]

theorem lookup_eq_some {m : List α} {e o : α} (h : lookup less m e = some o) :
    o ∈ m ∧ equiv less o e = true := by
  unfold lookup at h
  have ho : equiv less o e = true := List.find?_some (p := fun x => equiv less x e) h
  exact ⟨List.mem_of_find?_eq_some h, ho⟩

theorem distinct_perm {m m' : List α} (hd : m.Pairwise fun a b => equiv less a b = false)
    (hp : m.Perm m') : m'.Pairwise fun a b => equiv less a b = false :=
  hd.perm hp fun h => by rwa [equiv_comm]

/-- `insert_elem` of an element with no equivalent in the table, into its own bucket. -/
theorem insertElem_spec {t : Table α} (hi : Inv hash less t) {e : α}
    (hn : lookup less t.contents e = none) :
    Inv hash less (insertElem t (findBucket hash t e) e) ∧
      (insertElem t (findBucket hash t e) e).contents.Perm (e :: t.contents) := by
  have hpos : 0 < t.bucketCnt := by have := hi.four; omega
  have hp : (insertElem t (findBucket hash t e) e).contents.Perm (e :: t.contents) :=
    contents_push_perm (findBucket_lt hpos e) t.buckets e
  refine ⟨⟨hi.pow, hi.four, fun i x hx => ?_, ?_, ?_⟩, hp⟩
  · by_cases hix : i = findBucket hash t e
    · subst hix
      simp only [insertElem, Function.update_self, List.mem_cons] at hx
      rcases hx with rfl | hx
      · rfl
      · exact hi.placed _ x hx
    · simp only [insertElem, Function.update_of_ne hix] at hx
      exact hi.placed i x hx
  · rw [hp.length_eq]
    simp [insertElem, hi.count]
  · refine distinct_perm (List.pairwise_cons.mpr ⟨fun x hx => ?_, hi.distinct⟩) hp.symm
    rw [equiv_comm]
    exact lookup_eq_none.mp hn x hx

/-- `remove_elem` of an element of bucket `i`. -/
theorem removeElem_spec [DecidableEq α] {t : Table α} (hi : Inv hash less t) {i : ℕ} {o : α}
    (ho : o ∈ t.buckets i) :
    Inv hash less (removeElem t i o) ∧ (removeElem t i o).contents.Perm (t.contents.erase o) := by
  have hit : i = findBucket hash t o := hi.placed i o ho
  have hpos : 0 < t.bucketCnt := by have := hi.four; omega
  have hlt : i < t.bucketCnt := hit ▸ findBucket_lt hpos o
  have hp : (removeElem t i o).contents.Perm (t.contents.erase o) :=
    contents_erase_perm hlt t.buckets ho
  have hoc : o ∈ t.contents := Buckets.mem_contents.mpr ⟨i, hlt, ho⟩
  refine ⟨⟨hi.pow, hi.four, fun j x hx => ?_, ?_, ?_⟩, hp⟩
  · by_cases hj : j = i
    · subst hj
      simp only [removeElem, Function.update_self] at hx
      exact hi.placed j x (List.mem_of_mem_erase hx)
    · simp only [removeElem, Function.update_of_ne hj] at hx
      exact hi.placed j x hx
  · rw [hp.length_eq]
    simp [removeElem, hi.count, List.length_erase_of_mem hoc]
  · exact distinct_perm (hi.distinct.sublist (List.erase_sublist)) hp.symm

/-- The move loop of `rehash`: each element pushed onto the bucket the new count selects. -/
theorem foldl_moveElem : ∀ (es : List α) {acc : Table α}, 0 < acc.bucketCnt →
    (∀ i, ∀ x ∈ acc.buckets i, i = findBucket hash acc x) →
    (es.foldl (moveElem hash) acc).bucketCnt = acc.bucketCnt ∧
      (es.foldl (moveElem hash) acc).elemCnt = acc.elemCnt ∧
      (∀ i, ∀ x ∈ (es.foldl (moveElem hash) acc).buckets i,
        i = findBucket hash (es.foldl (moveElem hash) acc) x) ∧
      (es.foldl (moveElem hash) acc).contents.Perm (es ++ acc.contents)
  | [], _, _, hpl => ⟨rfl, rfl, hpl, .refl _⟩
  | e :: es, acc, hpos, hpl => by
    have hpl' : ∀ i, ∀ x ∈ (moveElem hash acc e).buckets i,
        i = findBucket hash (moveElem hash acc e) x := by
      intro i x hx
      by_cases hix : i = findBucket hash acc e
      · subst hix
        simp only [moveElem, Function.update_self, List.mem_cons] at hx
        rcases hx with rfl | hx
        · rfl
        · exact hpl _ x hx
      · simp only [moveElem, Function.update_of_ne hix] at hx
        exact hpl i x hx
    have hpos' : 0 < (moveElem hash acc e).bucketCnt := hpos
    obtain ⟨hc, he, hp, hperm⟩ := foldl_moveElem es hpos' hpl'
    refine ⟨hc, he, hp, hperm.trans ?_⟩
    exact ((contents_push_perm (findBucket_lt hpos e) acc.buckets e).append_left es).trans
      List.perm_middle

/-- `rehash` keeps a table well formed and its elements as they are, whether or not `malloc`
gives it the new buckets. -/
theorem rehash_spec {t : Table α} (hi : Inv hash less t) (allocOk : Bool) :
    Inv hash less (rehash hash allocOk t) ∧ (rehash hash allocOk t).contents.Perm t.contents := by
  unfold rehash
  dsimp only
  split
  · exact ⟨hi, .refl _⟩
  split
  · exact ⟨hi, .refl _⟩
  set t₀ : Table α := { t with bucketCnt := newBucketCnt t.elemCnt, buckets := fun _ => [] }
  -- the nested loop over buckets and their elements is one loop over the contents
  have hfold : (List.range t.bucketCnt).foldl (fun acc i => (t.buckets i).foldl (moveElem hash) acc)
      t₀ = t.contents.foldl (moveElem hash) t₀ := (List.foldl_flatMap ..).symm
  have hpos : 0 < t₀.bucketCnt := by
    have := four_le_newBucketCnt t.elemCnt
    simp only [t₀]
    omega
  have hnil : t₀.contents = [] := contents_nil _
  obtain ⟨hc, he, hp, hperm⟩ :=
    @foldl_moveElem _ hash t.contents t₀ hpos (fun _ _ hx => absurd hx List.not_mem_nil)
  rw [hnil, List.append_nil] at hperm
  rw [hfold]
  refine ⟨⟨⟨_, hc.trans (newBucketCnt_eq t.elemCnt)⟩, hc ▸ four_le_newBucketCnt t.elemCnt, hp, ?_,
    distinct_perm hi.distinct hperm.symm⟩, hperm⟩
  rw [he, hperm.length_eq]
  exact hi.count

section Represents

variable {t : Table α} {m : List α}

theorem Represents.distinct (hr : Represents hash less t m) :
    m.Pairwise fun a b => equiv less a b = false :=
  distinct_perm hr.inv.distinct hr.perm

theorem represents_rehash (hr : Represents hash less t m) (allocOk : Bool) :
    Represents hash less (rehash hash allocOk t) m :=
  ⟨(rehash_spec hr.inv allocOk).1, (rehash_spec hr.inv allocOk).2.trans hr.perm⟩

theorem represents_removeElem [DecidableEq α] (hr : Represents hash less t m) {i : ℕ} {o : α}
    (ho : o ∈ t.buckets i) : Represents hash less (removeElem t i o) (m.erase o) := by
  obtain ⟨hi, hp⟩ := removeElem_spec hr.inv ho
  exact ⟨hi, hp.trans (hr.perm.erase o)⟩

theorem represents_hashClear (hr : Represents hash less t m) :
    Represents hash less (hashClear t) [] := by
  have hnil : (hashClear t).contents = [] := contents_nil _
  refine ⟨⟨hr.inv.pow, hr.inv.four, fun i e he => absurd he List.not_mem_nil, ?_, ?_⟩, ?_⟩
  · rw [hnil]
    rfl
  · rw [hnil]
    exact List.Pairwise.nil
  · rw [hnil]

theorem represents_hashInit {t : Table α} (ht : hashInit true = some t) :
    Represents hash less t [] := by
  simp only [hashInit, if_true, Option.some.injEq] at ht
  subst ht
  have hnil : (⟨0, 4, fun _ => []⟩ : Table α).contents = [] := contents_nil _
  refine ⟨⟨⟨2, rfl⟩, Nat.le_refl 4, fun i e he => absurd he List.not_mem_nil, ?_, ?_⟩, ?_⟩
  · rw [hnil]
    rfl
  · rw [hnil]
    exact List.Pairwise.nil
  · rw [hnil]

end Represents

section Order

variable [IsStrictWeakOrder α fun a b => less a b = true]

/-- Two elements both equivalent to `e` in a list without equivalent pairs are one. -/
theorem eq_of_equiv_both {m : List α} (hd : m.Pairwise fun a b => equiv less a b = false)
    {x y e : α} (hx : x ∈ m) (hy : y ∈ m) (hxe : equiv less x e = true)
    (hye : equiv less y e = true) : x = y :=
  eq_of_equiv hd hx hy (equiv_trans hxe (by rwa [equiv_comm]))

theorem nodup_of_distinct {m : List α} (hd : m.Pairwise fun a b => equiv less a b = false) :
    m.Nodup :=
  hd.imp fun h heq => by
    subst heq
    simp [equiv_self] at h

theorem lookup_perm {m m' : List α} (hd : m.Pairwise fun a b => equiv less a b = false)
    (hp : m.Perm m') (e : α) : lookup less m e = lookup less m' e :=
  find?_eq_of_unique (fun _ hx _ hy hxe hye => eq_of_equiv_both (distinct_perm hd hp) hx hy hxe hye)
    (fun _ hx => hp.subset hx) (fun _ hx _ => hp.symm.subset hx)

/-- Once the element equivalent to `e` is erased, nothing left is. -/
theorem lookup_erase [DecidableEq α] {m : List α}
    (hd : m.Pairwise fun a b => equiv less a b = false) {e o : α} (ho : lookup less m e = some o) :
    lookup less (m.erase o) e = none := by
  obtain ⟨hom, hoe⟩ := lookup_eq_some ho
  refine lookup_eq_none.mpr fun x hx => ?_
  by_contra hxe
  have hxo : x = o :=
    eq_of_equiv_both hd (List.mem_of_mem_erase hx) hom (by simpa using hxe) hoe
  subst hxo
  exact (nodup_of_distinct hd).not_mem_erase hx

/-- The bucket of `e` finds what the whole table would: every element equivalent to `e` hashes
as `e` does, so it lies in that bucket. -/
theorem findElem_eq_lookup (hc : ∀ a b, equiv less a b = true → hash a = hash b)
    {t : Table α} (hi : Inv hash less t) (e : α) :
    findElem less (t.buckets (findBucket hash t e)) e = lookup less t.contents e := by
  refine find?_eq_of_unique (fun _ hx _ hy hxe hye => eq_of_equiv_both hi.distinct hx hy hxe hye)
    (fun x hx => mem_contents.mpr ⟨_, findBucket_lt (by have := hi.four; omega) e, hx⟩)
    (fun x hx hxe => ?_)
  have hb : findBucket hash t x = findBucket hash t e := by
    unfold findBucket
    rw [hc x e hxe]
  exact hb ▸ hi.mem_contents.mp hx

variable {t : Table α} {m : List α}

theorem Represents.findElem (hc : ∀ a b, equiv less a b = true → hash a = hash b)
    (hr : Represents hash less t m) (e : α) :
    Pintos.Hash.findElem less (t.buckets (findBucket hash t e)) e = lookup less m e :=
  (findElem_eq_lookup hc hr.inv e).trans (lookup_perm hr.inv.distinct hr.perm e)

theorem represents_insertElem (hr : Represents hash less t m) {e : α}
    (hn : lookup less m e = none) :
    Represents hash less (insertElem t (findBucket hash t e) e) (e :: m) := by
  have hn' : lookup less t.contents e = none := (lookup_perm hr.inv.distinct hr.perm e).trans hn
  obtain ⟨hi, hp⟩ := insertElem_spec hr.inv hn'
  exact ⟨hi, hp.trans (hr.perm.cons e)⟩

section Ops

variable [DecidableEq α] (hc : ∀ a b, equiv less a b = true → hash a = hash b)
  (hr : Represents hash less t m)
include hc hr

/-- `hash_insert` returns what the map holds for `new`, and adds `new` only when that is
nothing. -/
theorem hashInsert_spec (allocOk : Bool) (new : α) :
    (hashInsert hash less allocOk t new).1 = (mapStep less m (.insert new allocOk)).1 ∧
      Represents hash less (hashInsert hash less allocOk t new).2
        (mapStep less m (.insert new allocOk)).2 := by
  have hf := hr.findElem hc new
  unfold hashInsert mapStep
  cases hl : lookup less m new with
  | none =>
    simp only [hf, hl, Option.isNone_none, if_true, true_and]
    exact represents_rehash (represents_insertElem hr hl) allocOk
  | some o =>
    simp only [hf, hl, Option.isNone_some, Bool.false_eq_true, if_false, true_and]
    exact represents_rehash hr allocOk

/-- `hash_replace` returns what the map holds for `new` and puts `new` in its place. -/
theorem hashReplace_spec (allocOk : Bool) (new : α) :
    (hashReplace hash less allocOk t new).1 = (mapStep less m (.replace new allocOk)).1 ∧
      Represents hash less (hashReplace hash less allocOk t new).2
        (mapStep less m (.replace new allocOk)).2 := by
  have hf := hr.findElem hc new
  unfold hashReplace mapStep
  cases hl : lookup less m new with
  | none =>
    simp only [hf, hl, true_and]
    exact represents_rehash (represents_insertElem hr hl) allocOk
  | some o =>
    have ho : o ∈ t.buckets (findBucket hash t new) := List.mem_of_find?_eq_some (hf.trans hl)
    have hr' := represents_removeElem hr ho
    simp only [hf, hl, true_and]
    exact represents_rehash (represents_insertElem hr' (lookup_erase hr.distinct hl)) allocOk

/-- `hash_delete` returns what the map holds for `e` and takes it out. -/
theorem hashDelete_spec (allocOk : Bool) (e : α) :
    (hashDelete hash less allocOk t e).1 = (mapStep less m (.delete e allocOk)).1 ∧
      Represents hash less (hashDelete hash less allocOk t e).2
        (mapStep less m (.delete e allocOk)).2 := by
  have hf := hr.findElem hc e
  unfold hashDelete mapStep
  cases hl : lookup less m e with
  | none =>
    simp only [hf, hl, true_and]
    exact hr
  | some o =>
    have ho : o ∈ t.buckets (findBucket hash t e) := List.mem_of_find?_eq_some (hf.trans hl)
    simp only [hf, hl, true_and]
    exact represents_rehash (represents_removeElem hr ho) allocOk

/-- One operation on a table and on the map it stands for return the same, and the table after
stands for the map after. -/
theorem tableStep_spec (op : Op α) :
    (tableStep hash less t op).1 = (mapStep less m op).1 ∧
      Represents hash less (tableStep hash less t op).2 (mapStep less m op).2 := by
  cases op with
  | insert new allocOk => exact hashInsert_spec hc hr allocOk new
  | replace new allocOk => exact hashReplace_spec hc hr allocOk new
  | find e => exact ⟨hr.findElem hc e, hr⟩
  | delete e allocOk => exact hashDelete_spec hc hr allocOk e
  | clear => exact ⟨rfl, represents_hashClear hr⟩

end Ops

/-- A run of operations on a table and on the map it stands for return the same, and the table
at the end stands for the map at the end. -/
theorem runTable_spec [DecidableEq α] (hc : ∀ a b, equiv less a b = true → hash a = hash b) :
    ∀ (ops : List (Op α)) {t : Table α} {m : List α}, Represents hash less t m →
      (runTable hash less t ops).1 = (runMap less m ops).1 ∧
        Represents hash less (runTable hash less t ops).2 (runMap less m ops).2
  | [], _, _, hr => ⟨rfl, hr⟩
  | op :: ops, t, m, hr => by
    obtain ⟨hout, hr'⟩ := tableStep_spec hc hr op
    obtain ⟨hrest, hend⟩ := runTable_spec hc ops hr'
    exact ⟨by simp only [runTable, runMap, hout, hrest], hend⟩

theorem hash_table_finite_map [DecidableEq α]
    (hc : ∀ a b, equiv less a b = true → hash a = hash b) {t : Table α}
    (ht : hashInit true = some t) (ops : List (Op α)) :
    (runTable hash less t ops).1 = (runMap less [] ops).1 ∧
      Inv hash less (runTable hash less t ops).2 ∧
      (runTable hash less t ops).2.contents.Perm (runMap less [] ops).2 := by
  obtain ⟨hout, hend⟩ := runTable_spec hc ops (represents_hashInit ht)
  exact ⟨hout, hend.inv, hend.perm⟩

end Order

theorem natLess_strictWeakOrder : IsStrictWeakOrder ℕ fun a b => decide (a < b) = true where
  irrefl a h := by simp at h
  trans a b c h₁ h₂ := by
    simp only [decide_eq_true_eq] at *
    omega
  incomp_trans a b c h₁ h₂ := by
    simp only [decide_eq_true_eq] at *
    omega

theorem hash_table_nat_run :
    (runTable id (fun a b => decide (a < b)) ⟨0, 4, fun _ => []⟩
        [.insert 3 true, .insert 3 false, .find 3, .replace 5 true, .delete 3 true, .clear]).1 =
      (runMap (fun a b => decide (a < b)) []
        [.insert 3 true, .insert 3 false, .find 3, .replace 5 true, .delete 3 true, .clear]).1 ∧
    Inv id (fun a b => decide (a < b)) (runTable id (fun a b => decide (a < b)) ⟨0, 4, fun _ => []⟩
        [.insert 3 true, .insert 3 false, .find 3, .replace 5 true, .delete 3 true, .clear]).2 ∧
    (runTable id (fun a b => decide (a < b)) ⟨0, 4, fun _ => []⟩
        [.insert 3 true, .insert 3 false, .find 3, .replace 5 true, .delete 3 true, .clear]).2.contents.Perm
      (runMap (fun a b => decide (a < b)) []
        [.insert 3 true, .insert 3 false, .find 3, .replace 5 true, .delete 3 true, .clear]).2 :=
  @hash_table_finite_map ℕ id (fun a b => decide (a < b)) natLess_strictWeakOrder _
    (fun a b h => by
      simp only [equiv, Bool.and_eq_true, Bool.not_eq_true', decide_eq_false_iff_not] at h
      simp only [id]
      omega)
    _ rfl _

end Spec

end Pintos.Hash
