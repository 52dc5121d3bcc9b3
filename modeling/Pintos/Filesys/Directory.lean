import Pintos.Filesys.InodeIo
import Mathlib.Data.List.Basic

/-! # Directories

`filesys/directory.c`. A directory is a file of `struct dir_entry` slots,
read and written whole by `inode_read_at` and `inode_write_at`: a slot is in
use or free, and holds a name of at most `NAME_MAX` bytes and the sector of a
file's inode. `lookup` scans the slots in order for one in use under the
name; `dir_add` writes into the first free slot or, when there is none, at
the end of the file, where the write moves nothing since files do not grow.

`dir_create` makes a directory a whole number of slots long, so a read of a
slot inside the file is whole and one at its end is empty (`transferLength_slot`);
here the file is the list of its slots. Names are the bytes before their NUL.
Opening the entry's inode in `dir_lookup` and `dir_remove` is taken to
succeed, and the `inode_remove` of a removed file is left out.

Over the slots, the directory is a finite map from names to sectors with a
number of free slots (`NameMap`); `Directory` carries the invariant that no
two slots in use share a name, and every run of operations on it is a run of
the map (`directory_name_map`).
-/

namespace Pintos

/-! ### Finding in an updated list -/

section FindSet

variable {α : Type*} {p : α → Bool}

/-- Replacing an element that does not match by another that does not leaves `find?` alone. -/
theorem find?_set_of_not : ∀ {l : List α} {k : ℕ} {a : α},
    (∀ h : k < l.length, p l[k] = false) → p a = false → (l.set k a).find? p = l.find? p
  | [], _, _, _, _ => rfl
  | x :: xs, 0, a, hk, ha => by
    have hx : p x = false := hk (Nat.zero_lt_succ _)
    simp [hx, ha]
  | x :: xs, k + 1, a, hk, ha => by
    have ih := find?_set_of_not (l := xs) (k := k) (fun h => hk (Nat.succ_lt_succ h)) ha
    simp only [List.set_cons_succ, List.find?_cons, ih]

/-- In a list with no match, the one element put in that matches is found. -/
theorem find?_set_of_none : ∀ {l : List α} {k : ℕ} {a : α},
    l.find? p = none → p a = true → k < l.length → (l.set k a).find? p = some a
  | [], _, _, _, _, hk => absurd hk (Nat.not_lt_zero _)
  | x :: xs, 0, a, _, ha, _ => by simp [ha]
  | x :: xs, k + 1, a, hnone, ha, hk => by
    cases hx : p x with
    | true => simp [hx] at hnone
    | false =>
      have hxs : xs.find? p = none := by simpa [hx] using hnone
      have ih := find?_set_of_none hxs ha (Nat.lt_of_succ_lt_succ hk)
      simp only [List.set_cons_succ, List.find?_cons, hx, ih]

/-- Replacing the only match by an element that does not match leaves no match. -/
theorem find?_set_of_unique {l : List α} {k : ℕ} {a : α}
    (huniq : ∀ i (hi : i < l.length), p l[i] = true → i = k) (ha : p a = false) :
    (l.set k a).find? p = none := by
  rw [List.find?_eq_none]
  intro x hx
  obtain ⟨i, hi, rfl⟩ := List.mem_iff_getElem.mp hx
  rw [List.getElem_set]
  split_ifs with hik
  · simp [ha]
  · intro hpi
    exact hik (huniq i (by simpa using hi) hpi).symm

theorem getElem_of_find?_eq_none {l : List α} (h : l.find? p = none) (i : ℕ) (hi : i < l.length) :
    p l[i] = false := by
  have := List.find?_eq_none.mp h l[i] (List.getElem_mem hi)
  simpa using this

end FindSet

/-! ### The code -/

/-- `NAME_MAX`. -/
def nameMax : ℕ := 14

/-- `sizeof (struct dir_entry)`: a sector number, `NAME_MAX + 1` name bytes and `in_use`. -/
def dirEntrySize : ℕ := 20

/-- `struct dir_entry`. -/
structure DirEntry where
  inodeSector : ℕ
  name : List UInt8
  inUse : Bool
  deriving DecidableEq, Repr

/-- The test of `lookup`: the slot is in use under `name`. -/
def DirEntry.names (e : DirEntry) (name : List UInt8) : Bool := e.inUse && name == e.name

/-- The loop of `lookup` from slot `k` (byte offset `k * sizeof e`) on: the entry and its slot. -/
def lookupFrom (name : List UInt8) : List DirEntry → ℕ → Option (DirEntry × ℕ)
  | [], _ => none
  | e :: es, k => if e.names name then some (e, k) else lookupFrom name es (k + 1)

def lookup (slots : List DirEntry) (name : List UInt8) : Option (DirEntry × ℕ) :=
  lookupFrom name slots 0

/-- `dir_lookup`: the sector of the inode it opens. -/
def dirLookup (slots : List DirEntry) (name : List UInt8) : Option ℕ :=
  (lookup slots name).map fun r => r.1.inodeSector

/-- The loop of `dir_add` that sets `ofs`: the first free slot from `k` on, or the end. -/
def freeSlotFrom : List DirEntry → ℕ → ℕ
  | [], k => k
  | e :: es, k => if !e.inUse then k else freeSlotFrom es (k + 1)

/-- `inode_write_at` of one entry at slot `k`: whole inside the file, nothing at its end. -/
def writeSlot (slots : List DirEntry) (k : ℕ) (e : DirEntry) : ℕ × List DirEntry :=
  if k < slots.length then (dirEntrySize, slots.set k e) else (0, slots)

/-- `strlcpy (dst, src, size)`: at most `size - 1` bytes of `src`. -/
def strlcpy (src : List UInt8) (size : ℕ) : List UInt8 := src.take (size - 1)

def dirAdd (slots : List DirEntry) (name : List UInt8) (inodeSector : ℕ) : Bool × List DirEntry :=
  if name = [] ∨ nameMax < name.length then (false, slots)
  else if (lookup slots name).isSome then (false, slots)
  else
    let ofs := freeSlotFrom slots 0
    let e : DirEntry := ⟨inodeSector, strlcpy name (nameMax + 1), true⟩
    let w := writeSlot slots ofs e
    (w.1 = dirEntrySize, w.2)

def dirRemove (slots : List DirEntry) (name : List UInt8) : Bool × List DirEntry :=
  match lookup slots name with
  | none => (false, slots)
  | some (e, ofs) =>
    let w := writeSlot slots ofs { e with inUse := false }
    if w.1 ≠ dirEntrySize then (false, w.2) else (true, w.2)

/-- The slots of a directory made by `dir_create`, all free. -/
def dirCreate (entryCnt : ℕ) : List DirEntry := List.replicate entryCnt ⟨0, [], false⟩

inductive DirOp
  | add (name : List UInt8) (inodeSector : ℕ)
  | remove (name : List UInt8)
  | lookup (name : List UInt8)
  deriving DecidableEq, Repr

/-- What an operation returns: `dir_add` and `dir_remove` their success, `dir_lookup` the
sector of the inode it opens. -/
inductive DirResult
  | success (ok : Bool)
  | inode (sector : Option ℕ)
  deriving DecidableEq, Repr

def dirStep (slots : List DirEntry) : DirOp → DirResult × List DirEntry
  | .add name inodeSector =>
    let r := dirAdd slots name inodeSector
    (.success r.1, r.2)
  | .remove name =>
    let r := dirRemove slots name
    (.success r.1, r.2)
  | .lookup name => (.inode (dirLookup slots name), slots)

/-- A slot read through the inode layer: whole inside a directory of `count` slots, empty
at its end. -/
theorem transferLength_slot (inode : Inode) (count k : ℕ)
    (hlen : inodeLength inode = (count * dirEntrySize : ℕ)) :
    transferLength inode dirEntrySize (k * dirEntrySize : ℕ) =
      if k < count then (dirEntrySize : ℤ) else 0 := by
  unfold transferLength dirEntrySize at *
  push_cast at *
  split_ifs <;> omega

/-! ### The directory as a map -/

/-- A name `dir_add` accepts: 1 to `NAME_MAX` bytes. -/
def ValidName (name : List UInt8) : Prop := name ≠ [] ∧ name.length ≤ nameMax

instance (name : List UInt8) : Decidable (ValidName name) := inferInstanceAs (Decidable (_ ∧ _))

/-- What a directory is for: a finite map from names to inode sectors, and room for `free`
more names. -/
@[ext]
structure NameMap where
  find : List UInt8 → Option ℕ
  free : ℕ

namespace NameMap

def step (m : NameMap) : DirOp → DirResult × NameMap
  | .add name inodeSector =>
    if ValidName name ∧ m.find name = none ∧ 0 < m.free then
      (.success true, ⟨Function.update m.find name (some inodeSector), m.free - 1⟩)
    else (.success false, m)
  | .remove name =>
    if m.find name ≠ none then (.success true, ⟨Function.update m.find name none, m.free + 1⟩)
    else (.success false, m)
  | .lookup name => (.inode (m.find name), m)

def run (m : NameMap) : List DirOp → List DirResult × NameMap
  | [] => ([], m)
  | op :: ops =>
    let r := m.step op
    let rest := r.2.run ops
    (r.1 :: rest.1, rest.2)

end NameMap

/-- The map a list of slots stands for: the sector of the first slot in use under each name,
and the number of free slots. -/
def toNameMap (slots : List DirEntry) : NameMap where
  find name := (slots.find? fun e => e.names name).map DirEntry.inodeSector
  free := slots.countP fun e => !e.inUse

/-- No two slots in use carry the same name. -/
def UniqueNames (slots : List DirEntry) : Prop :=
  ∀ i j (hi : i < slots.length) (hj : j < slots.length),
    slots[i].inUse = true → slots[j].inUse = true → slots[i].name = slots[j].name → i = j

/-- A directory whose slots in use carry distinct names. -/
structure Directory where
  slots : List DirEntry
  unique : UniqueNames slots

section Slots

variable {slots : List DirEntry} {name : List UInt8}

theorem lookupFrom_map_fst (name : List UInt8) : ∀ (slots : List DirEntry) (k : ℕ),
    (lookupFrom name slots k).map Prod.fst = slots.find? fun e => e.names name
  | [], _ => rfl
  | e :: es, k => by
    by_cases he : e.names name
    · simp [lookupFrom, he]
    · simp [lookupFrom, he, lookupFrom_map_fst name es (k + 1)]

/-- `lookup` returns a slot of the list, in use under the name. -/
theorem lookupFrom_eq_some (name : List UInt8) : ∀ {slots : List DirEntry} {k j : ℕ} {e : DirEntry},
    lookupFrom name slots k = some (e, j) →
      k ≤ j ∧ ∃ h : j - k < slots.length, slots[j - k] = e ∧ e.names name = true
  | [], _, _, _, h => by simp [lookupFrom] at h
  | x :: xs, k, j, e, h => by
    rw [lookupFrom] at h
    split_ifs at h with hx
    · cases h
      exact ⟨Nat.le_refl _, by simp, by simp, hx⟩
    · obtain ⟨hkj, hlt, hget, he⟩ := lookupFrom_eq_some name h
      have hj : j - k = (j - (k + 1)) + 1 := by omega
      refine ⟨by omega, by simp only [hj, List.length_cons]; omega, ?_, he⟩
      simp only [hj, List.getElem_cons_succ, hget]

theorem lookup_eq_some {e : DirEntry} {j : ℕ} (h : lookup slots name = some (e, j)) :
    ∃ hj : j < slots.length, slots[j] = e ∧ e.names name = true := by
  obtain ⟨-, hlt, hget, he⟩ := lookupFrom_eq_some name h
  exact ⟨by simpa using hlt, by simpa using hget, he⟩

theorem lookup_eq_none_iff : lookup slots name = none ↔ (toNameMap slots).find name = none := by
  rw [← Option.map_eq_none_iff, lookup, lookupFrom_map_fst]
  simp [toNameMap]

theorem dirLookup_eq (slots : List DirEntry) (name : List UInt8) :
    dirLookup slots name = (toNameMap slots).find name := by
  show _ = (slots.find? fun e => e.names name).map DirEntry.inodeSector
  rw [dirLookup, ← lookupFrom_map_fst name slots 0, Option.map_map]
  rfl

theorem freeSlotFrom_eq : ∀ (slots : List DirEntry) (k : ℕ),
    freeSlotFrom slots k = k + slots.findIdx fun e => !e.inUse
  | [], _ => rfl
  | e :: es, k => by
    cases he : e.inUse <;> simp [freeSlotFrom, List.findIdx_cons, he, freeSlotFrom_eq es (k + 1)]
    omega

/-- A free slot exists exactly when the map has room. -/
theorem freeSlot_lt_iff : freeSlotFrom slots 0 < slots.length ↔ 0 < (toNameMap slots).free := by
  rw [freeSlotFrom_eq, Nat.zero_add, List.findIdx_lt_length, toNameMap, List.countP_pos_iff]

theorem strlcpy_of_valid (h : ValidName name) : strlcpy name (nameMax + 1) = name := by
  unfold strlcpy
  exact List.take_of_length_le h.2

end Slots

section Updates

variable {slots : List DirEntry} {name : List UInt8} {k : ℕ}

/-- An entry written into a free slot under an absent name adds that name to the map. -/
theorem toNameMap_set_of_free (hk : k < slots.length) (hfree : slots[k].inUse = false)
    (habsent : (toNameMap slots).find name = none) (inodeSector : ℕ) :
    toNameMap (slots.set k ⟨inodeSector, name, true⟩) =
      ⟨Function.update (toNameMap slots).find name (some inodeSector), (toNameMap slots).free - 1⟩ := by
  have hnone : (slots.find? fun e => e.names name) = none := by
    simpa [toNameMap] using habsent
  ext1
  · funext name'
    by_cases hn : name' = name
    · subst hn
      simp only [toNameMap, Function.update_self]
      rw [find?_set_of_none hnone (by simp [DirEntry.names]) hk]
      rfl
    · dsimp only
      rw [Function.update_of_ne hn]
      simp only [toNameMap]
      rw [find?_set_of_not (fun _ => by simp [DirEntry.names, hfree]) (by simp [DirEntry.names, hn])]
  · simp only [toNameMap]
    rw [List.countP_set hk]
    simp [hfree]

/-- Clearing the slot in use under a name removes that name from the map. -/
theorem toNameMap_set_cleared (hu : UniqueNames slots) (hk : k < slots.length)
    (hnames : slots[k].names name = true) :
    toNameMap (slots.set k { slots[k] with inUse := false }) =
      ⟨Function.update (toNameMap slots).find name none, (toNameMap slots).free + 1⟩ := by
  obtain ⟨hin, hname⟩ : slots[k].inUse = true ∧ name = slots[k].name := by
    simpa [DirEntry.names] using hnames
  ext1
  · funext name'
    by_cases hn : name' = name
    · subst hn
      simp only [toNameMap, Function.update_self]
      -- the slot is the only one in use under the name
      have huniq : ∀ i (hi : i < slots.length), slots[i].names name' = true → i = k := by
        intro i hi hinames
        simp only [DirEntry.names, Bool.and_eq_true, beq_iff_eq] at hinames
        exact hu i k hi hk hinames.1 hin (hinames.2.symm.trans hname)
      rw [find?_set_of_unique huniq (by simp [DirEntry.names])]
      rfl
    · dsimp only
      rw [Function.update_of_ne hn]
      simp only [toNameMap]
      have hk' : slots[k].names name' = false := by
        simp [DirEntry.names, ← hname, hn]
      rw [find?_set_of_not (fun _ => hk') (by simp [DirEntry.names])]
  · simp only [toNameMap]
    rw [List.countP_set hk]
    simp [hin]

theorem uniqueNames_set_of_absent (hu : UniqueNames slots)
    (habsent : (toNameMap slots).find name = none) (inodeSector : ℕ) :
    UniqueNames (slots.set k ⟨inodeSector, name, true⟩) := by
  have hnone : (slots.find? fun e => e.names name) = none := by
    simpa [toNameMap] using habsent
  intro i j hi hj hiu hju hij
  simp only [List.length_set] at hi hj
  simp only [List.getElem_set] at hiu hju hij
  -- a slot other than `k` in use under the new name would have been found
  have hother : ∀ l (hl : l < slots.length), slots[l].inUse = true → slots[l].name ≠ name := by
    intro l hl hlu hln
    have := getElem_of_find?_eq_none hnone l hl
    simp [DirEntry.names, hlu, hln] at this
  split_ifs at hiu hju hij with hki hkj hkj
  · omega
  · exact absurd hij.symm (hother j hj hju)
  · exact absurd hij (hother i hi hiu)
  · exact hu i j hi hj hiu hju hij

theorem uniqueNames_set_cleared (hu : UniqueNames slots) (hk : k < slots.length) :
    UniqueNames (slots.set k { slots[k] with inUse := false }) := by
  intro i j hi hj hiu hju hij
  simp only [List.length_set] at hi hj
  simp only [List.getElem_set] at hiu hju hij
  -- the cleared slot is in use no more
  split_ifs at hiu hju hij
  exact hu i j hi hj hiu hju hij

end Updates

section Steps

variable {slots : List DirEntry}

theorem validName_iff (name : List UInt8) :
    ValidName name ↔ ¬(name = [] ∨ nameMax < name.length) := by
  simp only [ValidName, not_or, Nat.not_lt, ne_eq]

/-- The first free slot, when there is one. -/
theorem freeSlot_free (h : freeSlotFrom slots 0 < slots.length) :
    slots[freeSlotFrom slots 0].inUse = false := by
  have hidx : freeSlotFrom slots 0 = slots.findIdx fun e => !e.inUse := by
    rw [freeSlotFrom_eq, Nat.zero_add]
  have hfound := List.findIdx_getElem (p := fun e : DirEntry => !e.inUse) (w := hidx ▸ h)
  simp only [hidx]
  simpa using hfound

/-- What `dir_add` can do: fail and leave the slots alone, or put the entry into a free slot,
for a valid name not in the map. -/
theorem dirAdd_cases (slots : List DirEntry) (name : List UInt8) (inodeSector : ℕ) :
    (¬(ValidName name ∧ (toNameMap slots).find name = none ∧ 0 < (toNameMap slots).free) ∧
        dirAdd slots name inodeSector = (false, slots)) ∨
      (ValidName name ∧ (toNameMap slots).find name = none ∧
        ∃ (k : ℕ) (hk : k < slots.length), slots[k].inUse = false ∧
          dirAdd slots name inodeSector = (true, slots.set k ⟨inodeSector, name, true⟩)) := by
  by_cases hbad : name = [] ∨ nameMax < name.length
  · -- `*name == '\0' || strlen (name) > NAME_MAX`
    have hinvalid : ¬ValidName name := fun h => (validName_iff name).mp h hbad
    exact .inl ⟨fun h => hinvalid h.1, by rw [dirAdd, if_pos hbad]⟩
  have hvalid : ValidName name := (validName_iff name).mpr hbad
  by_cases hpresent : (lookup slots name).isSome
  · have hfind : (toNameMap slots).find name ≠ none := by
      rw [Ne, ← lookup_eq_none_iff, ← Option.not_isSome_iff_eq_none, not_not]
      exact hpresent
    exact .inl ⟨fun h => hfind h.2.1, by rw [dirAdd, if_neg hbad, if_pos hpresent]⟩
  have hfind : (toNameMap slots).find name = none := by
    rw [← lookup_eq_none_iff, ← Option.not_isSome_iff_eq_none]
    exact hpresent
  by_cases hfree : freeSlotFrom slots 0 < slots.length
  · refine .inr ⟨hvalid, hfind, _, hfree, freeSlot_free hfree, ?_⟩
    simp [dirAdd, hbad, hpresent, writeSlot, hfree, strlcpy_of_valid hvalid]
  · -- no free slot: the write at the end of the file moves nothing
    have hroom : ¬0 < (toNameMap slots).free := fun h => hfree (freeSlot_lt_iff.mpr h)
    refine .inl ⟨fun h => hroom h.2.2, ?_⟩
    simp [dirAdd, hbad, hpresent, writeSlot, hfree, dirEntrySize]

/-- What `dir_remove` can do: fail for a name not in the map, or free the slot in use under
it. -/
theorem dirRemove_cases (slots : List DirEntry) (name : List UInt8) :
    ((toNameMap slots).find name = none ∧ dirRemove slots name = (false, slots)) ∨
      ∃ (k : ℕ) (hk : k < slots.length), slots[k].names name = true ∧
        dirRemove slots name = (true, slots.set k { slots[k] with inUse := false }) := by
  unfold dirRemove
  rcases hl : lookup slots name with _ | ⟨e, j⟩
  · exact .inl ⟨lookup_eq_none_iff.mp hl, rfl⟩
  · obtain ⟨hj, rfl, hnames⟩ := lookup_eq_some hl
    exact .inr ⟨j, hj, hnames, by simp [writeSlot, hj]⟩

theorem find_ne_none_of_names {k : ℕ} (hk : k < slots.length) {name : List UInt8}
    (hnames : slots[k].names name = true) : (toNameMap slots).find name ≠ none := by
  simp only [toNameMap, ne_eq, Option.map_eq_none_iff, List.find?_eq_none, not_forall]
  exact ⟨slots[k], List.getElem_mem hk, by simp [hnames]⟩

theorem dirAdd_toNameMap (name : List UInt8) (inodeSector : ℕ) :
    (DirResult.success (dirAdd slots name inodeSector).1, toNameMap (dirAdd slots name inodeSector).2) =
      (toNameMap slots).step (.add name inodeSector) := by
  rcases dirAdd_cases slots name inodeSector with ⟨hno, heq⟩ | ⟨hvalid, hfind, k, hk, hfree, heq⟩
  · rw [heq, NameMap.step, if_neg hno]
  · have hroom : 0 < (toNameMap slots).free :=
      List.countP_pos_iff.mpr ⟨slots[k], List.getElem_mem hk, by simp [hfree]⟩
    rw [heq, NameMap.step, if_pos ⟨hvalid, hfind, hroom⟩, toNameMap_set_of_free hk hfree hfind]

theorem dirRemove_toNameMap (hu : UniqueNames slots) (name : List UInt8) :
    (DirResult.success (dirRemove slots name).1, toNameMap (dirRemove slots name).2) =
      (toNameMap slots).step (.remove name) := by
  rcases dirRemove_cases slots name with ⟨hfind, heq⟩ | ⟨k, hk, hnames, heq⟩
  · rw [heq, NameMap.step, if_neg (not_not.mpr hfind)]
  · rw [heq, NameMap.step, if_pos (find_ne_none_of_names hk hnames), toNameMap_set_cleared hu hk hnames]

theorem uniqueNames_dirStep (hu : UniqueNames slots) : ∀ op : DirOp, UniqueNames (dirStep slots op).2
  | .add name inodeSector => by
    rcases dirAdd_cases slots name inodeSector with ⟨-, heq⟩ | ⟨-, hfind, k, -, -, heq⟩
    · simpa only [dirStep, heq] using hu
    · simpa only [dirStep, heq] using uniqueNames_set_of_absent (k := k) hu hfind inodeSector
  | .remove name => by
    rcases dirRemove_cases slots name with ⟨-, heq⟩ | ⟨k, hk, -, heq⟩
    · simpa only [dirStep, heq] using hu
    · simpa only [dirStep, heq] using uniqueNames_set_cleared hu hk
  | .lookup _ => hu

end Steps

namespace Directory

def step (d : Directory) (op : DirOp) : DirResult × Directory :=
  ((dirStep d.slots op).1, ⟨(dirStep d.slots op).2, uniqueNames_dirStep d.unique op⟩)

/-- `dir_add` on a directory: its success and the directory after it. -/
def add (d : Directory) (name : List UInt8) (inodeSector : ℕ) : Bool × Directory :=
  ((dirAdd d.slots name inodeSector).1,
    ⟨(dirAdd d.slots name inodeSector).2, uniqueNames_dirStep d.unique (.add name inodeSector)⟩)

def run (d : Directory) : List DirOp → List DirResult × Directory
  | [] => ([], d)
  | op :: ops =>
    let r := d.step op
    let rest := r.2.run ops
    (r.1 :: rest.1, rest.2)

/-- The directory `dir_create` makes: every slot free, so no name is mapped. -/
def create (entryCnt : ℕ) : Directory where
  slots := dirCreate entryCnt
  unique := by
    intro i _ hi _ hiu
    simp [dirCreate] at hiu

theorem toNameMap_create (entryCnt : ℕ) :
    toNameMap (create entryCnt).slots = ⟨fun _ => none, entryCnt⟩ := by
  ext1
  · funext name
    simp [toNameMap, create, dirCreate, DirEntry.names]
  · simp [toNameMap, create, dirCreate, List.countP_replicate]

/-- A step of the directory is a step of its map. -/
theorem step_toNameMap (d : Directory) (op : DirOp) :
    ((d.step op).1, toNameMap (d.step op).2.slots) = (toNameMap d.slots).step op := by
  cases op with
  | add name inodeSector => exact dirAdd_toNameMap name inodeSector
  | remove name => exact dirRemove_toNameMap d.unique name
  | lookup name => simp [step, dirStep, NameMap.step, dirLookup_eq]

end Directory

/-- Every run of `dir_add`, `dir_remove` and `dir_lookup` on a directory is a run of the map it
stands for, and keeps the names of the slots in use distinct. -/
theorem directory_name_map (d : Directory) (ops : List DirOp) :
    ((d.run ops).1, toNameMap (d.run ops).2.slots) = (toNameMap d.slots).run ops ∧
      UniqueNames (d.run ops).2.slots := by
  refine ⟨?_, (d.run ops).2.unique⟩
  -- induction on the operations, one step of the map at a time
  induction ops generalizing d with
  | nil => rfl
  | cons op ops ih =>
    rw [Directory.run, NameMap.run, ← Directory.step_toNameMap d op, ← ih (d.step op).2]

end Pintos
