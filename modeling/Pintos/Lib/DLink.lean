import Mathlib.Data.List.Chain
import Mathlib.Data.List.Infix
import Mathlib.Data.List.Nodup
import Mathlib.Logic.Function.Basic

/-! # Doubly linked cells in a heap

A heap maps addresses to cells with a `prev` and a `next` link, either of
which may be null. A doubly linked list between two sentinel cells is the
sequence of cells from the head sentinel to the tail sentinel in which each
cell's `next` is the following cell and the following cell's `prev` is it,
the sentinels' outer links are null, and no cell occurs twice (`DList`).

A chain reads the `next` of each cell but its last and the `prev` of each cell
but its first, and stays a chain in any heap that agrees on those links
(`chain_of_links`). Putting a chain between two cells of another and taking
one out are the writes of four and of two links (`chain_insert`,
`chain_remove`). Swapping every cell's two links reverses every chain
(`isChain_mirror`).
-/

namespace DLink

/-- A cell: the links to the previous and to the next cell. -/
structure Link (α : Type*) where
  prev : Option α
  next : Option α
  deriving DecidableEq, Repr

/-- The cells, by address. -/
abbrev Heap (α : Type*) := α → Link α

variable {α : Type*}

/-- Every cell with its two links swapped. -/
def mirror (h : Heap α) : Heap α := fun q => ⟨(h q).next, (h q).prev⟩

/-- `a` is followed by `b`, and `b` preceded by `a`. -/
def Linked (h : Heap α) (a b : α) : Prop := (h a).next = some b ∧ (h b).prev = some a

theorem linked_mirror {h : Heap α} {a b : α} : Linked (mirror h) a b ↔ Linked h b a := by
  simp only [Linked, mirror]
  exact and_comm

section Writes

variable [DecidableEq α]

def setPrev (h : Heap α) (p : α) (v : Option α) : Heap α := Function.update h p { h p with prev := v }

def setNext (h : Heap α) (p : α) (v : Option α) : Heap α := Function.update h p { h p with next := v }

variable {h : Heap α} {p q : α} {v : Option α}

@[simp] theorem prev_setPrev : (setPrev h p v q).prev = if q = p then v else (h q).prev := by
  by_cases hq : q = p
  · subst hq
    simp [setPrev]
  · simp [setPrev, hq]

@[simp] theorem next_setPrev : (setPrev h p v q).next = (h q).next := by
  by_cases hq : q = p
  · subst hq
    simp [setPrev]
  · simp [setPrev, hq]

@[simp] theorem prev_setNext : (setNext h p v q).prev = (h q).prev := by
  by_cases hq : q = p
  · subst hq
    simp [setNext]
  · simp [setNext, hq]

@[simp] theorem next_setNext : (setNext h p v q).next = if q = p then v else (h q).next := by
  by_cases hq : q = p
  · subst hq
    simp [setNext]
  · simp [setNext, hq]

theorem setPrev_of_ne (hq : q ≠ p) : setPrev h p v q = h q := Function.update_of_ne hq _ _

theorem setNext_of_ne (hq : q ≠ p) : setNext h p v q = h q := Function.update_of_ne hq _ _

end Writes

section Chain

variable {l : List α}

theorem getLast_not_mem_dropLast (hnd : l.Nodup) (hl : l ≠ []) : l.getLast hl ∉ l.dropLast := by
  rw [← List.dropLast_append_getLast hl] at hnd
  exact fun hm => List.disjoint_of_nodup_append hnd hm (List.mem_singleton_self _)

theorem head_not_mem_tail (hnd : l.Nodup) (hl : l ≠ []) : l.head hl ∉ l.tail := by
  obtain ⟨a, t, rfl⟩ := List.exists_cons_of_ne_nil hl
  exact (List.nodup_cons.mp hnd).1

/-- Two chains joined by a link from the last cell of the first to the first of the second. -/
theorem isChain_join {R : α → α → Prop} {l₁ l₂ : List α} (hl₁ : l₁ ≠ []) (hl₂ : l₂ ≠ [])
    (h₁ : l₁.IsChain R) (h₂ : l₂.IsChain R) (h : R (l₁.getLast hl₁) (l₂.head hl₂)) :
    (l₁ ++ l₂).IsChain R := by
  refine h₁.append h₂ fun x hx y hy => ?_
  rw [List.getLast?_eq_some_getLast hl₁] at hx
  rw [List.head?_eq_some_head hl₂] at hy
  obtain rfl := Option.mem_some_iff.mp hx
  obtain rfl := Option.mem_some_iff.mp hy
  exact h

/-- A chain carried over to a heap that agrees on the links it reads: the `next` of each cell
but the last and the `prev` of each cell but the first. -/
theorem chain_of_links {h h' : Heap α} (hc : l.IsChain (Linked h))
    (hn : ∀ a ∈ l.dropLast, (h' a).next = (h a).next)
    (hp : ∀ b ∈ l.tail, (h' b).prev = (h b).prev) : l.IsChain (Linked h') := by
  induction hc with
  | nil => exact .nil
  | singleton a => exact .singleton a
  | @cons_cons a b l hab _ ih =>
    have hna : (h' a).next = some b := by rw [hn a (by simp), hab.1]
    have hpb : (h' b).prev = some a := by rw [hp b (by simp), hab.2]
    refine .cons_cons ⟨hna, hpb⟩ (ih (fun x hx => hn x ?_) (fun y hy => hp y ?_))
    · rw [List.dropLast_cons_cons]
      exact List.mem_cons_of_mem a hx
    · exact List.mem_of_mem_tail hy

/-- Writes to a cell off the chain leave it. -/
theorem chain_of_agree {h h' : Heap α} (hc : l.IsChain (Linked h)) (he : ∀ q ∈ l, h' q = h q) :
    l.IsChain (Linked h') :=
  chain_of_links hc (fun a ha => by rw [he a (List.mem_of_mem_dropLast ha)])
    (fun b hb => by rw [he b (List.mem_of_mem_tail hb)])

/-- In a chain, a cell with a cell after it has that cell as its `next`. -/
theorem next_of_chain {h : Heap α} {l₁ l₂ : List α} {x : α}
    (hc : (l₁ ++ x :: l₂).IsChain (Linked h)) (hl : l₂ ≠ []) :
    (h x).next = some (l₂.head hl) := by
  rw [← List.singleton_append, ← List.append_assoc] at hc
  simpa using (hc.rel_getLast_head_of_append (by simp) hl).1

theorem isChain_mirror {h : Heap α} : l.reverse.IsChain (Linked (mirror h)) ↔ l.IsChain (Linked h) := by
  rw [List.isChain_reverse]
  exact List.IsChain.iff fun _ _ => linked_mirror

variable [DecidableEq α]

/-- The chain `rs` put between the last cell of `l₁` and the first cell of `l₂`: the heap `h'`
differs from `h` in the outer links of the ends of `rs` and the two links that now point at
them. -/
theorem chain_insert {h h' : Heap α} {l₁ rs l₂ : List α} (hl₁ : l₁ ≠ []) (hr : rs ≠ [])
    (hl₂ : l₂ ≠ []) (hc₁ : l₁.IsChain (Linked h)) (hcr : rs.IsChain (Linked h))
    (hc₂ : l₂.IsChain (Linked h)) (hnd : (l₁ ++ rs ++ l₂).Nodup)
    (hn : ∀ q, (h' q).next = if q = l₁.getLast hl₁ then some (rs.head hr)
      else if q = rs.getLast hr then some (l₂.head hl₂) else (h q).next)
    (hp : ∀ q, (h' q).prev = if q = l₂.head hl₂ then some (rs.getLast hr)
      else if q = rs.head hr then some (l₁.getLast hl₁) else (h q).prev) :
    (l₁ ++ rs ++ l₂).IsChain (Linked h') := by
  obtain ⟨hnd', hnd₂, hdisj⟩ := List.nodup_append.mp hnd
  obtain ⟨hnd₁, hndr, h₁r⟩ := List.nodup_append.mp hnd'
  have h₁₂ : ∀ a ∈ l₁, ∀ b ∈ l₂, a ≠ b := fun a ha => hdisj a (List.mem_append_left _ ha)
  have hr₂ : ∀ a ∈ rs, ∀ b ∈ l₂, a ≠ b := fun a ha => hdisj a (List.mem_append_right _ ha)
  have hp₁ := List.getLast_mem hl₁
  have hc := List.head_mem hl₂
  have hr₀ := List.head_mem hr
  have hr₁ := List.getLast_mem hr
  have hlink₁ : Linked h' (l₁.getLast hl₁) (rs.head hr) :=
    ⟨by rw [hn, if_pos rfl], by rw [hp, if_neg (hr₂ _ hr₀ _ hc), if_pos rfl]⟩
  have hlink₂ : Linked h' (rs.getLast hr) (l₂.head hl₂) :=
    ⟨by rw [hn, if_neg (h₁r _ hp₁ _ hr₁).symm, if_pos rfl], by rw [hp, if_pos rfl]⟩
  refine isChain_join (by simp [hl₁]) hl₂
    (isChain_join hl₁ hr (chain_of_links hc₁ (fun a ha => ?_) (fun b hb => ?_))
      (chain_of_links hcr (fun a ha => ?_) (fun b hb => ?_)) hlink₁)
    (chain_of_links hc₂ (fun a ha => ?_) (fun b hb => ?_)) (by simpa [hr] using hlink₂)
  -- in each piece, the links it reads are none of the four written
  · have ha₁ := List.mem_of_mem_dropLast ha
    rw [hn, if_neg (ne_of_mem_of_not_mem ha (getLast_not_mem_dropLast hnd₁ hl₁)),
      if_neg (h₁r a ha₁ _ hr₁)]
  · have hb₁ := List.mem_of_mem_tail hb
    rw [hp, if_neg (h₁₂ b hb₁ _ hc), if_neg (h₁r b hb₁ _ hr₀)]
  · have ha₁ := List.mem_of_mem_dropLast ha
    rw [hn, if_neg (h₁r _ hp₁ a ha₁).symm,
      if_neg (ne_of_mem_of_not_mem ha (getLast_not_mem_dropLast hndr hr))]
  · have hb₁ := List.mem_of_mem_tail hb
    rw [hp, if_neg (hr₂ b hb₁ _ hc), if_neg (ne_of_mem_of_not_mem hb (head_not_mem_tail hndr hr))]
  · have ha₁ := List.mem_of_mem_dropLast ha
    rw [hn, if_neg (h₁₂ _ hp₁ a ha₁).symm, if_neg (hr₂ _ hr₁ a ha₁).symm]
  · rw [hp, if_neg (ne_of_mem_of_not_mem hb (head_not_mem_tail hnd₂ hl₂)),
      if_neg (hr₂ _ hr₀ b (List.mem_of_mem_tail hb)).symm]

/-- The cells `rs` taken out from between the last cell of `l₁` and the first cell of `l₂`: the
heap `h'` differs from `h` in the two links that pointed at the ends of `rs`. -/
theorem chain_remove {h h' : Heap α} {l₁ rs l₂ : List α} (hl₁ : l₁ ≠ []) (hl₂ : l₂ ≠ [])
    (hc : (l₁ ++ rs ++ l₂).IsChain (Linked h)) (hnd : (l₁ ++ rs ++ l₂).Nodup)
    (hn : ∀ q, (h' q).next = if q = l₁.getLast hl₁ then some (l₂.head hl₂) else (h q).next)
    (hp : ∀ q, (h' q).prev = if q = l₂.head hl₂ then some (l₁.getLast hl₁) else (h q).prev) :
    (l₁ ++ l₂).IsChain (Linked h') := by
  obtain ⟨hnd', hnd₂, hdisj⟩ := List.nodup_append.mp hnd
  have hnd₁ := (List.nodup_append.mp hnd').1
  have h₁₂ : ∀ a ∈ l₁, ∀ b ∈ l₂, a ≠ b := fun a ha => hdisj a (List.mem_append_left _ ha)
  refine isChain_join hl₁ hl₂
    (chain_of_links hc.left_of_append.left_of_append (fun a ha => ?_) (fun b hb => ?_))
    (chain_of_links hc.right_of_append (fun a ha => ?_) (fun b hb => ?_))
    ⟨by rw [hn, if_pos rfl], by rw [hp, if_pos rfl]⟩
  -- in each piece, the links it reads are neither of the two written
  · rw [hn, if_neg (ne_of_mem_of_not_mem ha (getLast_not_mem_dropLast hnd₁ hl₁))]
  · rw [hp, if_neg (h₁₂ b (List.mem_of_mem_tail hb) _ (List.head_mem hl₂))]
  · rw [hn, if_neg (h₁₂ _ (List.getLast_mem hl₁) a (List.mem_of_mem_dropLast ha)).symm]
  · rw [hp, if_neg (ne_of_mem_of_not_mem hb (head_not_mem_tail hnd₂ hl₂))]

end Chain

/-- The cells `hd`, `xs` and `tl` in order form a doubly linked list with sentinels `hd` and
`tl`. -/
structure DList (h : Heap α) (hd tl : α) (xs : List α) : Prop where
  chain : (hd :: xs ++ [tl]).IsChain (Linked h)
  head_prev : (h hd).prev = none
  tail_next : (h tl).next = none
  nodup : (hd :: xs ++ [tl]).Nodup

/-- A list stays a list in a heap that agrees on its cells. -/
theorem DList.of_agree {h h' : Heap α} {hd tl : α} {xs : List α} (hl : DList h hd tl xs)
    (he : ∀ q ∈ hd :: xs ++ [tl], h' q = h q) : DList h' hd tl xs where
  chain := chain_of_agree hl.chain he
  head_prev := by rw [he hd (by simp)]; exact hl.head_prev
  tail_next := by rw [he tl (by simp)]; exact hl.tail_next
  nodup := hl.nodup

/-- The writes from `h` to `h'` are all to the cells `cs`. -/
def Within (cs : List α) (h h' : Heap α) : Prop := ∀ q ∉ cs, h' q = h q

theorem Within.refl (cs : List α) (h : Heap α) : Within cs h h := fun _ _ => rfl

theorem Within.trans {cs : List α} {h h' h'' : Heap α} (h₁ : Within cs h h')
    (h₂ : Within cs h' h'') : Within cs h h'' := fun q hq => (h₂ q hq).trans (h₁ q hq)

theorem Within.mono {cs cs' : List α} {h h' : Heap α} (hw : Within cs h h') (hs : cs ⊆ cs') :
    Within cs' h h' := fun q hq => hw q fun h => hq (hs h)

theorem Within.append {cs cs' : List α} {h h' h'' : Heap α} (h₁ : Within cs h h')
    (h₂ : Within cs' h' h'') : Within (cs ++ cs') h h'' := fun q hq =>
  (h₂ q fun h => hq (List.mem_append_right _ h)).trans (h₁ q fun h => hq (List.mem_append_left _ h))

theorem within_setPrev [DecidableEq α] (h : Heap α) (p : α) (v : Option α) :
    Within [p] h (setPrev h p v) := fun _ hq => setPrev_of_ne fun h => hq (h ▸ List.mem_singleton_self _)

theorem within_setNext [DecidableEq α] (h : Heap α) (p : α) (v : Option α) :
    Within [p] h (setNext h p v) := fun _ hq => setNext_of_ne fun h => hq (h ▸ List.mem_singleton_self _)

/-- A list none of whose cells is written stays a list. -/
theorem DList.of_within {h h' : Heap α} {hd tl : α} {xs cs : List α} (hl : DList h hd tl xs)
    (hw : Within cs h h') (hoff : ∀ q ∈ hd :: xs ++ [tl], q ∉ cs) : DList h' hd tl xs :=
  hl.of_agree fun q hq => hw q (hoff q hq)

/-- A list split after its cells `ys`: the last of the head and `ys` is linked to the first of
the rest and the tail. -/
theorem DList.linked_split {h : Heap α} {hd tl : α} {ys zs : List α}
    (hl : DList h hd tl (ys ++ zs)) :
    Linked h ((hd :: ys).getLast (List.cons_ne_nil _ _)) ((zs ++ [tl]).head (by simp)) := by
  have hc := hl.chain
  rw [show hd :: (ys ++ zs) ++ [tl] = (hd :: ys) ++ (zs ++ [tl]) by simp] at hc
  exact hc.rel_getLast_head_of_append _ _

/-- An element's `next` is the first of the rest and the tail. -/
theorem DList.next_of_split {h : Heap α} {hd tl e : α} {ys zs : List α}
    (hl : DList h hd tl (ys ++ e :: zs)) : (h e).next = some ((zs ++ [tl]).head (by simp)) := by
  have hl' : DList h hd tl ((ys ++ [e]) ++ zs) := by simpa using hl
  simpa using hl'.linked_split.1

/-- The head's `next` is the first element, or the tail. -/
theorem DList.head_next {h : Heap α} {hd tl : α} {xs : List α} (hl : DList h hd tl xs) :
    (h hd).next = some ((xs ++ [tl]).head (by simp)) :=
  (show DList h hd tl ([] ++ xs) from hl).linked_split.1

/-- The `next` links fix the cells between two cells: a chain from `hd` that meets `tl` only
at its end is the only one. -/
theorem eq_of_chain {h : Heap α} {tl : α} : ∀ {hd : α} {xs ys : List α},
    (hd :: xs ++ [tl]).IsChain (Linked h) → tl ∉ xs →
    (hd :: ys ++ [tl]).IsChain (Linked h) → tl ∉ ys → xs = ys
  | _, [], [], _, _, _, _ => rfl
  | _, [], y :: _, hx, _, hy, hty => by
    have h₁ : (h _).next = some tl := (List.isChain_cons_cons.mp hx).1.1
    have h₂ : (h _).next = some y := (List.isChain_cons_cons.mp hy).1.1
    rw [h₁, Option.some.injEq] at h₂
    exact absurd (h₂ ▸ List.mem_cons_self) hty
  | _, x :: _, [], hx, htx, hy, _ => by
    have h₁ : (h _).next = some x := (List.isChain_cons_cons.mp hx).1.1
    have h₂ : (h _).next = some tl := (List.isChain_cons_cons.mp hy).1.1
    rw [h₁, Option.some.injEq] at h₂
    exact absurd (h₂ ▸ List.mem_cons_self) htx
  | _, x :: xs, y :: ys, hx, htx, hy, hty => by
    have hx' := List.isChain_cons_cons.mp hx
    have hy' := List.isChain_cons_cons.mp hy
    have hxy : x = y := Option.some.inj (hx'.1.1.symm.trans hy'.1.1)
    subst hxy
    rw [eq_of_chain hx'.2 (fun h' => htx (List.mem_cons_of_mem x h')) hy'.2
      (fun h' => hty (List.mem_cons_of_mem x h'))]

/-- A heap holds one list between two cells. -/
theorem DList.unique {h : Heap α} {hd tl : α} {xs ys : List α} (hx : DList h hd tl xs)
    (hy : DList h hd tl ys) : xs = ys := by
  have htl : ∀ {zs : List α}, (hd :: zs ++ [tl]).Nodup → tl ∉ zs := fun hnd hz =>
    (List.nodup_append.mp (List.nodup_cons.mp hnd).2).2.2 tl hz tl (List.mem_singleton_self _) rfl
  exact eq_of_chain hx.chain (htl hx.nodup) hy.chain (htl hy.nodup)

section Ranges

variable [DecidableEq α] {h h' : Heap α} {hd tl : α}

/-- The chain `rs` from outside put into a list between its cells `ys` and the rest `zs`. -/
theorem DList.insert_range {ys rs zs : List α} (hl : DList h hd tl (ys ++ zs)) (hr : rs ≠ [])
    (hcr : rs.IsChain (Linked h)) (hnd : (hd :: (ys ++ rs ++ zs) ++ [tl]).Nodup)
    (hn : ∀ q, (h' q).next = if q = (hd :: ys).getLast (List.cons_ne_nil _ _) then some (rs.head hr)
      else if q = rs.getLast hr then some ((zs ++ [tl]).head (by simp)) else (h q).next)
    (hp : ∀ q, (h' q).prev = if q = (zs ++ [tl]).head (by simp) then some (rs.getLast hr)
      else if q = rs.head hr then some ((hd :: ys).getLast (List.cons_ne_nil _ _)) else (h q).prev) :
    DList h' hd tl (ys ++ rs ++ zs) := by
  have hcells : hd :: (ys ++ zs) ++ [tl] = (hd :: ys) ++ (zs ++ [tl]) := by simp
  have hcells' : hd :: (ys ++ rs ++ zs) ++ [tl] = (hd :: ys) ++ rs ++ (zs ++ [tl]) := by simp
  have hc := hl.chain
  have hnd₀ := hnd
  rw [hcells] at hc
  rw [hcells'] at hnd₀
  obtain ⟨hnd', -, hdisj⟩ := List.nodup_append.mp hnd₀
  have h₁r := (List.nodup_append.mp hnd').2.2
  have hhd : hd ∈ hd :: ys := List.mem_cons_self
  have htl : tl ∈ zs ++ [tl] := by simp
  refine ⟨hcells' ▸ chain_insert (List.cons_ne_nil _ _) hr (by simp) hc.left_of_append hcr
    hc.right_of_append hnd₀ hn hp, ?_, ?_, hnd⟩
  · -- the head is neither of the two cells whose `prev` is written
    rw [hp, if_neg (hdisj hd (List.mem_append_left _ hhd) _ (List.head_mem _)),
      if_neg (h₁r hd hhd _ (List.head_mem hr)), hl.head_prev]
  · -- the tail is neither of the two cells whose `next` is written
    rw [hn, if_neg (hdisj _ (List.mem_append_left _ (List.getLast_mem _)) tl htl).symm,
      if_neg (hdisj _ (List.mem_append_right _ (List.getLast_mem hr)) tl htl).symm, hl.tail_next]

/-- The cells `rs` taken out of a list from between its cells `ys` and the rest `zs`. -/
theorem DList.remove_range {ys rs zs : List α} (hl : DList h hd tl (ys ++ rs ++ zs))
    (hn : ∀ q, (h' q).next = if q = (hd :: ys).getLast (List.cons_ne_nil _ _)
      then some ((zs ++ [tl]).head (by simp)) else (h q).next)
    (hp : ∀ q, (h' q).prev = if q = (zs ++ [tl]).head (by simp)
      then some ((hd :: ys).getLast (List.cons_ne_nil _ _)) else (h q).prev) :
    DList h' hd tl (ys ++ zs) := by
  have hcells : hd :: (ys ++ rs ++ zs) ++ [tl] = (hd :: ys) ++ rs ++ (zs ++ [tl]) := by simp
  have hcells' : hd :: (ys ++ zs) ++ [tl] = (hd :: ys) ++ (zs ++ [tl]) := by simp
  have hc := hl.chain
  have hnd := hl.nodup
  rw [hcells] at hc hnd
  have hnd' : ((hd :: ys) ++ (zs ++ [tl])).Nodup :=
    hnd.sublist ((List.sublist_append_left _ rs).append (List.Sublist.refl _))
  have hdisj := (List.nodup_append.mp hnd').2.2
  refine ⟨hcells' ▸ chain_remove (List.cons_ne_nil _ _) (by simp) hc hnd hn hp, ?_, ?_,
    hcells' ▸ hnd'⟩
  · rw [hp, if_neg (hdisj hd List.mem_cons_self _ (List.head_mem _)), hl.head_prev]
  · rw [hn, if_neg (hdisj _ (List.getLast_mem _) tl (by simp)).symm, hl.tail_next]

/-- A list read backwards: `h₁` has the two links of each of its elements swapped, and `h'`
turns the links at its two ends around. -/
theorem DList.reverse {xs : List α} {h₁ : Heap α} (hl : DList h hd tl xs) (hx : xs ≠ [])
    (h₁e : ∀ q, h₁ q = if q ∈ xs then mirror h q else h q)
    (hn : ∀ q, (h' q).next = if q = hd then some (xs.getLast hx)
      else if q = xs.head hx then some tl else (h₁ q).next)
    (hp : ∀ q, (h' q).prev = if q = tl then some (xs.head hx)
      else if q = xs.getLast hx then some hd else (h₁ q).prev) :
    DList h' hd tl xs.reverse := by
  have hnd : (hd :: xs.reverse ++ [tl]).Nodup :=
    (((List.reverse_perm xs).cons hd).append_right [tl]).nodup_iff.mpr hl.nodup
  obtain ⟨hnd₁, -, hdisj⟩ := List.nodup_append.mp hnd
  have hhd : hd ∉ xs := by simpa using (List.nodup_cons.mp hnd₁).1
  have htl : tl ∉ xs := fun h' => hdisj tl (by simp [h']) tl (List.mem_singleton_self _) rfl
  -- the elements, mirrored, form the reversed chain
  have hcr : xs.reverse.IsChain (Linked h₁) := by
    refine chain_of_agree ((isChain_mirror (h := h)).mpr ?_) fun q hq => ?_
    · exact ((List.isChain_cons.mp hl.chain.left_of_append).2)
    · rw [h₁e, if_pos (List.mem_reverse.mp hq)]
  have hr : xs.reverse ≠ [] := by simpa using hx
  -- the writes at the ends, read as those that put the reversed chain between head and tail
  have hn' : ∀ q, (h' q).next = if q = [hd].getLast (List.cons_ne_nil _ _)
      then some (xs.reverse.head hr) else if q = xs.reverse.getLast hr
      then some ([tl].head (List.cons_ne_nil _ _)) else (h₁ q).next := fun q => by
    simp only [hn, List.head_reverse, List.getLast_reverse]
    rfl
  have hp' : ∀ q, (h' q).prev = if q = [tl].head (List.cons_ne_nil _ _)
      then some (xs.reverse.getLast hr) else if q = xs.reverse.head hr
      then some ([hd].getLast (List.cons_ne_nil _ _)) else (h₁ q).prev := fun q => by
    simp only [hp, List.head_reverse, List.getLast_reverse]
    rfl
  refine ⟨chain_insert (List.cons_ne_nil _ _) hr (List.cons_ne_nil _ _) (.singleton hd) hcr
    (.singleton tl) hnd hn' hp', ?_, ?_, hnd⟩
  · have hht : hd ≠ tl := fun h' => hdisj hd List.mem_cons_self tl (List.mem_singleton_self _) h'
    rw [hp, if_neg hht, if_neg (ne_of_mem_of_not_mem (List.getLast_mem hx) hhd).symm, h₁e,
      if_neg hhd, hl.head_prev]
  · have hth : tl ≠ hd := fun h' => hdisj hd List.mem_cons_self tl (List.mem_singleton_self _) h'.symm
    rw [hn, if_neg hth, if_neg (ne_of_mem_of_not_mem (List.head_mem hx) htl).symm, h₁e,
      if_neg htl, hl.tail_next]

end Ranges

end DLink
