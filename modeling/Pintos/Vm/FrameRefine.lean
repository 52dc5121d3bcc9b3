import Pintos.Vm.Clock
import Pintos.Vm.Evict

/-! # The two models of `vm/frame.c` agree

`Clock.FrameTable` follows `frame_table` at the level of pointers: list cells on a
heap, `malloc`ed blocks, and `clock_hand` as the address of a `list_elem`.
`VmState` keeps the same table as a list of entries, with the hand as the frame
of the entry it points at, beside the page directories and the supplemental page
tables. `Abstracts c xs v` says that the two describe one frame table: the
entries of the blocks `xs` are the entries of `v` in order, the accessed bits
are those of `v`'s page directories, and `evict_frame` starts on the same entry.

The loops of `evict_frame` then run in lockstep (`clockLoop_lockstep`), so the
two evict the same frame, clear the same bits and move the hand to the same
entry (`evictFrame_refines`); `frame_free` takes out the same entry and moves
the hand alike (`frameFree_refines`), and `frame_alloc` returns the same frame
and pushes the same entry (`frameAlloc_refines`). The relation needs the frames
to be distinct, since `VmState` finds the hand's entry by its frame, and for
`frame_alloc` a hand over `VmState` that is `NULL` or on an entry
(`HandOnTable`). When `evict_frame` or `frame_free` removes the only frame, the
relation still holds, but only because it asks nothing of an empty table: the
pointer-level hand is left on the freed block (`hand_on_list_or_freed`), while
`VmState` keeps the freed frame as its hand, which reads as a hand on the next
entry pushed for that frame, or else starts the next sweep from the first
entry. The next `frame_alloc` then keeps the relation only if `malloc` hands
that block out again; otherwise the pointer-level table is `Stale`.
-/

namespace Pintos

section Positions

variable {α β : Type*}

theorem getElem?_filterMap_of_isSome {f : α → Option β} :
    ∀ {l : List α}, (∀ x ∈ l, (f x).isSome) → ∀ i : ℕ, (l.filterMap f)[i]? = l[i]?.bind f
  | [], _, i => by simp
  | x :: l, h, i => by
    obtain ⟨b, hb⟩ := Option.isSome_iff_exists.mp (h x List.mem_cons_self)
    have ih := getElem?_filterMap_of_isSome fun y hy => h y (List.mem_cons_of_mem x hy)
    rw [List.filterMap_cons_some hb]
    cases i with
    | zero => simp [hb]
    | succ i => simp [ih]

theorem filterMap_eraseIdx_of_isSome {f : α → Option β} {l : List α}
    (h : ∀ x ∈ l, (f x).isSome) (j : ℕ) :
    (l.eraseIdx j).filterMap f = (l.filterMap f).eraseIdx j := by
  have h' : ∀ x ∈ l.eraseIdx j, (f x).isSome :=
    fun x hx => h x ((List.eraseIdx_sublist l j).subset hx)
  apply List.ext_getElem?
  intro i
  rw [getElem?_filterMap_of_isSome h', List.getElem?_eraseIdx, List.getElem?_eraseIdx,
    getElem?_filterMap_of_isSome h, getElem?_filterMap_of_isSome h]
  split <;> rfl

/-- Past position `j`, cyclically: the first element after it, or else the first of the list. -/
theorem head?_drop_append_take {l : List α} {j : ℕ} (hj : j < l.length) :
    (l.drop (j + 1) ++ l.take j ++ [l[j]]).head? = l[(j + 1) % l.length]? := by
  rw [List.head?_append, List.head?_append, List.head?_drop]
  by_cases hlt : j + 1 < l.length
  · rw [Nat.mod_eq_of_lt hlt, List.getElem?_eq_getElem hlt]
    rfl
  · -- `j` is the last position: the cycle goes back to the first element
    have hj' : j + 1 = l.length := by omega
    rw [hj', Nat.mod_self, List.getElem?_eq_none (Nat.le_refl _), Option.none_or,
      List.head?_take]
    cases j with
    | zero => simp [List.head?_eq_getElem?]
    | succ j => simp [List.head?_eq_getElem?, List.getElem?_eq_getElem (show 0 < l.length by omega)]

/-- Once position `j` is erased from a list of two or more elements, the element at position `i`
is still there, or, for `i = j`, the element after it, cyclically; and the first element stands
first again, or, when it is the one erased, the second does. -/
theorem exists_getElem?_eraseIdx {l : List α} {i j : ℕ} (hi : i < l.length) (hj : j < l.length)
    (h2 : 2 ≤ l.length) :
    ∃ q : ℕ, (l.eraseIdx j)[q]? = l[if i = j then (j + 1) % l.length else i]? ∧ (i = 0 → q = 0) := by
  rcases Nat.lt_trichotomy i j with hij | rfl | hij
  · refine ⟨i, ?_, id⟩
    rw [List.getElem?_eraseIdx, if_pos hij, if_neg (Nat.ne_of_lt hij)]
  · rw [if_pos rfl]
    by_cases hlt : i + 1 < l.length
    · refine ⟨i, ?_, id⟩
      rw [List.getElem?_eraseIdx, if_neg (Nat.lt_irrefl i), Nat.mod_eq_of_lt hlt]
    · -- `i` is the last position: the cycle goes back to the first element
      have hi' : i + 1 = l.length := by omega
      refine ⟨0, ?_, fun _ => rfl⟩
      rw [List.getElem?_eraseIdx, if_pos (by omega), hi', Nat.mod_self]
  · refine ⟨i - 1, ?_, fun h0 => by omega⟩
    rw [List.getElem?_eraseIdx, if_neg (by omega), if_neg (Nat.ne_of_gt hij),
      Nat.sub_add_cancel (by omega)]

end Positions

namespace VmState

section Hand

variable {v : VmState}

@[simp] theorem frameTable_clockLoop : ∀ (v : VmState) (i n : ℕ),
    (v.clockLoop i n).1.frameTable = v.frameTable
  | _, _, 0 => rfl
  | v, i, n + 1 => by
    unfold clockLoop
    split
    · rfl
    · split
      · split
        · exact frameTable_clockLoop _ _ n
        · rfl
      · exact frameTable_clockLoop _ _ n

@[simp] theorem clockHand_clockLoop : ∀ (v : VmState) (i n : ℕ),
    (v.clockLoop i n).1.clockHand = v.clockHand
  | _, _, 0 => rfl
  | v, i, n + 1 => by
    unfold clockLoop
    split
    · rfl
    · split
      · split
        · exact clockHand_clockLoop _ _ n
        · rfl
      · exact clockHand_clockLoop _ _ n

/-- The loop of `evict_frame` moves neither the table nor the hand, only accessed bits. -/
theorem handIndex_clockLoop (i n : ℕ) : (v.clockLoop i n).1.handIndex = v.handIndex := by
  simp only [handIndex, clockHand_clockLoop, frameTable_clockLoop]

/-- In a table of distinct frames, the entry found for the frame of the entry at `p` is at `p`. -/
theorem findIdx?_kpage {l : List FrameEntry} (hk : (l.map (·.kpage)).Nodup) {p : ℕ}
    {g : FrameEntry} (hg : l[p]? = some g) : l.findIdx? (·.kpage == g.kpage) = some p := by
  obtain ⟨hp, rfl⟩ := List.getElem?_eq_some_iff.mp hg
  rw [List.findIdx?_eq_some_iff_getElem]
  refine ⟨hp, by simp, fun q hq => ?_⟩
  -- an entry before `p` has another frame
  rw [beq_iff_eq]
  intro heq
  have hq' : q < (l.map (·.kpage)).length := by simp; omega
  have hp' : p < (l.map (·.kpage)).length := by simp; omega
  have := (@List.Nodup.getElem_inj_iff _ _ hk q hq' p hp').mp (by simpa using heq)
  omega

/-- With distinct frames, a hand on the frame of an entry starts the clock at that entry. -/
theorem handIndex_eq_of_getElem? (hk : (v.frameTable.map (·.kpage)).Nodup) {p : ℕ}
    {g : FrameEntry} (hg : v.frameTable[p]? = some g) (hc : v.clockHand = some g.kpage) :
    v.handIndex = p := by
  simp only [handIndex, hc, findIdx?_kpage hk hg, Option.getD_some]

/-- A hand on no frame of the table starts the clock at the first entry. -/
theorem handIndex_of_not_mem (h : ∀ k, v.clockHand = some k → ∀ g ∈ v.frameTable, g.kpage ≠ k) :
    v.handIndex = 0 := by
  unfold handIndex
  split
  · next k hc =>
    rw [List.findIdx?_eq_none_iff.mpr fun g hg => by simpa using h k hc g hg]
    rfl
  · rfl

/-- Clearing a page-table entry's present bit leaves every accessed bit alone. -/
theorem isAccessed_clearPage (p u : ℕ) :
    (v.modifyProc p fun q => { q with pagedir := pagedirClearPage q.pagedir u }).isAccessed =
      v.isAccessed := by
  have hf : ∀ e : Pte, ({ e with present := false } : Pte).upage = e.upage := fun _ => rfl
  funext p' u'
  unfold isAccessed modifyProc
  rw [proc_setProc]
  split
  · next hp =>
    subst hp
    by_cases hu : u' = u
    · subst hu
      simp only [pagedirIsAccessed, pagedirClearPage, pteOf_updatePte_self hf, Option.map_map]
      rfl
    · simp only [pagedirIsAccessed, pagedirClearPage, pteOf_updatePte_of_ne hf hu]
  · rfl

/-- The SPT half of `evict_frame` leaves the accessed bits as they were. -/
theorem SameFrames.isAccessed {v' : VmState} (h : SameFrames v v') : v'.isAccessed = v.isAccessed := by
  funext p u
  simp only [VmState.isAccessed, h.pagedir]

theorem sameFrames_pallocFreePage {v' : VmState} {k : ℕ} (h : v.pallocFreePage k = some v') :
    SameFrames v v' := by
  unfold pallocFreePage at h
  split at h
  · cases h
    exact ⟨rfl, rfl, fun _ => rfl⟩
  · cases h

/-- `frame_free` of the frame of the entry at `p`, in a table of distinct frames: the entry goes,
and a hand on it moves to the next one. -/
theorem frameFree_of_getElem? (hk : (v.frameTable.map (·.kpage)).Nodup) {p : ℕ} {f : FrameEntry}
    (hp : v.frameTable[p]? = some f) {v' : VmState} (h : v.frameFree f.kpage = some v') :
    v'.frameTable = v.frameTable.eraseIdx p ∧
      v'.clockHand = (if v.clockHand = some f.kpage then nextHand v.frameTable p
        else v.clockHand) ∧ v'.isAccessed = v.isAccessed := by
  unfold frameFree at h
  rw [findIdx?_kpage hk hp] at h
  have hs := sameFrames_pallocFreePage h
  exact ⟨hs.frameTable, hs.clockHand, hs.isAccessed⟩

/-- `frame_free` of a frame no entry holds changes no entry, nor the hand. -/
theorem frameFree_of_not_mem {kpage : ℕ} (hn : ∀ f ∈ v.frameTable, f.kpage ≠ kpage) {v' : VmState}
    (h : v.frameFree kpage = some v') : SameFrames v v' := by
  unfold frameFree at h
  rw [List.findIdx?_eq_none_iff.mpr fun f hf => by simpa using hn f hf] at h
  exact sameFrames_pallocFreePage h

/-- After `frame_free` took out the entry at position `p` of a table of distinct frames, the
hand starts the clock at the position `q` where the old start's entry, or the next one if that
was taken out, now stands. -/
theorem handIndex_frameFree (hk : (v.frameTable.map (·.kpage)).Nodup) {p : ℕ} {f : FrameEntry}
    (hp : v.frameTable[p]? = some f) {q : ℕ}
    (hq : (v.frameTable.eraseIdx p)[q]? = v.frameTable[if v.handIndex = p then
      (p + 1) % v.frameTable.length else v.handIndex]?)
    (hq0 : v.handIndex = 0 → q = 0) {v' : VmState} (htable : v'.frameTable = v.frameTable.eraseIdx p)
    (hhand : v'.clockHand = if v.clockHand = some f.kpage then nextHand v.frameTable p
      else v.clockHand) : v'.handIndex = q := by
  have hk' : (v'.frameTable.map (·.kpage)).Nodup := by
    rw [htable]
    exact hk.sublist ((List.eraseIdx_sublist _ _).map _)
  rw [← htable] at hq
  cases hc : v.clockHand with
  | none =>
    rw [hc, if_neg fun h => nomatch h] at hhand
    rw [hq0 (by simp [handIndex, hc])]
    simp [handIndex, hhand]
  | some k =>
    by_cases hkf : k = f.kpage
    · -- the hand was on the entry taken out: it moves to the next one
      subst hkf
      rw [handIndex_eq_of_getElem? hk hp hc, if_pos rfl] at hq
      have hm : (p + 1) % v.frameTable.length < v.frameTable.length :=
        Nat.mod_lt _ (List.length_pos_of_mem (List.mem_of_getElem? hp))
      rw [hc, if_pos rfl, nextHand, List.getElem?_eq_getElem hm, Option.map_some] at hhand
      rw [List.getElem?_eq_getElem hm] at hq
      exact handIndex_eq_of_getElem? hk' hq hhand
    rw [hc, if_neg fun h => hkf (Option.some.inj h)] at hhand
    by_cases hfound : ∃ g ∈ v.frameTable, g.kpage = k
    · -- the hand was on another entry: it stays there
      obtain ⟨g, hg, rfl⟩ := hfound
      obtain ⟨i, hi⟩ := List.mem_iff_getElem?.mp hg
      have hip : i ≠ p := by
        rintro rfl
        rw [hi, Option.some.injEq] at hp
        exact hkf (congrArg FrameEntry.kpage hp)
      rw [handIndex_eq_of_getElem? hk hi hc, if_neg hip, hi] at hq
      exact handIndex_eq_of_getElem? hk' hq hhand
    · -- a hand on no entry starts at the first one, before and after
      have hnot : ∀ g ∈ v.frameTable, g.kpage ≠ k := fun g hg hgk => hfound ⟨g, hg, hgk⟩
      rw [hq0 (handIndex_of_not_mem fun k' hk'' g hg => by
        rw [hc, Option.some.injEq] at hk''
        exact hk'' ▸ hnot g hg)]
      refine handIndex_of_not_mem fun k' hk'' g hg => ?_
      rw [hhand, Option.some.injEq] at hk''
      rw [htable] at hg
      exact hk'' ▸ hnot g ((List.eraseIdx_sublist _ _).subset hg)

end Hand

/-- `clock_hand` is `NULL` or on an entry of the table, read as the entry's frame. -/
def HandOnTable (v : VmState) : Prop := ∀ k, v.clockHand = some k → ∃ f ∈ v.frameTable, f.kpage = k

section Alloc

variable {v : VmState}

theorem sameFrames_pallocGetPage {k : ℕ} {v' : VmState} (h : v.pallocGetPage = some (k, v')) :
    SameFrames v v' := by
  unfold pallocGetPage at h
  obtain ⟨⟨k', pool⟩, -, h⟩ := Option.map_eq_some_iff.mp h
  rw [Prod.mk.injEq] at h
  rw [← h.2]
  exact ⟨rfl, rfl, fun _ => rfl⟩

/-- A hand on an entry, or `NULL`, starts the clock where it did once an entry is pushed at the
back. -/
theorem HandOnTable.handIndex_push (h : v.HandOnTable) (f : FrameEntry) :
    ({ v with frameTable := v.frameTable ++ [f] } : VmState).handIndex = v.handIndex := by
  unfold handIndex
  cases hc : v.clockHand with
  | none => rfl
  | some k =>
    obtain ⟨g, hg, rfl⟩ := h k hc
    have hfound : (v.frameTable.findIdx? (·.kpage == g.kpage)).isSome :=
      List.findIdx?_isSome ▸ List.any_eq_true.mpr ⟨g, hg, beq_self_eq_true g.kpage⟩
    obtain ⟨j, hj⟩ := Option.isSome_iff_exists.mp hfound
    simp only [List.findIdx?_append, hj, Option.some_or]

/-- `evict_frame` leaves the hand on an entry unless it emptied the table. -/
theorem HandOnTable.evictFrame (h : v.HandOnTable) {r : Option ℕ} {v₁ : VmState}
    (he : v.evictFrame = some (r, v₁)) (hne : v₁.frameTable ≠ []) : v₁.HandOnTable := by
  unfold VmState.evictFrame at he
  split at he
  · cases he
    exact h
  rcases hL : v.clockLoop v.handIndex (2 * v.frameTable.length) with ⟨s₁, r₀⟩
  have hs₁ : s₁.frameTable = v.frameTable ∧ s₁.clockHand = v.clockHand := by
    rw [← frameTable_clockLoop v v.handIndex (2 * v.frameTable.length),
      ← clockHand_clockLoop v v.handIndex (2 * v.frameTable.length), hL]
    exact ⟨rfl, rfl⟩
  -- with no victim only accessed bits changed
  have hkeep : v₁ = s₁ → v₁.HandOnTable := by
    rintro rfl k hk
    rw [hs₁.1]
    exact h k (hs₁.2 ▸ hk)
  rw [hL] at he
  cases r₀ with
  | none =>
    cases he
    exact hkeep rfl
  | some i =>
    dsimp only at he
    split at he
    · next victim hv =>
      -- the hand moved to the entry after the victim, which is still there
      obtain ⟨-, hsame⟩ := evictSpt_spec he
      intro k hk
      rw [hsame.clockHand] at hk
      rw [hsame.frameTable] at hne ⊢
      simp only [modifyProc, frameTable_setProc] at hk hne ⊢
      rw [hs₁.1] at hk hne hv ⊢
      have hi : i < v.frameTable.length := (List.getElem?_eq_some_iff.mp hv).1
      have h2 : 2 ≤ v.frameTable.length := by
        have := List.length_pos_iff.mpr hne
        rw [List.length_eraseIdx_of_lt hi] at this
        omega
      obtain ⟨q, hq, -⟩ := exists_getElem?_eraseIdx hi hi h2
      rw [if_pos rfl] at hq
      rw [nextHand, ← hq] at hk
      obtain ⟨g, hg, rfl⟩ := Option.map_eq_some_iff.mp hk
      exact ⟨g, List.mem_of_getElem? hg, rfl⟩
    · cases he
      exact hkeep rfl

end Alloc

end VmState

namespace Clock

open DLink ListHeap FrameTable

/-- What `frame_table` holds, read through `list_entry`: the entries of the blocks of `xs`, in
order. -/
def FrameTable.entries (c : FrameTable) (xs : List ℕ) : List FrameEntry := xs.filterMap c.entry

/-- The pointer-level table `c`, whose list is `xs`, and the frame table of `v` are one table:
the same entries in the same order, the same accessed bits, and `evict_frame` starting from
the same entry. -/
structure Abstracts (c : FrameTable) (xs : List ℕ) (v : VmState) : Prop where
  wf : c.Wf xs
  entries : c.entries xs = v.frameTable
  accessed : c.accessed = v.isAccessed
  start : xs ≠ [] → c.clockStart = xs[v.handIndex]?

namespace FrameTable

section Entries

variable {c : FrameTable} {xs : List ℕ}

theorem length_entries (hw : c.Wf xs) : (c.entries xs).length = xs.length :=
  List.filterMap_length_eq_length.mpr hw.live

theorem getElem?_entries (hw : c.Wf xs) (i : ℕ) : (c.entries xs)[i]? = xs[i]?.bind c.entry :=
  getElem?_filterMap_of_isSome hw.live i

theorem getElem?_entries_eraseIdx (hw : c.Wf xs) (j i : ℕ) :
    ((c.entries xs).eraseIdx j)[i]? = (xs.eraseIdx j)[i]?.bind c.entry := by
  rw [entries, ← filterMap_eraseIdx_of_isSome hw.live,
    getElem?_filterMap_of_isSome fun x hx => hw.live x ((List.eraseIdx_sublist _ _).subset hx)]

/-- Taking out the block at position `j` and freeing it takes out its entry. -/
theorem entries_eraseIdx (hw : c.Wf xs) {j : ℕ} (hj : j < xs.length) {c' : FrameTable}
    (hentry : ∀ e, c'.entry e = if e = xs[j] then none else c.entry e) :
    c'.entries (xs.eraseIdx j) = (c.entries xs).eraseIdx j := by
  have hnd := hw.nodup
  have hsame : ∀ e ∈ xs.eraseIdx j, c'.entry e = c.entry e := by
    intro e he
    obtain ⟨i, hi, hij, rfl⟩ := List.mem_eraseIdx_iff_getElem.mp he
    rw [hentry, if_neg fun h => hij ((hnd.getElem_inj_iff).mp h)]
  rw [entries, List.filterMap_congr hsame, filterMap_eraseIdx_of_isSome hw.live]
  rfl

/-- `clock_hand` moved on from the element at position `j` lands on the next one, cyclically. -/
theorem advance_getElem (hl : DList c.heap c.table.head c.table.tail xs) {j : ℕ}
    (hj : j < xs.length) : c.advance xs[j] = xs[(j + 1) % xs.length]? := by
  have hsplit : xs.take j ++ xs[j] :: xs.drop (j + 1) = xs := by
    rw [List.getElem_cons_drop, List.take_append_drop]
  have hl' : DList c.heap c.table.head c.table.tail (xs.take j ++ xs[j] :: xs.drop (j + 1)) := by
    rw [hsplit]
    exact hl
  rw [advance_eq hl', ← List.head?_eq_some_head, head?_drop_append_take hj]

/-- A hand on an element of the list starts `evict_frame` there. -/
theorem clockStart_of_mem (hw : c.Wf xs) {e : ℕ} (he : e ∈ xs) (hc : c.clockHand = some e) :
    c.clockStart = some e := by
  rw [clockStart, hc]
  exact if_neg (ne_tail_of_mem hw.dlist he)

theorem listBegin_eq_getElem? (hl : DList c.heap c.table.head c.table.tail xs) (hne : xs ≠ []) :
    listBegin c.heap c.table = xs[0]? := by
  rw [listBegin_eq hl, List.head_append_of_ne_nil hne, ← List.head?_eq_some_head hne,
    List.head?_eq_getElem?]

/-- A hand that is `NULL` or `list_end` starts `evict_frame` at the first element. -/
theorem clockStart_of_off (hw : c.Wf xs) (hne : xs ≠ [])
    (hc : c.clockHand = none ∨ c.clockHand = some c.table.tail) : c.clockStart = xs[0]? := by
  have hbegin := listBegin_eq_getElem? hw.dlist hne
  rcases hc with hc | hc
  · rw [clockStart, hc, hbegin]
  · rw [clockStart, hc]
    exact (if_pos rfl).trans hbegin

/-- Hands on the same entry, the block of `e` and the frame of its entry, start `evict_frame`
at the same place when the frames are distinct. -/
theorem start_of_hand (hw : c.Wf xs) {v : VmState} (hent : c.entries xs = v.frameTable)
    (hk : (v.frameTable.map (·.kpage)).Nodup) {p e : ℕ} {g : FrameEntry} (hp : xs[p]? = some e)
    (hc : c.clockHand = some e) (hg : c.entry e = some g) (hv : v.clockHand = some g.kpage) :
    c.clockStart = xs[v.handIndex]? := by
  have hvp : v.frameTable[p]? = some g := by
    rw [← hent, getElem?_entries hw, hp, Option.bind_some, hg]
  rw [VmState.handIndex_eq_of_getElem? hk hvp hv, hp]
  exact clockStart_of_mem hw (List.mem_of_getElem? hp) hc

end Entries

end FrameTable

section Lockstep

variable {xs : List ℕ}

/-- `pagedir_set_accessed (pd, upage, false)` on both sides keeps the accessed bits equal. -/
theorem clearAccessed_accessed {c : FrameTable} {v : VmState} (ha : c.accessed = v.isAccessed)
    (o u : ℕ) : (c.clearAccessed o u).accessed = (v.clearAccessed o u).isAccessed := by
  funext p' u'
  rw [VmState.isAccessed_clearAccessed, ← ha]
  simp only [clearAccessed, Function.update_apply]
  by_cases hp : p' = o
  · by_cases hu : u' = u <;> simp [hp, hu]
  · simp [hp]

/-- The loops of `evict_frame` run in step: from position `i`, the pointer-level loop stops on
the block at the position where the loop over `VmState` stops, or both run out of rounds, and
they leave the same accessed bits; the hand is left at the position reached. -/
theorem clockLoop_lockstep : ∀ (n : ℕ) {c : FrameTable} {v : VmState} {i : ℕ}, c.Wf xs →
    c.accessed = v.isAccessed → c.entries xs = v.frameTable → (hi : i < xs.length) →
    ∃ k, ∃ hk : k < xs.length,
      clockLoop c n xs[i] = some ((v.clockLoop i n).2.map fun _ => xs[k],
        { c with accessed := (v.clockLoop i n).1.isAccessed, clockHand := some xs[k] }) ∧
      ((v.clockLoop i n).2 = some k ∨ (v.clockLoop i n).2 = none ∧ k = (i + n) % xs.length)
  | 0, c, v, i, _, ha, _, hi =>
    ⟨i, hi, by simp only [clockLoop, VmState.clockLoop, Option.map_none, ← ha],
      .inr ⟨rfl, (Nat.mod_eq_of_lt hi).symm⟩⟩
  | n + 1, c, v, i, hw, ha, hent, hi => by
    have hlen : v.frameTable.length = xs.length := hent ▸ length_entries hw
    obtain ⟨fe, hfe⟩ := Option.isSome_iff_exists.mp (hw.live _ (List.getElem_mem hi))
    have hv : v.frameTable[i]? = some fe := by
      rw [← hent, getElem?_entries hw, List.getElem?_eq_getElem hi, Option.bind_some, hfe]
    have hnext : (i + 1) % xs.length < xs.length := Nat.mod_lt _ (by omega)
    have hadv : c.advance xs[i] = some xs[(i + 1) % xs.length] := by
      rw [advance_getElem hw.dlist hi, List.getElem?_eq_getElem hnext]
    have hmod : ((i + 1) % xs.length + n) % xs.length = (i + (n + 1)) % xs.length := by
      rw [Nat.mod_add_mod]
      congr 1
      omega
    -- one round on each side: a pinned frame is passed, an accessed one is passed with its bit
    -- cleared, and any other frame stops both loops
    cases hpin : fe.pinned with
    | true =>
      obtain ⟨k, hk, hloop, hcase⟩ := clockLoop_lockstep n hw ha hent hnext
      have hv' : v.clockLoop i (n + 1) = v.clockLoop ((i + 1) % xs.length) n := by
        simp [VmState.clockLoop, hv, hpin, hlen]
      refine ⟨k, hk, ?_, ?_⟩
      · simp only [clockLoop, hfe, hpin, Option.bind_eq_bind, Option.bind_some, Bool.not_true,
          Bool.false_and, Bool.false_eq_true, if_false, if_true]
        rw [hadv, Option.bind_some, hloop, hv']
      · rw [hv', ← hmod]
        exact hcase
    | false =>
      cases hacc : v.isAccessed fe.owner fe.upage with
      | true =>
        have hw₁ : (c.clearAccessed fe.owner fe.upage).Wf xs := ⟨hw.dlist, hw.live, hw.only⟩
        obtain ⟨k, hk, hloop, hcase⟩ := clockLoop_lockstep n hw₁
          (clearAccessed_accessed ha fe.owner fe.upage) hent hnext
        have hv' : v.clockLoop i (n + 1) =
            (v.clearAccessed fe.owner fe.upage).clockLoop ((i + 1) % xs.length) n := by
          simp [VmState.clockLoop, hv, hpin, hacc, hlen]
        refine ⟨k, hk, ?_, ?_⟩
        · simp only [clockLoop, hfe, hpin, Option.bind_eq_bind, Option.bind_some, ha, hacc,
            Bool.not_false, Bool.not_true, Bool.and_false, Bool.false_eq_true, if_false]
          rw [show (c.clearAccessed fe.owner fe.upage).advance xs[i] = c.advance xs[i] from rfl,
            hadv, Option.bind_some, hloop, hv']
          rfl
        · rw [hv', ← hmod]
          exact hcase
      | false =>
        have hv' : v.clockLoop i (n + 1) = (v, some i) := by
          simp [VmState.clockLoop, hv, hpin, hacc]
        refine ⟨i, hi, ?_, .inl (by rw [hv'])⟩
        simp only [clockLoop, hfe, hpin, Option.bind_eq_bind, Option.bind_some, ha, hacc,
          Bool.not_false, Bool.and_self, if_true, hv', Option.map_some]

end Lockstep

section Evict

variable {c : FrameTable} {xs : List ℕ} {v : VmState}

/-- The table after `evict_frame` took out the block at position `k`, on the two sides: the
entries of the rest, the accessed bits the loop left, and the hand on the next entry. -/
theorem abstracts_evicted (hw : c.Wf xs) (hent : c.entries xs = v.frameTable)
    (hk : (v.frameTable.map (·.kpage)).Nodup) {k : ℕ} (hkx : k < xs.length) {v' : VmState}
    {c' : FrameTable} (hw' : c'.Wf (xs.eraseIdx k))
    (hentry : ∀ e, c'.entry e = if e = xs[k] then none else c.entry e)
    (hc' : c'.clockHand = xs[(k + 1) % xs.length]?) (hacc : c'.accessed = v'.isAccessed)
    (htable : v'.frameTable = v.frameTable.eraseIdx k)
    (hhand : v'.clockHand = VmState.nextHand v.frameTable k) :
    Abstracts c' (xs.eraseIdx k) v' := by
  have hent' : c'.entries (xs.eraseIdx k) = v'.frameTable := by
    rw [entries_eraseIdx hw hkx hentry, hent, htable]
  refine ⟨hw', hent', hacc, fun hne => ?_⟩
  -- two or more frames: the hand moves to the next one, which stays
  have h2 : 2 ≤ xs.length := by
    have := List.length_pos_iff.mpr hne
    rw [List.length_eraseIdx_of_lt hkx] at this
    omega
  have hm : (k + 1) % xs.length < xs.length := Nat.mod_lt _ (by omega)
  obtain ⟨p, hp, -⟩ := exists_getElem?_eraseIdx hkx hkx h2
  rw [if_pos rfl, List.getElem?_eq_getElem hm] at hp
  rw [List.getElem?_eq_getElem hm] at hc'
  obtain ⟨g, hg⟩ := Option.isSome_iff_exists.mp (hw.live _ (List.getElem_mem hm))
  have hk' : (v'.frameTable.map (·.kpage)).Nodup := by
    rw [htable]
    exact hk.sublist ((List.eraseIdx_sublist _ _).map _)
  have hlen : v.frameTable.length = xs.length := hent ▸ length_entries hw
  have hv : v'.clockHand = some g.kpage := by
    rw [hhand, VmState.nextHand, hlen, ← hent, getElem?_entries hw, List.getElem?_eq_getElem hm,
      Option.bind_some, hg, Option.map_some]
  have hmk : (k + 1) % xs.length ≠ k := by
    by_cases hlt : k + 1 < xs.length
    · rw [Nat.mod_eq_of_lt hlt]
      omega
    · rw [show k + 1 = xs.length by omega, Nat.mod_self]
      omega
  have hnd := hw.nodup
  have hg' : c'.entry xs[(k + 1) % xs.length] = some g := by
    rw [hentry, if_neg fun heq => hmk ((hnd.getElem_inj_iff).mp heq), hg]
  exact start_of_hand hw' hent' hk' hp hc' hg' hv

/-- `evict_frame` on the two models of one table whose frames are distinct: the pointer-level
one returns, and whenever the one over `VmState` returns, it returns the same frame, and the two
tables after it are again one table. -/
theorem evictFrame_refines (h : Abstracts c xs v) (hk : (v.frameTable.map (·.kpage)).Nodup) :
    ∃ r c', c.evictFrame = some (r, c') ∧
      ∀ r' v', v.evictFrame = some (r', v') → r' = r ∧ ∃ xs', Abstracts c' xs' v' := by
  have hw := h.wf
  by_cases hx : xs = []
  · -- an empty table: neither side does anything
    subst hx
    have hv : v.frameTable = [] := h.entries.symm
    refine ⟨none, c, by simp [evictFrame, listEmpty_eq hw], fun r' v' hv' => ?_⟩
    simp only [VmState.evictFrame, hv, if_true, Option.some.injEq, Prod.mk.injEq] at hv'
    obtain ⟨rfl, rfl⟩ := hv'
    exact ⟨rfl, [], h⟩
  have hlen : v.frameTable.length = xs.length := h.entries ▸ length_entries hw
  have hn : v.frameTable ≠ [] := by
    rw [← List.length_pos_iff, hlen]
    exact List.length_pos_iff.mpr hx
  have hh : v.handIndex < xs.length := hlen ▸ VmState.handIndex_lt hn
  have hst : c.clockStart = some xs[v.handIndex] := by
    rw [h.start hx, List.getElem?_eq_getElem hh]
  have hempty : listEmpty c.heap c.table = false := by simp [listEmpty_eq hw, hx]
  obtain ⟨k, hkx, hloop, hcase⟩ := clockLoop_lockstep (2 * xs.length) hw h.accessed h.entries hh
  rcases hL : v.clockLoop v.handIndex (2 * xs.length) with ⟨v₁, r₀⟩
  have hvt : v₁.frameTable = v.frameTable := by
    rw [← VmState.frameTable_clockLoop v v.handIndex (2 * xs.length), hL]
  rw [hL] at hloop hcase
  rcases hcase with hj | ⟨hnone, hkeq⟩
  · -- the loops stop on the frame at position `k`: both evict it
    subst hj
    obtain ⟨fe, hfe⟩ := Option.isSome_iff_exists.mp (hw.live _ (List.getElem_mem hkx))
    have hsplit : xs.take k ++ xs[k] :: xs.drop (k + 1) = xs := by
      rw [List.getElem_cons_drop, List.take_append_drop]
    have hw₂ : c.Wf (xs.take k ++ xs[k] :: xs.drop (k + 1)) := by
      rw [hsplit]
      exact hw
    have hloop₂ : clockLoop c (2 * (xs.take k ++ xs[k] :: xs.drop (k + 1)).length) xs[v.handIndex] =
        some (some xs[k], { c with accessed := v₁.isAccessed, clockHand := some xs[k] }) := by
      rw [hsplit]
      exact hloop
    obtain ⟨c', he, hw', -, hc', hentry, hacc⟩ := evictFrame_of_victim hw₂ hst hloop₂ hfe
    refine ⟨_, c', he, fun r' v' hv' => ?_⟩
    have hvk : v₁.frameTable[k]? = some fe := by
      rw [hvt, ← h.entries, getElem?_entries hw, List.getElem?_eq_getElem hkx, Option.bind_some,
        hfe]
    simp only [VmState.evictFrame, if_neg hn, hlen, hL, hvk] at hv'
    obtain ⟨rfl, hsame⟩ := VmState.evictSpt_spec hv'
    refine ⟨rfl, xs.eraseIdx k, abstracts_evicted hw h.entries hk hkx ?_ hentry ?_ ?_ ?_ ?_⟩
    · rw [List.eraseIdx_eq_take_drop_succ]
      exact hw'
    · rw [hc', ← head?_drop_append_take hkx, List.head?_eq_some_head]
    · -- the hand and the table moved, the page directories only lost the victim's present bit
      rw [hacc, hsame.isAccessed]
      exact (VmState.isAccessed_clearPage (v := v₁) fe.owner fe.upage).symm
    · rw [hsame.frameTable]
      exact congrArg (·.eraseIdx k) hvt
    · rw [hsame.clockHand]
      exact congrArg (VmState.nextHand · k) hvt
  · -- no victim: the loop made its two sweeps and the hand is back where it started
    have hk' : k = v.handIndex := by
      rw [hkeq, Nat.mul_comm, Nat.add_mul_mod_self_left, Nat.mod_eq_of_lt hh]
    have hr : r₀ = none := hnone
    subst hk' hr
    refine ⟨none, { c with accessed := v₁.isAccessed, clockHand := some xs[v.handIndex] }, ?_,
      fun r' v' hv' => ?_⟩
    · simp [evictFrame, hempty, hst, listSize_eq hw, hloop]
    · simp only [VmState.evictFrame, if_neg hn, hlen, hL, Option.some.injEq, Prod.mk.injEq]
        at hv'
      obtain ⟨rfl, rfl⟩ := hv'
      refine ⟨rfl, xs, ⟨hw.dlist, hw.live, hw.only⟩, h.entries.trans hvt.symm, rfl, fun _ => ?_⟩
      have hi : v₁.handIndex = v.handIndex := by
        rw [← VmState.handIndex_clockLoop (v := v) v.handIndex (2 * xs.length), hL]
      rw [hi, List.getElem?_eq_getElem hh]
      exact if_neg (ne_tail_of_mem hw.dlist (List.getElem_mem hh))

end Evict

section Free

variable {c : FrameTable} {xs : List ℕ} {v : VmState}

theorem Abstracts.of_sameFrames (h : Abstracts c xs v) {v' : VmState} (hs : VmState.SameFrames v v') :
    Abstracts c xs v' := by
  have hi : v'.handIndex = v.handIndex := by
    simp only [VmState.handIndex, hs.clockHand, hs.frameTable]
  exact ⟨h.wf, h.entries.trans hs.frameTable.symm, h.accessed.trans hs.isAccessed.symm,
    fun hne => hi ▸ h.start hne⟩

/-- After `frame_free` took out the block at position `p`, the pointer-level hand starts
`evict_frame` on the element the old start was on, or on the next one if that was taken out:
at position `q` of the rest. -/
theorem clockStart_frameFree (hw : c.Wf xs) {p i : ℕ} (hp : p < xs.length) (hi : i < xs.length)
    (hst : c.clockStart = some xs[i]) {c' : FrameTable} (hw' : c'.Wf (xs.eraseIdx p))
    (htable : c'.table = c.table)
    (hc' : c'.clockHand = if c.clockHand = some xs[p] then xs[(p + 1) % xs.length]? else c.clockHand)
    (hne : xs.eraseIdx p ≠ []) {q : ℕ}
    (hq : (xs.eraseIdx p)[q]? = xs[if i = p then (p + 1) % xs.length else i]?)
    (hq0 : i = 0 → q = 0) : c'.clockStart = (xs.eraseIdx p)[q]? := by
  have hnd := hw.nodup
  have hxs : xs ≠ [] := fun h => by simp [h] at hp
  -- a hand off the list: the old start was the first element, and so is the new one
  have hoff : c.clockHand = none ∨ c.clockHand = some c.table.tail →
      c'.clockStart = (xs.eraseIdx p)[q]? := by
    intro hoff
    have hi0 : i = 0 := by
      rw [clockStart_of_off hw hxs hoff, List.getElem?_eq_getElem (by omega),
        Option.some.injEq] at hst
      exact (hnd.getElem_inj_iff).mp hst.symm
    have hcp : c.clockHand ≠ some xs[p] := by
      rcases hoff with hn | ht
      · rw [hn]
        exact fun h => nomatch h
      · rw [ht, Ne, Option.some.injEq]
        exact fun h => ne_tail_of_mem hw.dlist (List.getElem_mem hp) h.symm
    rw [if_neg hcp] at hc'
    rw [clockStart_of_off hw' hne (by rw [hc', htable]; exact hoff), hq0 hi0]
  cases hc : c.clockHand with
  | none => exact hoff (.inl hc)
  | some e =>
    by_cases het : e = c.table.tail
    · exact hoff (.inr (by rw [hc, het]))
    have hst' : c.clockStart = some e := by
      rw [clockStart, hc]
      exact if_neg het
    rw [hst', Option.some.injEq] at hst
    subst hst
    rw [hc] at hc'
    by_cases hip : i = p
    · -- the hand was on the block taken out: it moved on to the next element
      subst hip
      have h2 : 2 ≤ xs.length := by
        have := List.length_pos_iff.mpr hne
        rw [List.length_eraseIdx_of_lt hp] at this
        omega
      have hm : (i + 1) % xs.length < xs.length := Nat.mod_lt _ (by omega)
      rw [if_pos rfl, List.getElem?_eq_getElem hm] at hc'
      rw [if_pos rfl, List.getElem?_eq_getElem hm] at hq
      exact (clockStart_of_mem hw' (List.mem_of_getElem? hq) hc').trans hq.symm
    · -- the hand was on another block: it stays there
      have hne' : xs[i] ≠ xs[p] := fun h => hip ((hnd.getElem_inj_iff).mp h)
      rw [if_neg fun h => hne' (Option.some.inj h)] at hc'
      rw [if_neg hip, List.getElem?_eq_getElem hi] at hq
      exact (clockStart_of_mem hw' (List.mem_of_getElem? hq) hc').trans hq.symm

/-- `frame_free` on the two models of one table whose frames are distinct: the pointer-level
one returns, and whenever the one over `VmState` returns, the two tables after it are again one
table. -/
theorem frameFree_refines (h : Abstracts c xs v) (hk : (v.frameTable.map (·.kpage)).Nodup)
    (kpage : ℕ) : ∃ c', c.frameFree kpage = some c' ∧
      ∀ v', v.frameFree kpage = some v' → ∃ xs', Abstracts c' xs' v' := by
  have hw := h.wf
  rcases frameFree_cases hw kpage with ⟨hfree, hnone⟩ |
      ⟨ys, e, zs, c', hxs, hfree, hw', htable, hc', hentry, hacc, hkp⟩
  · -- no entry holds the frame: nothing changes on either side
    refine ⟨c, hfree, fun v' hv' => ⟨xs, h.of_sameFrames (VmState.frameFree_of_not_mem ?_ hv')⟩⟩
    intro f hf hfk
    rw [← h.entries] at hf
    obtain ⟨e, he, hef⟩ := List.mem_filterMap.mp hf
    have := hnone e he
    simp [hef, hfk] at this
  refine ⟨c', hfree, fun v' hv' => ?_⟩
  -- the block taken out is at position `p`, and both sides take out the entry there
  have hp : ys.length < xs.length := by simp [hxs]
  have hxp : xs[ys.length] = e := by simp [hxs]
  obtain ⟨fe, hfe⟩ := Option.isSome_iff_exists.mp (hw.live e (by simp [hxs]))
  have hkfe : fe.kpage = kpage := by simpa [hfe] using hkp
  subst hkfe
  have hvp : v.frameTable[ys.length]? = some fe := by
    rw [← h.entries, getElem?_entries hw, List.getElem?_eq_getElem hp, hxp, Option.bind_some, hfe]
  obtain ⟨htab', hhand', hacc'⟩ := VmState.frameFree_of_getElem? hk hvp hv'
  have hera : xs.eraseIdx ys.length = ys ++ zs := by
    rw [hxs, List.eraseIdx_append_of_length_le (Nat.le_refl _), Nat.sub_self,
      List.eraseIdx_cons_zero]
  have hw'' : c'.Wf (xs.eraseIdx ys.length) := hera ▸ hw'
  have hent' : c'.entries (xs.eraseIdx ys.length) = v'.frameTable := by
    rw [entries_eraseIdx hw hp (hxp ▸ hentry), h.entries, htab']
  refine ⟨xs.eraseIdx ys.length, hw'', hent', by rw [hacc, h.accessed, hacc'], fun hne => ?_⟩
  -- the new start: where the old one's entry, or the next one, now stands
  have hlen : v.frameTable.length = xs.length := h.entries ▸ length_entries hw
  have hxs0 : xs ≠ [] := by simp [hxs]
  have hvn : v.frameTable ≠ [] := by
    rw [← List.length_pos_iff, hlen]
    exact List.length_pos_iff.mpr hxs0
  have h2 : 2 ≤ xs.length := by
    have := List.length_pos_iff.mpr hne
    rw [List.length_eraseIdx_of_lt hp] at this
    omega
  have hi : v.handIndex < xs.length := hlen ▸ VmState.handIndex_lt hvn
  obtain ⟨q, hq, hq0⟩ := exists_getElem?_eraseIdx hi hp h2
  have hqv : (v.frameTable.eraseIdx ys.length)[q]? = v.frameTable[if v.handIndex = ys.length then
      (ys.length + 1) % v.frameTable.length else v.handIndex]? := by
    rw [← h.entries, getElem?_entries_eraseIdx hw, hq, length_entries hw, getElem?_entries hw]
  rw [VmState.handIndex_frameFree hk hvp hqv hq0 htab' hhand']
  have hst : c.clockStart = some xs[v.handIndex] := by
    rw [h.start hxs0, List.getElem?_eq_getElem hi]
  have hnext : some ((zs ++ ys ++ [e]).head (by simp)) = xs[(ys.length + 1) % xs.length]? := by
    rw [← advance_eq (hxs ▸ hw.dlist), ← advance_getElem hw.dlist hp, hxp]
  refine clockStart_frameFree hw hp hi hst hw'' htable ?_ hne hq hq0
  rw [hc', hnext, hxp]

end Free

section Alloc

variable {c : FrameTable} {xs : List ℕ} {v : VmState}

/-- The push at the end of `frame_alloc` of a fresh block `e` on the two models of one table:
the pointer-level table pushes the block, and the two are again one table, unless the table was
empty and the pointer-level hand was left on a freed block other than `e`. -/
theorem pushEntry_refines (h : Abstracts c xs v) (hv : xs ≠ [] → v.HandOnTable) {e : ℕ}
    (he : e ≠ c.table.head ∧ e ≠ c.table.tail ∧ c.entry e = none) (kpage owner upage : ℕ) :
    ∃ c', c.pushEntry kpage (some e) owner upage = some (some kpage, c') ∧
      (Abstracts c' (xs ++ [e]) { v with frameTable := v.frameTable ++ [⟨kpage, upage, owner, false⟩] } ∨
        Stale c') := by
  have hw := h.wf
  obtain ⟨hhd, htl, hfree⟩ := he
  have hxe : e ∉ xs := fun hx => by simpa [hfree] using hw.live e hx
  obtain ⟨heap', hpush, hw'⟩ :=
    hw.push (hw.not_mem_cells hhd htl hfree) ⟨kpage, upage, owner, false⟩
  set c' : FrameTable := { c with heap := heap', blocks := (e, ⟨kpage, upage, owner, false⟩) :: c.blocks }
  refine ⟨c', by simp [pushEntry, hpush, c'], ?_⟩
  have hent' : c'.entries (xs ++ [e]) = v.frameTable ++ [⟨kpage, upage, owner, false⟩] := by
    have hold : ∀ x ∈ xs, c'.entry x = c.entry x := fun x hx => by
      rw [entry_cons (t := c') rfl, if_neg fun hxe' : x = e => hxe (hxe' ▸ hx)]
      rfl
    have hnew : c'.entry e = some ⟨kpage, upage, owner, false⟩ := by
      rw [entry_cons (t := c') rfl, if_pos rfl]
    rw [entries, List.filterMap_append, List.filterMap_congr hold, ← entries, h.entries,
      List.filterMap_cons_some hnew, List.filterMap_nil]
  by_cases hx : xs = []
  · -- an empty table: the new entry is the start, unless the hand is on a freed block
    subst hx
    have hv0 : v.frameTable = [] := h.entries.symm
    have h0 : ({ v with frameTable := v.frameTable ++ [⟨kpage, upage, owner, false⟩] } :
        VmState).handIndex = 0 :=
      Nat.lt_one_iff.mp ((VmState.handIndex_lt
        (s := { v with frameTable := v.frameTable ++ [⟨kpage, upage, owner, false⟩] })
        (by simp)).trans_eq (by simp [hv0]))
    cases hc : c.clockHand with
    | none =>
      refine .inl ⟨hw', hent', h.accessed, fun _ => ?_⟩
      rw [h0]
      exact clockStart_of_off hw' (by simp) (.inl hc)
    | some b =>
      by_cases hbt : b = c.table.tail
      · refine .inl ⟨hw', hent', h.accessed, fun _ => ?_⟩
        rw [h0]
        exact clockStart_of_off hw' (by simp) (.inr (by rw [hc, hbt]))
      by_cases hbe : b = e
      · -- `malloc` handed back the block the hand is on
        subst hbe
        refine .inl ⟨hw', hent', h.accessed, fun _ => ?_⟩
        rw [h0]
        exact clockStart_of_mem hw' (by simp) hc
      · -- a hand on a block that is not live, and not the new one
        right
        have hb : c.entry b = none := by
          cases hb : c.entry b with
          | none => rfl
          | some fb => exact absurd (hw.only b (by rw [hb]; rfl)) List.not_mem_nil
        refine ⟨b, hc, hbt, ?_⟩
        rw [entry_cons (t := c') rfl, if_neg hbe]
        exact hb
  · -- a table with entries: the start stays where it was
    left
    refine ⟨hw', hent', h.accessed, fun _ => ?_⟩
    rw [(hv hx).handIndex_push]
    have hlen : v.frameTable.length = xs.length := h.entries ▸ length_entries hw
    have hi : v.handIndex < xs.length := hlen ▸ VmState.handIndex_lt (by
      rw [← List.length_pos_iff, hlen]
      exact List.length_pos_iff.mpr hx)
    rw [List.getElem?_append_left hi, ← h.start hx]
    -- the hand and the first element are the same on both sides
    have hbegin : listBegin c'.heap c'.table = listBegin c.heap c.table := by
      rw [listBegin_eq_getElem? hw'.dlist (by simp), listBegin_eq_getElem? hw.dlist hx,
        List.getElem?_append_left (List.length_pos_iff.mpr hx)]
    simp only [clockStart, hbegin]
    rfl

/-- The frame `frame_alloc` gets on the two models of one table whose frames are distinct, before
its push: the same frame, from the pool or from `evict_frame`, and the two tables are again one
table, with the hand over `VmState` on an entry unless the table is empty. -/
theorem getFrame_refines (h : Abstracts c xs v) (hk : (v.frameTable.map (·.kpage)).Nodup)
    (hv : v.HandOnTable) {owner upage k : ℕ} {v' : VmState}
    (halloc : v.frameAlloc owner upage = some (k, v')) :
    ∃ c₁ xs₁ v₁, c.getFrame (v.pallocGetPage.map (·.1)) = some (k, c₁) ∧ Abstracts c₁ xs₁ v₁ ∧
      (xs₁ ≠ [] → v₁.HandOnTable) ∧
      v' = { v₁ with frameTable := v₁.frameTable ++ [⟨k, upage, owner, false⟩] } := by
  unfold VmState.frameAlloc at halloc
  cases hpg : v.pallocGetPage with
  | some p =>
    -- a frame from the pool: the table is as it was
    rw [hpg] at halloc
    obtain ⟨k₀, v₁⟩ := p
    rw [Option.some.injEq, Prod.mk.injEq] at halloc
    obtain ⟨rfl, rfl⟩ := halloc
    have hs := VmState.sameFrames_pallocGetPage hpg
    refine ⟨c, xs, v₁, rfl, h.of_sameFrames hs, fun _ k' hk' => ?_, rfl⟩
    rw [hs.frameTable]
    exact hv k' (hs.clockHand ▸ hk')
  | none =>
    -- a frame `evict_frame` freed, the same on both sides
    rw [hpg] at halloc
    dsimp only at halloc
    split at halloc
    · next k₀ v₁ hev =>
      rw [Option.some.injEq, Prod.mk.injEq] at halloc
      obtain ⟨rfl, rfl⟩ := halloc
      obtain ⟨r, c₁, hce, hsim⟩ := evictFrame_refines h hk
      obtain ⟨rfl, xs₁, h₁⟩ := hsim _ _ hev
      refine ⟨c₁, xs₁, v₁, by simp [getFrame, hce], h₁, fun hx => hv.evictFrame hev ?_, rfl⟩
      rw [← h₁.entries, ← List.length_pos_iff, length_entries h₁.wf]
      exact List.length_pos_iff.mpr hx
    · cases halloc

/-- `frame_alloc` on the two models of one table whose frames are distinct and whose hand over
`VmState` is on an entry or `NULL`, with the frame `palloc_get_page` returns over `VmState` and a
block `malloc` hands out fresh: whenever the one over `VmState` returns a frame, the
pointer-level one returns the same frame, and the two tables after it are again one table,
unless the pointer-level hand is left on a freed block that `malloc` did not hand out again. -/
theorem frameAlloc_refines (h : Abstracts c xs v) (hk : (v.frameTable.map (·.kpage)).Nodup)
    (hv : v.HandOnTable) {e owner upage : ℕ}
    (hfresh : (FrameCall.alloc (v.pallocGetPage.map (·.1)) (some e) owner upage).fresh c = true)
    {k : ℕ} {v' : VmState} (halloc : v.frameAlloc owner upage = some (k, v')) :
    ∃ c', c.frameAlloc (v.pallocGetPage.map (·.1)) (some e) owner upage = some (some k, c') ∧
      ((∃ xs', Abstracts c' xs' v') ∨ Stale c') := by
  obtain ⟨c₁, xs₁, v₁, hget, h₁, hv₁, rfl⟩ := getFrame_refines h hk hv halloc
  -- `malloc`'s block is fresh once the frame is found
  have he : e ≠ c₁.table.head ∧ e ≠ c₁.table.tail ∧ c₁.entry e = none := by
    simpa only [FrameCall.fresh, hget, Bool.and_eq_true, bne_iff_ne, ne_eq,
      Option.isNone_iff_eq_none, and_assoc] using hfresh
  obtain ⟨c', hpush, hres⟩ := pushEntry_refines h₁ hv₁ he k owner upage
  refine ⟨c', by rw [frameAlloc, hget, Option.bind_some]; exact hpush, ?_⟩
  rcases hres with hres | hres
  · exact .inl ⟨_, hres⟩
  · exact .inr hres

end Alloc

end Clock

end Pintos
