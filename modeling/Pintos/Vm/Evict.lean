import Pintos.Vm.Frame
import Mathlib.Data.List.Rotate

/-! # The clock algorithm of `evict_frame`

The loop of `evict_frame` visits the frames from the clock hand on, round
the table, for at most two sweeps. An unpinned frame whose page was accessed
loses its accessed bit; the first unpinned one whose page was not is the
victim. `clockChoice` says which frame that is, as a position after the hand,
and `clockCleared` whose bits are cleared on the way: the first unpinned frame
whose bit was clear, or, when every unpinned frame had its bit set, the first
unpinned frame after one sweep has cleared them all. When the frames'
`(owner, upage)` pairs are distinct, the loop does exactly that
(`clockLoop_eq`). With a free swap slot `evict_frame` returns, and returns `NULL`
exactly when every frame is pinned (`evict_frame_choice`); with the swap table
full, `swap_out` PANICs on a victim that has to go to swap.
-/

namespace Pintos

namespace VmState

section Spec

variable (s : VmState)

/-- The frames in the order the clock visits them: from the hand, once round the table. -/
def fromHand : List FrameEntry := s.frameTable.rotate s.handIndex

/-- The first frame after the hand that is unpinned and whose page was not accessed. -/
def firstClear : Option ℕ := s.fromHand.findIdx? fun f => !f.pinned && !s.isAccessed f.owner f.upage

/-- The frame the clock evicts, as a position after the hand: the first unpinned frame whose
accessed bit is clear, or else the first unpinned frame. -/
def clockChoice : Option ℕ := s.firstClear.or (s.fromHand.findIdx? fun f => !f.pinned)

/-- The frames whose accessed bits the clock clears on its way: the unpinned frames before its
choice, or all unpinned frames when it needed a full sweep. -/
def clockCleared : List FrameEntry :=
  match s.firstClear with
  | some j => (s.fromHand.take j).filter (!·.pinned)
  | none => s.fromHand.filter (!·.pinned)

/-- The accessed bit of each frame of `fs` cleared, in order. -/
def clearAll (fs : List FrameEntry) : VmState :=
  fs.foldl (fun s f => s.clearAccessed f.owner f.upage) s

/-- The state `evict_frame` hands to its SPT half once the clock has chosen the frame `victim` at
table position `i`: the bits of `clockCleared` cleared, the victim's page-table entry cleared,
the hand on the next frame, and the victim out of `frame_table`. -/
def clockEvicted (i : ℕ) (victim : FrameEntry) : VmState :=
  let s₁ := (s.clearAll s.clockCleared).modifyProc victim.owner fun q =>
    { q with pagedir := pagedirClearPage q.pagedir victim.upage }
  { s₁ with clockHand := nextHand s.frameTable i, frameTable := s.frameTable.eraseIdx i }

/-- `swap_out` has a slot to give: some bit of the swap table is clear. -/
def SwapFree : Prop := ∃ slot, slot < s.swapTable.bitCnt ∧ s.swapTable.test slot = false

end Spec

end VmState

section Pte

variable {pd : List Pte} {f : Pte → Pte}

/-- Updating the entries of `upage` with a map that keeps the page leaves other pages' alone. -/
theorem pteOf_updatePte_of_ne (hf : ∀ e, (f e).upage = e.upage) {u u' : ℕ} (hu : u' ≠ u) :
    pteOf (updatePte pd u f) u' = pteOf pd u' := by
  induction pd with
  | nil => rfl
  | cons e es ih =>
    simp only [pteOf, updatePte, List.map_cons, List.find?_cons] at ih ⊢
    by_cases he : e.upage = u
    · -- neither the updated entry nor the old one is for `u'`
      have h₁ : ((f e).upage == u') = false := by rw [hf, he]; exact beq_false_of_ne hu.symm
      have h₂ : (e.upage == u') = false := by rw [he]; exact beq_false_of_ne hu.symm
      rw [if_pos he, h₁, h₂]
      exact ih
    · rw [if_neg he]
      cases e.upage == u'
      · exact ih
      · rfl

theorem pteOf_updatePte_self (hf : ∀ e, (f e).upage = e.upage) (u : ℕ) :
    pteOf (updatePte pd u f) u = (pteOf pd u).map f := by
  induction pd with
  | nil => rfl
  | cons e es ih =>
    simp only [pteOf, updatePte, List.map_cons, List.find?_cons] at ih ⊢
    by_cases he : e.upage = u
    · rw [if_pos he, hf, he, beq_self_eq_true]
      rfl
    · rw [if_neg he, beq_false_of_ne he]
      exact ih

end Pte

namespace VmState

section Bits

variable {s : VmState}

@[simp] theorem frameTable_clearAccessed (p u : ℕ) :
    (s.clearAccessed p u).frameTable = s.frameTable := rfl

/-- `pagedir_set_accessed (pd, upage, false)` clears that page's bit and no other. -/
theorem isAccessed_clearAccessed (p u p' u' : ℕ) :
    (s.clearAccessed p u).isAccessed p' u' =
      if p' = p ∧ u' = u then false else s.isAccessed p' u' := by
  have hf : ∀ e : Pte, ({ e with accessed := false } : Pte).upage = e.upage := fun _ => rfl
  unfold clearAccessed isAccessed modifyProc
  rw [proc_setProc]
  by_cases hp : p' = p
  · subst hp
    by_cases hu : u' = u
    · subst hu
      simp [pagedirIsAccessed, pagedirSetAccessed, pteOf_updatePte_self hf]
      cases pteOf (s.proc p').pagedir u' <;> rfl
    · simp [pagedirIsAccessed, pagedirSetAccessed, pteOf_updatePte_of_ne hf hu, hu]
  · simp [hp]

@[simp] theorem frameTable_clearAll (fs : List FrameEntry) :
    (s.clearAll fs).frameTable = s.frameTable := by
  induction fs generalizing s with
  | nil => rfl
  | cons f fs ih => exact ih

@[simp] theorem swapTable_clearAll (fs : List FrameEntry) :
    (s.clearAll fs).swapTable = s.swapTable := by
  induction fs generalizing s with
  | nil => rfl
  | cons f fs ih => exact ih

theorem isAccessed_clearAll_of_not_mem {fs : List FrameEntry} {p u : ℕ}
    (h : ∀ f ∈ fs, ¬ (f.owner = p ∧ f.upage = u)) : (s.clearAll fs).isAccessed p u = s.isAccessed p u := by
  induction fs generalizing s with
  | nil => rfl
  | cons f fs ih =>
    have hf := h f List.mem_cons_self
    rw [clearAll, List.foldl_cons, ← clearAll, ih fun g hg => h g (List.mem_cons_of_mem f hg),
      isAccessed_clearAccessed, if_neg fun hpu => hf ⟨hpu.1.symm, hpu.2.symm⟩]

theorem isAccessed_clearAll_of_mem {fs : List FrameEntry} {p u : ℕ}
    (h : ∃ f ∈ fs, f.owner = p ∧ f.upage = u) : (s.clearAll fs).isAccessed p u = false := by
  induction fs generalizing s with
  | nil => simp at h
  | cons g fs ih =>
    rw [clearAll, List.foldl_cons, ← clearAll]
    by_cases hin : ∃ f ∈ fs, f.owner = p ∧ f.upage = u
    · exact ih hin
    · -- the last clear of the page is the one of `g`
      rw [isAccessed_clearAll_of_not_mem fun f hf h' => hin ⟨f, hf, h'⟩]
      obtain ⟨f, hf, hpu⟩ := h
      rcases List.mem_cons.mp hf with rfl | hf
      · rw [isAccessed_clearAccessed, if_pos ⟨hpu.1.symm, hpu.2.symm⟩]
      · exact absurd ⟨f, hf, hpu⟩ hin

end Bits

section Loop

variable {s : VmState}

theorem handIndex_lt (hn : s.frameTable ≠ []) : s.handIndex < s.frameTable.length := by
  have hpos := List.length_pos_iff.mpr hn
  unfold handIndex
  split
  · cases h : s.frameTable.findIdx? fun e => e.kpage == _ with
    | none => exact hpos
    | some i => exact (List.findIdx?_eq_some_iff_getElem.mp h).1
  · exact hpos

/-- The clock stops on an unpinned frame whose page was not accessed. -/
theorem clockLoop_stop {i : ℕ} {f : FrameEntry} (hf : s.frameTable[i]? = some f)
    (hp : f.pinned = false) (ha : s.isAccessed f.owner f.upage = false) (fuel : ℕ) :
    s.clockLoop i (fuel + 1) = (s, some i) := by
  simp [clockLoop, hf, hp, ha]

/-- A stretch of frames each pinned or accessed, with distinct pages: the clock passes them and
clears the bits of the unpinned ones. -/
theorem clockLoop_pass : ∀ (ps : List FrameEntry) {s : VmState} {i : ℕ} (fuel : ℕ),
    i < s.frameTable.length →
    (∀ k < ps.length, s.frameTable[(i + k) % s.frameTable.length]? = ps[k]?) →
    (ps.map fun f => (f.owner, f.upage)).Nodup →
    (∀ f ∈ ps, f.pinned = true ∨ s.isAccessed f.owner f.upage = true) →
    s.clockLoop i (ps.length + fuel) =
      (s.clearAll (ps.filter (!·.pinned))).clockLoop ((i + ps.length) % s.frameTable.length) fuel
  | [], s, i, fuel, hi, _, _, _ => by simp [clearAll, Nat.mod_eq_of_lt hi]
  | p :: ps, s, i, fuel, hi, hat, hnd, hpass => by
    have hp : s.frameTable[i]? = some p := by
      simpa [Nat.mod_eq_of_lt hi] using hat 0 (by simp)
    have hi' : (i + 1) % s.frameTable.length < s.frameTable.length := Nat.mod_lt _ (by omega)
    have hidx : ((i + 1) % s.frameTable.length + ps.length) % s.frameTable.length =
        (i + (ps.length + 1)) % s.frameTable.length := by
      rw [Nat.mod_add_mod]
      congr 1
      omega
    have hat' : ∀ k < ps.length,
        s.frameTable[((i + 1) % s.frameTable.length + k) % s.frameTable.length]? = ps[k]? := by
      intro k hk
      rw [Nat.mod_add_mod, show i + 1 + k = i + (k + 1) by omega]
      exact hat (k + 1) (by simp; omega)
    obtain ⟨hpps, hnd'⟩ := List.nodup_cons.mp hnd
    rw [List.length_cons, show ps.length + 1 + fuel = (ps.length + fuel) + 1 by omega]
    cases hpin : p.pinned
    · -- an unpinned frame passed: its page was accessed, and its bit is cleared
      have ha : s.isAccessed p.owner p.upage = true :=
        (hpass p List.mem_cons_self).resolve_left (by simp [hpin])
      have hacc : ∀ f ∈ ps, (s.clearAccessed p.owner p.upage).isAccessed f.owner f.upage =
          s.isAccessed f.owner f.upage := fun f hf => by
        rw [isAccessed_clearAccessed, if_neg]
        rintro ⟨ho, hu⟩
        exact hpps (List.mem_map.mpr ⟨f, hf, by rw [ho, hu]⟩)
      have ih := clockLoop_pass ps (s := s.clearAccessed p.owner p.upage) fuel hi' hat' hnd'
        fun f hf => by rw [hacc f hf]; exact hpass f (List.mem_cons_of_mem p hf)
      simp only [clockLoop, hp, hpin, ha, Bool.not_false, if_true]
      rw [ih, List.filter_cons_of_pos (by simp [hpin]), frameTable_clearAccessed, hidx]
      rfl
    · have ih := clockLoop_pass ps (s := s) fuel hi' hat' hnd'
        fun f hf => hpass f (List.mem_cons_of_mem p hf)
      simp only [clockLoop, hp, hpin, Bool.not_true, Bool.false_eq_true, if_false]
      rw [ih, List.filter_cons_of_neg (by simp [hpin]), hidx]

end Loop

section Sweep

variable {s : VmState}

theorem length_fromHand : s.fromHand.length = s.frameTable.length := List.length_rotate _ _

/-- The frames from the hand on are the table's frames from the hand's position, round. -/
theorem getElem?_fromHand {k : ℕ} (hk : k < s.frameTable.length) :
    s.frameTable[(s.handIndex + k) % s.frameTable.length]? = s.fromHand[k]? := by
  rw [fromHand, List.getElem?_rotate hk, Nat.add_comm]

theorem getElem?_fromHand_take (j : ℕ) :
    ∀ k < (s.fromHand.take j).length,
      s.frameTable[(s.handIndex + k) % s.frameTable.length]? = (s.fromHand.take j)[k]? := by
  intro k hk
  have hk' : k < j ∧ k < s.frameTable.length :=
    Nat.lt_min.mp (by simpa [length_fromHand] using hk)
  rw [List.getElem?_take_of_lt hk'.1, getElem?_fromHand hk'.2]

/-- A frame before position `j` is some `fromHand[k]` with `k < j`. -/
theorem exists_of_mem_take {j : ℕ} {f : FrameEntry} (hf : f ∈ s.fromHand.take j) :
    ∃ k, ∃ hk : k < s.fromHand.length, k < j ∧ s.fromHand[k] = f := by
  obtain ⟨k, hk, rfl⟩ := List.mem_iff_getElem.mp hf
  have hk' : k < j ∧ k < s.fromHand.length := Nat.lt_min.mp (by simpa using hk)
  exact ⟨k, hk'.2, hk'.1, by rw [List.getElem_take]⟩

section Distinct

variable (hd : (s.fromHand.map fun f => (f.owner, f.upage)).Nodup)
include hd

/-- Frames at different positions after the hand have different pages. -/
theorem page_ne_of_ne {k j : ℕ} (hk : k < s.fromHand.length) (hj : j < s.fromHand.length)
    (hkj : k ≠ j) : ¬ (s.fromHand[k].owner = s.fromHand[j].owner ∧
      s.fromHand[k].upage = s.fromHand[j].upage) := by
  rintro ⟨ho, hu⟩
  have hk' : k < (s.fromHand.map fun f => (f.owner, f.upage)).length := by simpa using hk
  have hj' : j < (s.fromHand.map fun f => (f.owner, f.upage)).length := by simpa using hj
  have heq : (s.fromHand.map fun f => (f.owner, f.upage))[k] =
      (s.fromHand.map fun f => (f.owner, f.upage))[j] := by
    simp [ho, hu]
  exact hkj (hd.getElem_inj_iff.mp heq)

/-- No frame before position `j` has the page of the frame at `j`. -/
theorem page_ne_of_mem_take {j : ℕ} (hj : j < s.fromHand.length) {f : FrameEntry}
    (hf : f ∈ s.fromHand.take j) : ¬ (f.owner = s.fromHand[j].owner ∧ f.upage = s.fromHand[j].upage) := by
  obtain ⟨k, hk, hkj, rfl⟩ := exists_of_mem_take hf
  exact page_ne_of_ne hd hk hj (Nat.ne_of_lt hkj)

end Distinct

/-- A frame the clock does not stop on is pinned or accessed. -/
theorem pinned_or_accessed {f : FrameEntry} {a : Bool} (h : (!f.pinned && !a) = false) :
    f.pinned = true ∨ a = true := by
  cases hp : f.pinned <;> cases a <;> simp_all

/-- The loop of `evict_frame` from the hand for two sweeps, over frames with distinct pages: it
clears the bits of `clockCleared` and stops on the frame `clockChoice` names, if any. -/
theorem clockLoop_eq (hn : s.frameTable ≠ [])
    (hd : (s.frameTable.map fun f => (f.owner, f.upage)).Nodup) :
    s.clockLoop s.handIndex (2 * s.frameTable.length) =
      (s.clearAll s.clockCleared,
        s.clockChoice.map fun j => (s.handIndex + j) % s.frameTable.length) := by
  have hh := handIndex_lt hn
  have hlen : s.fromHand.length = s.frameTable.length := length_fromHand
  have hnd : (s.fromHand.map fun f => (f.owner, f.upage)).Nodup :=
    ((List.rotate_perm _ _).map _).nodup_iff.mpr hd
  have hat : ∀ k < s.fromHand.length,
      s.frameTable[(s.handIndex + k) % s.frameTable.length]? = s.fromHand[k]? :=
    fun k hk => getElem?_fromHand (hlen ▸ hk)
  unfold clockCleared clockChoice
  cases hc : s.firstClear with
  | some j =>
    -- the first sweep reaches an unpinned frame whose bit is clear
    obtain ⟨hj, hjf, hbefore⟩ := List.findIdx?_eq_some_iff_getElem.mp hc
    simp only [Bool.and_eq_true, Bool.not_eq_true'] at hjf
    have hpl : (s.fromHand.take j).length = j := by simp; omega
    have hpass : ∀ f ∈ s.fromHand.take j,
        f.pinned = true ∨ s.isAccessed f.owner f.upage = true := by
      intro f hf
      obtain ⟨k, hk, hkj, rfl⟩ := exists_of_mem_take hf
      exact pinned_or_accessed (Bool.eq_false_iff.mpr (hbefore k hkj))
    have hloop := clockLoop_pass (s.fromHand.take j) (2 * s.frameTable.length - j) hh
      (getElem?_fromHand_take j) (hnd.sublist ((List.take_sublist _ _).map _)) hpass
    rw [hpl, show j + (2 * s.frameTable.length - j) = 2 * s.frameTable.length by omega] at hloop
    obtain ⟨m, hm⟩ : ∃ m, 2 * s.frameTable.length - j = m + 1 := ⟨2 * s.frameTable.length - j - 1, by omega⟩
    have hvictim : (s.clearAll ((s.fromHand.take j).filter (!·.pinned))).frameTable[
        (s.handIndex + j) % s.frameTable.length]? = some s.fromHand[j] := by
      rw [frameTable_clearAll, getElem?_fromHand (hlen ▸ hj), List.getElem?_eq_getElem hj]
    have hacc : (s.clearAll ((s.fromHand.take j).filter (!·.pinned))).isAccessed
        s.fromHand[j].owner s.fromHand[j].upage = false := by
      rw [isAccessed_clearAll_of_not_mem fun f hf =>
        page_ne_of_mem_take hnd hj (List.mem_of_mem_filter hf)]
      exact hjf.2
    rw [hloop, hm, clockLoop_stop hvictim hjf.1 hacc]
    rfl
  | none =>
    -- every unpinned frame was accessed: the first sweep clears them all
    have hall : ∀ f ∈ s.fromHand, f.pinned = true ∨ s.isAccessed f.owner f.upage = true := by
      intro f hf
      exact pinned_or_accessed (List.findIdx?_eq_none_iff.mp hc f hf)
    have h₂ : (s.clearAll (s.fromHand.filter (!·.pinned))).frameTable = s.frameTable :=
      frameTable_clearAll _
    have hround : (s.handIndex + s.frameTable.length) % s.frameTable.length = s.handIndex := by
      rw [Nat.add_mod_right, Nat.mod_eq_of_lt hh]
    have hsweep := clockLoop_pass s.fromHand s.frameTable.length hh hat hnd hall
    rw [hlen, hround, ← Nat.two_mul] at hsweep
    rw [hsweep]
    cases hu : s.fromHand.findIdx? (!·.pinned) with
    | some j =>
      -- the second sweep stops on the first unpinned frame
      obtain ⟨hj, hjf, hbefore⟩ := List.findIdx?_eq_some_iff_getElem.mp hu
      have hjp : s.fromHand[j].pinned = false := by simpa using hjf
      have hpl : (s.fromHand.take j).length = j := by simp; omega
      have hpinned : ∀ f ∈ s.fromHand.take j, f.pinned = true := by
        intro f hf
        obtain ⟨k, hk, hkj, rfl⟩ := exists_of_mem_take hf
        simpa using hbefore k hkj
      have hloop := clockLoop_pass (s := s.clearAll (s.fromHand.filter (!·.pinned)))
        (s.fromHand.take j) (s.frameTable.length - j)
        (h₂ ▸ hh) (h₂ ▸ getElem?_fromHand_take j) (hnd.sublist ((List.take_sublist _ _).map _))
        fun f hf => .inl (hpinned f hf)
      have hnone : (s.fromHand.take j).filter (!·.pinned) = [] :=
        List.filter_eq_nil_iff.mpr fun f hf => by simp [hpinned f hf]
      rw [hpl, hnone, h₂, show j + (s.frameTable.length - j) = s.frameTable.length by omega]
        at hloop
      obtain ⟨m, hm⟩ : ∃ m, s.frameTable.length - j = m + 1 := ⟨s.frameTable.length - j - 1, by omega⟩
      have hvictim : (s.clearAll (s.fromHand.filter (!·.pinned))).frameTable[
          (s.handIndex + j) % s.frameTable.length]? = some s.fromHand[j] := by
        rw [h₂, getElem?_fromHand (hlen ▸ hj), List.getElem?_eq_getElem hj]
      have hacc : (s.clearAll (s.fromHand.filter (!·.pinned))).isAccessed s.fromHand[j].owner
          s.fromHand[j].upage = false :=
        isAccessed_clearAll_of_mem ⟨s.fromHand[j], List.mem_filter.mpr ⟨List.getElem_mem hj,
          by simp [hjp]⟩, rfl, rfl⟩
      rw [hloop, hm]
      exact clockLoop_stop hvictim hjp hacc m
    | none =>
      -- every frame is pinned: two sweeps change nothing
      have hpinned : ∀ f ∈ s.fromHand, f.pinned = true := by
        intro f hf
        simpa using List.findIdx?_eq_none_iff.mp hu f hf
      have hnone : s.fromHand.filter (!·.pinned) = [] :=
        List.filter_eq_nil_iff.mpr fun f hf => by simp [hpinned f hf]
      have hloop := clockLoop_pass (s := s) s.fromHand 0 hh hat hnd fun f hf => .inl (hpinned f hf)
      rw [hlen, hnone, hround] at hloop
      rw [hnone]
      exact hloop

end Sweep

section Evict

variable {s : VmState}

theorem clockChoice_eq_none_iff : s.clockChoice = none ↔ ∀ f ∈ s.frameTable, f.pinned = true := by
  have hmem : ∀ f, f ∈ s.fromHand ↔ f ∈ s.frameTable := fun f => (List.rotate_perm _ _).mem_iff
  unfold clockChoice firstClear
  rw [Option.or_eq_none_iff, List.findIdx?_eq_none_iff, List.findIdx?_eq_none_iff]
  constructor
  · rintro ⟨-, h⟩ f hf
    simpa using h f ((hmem f).mpr hf)
  · intro h
    refine ⟨fun f hf => ?_, fun f hf => ?_⟩ <;> simp [h f ((hmem f).mp hf)]

/-- The frame the clock chooses is unpinned. -/
theorem pinned_of_clockChoice {j : ℕ} (h : s.clockChoice = some j) :
    ∃ hj : j < s.fromHand.length, s.fromHand[j].pinned = false := by
  unfold clockChoice at h
  cases hc : s.firstClear with
  | some j' =>
    rw [hc, Option.some_or, Option.some.injEq] at h
    subst h
    obtain ⟨hj, hjf, -⟩ := List.findIdx?_eq_some_iff_getElem.mp hc
    simp only [Bool.and_eq_true, Bool.not_eq_true'] at hjf
    exact ⟨hj, hjf.1⟩
  | none =>
    rw [hc, Option.none_or] at h
    obtain ⟨hj, hjf, -⟩ := List.findIdx?_eq_some_iff_getElem.mp h
    exact ⟨hj, by simpa using hjf⟩

theorem clockCleared_of_pinned (h : ∀ f ∈ s.frameTable, f.pinned = true) : s.clockCleared = [] := by
  have hmem : ∀ f ∈ s.fromHand, f.pinned = true := fun f hf =>
    h f ((List.rotate_perm _ _).mem_iff.mp hf)
  unfold clockCleared
  split
  · exact List.filter_eq_nil_iff.mpr fun f hf => by simp [hmem f (List.mem_of_mem_take hf)]
  · exact List.filter_eq_nil_iff.mpr fun f hf => by simp [hmem f hf]

/-- `evict_frame` over frames with distinct pages: the clock's choice, and then its SPT half on
the state `clockEvicted` describes. -/
theorem evictFrame_eq (hn : s.frameTable ≠ [])
    (hd : (s.frameTable.map fun f => (f.owner, f.upage)).Nodup) :
    s.evictFrame = match s.clockChoice with
      | none => some (none, s.clearAll s.clockCleared)
      | some j =>
        match s.frameTable[(s.handIndex + j) % s.frameTable.length]? with
        | some victim =>
          (s.clockEvicted ((s.handIndex + j) % s.frameTable.length) victim).evictSpt victim
            (pagedirIsDirty ((s.clearAll s.clockCleared).proc victim.owner).pagedir victim.upage)
        | none => some (none, s.clearAll s.clockCleared) := by
  unfold evictFrame
  rw [if_neg hn, clockLoop_eq hn hd]
  cases s.clockChoice with
  | none => rfl
  | some j =>
    dsimp only [Option.map_some]
    rw [frameTable_clearAll]
    cases s.frameTable[(s.handIndex + j) % s.frameTable.length]? with
    | none => rfl
    | some victim => simp only [clockEvicted, modifyProc, frameTable_setProc, frameTable_clearAll]

/-- The frame table, the hand and every page directory are the same. -/
structure SameFrames (s s' : VmState) : Prop where
  frameTable : s'.frameTable = s.frameTable
  clockHand : s'.clockHand = s.clockHand
  pagedir : ∀ p, (s'.proc p).pagedir = (s.proc p).pagedir

theorem SameFrames.refl (s : VmState) : SameFrames s s := ⟨rfl, rfl, fun _ => rfl⟩

theorem SameFrames.trans {s₁ s₂ s₃ : VmState} (h₁ : SameFrames s₁ s₂) (h₂ : SameFrames s₂ s₃) :
    SameFrames s₁ s₃ :=
  ⟨h₂.frameTable.trans h₁.frameTable, h₂.clockHand.trans h₁.clockHand,
    fun p => (h₂.pagedir p).trans (h₁.pagedir p)⟩

theorem sameFrames_updateEntry (s : VmState) (p upage : ℕ) (f : SptEntry → SptEntry) :
    SameFrames s (s.updateEntry p upage f) := by
  refine ⟨rfl, rfl, fun p' => ?_⟩
  simp only [updateEntry, modifyProc, proc_setProc]
  split
  · next h => rw [h]
  · rfl

theorem sameFrames_swapOut {k slot : ℕ} {s' : VmState} (h : s.swapOut k = some (slot, s')) :
    SameFrames s s' := by
  unfold swapOut at h
  obtain ⟨⟨slot', table⟩, -, h⟩ := Option.map_eq_some_iff.mp h
  rw [Prod.mk.injEq] at h
  rw [← h.2]
  exact ⟨rfl, rfl, fun _ => rfl⟩

/-- The SPT half of `evict_frame` returns the victim's frame and changes no frame entry, no
page-table entry and not the hand. -/
theorem evictSpt_spec {victim : FrameEntry} {dirty : Bool} {r : Option ℕ} {s' : VmState}
    (h : s.evictSpt victim dirty = some (r, s')) : r = some victim.kpage ∧ SameFrames s s' := by
  unfold evictSpt at h
  split at h
  · rw [Option.some.injEq, Prod.mk.injEq] at h
    obtain ⟨rfl, rfl⟩ := h
    exact ⟨rfl, .refl s⟩
  · have h₁ := sameFrames_updateEntry s victim.owner victim.upage
      ({ · with loaded := false, kpage := none })
    split at h
    · rw [Option.some.injEq, Prod.mk.injEq] at h
      obtain ⟨rfl, rfl⟩ := h
      exact ⟨rfl, h₁.trans (sameFrames_updateEntry _ _ _ _)⟩
    · split at h
      · obtain ⟨⟨slot, s₂⟩, hsw, h⟩ := Option.map_eq_some_iff.mp h
        rw [Prod.mk.injEq] at h
        obtain ⟨rfl, rfl⟩ := h
        exact ⟨rfl, (h₁.trans (sameFrames_swapOut hsw)).trans (sameFrames_updateEntry _ _ _ _)⟩
      · rw [Option.some.injEq, Prod.mk.injEq] at h
        obtain ⟨rfl, rfl⟩ := h
        exact ⟨rfl, h₁⟩

/-- With a free slot `swap_out` does not PANIC. -/
theorem SwapFree.swapOut_isSome (h : s.SwapFree) (k : ℕ) : (s.swapOut k).isSome := by
  obtain ⟨slot, hlt, hf⟩ := h
  rw [swapOut, Option.isSome_map]
  exact Bitmap.scanAndFlip_isSome hlt hf

/-- With a free swap slot the SPT half of `evict_frame` returns, whichever way the victim goes. -/
theorem SwapFree.evictSpt_isSome (h : s.SwapFree) (victim : FrameEntry) (dirty : Bool) :
    (s.evictSpt victim dirty).isSome := by
  unfold evictSpt
  split
  · rfl
  · split
    · rfl
    · split
      · -- marking the entry not loaded leaves the swap table as it was
        rw [Option.isSome_map]
        exact SwapFree.swapOut_isSome (s := s.updateEntry _ _ _) h _
      · rfl

/-- With a free swap slot `evict_frame` returns. -/
theorem SwapFree.evictFrame_isSome (h : s.SwapFree) (hn : s.frameTable ≠ [])
    (hd : (s.frameTable.map fun f => (f.owner, f.upage)).Nodup) : s.evictFrame.isSome := by
  rw [evictFrame_eq hn hd]
  cases s.clockChoice with
  | none => rfl
  | some j =>
    dsimp only
    cases s.frameTable[(s.handIndex + j) % s.frameTable.length]? with
    | none => rfl
    | some victim =>
      have hc : (s.clockEvicted ((s.handIndex + j) % s.frameTable.length) victim).SwapFree := by
        simpa only [SwapFree, clockEvicted, modifyProc, swapTable_setProc, swapTable_clearAll]
          using h
      exact hc.evictSpt_isSome victim _

/-- On a table where every frame is pinned `evict_frame` gives no frame and changes nothing. -/
theorem evictFrame_of_pinned (hn : s.frameTable ≠ [])
    (hd : (s.frameTable.map fun f => (f.owner, f.upage)).Nodup)
    (h : ∀ f ∈ s.frameTable, f.pinned = true) : s.evictFrame = some (none, s) := by
  rw [evictFrame_eq hn hd, clockChoice_eq_none_iff.mpr h, clockCleared_of_pinned h]
  rfl

/-- When the clock chooses, the frame it chooses is unpinned, and if `evict_frame` returns, it
returns that frame in the state `clockEvicted` describes. -/
theorem evictFrame_of_clockChoice (hn : s.frameTable ≠ [])
    (hd : (s.frameTable.map fun f => (f.owner, f.upage)).Nodup) {j : ℕ}
    (hj : s.clockChoice = some j) :
    ∃ victim, s.frameTable[(s.handIndex + j) % s.frameTable.length]? = some victim ∧
      victim.pinned = false ∧
      ∀ r s', s.evictFrame = some (r, s') → r = some victim.kpage ∧
        SameFrames (s.clockEvicted ((s.handIndex + j) % s.frameTable.length) victim) s' := by
  obtain ⟨hjl, hp⟩ := pinned_of_clockChoice hj
  have hv := getElem?_fromHand (s := s) (length_fromHand (s := s) ▸ hjl)
  rw [List.getElem?_eq_getElem hjl] at hv
  refine ⟨_, hv, hp, fun r s' h => ?_⟩
  rw [evictFrame_eq hn hd, hj] at h
  dsimp only at h
  rw [hv] at h
  exact evictSpt_spec h

/-- `evict_frame` on a table of distinct pages, with a free swap slot: it returns, and gives no
frame exactly when every frame is pinned, and then changes nothing; otherwise it gives the frame
the clock chooses, which is unpinned, and leaves the frame table, the hand and the page
directories as `clockEvicted` says. -/
theorem evict_frame_choice (hn : s.frameTable ≠ [])
    (hd : (s.frameTable.map fun f => (f.owner, f.upage)).Nodup) (hswap : s.SwapFree) :
    (∃ r s', s.evictFrame = some (r, s') ∧ (r = none ↔ ∀ f ∈ s.frameTable, f.pinned = true)) ∧
      ((∀ f ∈ s.frameTable, f.pinned = true) → s.evictFrame = some (none, s)) ∧
      ∀ j, s.clockChoice = some j →
        ∃ victim, s.frameTable[(s.handIndex + j) % s.frameTable.length]? = some victim ∧
          victim.pinned = false ∧ ∃ s', s.evictFrame = some (some victim.kpage, s') ∧
            SameFrames (s.clockEvicted ((s.handIndex + j) % s.frameTable.length) victim) s' := by
  obtain ⟨⟨r, s'⟩, he⟩ := Option.isSome_iff_exists.mp (hswap.evictFrame_isSome hn hd)
  refine ⟨⟨r, s', he, fun hr => ?_, fun hp => ?_⟩, evictFrame_of_pinned hn hd, fun j hj => ?_⟩
  · -- a frame that is not pinned makes the clock choose, and then a frame is returned
    by_contra hp
    obtain ⟨j, hj⟩ := Option.ne_none_iff_exists'.mp (mt clockChoice_eq_none_iff.mp hp)
    obtain ⟨victim, -, -, hr'⟩ := evictFrame_of_clockChoice hn hd hj
    exact Option.some_ne_none _ ((hr' r s' he).1.symm.trans hr)
  · rw [evictFrame_of_pinned hn hd hp, Option.some.injEq, Prod.mk.injEq] at he
    exact he.1.symm
  · obtain ⟨victim, hv, hp, hr⟩ := evictFrame_of_clockChoice hn hd hj
    obtain ⟨rfl, hsame⟩ := hr r s' he
    exact ⟨victim, hv, hp, s', he, hsame⟩

/-- Two frames of two processes, the first pinned, the hand on neither; the second holds a
writable zero page of process 1, which eviction writes to swap. -/
def swapFrames (swapTable : Bitmap) : VmState where
  procs p := if p = 1 then ⟨[⟨0x2000, some 11, .zero, true, true, 0, 0, 0, -1⟩], [], .user⟩
    else ⟨[], [], .user⟩
  frames _ := 0
  userPool := Bitmap.create 2
  frameTable := [⟨10, 0x1000, 0, true⟩, ⟨11, 0x2000, 1, false⟩]
  clockHand := none
  swapTable := swapTable
  swapData _ := 0
  panicked := false
  expected _ _ := 0

/-- Slot 0 of two in use. -/
def halfSwap : VmState := swapFrames ((Bitmap.create 2).set 0 true)

/-- The one slot in use. -/
def fullSwap : VmState := swapFrames ((Bitmap.create 1).set 0 true)

/-- The page goes to slot 1. -/
theorem evict_frame_choice_halfSwap :
    halfSwap.frameTable ≠ [] ∧ (halfSwap.frameTable.map fun f => (f.owner, f.upage)).Nodup ∧
      halfSwap.SwapFree ∧
      (∃ r s', halfSwap.evictFrame = some (r, s') ∧
        (r = none ↔ ∀ f ∈ halfSwap.frameTable, f.pinned = true)) ∧
      ((∀ f ∈ halfSwap.frameTable, f.pinned = true) → halfSwap.evictFrame = some (none, halfSwap)) ∧
      ∀ j, halfSwap.clockChoice = some j →
        ∃ victim, halfSwap.frameTable[(halfSwap.handIndex + j) % halfSwap.frameTable.length]? =
            some victim ∧ victim.pinned = false ∧
          ∃ s', halfSwap.evictFrame = some (some victim.kpage, s') ∧
            SameFrames (halfSwap.clockEvicted
              ((halfSwap.handIndex + j) % halfSwap.frameTable.length) victim) s' :=
  ⟨by decide, by decide, ⟨1, by decide, rfl⟩,
    evict_frame_choice (by decide) (by decide) ⟨1, by decide, rfl⟩⟩

/-- Evicting the writable page PANICs in `swap_out`: the table is not all pinned, yet
`evict_frame` does not return. -/
theorem evict_frame_full_swap :
    fullSwap.frameTable ≠ [] ∧ (fullSwap.frameTable.map fun f => (f.owner, f.upage)).Nodup ∧
      ¬ (∀ f ∈ fullSwap.frameTable, f.pinned = true) ∧ fullSwap.evictFrame = none :=
  ⟨by decide, by decide, by decide, rfl⟩

end Evict


end VmState

end Pintos
