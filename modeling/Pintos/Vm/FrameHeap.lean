import Pintos.Vm.Clock
import Pintos.Threads.MallocHeap

/-! # The frame table's entries on the kernel heap

`frame_alloc` takes each `struct frame_entry` from `malloc`, and `evict_frame`
and `frame_free` give it back with `free`. `Clock.frameSystem` leaves the block
`malloc` returns to whoever runs it, asking only that it be fresh. Here the
frame table runs on the heap of `threads/malloc.c`, which the rest of the kernel
shares: `frame_alloc` calls `malloc (sizeof (struct frame_entry))` once it has a
frame, after `evict_frame` may have freed the victim's block, and the entry's
`elem` lies 16 bytes into the block.

The heap invariant keeps the block `malloc` returns apart from every block the
kernel holds, the frame entries among them, so every run of this system is a
run of `frameSystem` (`frameHeap_runs_frameSystem`), and the clock hand is again
`NULL`, `list_end`, an element, or a freed block. The heap decides which: when
`evict_frame` in `frame_alloc` frees the only frame, the next `malloc` hands the
same block back, and the hand is on the new entry; when `frame_free` frees it,
another part of the kernel can take the block first, and the hand is left on
memory it owns. The two runs after `frameHeap_hand_on_list_or_freed` show both.
-/

namespace Pintos.Clock

open ListHeap FrameTable

/-- `sizeof (struct frame_entry)` with 4-byte pointers: `kpage`, `upage` and `owner`, `pinned`
padded to 4 bytes, and the two pointers of `elem`. -/
def entrySize : ℕ := 24

/-- `offsetof (struct frame_entry, elem)`. -/
def elemOfs : ℕ := 16

/-- The frame table, the kernel heap, and the blocks of the heap the kernel holds, the frame
entries' among them. -/
structure FrameHeap where
  frames : FrameTable
  heap : MallocState
  held : List ℕ

/-- The calls on the frame table, with the outcome of `palloc_get_page`, the MMU setting an
accessed bit, and a call on the heap from another part of the kernel. -/
inductive FrameHeapCall
  | alloc (palloc : Option ℕ) (owner upage : ℕ)
  | free (kpage : ℕ)
  | pin (kpage : ℕ)
  | unpin (kpage : ℕ)
  | access (owner upage : ℕ)
  | kernel (call : HeapCall)

namespace FrameHeap

/-- `free` of the block of the entry a call took out of `frame_table`: the first block that was
live before the call and is not after it. -/
def giveBack (heap : MallocState) (held : List ℕ) (s s' : FrameTable) :
    Option (MallocState × List ℕ) :=
  match (s.blocks.map (·.1)).find? fun e => (s'.entry e).isNone with
  | none => some (heap, held)
  | some e => (heap.free (e - elemOfs)).map fun heap' => (heap', held.erase (e - elemOfs))

/-- The heap side of `frame_alloc`: the frame found, the victim's block freed, and then what
`malloc (sizeof (struct frame_entry))` returns, with the heap and the blocks held after it. -/
def allocEntry (s : FrameHeap) (palloc : Option ℕ) : Option (ℕ × MallocState × List ℕ) := do
  let (_, frames₁) ← s.frames.getFrame palloc
  let (heap₁, held₁) ← giveBack s.heap s.held s.frames frames₁
  let (p, heap₂) ← heap₁.malloc entrySize
  some (p, heap₂, withBlock p held₁)

/-- The `elem` of the block at `p`; `NULL` when `malloc` returned `NULL`. -/
def elemOf (p : ℕ) : Option ℕ := if p = 0 then none else some (p + elemOfs)

/-- What `malloc` returns to `frame_alloc`, read as the new entry's `elem`. -/
def mallocElem (s : FrameHeap) (palloc : Option ℕ) : Option ℕ :=
  (s.allocEntry palloc).bind fun r => elemOf r.1

def stepOpt (s : FrameHeap) : FrameHeapCall → Option FrameHeap
  | .alloc palloc owner upage => do
    let (p, heap, held) ← s.allocEntry palloc
    let (_, frames) ← s.frames.frameAlloc palloc (elemOf p) owner upage
    some ⟨frames, heap, held⟩
  | .free kpage => do
    let frames ← s.frames.frameFree kpage
    let (heap, held) ← giveBack s.heap s.held s.frames frames
    some ⟨frames, heap, held⟩
  | .pin kpage => (s.frames.framePin kpage).map ({ s with frames := · })
  | .unpin kpage => (s.frames.frameUnpin kpage).map ({ s with frames := · })
  | .access owner upage => (frameStepOpt s.frames (.access owner upage)).map ({ s with frames := · })
  | .kernel call => (heapCall s.heap s.held call).map fun r => { s with heap := r.1, held := r.2 }

/-- A call that fails stops the machine. -/
def step (s : FrameHeap) (a : FrameHeapCall) : FrameHeap :=
  (s.stepOpt a).getD { s with frames := { s.frames with halted := true } }

end FrameHeap

/-- Another part of the kernel passes `free` and `realloc` only `NULL` or a block it holds,
never a frame entry. -/
def FrameHeapCall.Allowed (s : FrameHeap) : FrameHeapCall → Prop
  | .kernel (.free q) => (q = 0 ∨ q ∈ s.held) ∧ s.frames.entry (q + elemOfs) = none
  | .kernel (.realloc q _) => (q = 0 ∨ q ∈ s.held) ∧ s.frames.entry (q + elemOfs) = none
  | _ => True

instance (s : FrameHeap) : (a : FrameHeapCall) → Decidable (a.Allowed s)
  | .kernel (.free q) => inferInstanceAs
    (Decidable ((q = 0 ∨ q ∈ s.held) ∧ s.frames.entry (q + elemOfs) = none))
  | .kernel (.realloc q _) => inferInstanceAs
    (Decidable ((q = 0 ∨ q ∈ s.held) ∧ s.frames.entry (q + elemOfs) = none))
  | .kernel (.malloc _) | .kernel (.calloc _ _) | .alloc _ _ _ | .free _ | .pin _ | .unpin _
  | .access _ _ => instDecidableTrue

/-- The frame table after `frame_init`, on the heap `heap₀` that the rest of the kernel does not
use yet. -/
def frameHeapSystem (heap₀ : MallocState) : Transition.System FrameHeap FrameHeapCall where
  init := ⟨frameTable₀, heap₀, []⟩
  Enabled s a := s.frames.halted = false ∧ a.Allowed s
  step := FrameHeap.step

instance (heap₀ : MallocState) (s : FrameHeap) (a : FrameHeapCall) :
    Decidable ((frameHeapSystem heap₀).Enabled s a) :=
  inferInstanceAs (Decidable (_ ∧ _))

/-- The call of `frameSystem` that a call here makes on the frame table: `frame_alloc` with the
block `malloc` returns; `none` for a call on the heap alone. -/
def FrameHeapCall.toFrameCall (s : FrameHeap) : FrameHeapCall → Option FrameCall
  | .alloc palloc owner upage => some (.alloc palloc (s.mallocElem palloc) owner upage)
  | .free kpage => some (.free kpage)
  | .pin kpage => some (.pin kpage)
  | .unpin kpage => some (.unpin kpage)
  | .access owner upage => some (.access owner upage)
  | .kernel _ => none

section Blocks

variable {α : Type*}

/-- The only element of a list with a property is what `find?` finds. -/
theorem find?_eq_some_of_unique {l : List α} {p : α → Bool} {a : α} (ha : a ∈ l) (hp : p a = true)
    (hu : ∀ b ∈ l, p b = true → b = a) : l.find? p = some a := by
  cases h : l.find? p with
  | none => exact absurd hp (List.find?_eq_none.mp h a ha)
  | some b => rw [hu b (List.mem_of_find?_eq_some h) (List.find?_some h)]

variable {s s' : FrameTable}

theorem FrameTable.mem_blocks_iff {e : ℕ} : e ∈ s.blocks.map (·.1) ↔ (s.entry e).isSome := by
  rw [entry, List.lookup_isSome_iff, List.mem_map]
  constructor
  · rintro ⟨p, hp, rfl⟩
    exact ⟨p, hp, beq_self_eq_true _⟩
  · rintro ⟨p, hp, he⟩
    exact ⟨p, hp, (beq_iff_eq.mp he).symm⟩

/-- What a call on the frame table does to its blocks: it takes none out, or it takes out the
live block `v` and changes no other. -/
def FrameTable.Takes (s s' : FrameTable) : Prop :=
  (∀ e, (s'.entry e).isSome = (s.entry e).isSome) ∨
    ∃ v, (s.entry v).isSome ∧ ∀ e, s'.entry e = if e = v then none else s.entry e

theorem takes_getFrame {xs : List ℕ} (hw : s.Wf xs) {palloc : Option ℕ} {k : ℕ}
    (h : s.getFrame palloc = some (k, s')) : s.Takes s' := by
  unfold getFrame at h
  cases palloc with
  | some k' =>
    rw [Option.some.injEq, Prod.mk.injEq] at h
    obtain ⟨-, rfl⟩ := h
    exact .inl fun _ => rfl
  | none =>
    dsimp only at h
    split at h
    · next k' s₁ he =>
      rw [Option.some.injEq, Prod.mk.injEq] at h
      obtain ⟨-, rfl⟩ := h
      -- `evict_frame` gave a frame: it took out the victim
      rcases evictFrame_cases hw with ⟨hn, -⟩ | ⟨s₂, he', -⟩ |
          ⟨ys, v, zs, fe, s₂, rfl, hfe, he', -, -, -, hentry⟩
      · rw [hn] at he
        cases he
      · rw [he'] at he
        cases he
      · rw [he'] at he
        cases he
        exact .inr ⟨v, by rw [hfe]; rfl, hentry⟩
    · cases h

theorem takes_frameFree {xs : List ℕ} (hw : s.Wf xs) {kpage : ℕ} (h : s.frameFree kpage = some s') :
    s.Takes s' := by
  rcases frameFree_cases hw kpage with ⟨he, -⟩ | ⟨ys, v, zs, s₁, rfl, he, -, -, -, hentry, -, hkp⟩
  · rw [he, Option.some.injEq] at h
    subst h
    exact .inl fun _ => rfl
  · rw [he, Option.some.injEq] at h
    subst h
    refine .inr ⟨v, ?_, hentry⟩
    cases hv : s.entry v with
    | none => rw [hv] at hkp; cases hkp
    | some _ => rfl

end Blocks

namespace FrameHeap

/-- The heap keeps its invariant with the blocks the kernel holds; each live entry's block is one
of them, 16 bytes before its `elem`; and `frame_table`'s header cells are those of `frame_init`. -/
structure Inv (s : FrameHeap) : Prop where
  heap : HeapInv s.heap s.held
  held : ∀ e, (s.frames.entry e).isSome → elemOfs ≤ e ∧ e - elemOfs ∈ s.held
  table : s.frames.table = frameTable₀.table

section Steps

variable {heap : MallocState} {held : List ℕ} {s s' : FrameTable}

theorem mem_withBlock_of_mem {b : ℕ} (p : ℕ) (hb : b ∈ held) : b ∈ withBlock p held := by
  unfold withBlock
  split
  · exact hb
  · exact List.mem_cons_of_mem p hb

/-- The `elem` of a block of the heap is neither header cell of `frame_table`. -/
theorem add_elemOfs_ne_cells (p : ℕ) :
    p + elemOfs ≠ frameTable₀.table.head ∧ p + elemOfs ≠ frameTable₀.table.tail := by
  simp [frameTable₀, frameInit, elemOfs]

/-- Giving back the block a call took out keeps the heap's invariant and the entries' blocks
held. -/
theorem giveBack_spec (hinv : HeapInv heap held)
    (hheld : ∀ e, (s.entry e).isSome → elemOfs ≤ e ∧ e - elemOfs ∈ held) (ht : s.Takes s') :
    ∃ heap' held', giveBack heap held s s' = some (heap', held') ∧ HeapInv heap' held' ∧
      ∀ e, (s'.entry e).isSome → elemOfs ≤ e ∧ e - elemOfs ∈ held' := by
  rcases ht with hsame | ⟨v, hv, hentry⟩
  · -- no block was taken out: nothing to give back
    have hnone : (s.blocks.map (·.1)).find? (fun e => (s'.entry e).isNone) = none := by
      refine List.find?_eq_none.mpr fun e he hn => ?_
      rw [Option.isNone_iff_eq_none] at hn
      have := hsame e
      rw [hn, FrameTable.mem_blocks_iff.mp he] at this
      cases this
    refine ⟨heap, held, by rw [giveBack, hnone], hinv, fun e he => hheld e ?_⟩
    rw [← hsame e]
    exact he
  · -- the block of `v` goes back to the heap
    have hfind : (s.blocks.map (·.1)).find? (fun e => (s'.entry e).isNone) = some v := by
      refine find?_eq_some_of_unique (FrameTable.mem_blocks_iff.mpr hv) (by simp [hentry]) ?_
      intro b hb hn
      by_contra hbv
      rw [hentry, if_neg hbv, Option.isNone_iff_eq_none] at hn
      have hlive := FrameTable.mem_blocks_iff.mp hb
      rw [hn] at hlive
      cases hlive
    obtain ⟨heap', hfree, hinv'⟩ := hinv.free (.inr (hheld v hv).2)
    refine ⟨heap', _, by simp only [giveBack, hfind, hfree, Option.map_some], hinv',
      fun e he => ?_⟩
    have hev : e ≠ v := by
      rintro rfl
      rw [hentry, if_pos rfl] at he
      cases he
    rw [hentry, if_neg hev] at he
    obtain ⟨he16, heh⟩ := hheld e he
    have hv16 := (hheld v hv).1
    exact ⟨he16, (List.mem_erase_of_ne (by omega)).mpr heh⟩

/-- The block `malloc` returns is one the kernel did not hold, so no live entry lies in it. -/
theorem entry_malloc_eq_none {heap' : MallocState} {p : ℕ} (hinv : HeapInv heap held)
    (hheld : ∀ e, (s.entry e).isSome → elemOfs ≤ e ∧ e - elemOfs ∈ held)
    (hinv' : HeapInv heap' (withBlock p held)) : s.entry (p + elemOfs) = none := by
  cases he : s.entry (p + elemOfs) with
  | none => rfl
  | some fe =>
    have hmem := (hheld _ (by rw [he]; rfl)).2
    rw [Nat.add_sub_cancel] at hmem
    -- a held block is not `NULL`, so `malloc` returned one the kernel would then hold twice
    have hnd := hinv'.held_nodup
    rw [withBlock, if_neg (hinv.ne_zero (hinv.held_block _ hmem))] at hnd
    exact absurd hmem (List.nodup_cons.mp hnd).1

/-- The push at the end of `frame_alloc` of the `elem` of a block `malloc` returned, which is not
a live entry's: it returns, and the new entry is the only block that becomes live. -/
theorem pushEntry_elemOf {xs : List ℕ} (hw : s.Wf xs) (ht : s.table = frameTable₀.table) {p : ℕ}
    (hp : s.entry (p + elemOfs) = none) (kpage owner upage : ℕ) :
    ∃ r s', s.pushEntry kpage (elemOf p) owner upage = some (r, s') ∧ s'.table = s.table ∧
      ∀ e, (s'.entry e).isSome → (s.entry e).isSome ∨ p ≠ 0 ∧ e = p + elemOfs := by
  by_cases hp0 : p = 0
  · refine ⟨none, s, by simp [elemOf, hp0, pushEntry], rfl, fun e he => .inl he⟩
  have hne : p + elemOfs ≠ s.table.head ∧ p + elemOfs ≠ s.table.tail := by
    rw [ht]
    exact add_elemOfs_ne_cells p
  obtain ⟨heap', hpush, -⟩ :=
    hw.push (hw.not_mem_cells hne.1 hne.2 hp) ⟨kpage, upage, owner, false⟩
  refine ⟨some kpage,
    { s with heap := heap', blocks := (p + elemOfs, ⟨kpage, upage, owner, false⟩) :: s.blocks },
    ?_, rfl, fun e he => ?_⟩
  · simp [elemOf, hp0, pushEntry, hpush]
  rw [entry_cons rfl] at he
  split at he
  · next he' => exact .inr ⟨hp0, he'⟩
  · exact .inl he

/-- The blocks the kernel holds after a call on the heap from elsewhere: all it held before,
but the one it gave back. -/
theorem mem_held_heapCall {heap' : MallocState} {held' : List ℕ} {call : HeapCall}
    (h : heapCall heap held call = some (heap', held')) {b : ℕ} (hb : b ∈ held)
    (hgive : ∀ q n, call = .free q ∨ call = .realloc q n → b ≠ q) : b ∈ held' := by
  cases call with
  | malloc size =>
    obtain ⟨r, -, hr⟩ := Option.map_eq_some_iff.mp h
    rw [← (Prod.mk.inj hr).2]
    exact mem_withBlock_of_mem r.1 hb
  | calloc a n =>
    obtain ⟨r, -, hr⟩ := Option.map_eq_some_iff.mp h
    rw [← (Prod.mk.inj hr).2]
    exact mem_withBlock_of_mem r.1 hb
  | realloc q size =>
    obtain ⟨r, -, hr⟩ := Option.map_eq_some_iff.mp h
    rw [← (Prod.mk.inj hr).2]
    have herase : b ∈ held.erase q := (List.mem_erase_of_ne (hgive q size (.inr rfl))).mpr hb
    split
    · exact herase
    · split
      · exact hb
      · exact List.mem_cons_of_mem _ herase
  | free q =>
    obtain ⟨r, -, hr⟩ := Option.map_eq_some_iff.mp h
    rw [← (Prod.mk.inj hr).2]
    exact (List.mem_erase_of_ne (hgive q 0 (.inl rfl))).mpr hb

end Steps

variable {s : FrameHeap} {xs : List ℕ}

/-- A call on the frame table that fails stops the machine with every entry as it was. -/
theorem Inv.halt (h : s.Inv) : ({ s with frames := { s.frames with halted := true } } : FrameHeap).Inv :=
  ⟨h.heap, h.held, h.table⟩

/-- `frame_alloc` here is `frame_alloc` of `frameSystem` with the block `malloc` returns, which
is fresh; it keeps the invariant. -/
theorem Inv.alloc (h : s.Inv) (hw : s.frames.Wf xs) (palloc : Option ℕ) (owner upage : ℕ) :
    (s.step (.alloc palloc owner upage)).Inv ∧
      (FrameCall.alloc palloc (s.mallocElem palloc) owner upage).fresh s.frames = true ∧
      (s.step (.alloc palloc owner upage)).frames =
        frameStep s.frames (.alloc palloc (s.mallocElem palloc) owner upage) := by
  cases hg : s.frames.getFrame palloc with
  | none =>
    -- PANIC: no frame, on either side
    have hae : s.allocEntry palloc = none := by simp [allocEntry, hg]
    simp only [step, stepOpt, hae, mallocElem, Option.bind_none, Option.bind_eq_bind,
      Option.getD_none]
    refine ⟨h.halt, rfl, ?_⟩
    simp [frameStep, frameStepOpt, frameAlloc, hg]
  | some r =>
    obtain ⟨k, f₁⟩ := r
    obtain ⟨htable₁, xs₁, hw₁, -⟩ := keeps_getFrame hw hg
    -- the victim's block goes back, then `malloc` runs
    obtain ⟨heap₁, held₁, hgb, hinv₁, hheld₁⟩ := giveBack_spec h.heap h.held (takes_getFrame hw hg)
    obtain ⟨p, heap₂, hm, hinv₂⟩ := hinv₁.malloc entrySize
    have hae : s.allocEntry palloc = some (p, heap₂, withBlock p held₁) := by
      simp [allocEntry, hg, hgb, hm]
    have hmal : s.mallocElem palloc = elemOf p := by simp [mallocElem, hae]
    have hfree : f₁.entry (p + elemOfs) = none := entry_malloc_eq_none hinv₁ hheld₁ hinv₂
    obtain ⟨r', f₂, hpush, htable₂, hlive⟩ :=
      pushEntry_elemOf hw₁ (htable₁.trans h.table) hfree k owner upage
    have hfa : s.frames.frameAlloc palloc (elemOf p) owner upage = some (r', f₂) := by
      rw [frameAlloc, hg, Option.bind_some]
      exact hpush
    have hstep : s.step (.alloc palloc owner upage) = ⟨f₂, heap₂, withBlock p held₁⟩ := by
      simp [step, stepOpt, hae, hfa]
    refine ⟨?_, ?_, ?_⟩
    · rw [hstep]
      refine ⟨hinv₂, fun e he => ?_, htable₂.trans (htable₁.trans h.table)⟩
      rcases hlive e he with he₁ | ⟨hp0, rfl⟩
      · obtain ⟨h16, hmem⟩ := hheld₁ e he₁
        exact ⟨h16, mem_withBlock_of_mem p hmem⟩
      · refine ⟨Nat.le_add_left _ _, ?_⟩
        rw [Nat.add_sub_cancel, withBlock, if_neg hp0]
        exact List.mem_cons_self
    · rw [hmal]
      by_cases hp0 : p = 0
      · simp [elemOf, hp0, FrameCall.fresh]
      · have hcells : p + elemOfs ≠ f₁.table.head ∧ p + elemOfs ≠ f₁.table.tail := by
          rw [htable₁, h.table]
          exact add_elemOfs_ne_cells p
        simp [elemOf, hp0, FrameCall.fresh, hg, hfree, hcells.1, hcells.2]
    · rw [hstep, hmal]
      simp [frameStep, frameStepOpt, hfa]

/-- `frame_free` here is `frame_free` of `frameSystem`, with the entry's block given back to the
heap; it keeps the invariant. -/
theorem Inv.free (h : s.Inv) (hw : s.frames.Wf xs) (kpage : ℕ) :
    (s.step (.free kpage)).Inv ∧ (s.step (.free kpage)).frames = frameStep s.frames (.free kpage) := by
  cases hf : s.frames.frameFree kpage with
  | none =>
    simp only [step, stepOpt, hf, Option.bind_eq_bind, Option.bind_none, Option.getD_none]
    exact ⟨h.halt, by simp [frameStep, frameStepOpt, hf]⟩
  | some f' =>
    obtain ⟨heap', held', hgb, hinv', hheld'⟩ := giveBack_spec h.heap h.held (takes_frameFree hw hf)
    have hstep : s.step (.free kpage) = ⟨f', heap', held'⟩ := by simp [step, stepOpt, hf, hgb]
    rw [hstep]
    exact ⟨⟨hinv', hheld', (keeps_frameFree hw hf).1.trans h.table⟩,
      by simp [frameStep, frameStepOpt, hf]⟩

/-- `frame_pin`, `frame_unpin` and the MMU setting an accessed bit touch only the frame table,
as in `frameSystem`, and leave the same entries live; they keep the invariant. -/
theorem Inv.framesOnly (h : s.Inv) {a : FrameHeapCall} {c : FrameCall}
    (ha : s.stepOpt a = (frameStepOpt s.frames c).map ({ s with frames := · }))
    (hkeep : ∀ f', frameStepOpt s.frames c = some f' →
      f'.table = s.frames.table ∧ ∀ e, (f'.entry e).isSome = (s.frames.entry e).isSome) :
    (s.step a).Inv ∧ (s.step a).frames = frameStep s.frames c := by
  cases hf : frameStepOpt s.frames c with
  | none =>
    simp only [step, ha, hf, Option.map_none, Option.getD_none]
    exact ⟨h.halt, by simp [frameStep, hf]⟩
  | some f' =>
    obtain ⟨htable, hentry⟩ := hkeep f' hf
    simp only [step, ha, hf, Option.map_some, Option.getD_some]
    exact ⟨⟨h.heap, fun e he => h.held e (hentry e ▸ he), htable.trans h.table⟩,
      by simp [frameStep, hf]⟩

/-- A call on the heap from another part of the kernel leaves the frame table alone and keeps
the invariant. -/
theorem Inv.kernel (h : s.Inv) {call : HeapCall} (ha : (FrameHeapCall.kernel call).Allowed s) :
    (s.step (.kernel call)).Inv ∧ (s.step (.kernel call)).frames = s.frames := by
  have hcall : call.Allowed s.held := by
    cases call with
    | free q => exact ha.1
    | realloc q n => exact ha.1
    | malloc size => trivial
    | calloc a n => trivial
  obtain ⟨heap', held', hc, hinv'⟩ := h.heap.heapCall_spec hcall
  have hstep : s.step (.kernel call) = { s with heap := heap', held := held' } := by
    simp [step, stepOpt, hc]
  rw [hstep]
  refine ⟨⟨hinv', fun e he => ⟨(h.held e he).1, mem_held_heapCall hc (h.held e he).2 ?_⟩,
    h.table⟩, rfl⟩
  -- the block the kernel gives back is no frame entry's
  rintro q n (rfl | rfl) hq <;>
  · have hfree := ha.2
    rw [← hq, Nat.sub_add_cancel (h.held e he).1] at hfree
    rw [hfree] at he
    cases he

end FrameHeap

open FrameHeap

section Runs

variable {usedMap : Bitmap} {base : ℕ} (mem : ℕ → UInt8)

/-- Along every run on a heap that `malloc_init` set up over a page-aligned pool, the heap keeps
its invariant, every frame entry is a block the kernel holds, and the frame table is one that
`frameSystem` reaches. -/
theorem frameHeap_invariant (hbase : base % pgSize = 0) :
    (frameHeapSystem (mallocInit usedMap base mem)).Invariant
      fun s => s.Inv ∧ frameSystem.Reachable s.frames where
  init := ⟨⟨heapInv_mallocInit mem hbase,
    fun e he => by simp [frameHeapSystem, frameTable₀, frameInit, entry] at he, rfl⟩, .init⟩
  step s a := by
    rintro ⟨h, hr⟩ ⟨hhalt, ha⟩
    show (s.step a).Inv ∧ frameSystem.Reachable (s.step a).frames
    obtain ⟨xs, hw, -⟩ := hand_on_list_or_freed.holds hr
    have hnext : ∀ c : FrameCall, c.fresh s.frames = true →
        (s.step a).frames = frameStep s.frames c → frameSystem.Reachable (s.step a).frames :=
      fun c hc he => he ▸ hr.step c ⟨hhalt, hc⟩
    -- each call is the call of `frameSystem` it names; `malloc`'s block is what makes
    -- `frame_alloc`'s enabled there
    cases a with
    | alloc palloc owner upage =>
      obtain ⟨hinv, hfresh, hframes⟩ := h.alloc hw palloc owner upage
      exact ⟨hinv, hnext _ hfresh hframes⟩
    | free kpage =>
      obtain ⟨hinv, hframes⟩ := h.free hw kpage
      exact ⟨hinv, hnext _ rfl hframes⟩
    | pin kpage =>
      obtain ⟨hinv, hframes⟩ := h.framesOnly (a := .pin kpage) (c := .pin kpage) rfl fun _ hf =>
        ⟨(frameSetPinned_fields hw hf).2.1, (frameSetPinned_fields hw hf).2.2.2⟩
      exact ⟨hinv, hnext _ rfl hframes⟩
    | unpin kpage =>
      obtain ⟨hinv, hframes⟩ := h.framesOnly (a := .unpin kpage) (c := .unpin kpage) rfl fun _ hf =>
        ⟨(frameSetPinned_fields hw hf).2.1, (frameSetPinned_fields hw hf).2.2.2⟩
      exact ⟨hinv, hnext _ rfl hframes⟩
    | access owner upage =>
      have hkeep : ∀ f', frameStepOpt s.frames (.access owner upage) = some f' →
          f'.table = s.frames.table ∧ ∀ e, (f'.entry e).isSome = (s.frames.entry e).isSome := by
        intro f' hf
        rw [frameStepOpt, Option.some.injEq] at hf
        subst hf
        exact ⟨rfl, fun _ => rfl⟩
      obtain ⟨hinv, hframes⟩ := h.framesOnly (a := .access owner upage) rfl hkeep
      exact ⟨hinv, hnext _ rfl hframes⟩
    | kernel call =>
      obtain ⟨hinv, hframes⟩ := h.kernel ha
      exact ⟨hinv, hframes ▸ hr⟩

/-- Every run of the frame table on the kernel heap is a run of `frameSystem`: the block
`malloc` hands `frame_alloc` is always fresh. -/
theorem frameHeap_runs_frameSystem (hbase : base % pgSize = 0) {s : FrameHeap}
    (hs : (frameHeapSystem (mallocInit usedMap base mem)).Reachable s) :
    frameSystem.Reachable s.frames :=
  ((frameHeap_invariant mem hbase).holds hs).2

/-- On the kernel heap too, `clock_hand` is `NULL`, `list_end`, an element of `frame_table`, or
a block that is no live entry; the kernel may hold that block for something else. -/
theorem frameHeap_hand_on_list_or_freed (hbase : base % pgSize = 0) {s : FrameHeap}
    (hs : (frameHeapSystem (mallocInit usedMap base mem)).Reachable s) :
    ∃ xs, s.frames.Wf xs ∧ (HandOn s.frames xs ∨ Stale s.frames) :=
  hand_on_list_or_freed.holds (frameHeap_runs_frameSystem mem hbase hs)

-- `evict_frame` in `frame_alloc` frees the only frame's block, and `malloc` hands the same block
-- back: the hand is on the new entry.
example : ((frameHeapSystem freshHeap).replay (frameHeapSystem freshHeap).init
    [.alloc (some 7) 1 0x1000, .alloc none 1 0x2000]).any
      (fun t => t.frames.clockHand = some 0xc010101c ∧ t.frames.blocks.map (·.1) = [0xc010101c]) := by
  decide

-- `frame_free` frees the only frame's block and the rest of the kernel takes it first: the hand
-- is on a block the kernel holds, which is no frame entry.
example : ((frameHeapSystem freshHeap).replay (frameHeapSystem freshHeap).init
    [.alloc (some 7) 1 0x1000, .alloc none 1 0x2000, .free 7, .kernel (.malloc 24),
      .alloc (some 8) 1 0x3000]).any
      (fun t => t.frames.clockHand = some (0xc010100c + elemOfs) ∧ 0xc010100c ∈ t.held ∧
        t.frames.entry (0xc010100c + elemOfs) = none) := by
  decide

end Runs

end Pintos.Clock
