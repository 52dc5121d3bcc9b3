import Pintos.Vm.State

/-! # Frames and swap slots

`palloc_get_page (PAL_USER)` and `palloc_free_page` on the user pool,
`vm/swap.c`, and `vm/frame.c`: `frame_alloc`, `frame_free` and the clock
algorithm of `evict_frame`. A result of `none` is a kernel PANIC or a failed
ASSERT; `evict_frame`'s own `NULL` is the inner `none` of its result.

`frame_table` is a list of entries here, and `clock_hand` the frame of the
entry it points at. When `frame_free` or `evict_frame` takes out the only
entry, the C hand is left on the freed block; here it names the freed frame,
and reads as a hand on the next entry pushed for that frame. `Vm/FrameRefine`
relates this table to the pointer-level one of `Vm/Clock`, which keeps the
freed block, and shows that the two part only there.
-/

namespace Pintos

namespace VmState

/-- What `palloc_free_multiple` writes over a freed page (`0xcc` bytes). -/
def freedPage : ℕ := 0xcc

def pallocGetPage (s : VmState) : Option (ℕ × VmState) :=
  (s.userPool.scanAndFlip 0 1 false).map fun (k, pool) => (k, { s with userPool := pool })

/-- `palloc_free_page`, whose ASSERT requires the page to be in use. -/
def pallocFreePage (s : VmState) (kpage : ℕ) : Option VmState :=
  if s.userPool.all kpage 1 then
    some { s.setFrame kpage freedPage with userPool := s.userPool.setMultiple kpage 1 false }
  else none

/-- `swap_out`: PANIC when every slot is in use. -/
def swapOut (s : VmState) (kpage : ℕ) : Option (ℕ × VmState) :=
  (s.swapTable.scanAndFlip 0 1 false).map fun (slot, table) =>
    (slot, { s with
      swapTable := table
      swapData := Function.update s.swapData slot (s.frames kpage) })

/-- `swap_in`: PANIC on a free slot; the slot is freed once read. -/
def swapIn (s : VmState) (slot kpage : ℕ) : Option VmState :=
  if s.swapTable.test slot then
    some { s.setFrame kpage (s.swapData slot) with swapTable := s.swapTable.set slot false }
  else none

def swapFree (s : VmState) (slot : ℕ) : VmState :=
  if s.swapTable.test slot then { s with swapTable := s.swapTable.set slot false } else s

/-- Where `clock_hand` moves from entry `i`: the next entry, or the first after the last. -/
def nextHand (table : List FrameEntry) (i : ℕ) : Option ℕ :=
  table[(i + 1) % table.length]?.map (·.kpage)

def frameFree (s : VmState) (kpage : ℕ) : Option VmState :=
  let s₁ :=
    match s.frameTable.findIdx? (·.kpage == kpage) with
    | some i =>
      { s with
        clockHand := if s.clockHand = some kpage then nextHand s.frameTable i else s.clockHand
        frameTable := s.frameTable.eraseIdx i }
    | none => s
  s₁.pallocFreePage kpage

/-- The entry `evict_frame` starts from. -/
def handIndex (s : VmState) : ℕ :=
  match s.clockHand with
  | some k => (s.frameTable.findIdx? (·.kpage == k)).getD 0
  | none => 0

def isAccessed (s : VmState) (p upage : ℕ) : Bool := pagedirIsAccessed (s.proc p).pagedir upage

def clearAccessed (s : VmState) (p upage : ℕ) : VmState :=
  s.modifyProc p fun q => { q with pagedir := pagedirSetAccessed q.pagedir upage false }

/-- The loop of `evict_frame` from entry `i` with `fuel` iterations left: an unpinned frame
whose page was accessed loses its accessed bit, the first unpinned one whose page was not
is the victim. -/
def clockLoop (s : VmState) (i : ℕ) : ℕ → VmState × Option ℕ
  | 0 => (s, none)
  | fuel + 1 =>
    let next := (i + 1) % s.frameTable.length
    match s.frameTable[i]? with
    | none => (s, none)
    | some e =>
      if !e.pinned then
        if s.isAccessed e.owner e.upage then (s.clearAccessed e.owner e.upage).clockLoop next fuel
        else (s, some i)
      else s.clockLoop next fuel

/-- The second half of `evict_frame`: the victim's entry is marked not loaded, then a dirty
mapped page is written back to its file and any other dirty or writable page goes to swap. -/
def evictSpt (s : VmState) (victim : FrameEntry) (dirty : Bool) : Option (Option ℕ × VmState) :=
  match sptGetEntry (s.proc victim.owner).spt victim.upage with
  | none => some (some victim.kpage, s)
  | some e =>
    let s₁ := s.updateEntry victim.owner victim.upage ({ · with loaded := false, kpage := none })
    if e.type = .mmap ∧ dirty = true then
      some (some victim.kpage,
        s₁.updateEntry victim.owner victim.upage ({ · with fileData := s₁.frames victim.kpage }))
    else if e.type ≠ .mmap ∧ (dirty = true ∨ e.writable = true) then
      (s₁.swapOut victim.kpage).map fun (slot, s₂) =>
        (some victim.kpage, s₂.updateEntry victim.owner victim.upage
          ({ · with type := .swap, swapSlot := slot }))
    else some (some victim.kpage, s₁)

def evictFrame (s : VmState) : Option (Option ℕ × VmState) :=
  if s.frameTable = [] then some (none, s)
  else
    match s.clockLoop s.handIndex (2 * s.frameTable.length) with
    | (s₁, some i) =>
      match s₁.frameTable[i]? with
      | some victim =>
        let dirty := pagedirIsDirty (s₁.proc victim.owner).pagedir victim.upage
        let s₂ := s₁.modifyProc victim.owner fun q =>
          { q with pagedir := pagedirClearPage q.pagedir victim.upage }
        let s₃ := { s₂ with
          clockHand := nextHand s₂.frameTable i
          frameTable := s₂.frameTable.eraseIdx i }
        s₃.evictSpt victim dirty
      | none => some (none, s₁)
    | (s₁, none) => some (none, s₁)

/-- `frame_alloc (PAL_USER, upage)` for process `owner`: a free page of the pool, or an
evicted one; PANIC when neither is found. -/
def frameAlloc (s : VmState) (owner upage : ℕ) : Option (ℕ × VmState) :=
  let push (s : VmState) (k : ℕ) : VmState :=
    { s with frameTable := s.frameTable ++ [⟨k, upage, owner, false⟩] }
  match s.pallocGetPage with
  | some (k, s₁) => some (k, push s₁ k)
  | none =>
    match s.evictFrame with
    | some (some k, s₁) => some (k, push s₁ k)
    | _ => none

variable {s s' : VmState} {k : ℕ}

theorem swapTable_pallocFreePage (h : s.pallocFreePage k = some s') :
    s'.swapTable = s.swapTable := by
  unfold pallocFreePage at h
  split at h
  · cases h; rfl
  · cases h

/-- Freeing a frame leaves the swap table alone. -/
theorem swapTable_frameFree (h : s.frameFree k = some s') : s'.swapTable = s.swapTable := by
  unfold frameFree at h
  rw [swapTable_pallocFreePage h]
  split <;> rfl

@[simp] theorem test_swapFree (slot j : ℕ) :
    (s.swapFree slot).swapTable.test j = if j = slot then false else s.swapTable.test j := by
  unfold swapFree
  split
  · simp
  · next hs =>
    -- the bit is already clear
    by_cases hj : j = slot
    · subst hj; simpa using hs
    · simp [hj]

end VmState

end Pintos
