import Pintos.Kernel.ListHeap
import Pintos.Vm.State
import Pintos.Lib.Transition

/-! # The frame table and its clock hand, at the level of pointers

`vm/frame.c` keeps its frames in the list `frame_table` of `malloc`ed
`struct frame_entry` blocks and remembers where the clock algorithm stopped in
`clock_hand`, a pointer to a `list_elem`. Here the list elements are cells of a
`DLink.Heap`, a block is known by the address of its `elem`, and `clock_hand`
is that address, so that a block that is freed while the hand still points at
it stays visible. `frame_alloc`, `frame_free`, `evict_frame`, `frame_pin` and
`frame_unpin` act on this state as the C code does, up to the frame-table part
of `evict_frame`; its page-table and SPT half is `VmState.evictSpt`.

The block `frame_alloc` gets from `malloc` is the call's argument here, and a
run asks only that it be fresh when `malloc` runs, after `evict_frame` may have
freed the victim's (`FrameCall.fresh`); `Vm/FrameHeap` runs the table on the
heap of `threads/malloc.c`, where every block `malloc` returns is. `Vm/FrameRefine`
relates this table to the list of entries of `VmState`.

Every run keeps `frame_table` a list of live blocks (`hand_on_list_or_freed`). When the
table holds one frame, `evict_frame` and `frame_free` move the hand past it,
wrap back to it, and free it: the hand is left on a freed block
(`freeOnlyFrame` ends so, with no `malloc` after the `free`).
-/

namespace Pintos.Clock

open DLink ListHeap

/-- The frame-table state of `vm/frame.c`. -/
structure FrameTable where
  -- the links of every `list_elem`, by address
  heap : Heap ℕ
  -- the `struct frame_entry` blocks `malloc` handed out and not yet freed, by `elem` address
  blocks : List (ℕ × FrameEntry)
  -- the header cells of `frame_table`
  table : KList ℕ
  clockHand : Option ℕ
  -- `PTE_A` of each owner's page directory, by user page
  accessed : ℕ → ℕ → Bool
  -- a PANIC or a failed ASSERT has stopped the machine
  halted : Bool

namespace FrameTable

section Model

variable (s : FrameTable)

/-- `list_entry (e, struct frame_entry, elem)`: the block at `e`, unless it was never handed out
or is freed. -/
def entry (e : ℕ) : Option FrameEntry := s.blocks.lookup e

/-- `free` of the block at `e`. -/
def free (e : ℕ) : FrameTable := { s with blocks := s.blocks.filter (·.1 != e) }

def setEntry (e : ℕ) (fe : FrameEntry) : FrameTable :=
  { s with blocks := s.blocks.map fun b => if b.1 = e then (e, fe) else b }

/-- The walks over `frame_table` visit live blocks, each once: this many rounds are enough. -/
def fuel : ℕ := s.blocks.length + 1

/-- The loop of `find_frame` from `e`. -/
def findFrameLoop (kpage : ℕ) : ℕ → ℕ → Option (Option ℕ)
  | 0, _ => none
  | n + 1, e =>
    if e = s.table.tail then some none
    else do
      let entry ← s.entry e
      if entry.kpage = kpage then some (some e)
      else findFrameLoop kpage n (← listNext s.heap e)

/-- `find_frame`: the first entry for `kpage`, or `NULL`. -/
def findFrame (kpage : ℕ) : Option (Option ℕ) := do
  s.findFrameLoop kpage s.fuel (← listBegin s.heap s.table)

/-- The loop of `list_size` from `e`, with the count so far. -/
def sizeLoop : ℕ → ℕ → ℕ → Option ℕ
  | 0, _, _ => none
  | n + 1, e, cnt => if e = s.table.tail then some cnt else do sizeLoop n (← listNext s.heap e) (cnt + 1)

def listSize : Option ℕ := do s.sizeLoop s.fuel (← listBegin s.heap s.table) 0

/-- `clock_hand = list_next (e)`, and back to `list_begin` from `list_end`. -/
def advance (e : ℕ) : Option ℕ := do
  let n ← listNext s.heap e
  if n = s.table.tail then listBegin s.heap s.table else some n

/-- Where `evict_frame` starts: `clock_hand`, or `list_begin` when that is `NULL` or `list_end`. -/
def clockStart : Option ℕ :=
  match s.clockHand with
  | some hand => if hand = s.table.tail then listBegin s.heap s.table else some hand
  | none => listBegin s.heap s.table

/-- `pagedir_set_accessed (pd, upage, false)` for the page directory of `owner`. -/
def clearAccessed (owner upage : ℕ) : FrameTable :=
  { s with accessed := Function.update s.accessed owner (Function.update (s.accessed owner) upage false) }

end Model

/-- The loop of `evict_frame` from `hand` with `n` iterations left: the victim, if any, and the
state with the accessed bits cleared and `clock_hand` where the loop stopped. -/
def clockLoop : FrameTable → ℕ → ℕ → Option (Option ℕ × FrameTable)
  | s, 0, hand => some (none, { s with clockHand := some hand })
  | s, n + 1, hand => do
    let entry ← s.entry hand
    if !entry.pinned && !s.accessed entry.owner entry.upage then
      some (some hand, { s with clockHand := some hand })
    else
      let s₁ := if entry.pinned then s else s.clearAccessed entry.owner entry.upage
      clockLoop s₁ n (← s₁.advance hand)

/-- `evict_frame` up to `free (victim)`: the victim's `kpage`, or `NULL`. -/
def evictFrame (s : FrameTable) : Option (Option ℕ × FrameTable) := do
  if listEmpty s.heap s.table then return (none, s)
  let start ← s.clockStart
  let size ← s.listSize
  match ← clockLoop s (2 * size) start with
  | (none, s₁) => some (none, s₁)
  | (some victim, s₁) =>
    let entry ← s₁.entry victim
    let hand ← s₁.advance victim
    let (heap, _) ← ListHeap.listRemove s₁.heap victim
    some (some entry.kpage, ({ s₁ with heap := heap, clockHand := some hand } : FrameTable).free victim)

/-- `frame_free (kpage)`, up to `palloc_free_page`. -/
def frameFree (s : FrameTable) (kpage : ℕ) : Option FrameTable := do
  match ← s.findFrame kpage with
  | none => some s
  | some e =>
    let hand ← if s.clockHand = some e then (s.advance e).map some else some s.clockHand
    let (heap, _) ← ListHeap.listRemove s.heap e
    some (({ s with heap := heap, clockHand := hand } : FrameTable).free e)

/-- The frame `frame_alloc` gets: one `palloc_get_page` returned, or one `evict_frame` freed;
`none` is the PANIC when neither gives one. -/
def getFrame (s : FrameTable) (palloc : Option ℕ) : Option (ℕ × FrameTable) :=
  match palloc with
  | some k => some (k, s)
  | none =>
    match s.evictFrame with
    | some (some k, s₁) => some (k, s₁)
    -- PANIC ("Out of memory - cannot evict frame")
    | _ => none

/-- The rest of `frame_alloc` once it has the frame `kpage`: a new entry at the back of
`frame_table`, or `NULL` (after `palloc_free_page`) when `malloc` fails. -/
def pushEntry (s : FrameTable) (kpage : ℕ) (malloc : Option ℕ) (owner upage : ℕ) :
    Option (Option ℕ × FrameTable) :=
  match malloc with
  | none => some (none, s)
  | some e =>
    (listPushBack s.heap s.table e).map fun heap =>
      (some kpage, { s with heap := heap, blocks := (e, ⟨kpage, upage, owner, false⟩) :: s.blocks })

/-- `frame_alloc (PAL_USER, upage)` for `owner`, with what `palloc_get_page` and `malloc`
return: the frame, or `NULL`. -/
def frameAlloc (s : FrameTable) (palloc malloc : Option ℕ) (owner upage : ℕ) :
    Option (Option ℕ × FrameTable) :=
  (s.getFrame palloc).bind fun (kpage, s₁) => s₁.pushEntry kpage malloc owner upage

/-- `frame_pin` and `frame_unpin`: set `pinned` of the entry for `kpage`, if any. -/
def frameSetPinned (s : FrameTable) (kpage : ℕ) (pinned : Bool) : Option FrameTable := do
  match ← s.findFrame kpage with
  | none => some s
  | some e =>
    let fe ← s.entry e
    some (s.setEntry e { fe with pinned := pinned })

def framePin (s : FrameTable) (kpage : ℕ) : Option FrameTable := s.frameSetPinned kpage true

def frameUnpin (s : FrameTable) (kpage : ℕ) : Option FrameTable := s.frameSetPinned kpage false

/-- `frame_init` on the header cells `table`. -/
def frameInit (s : FrameTable) : FrameTable :=
  { s with heap := listInit s.heap s.table, clockHand := none }

end FrameTable

/-- The calls on the frame table, with the outcomes of `palloc_get_page` and `malloc`, and the
MMU setting an accessed bit. -/
inductive FrameCall
  | alloc (palloc malloc : Option ℕ) (owner upage : ℕ)
  | free (kpage : ℕ)
  | evict
  | pin (kpage : ℕ)
  | unpin (kpage : ℕ)
  | access (owner upage : ℕ)
  deriving DecidableEq, Repr

open FrameTable

def frameStepOpt (s : FrameTable) : FrameCall → Option FrameTable
  | .alloc palloc malloc owner upage => (s.frameAlloc palloc malloc owner upage).map (·.2)
  | .free kpage => s.frameFree kpage
  | .evict => s.evictFrame.map (·.2)
  | .pin kpage => s.framePin kpage
  | .unpin kpage => s.frameUnpin kpage
  | .access owner upage =>
    some { s with accessed := Function.update s.accessed owner (Function.update (s.accessed owner) upage true) }

def frameStep (s : FrameTable) (a : FrameCall) : FrameTable :=
  (frameStepOpt s a).getD { s with halted := true }

/-- `malloc` hands out a block that is not a header cell of `frame_table` and is not live when
`frame_alloc` calls it, after `evict_frame` may have freed the victim's block. -/
def FrameCall.fresh (s : FrameTable) : FrameCall → Bool
  | .alloc palloc (some e) _ _ =>
    match s.getFrame palloc with
    | some (_, s₁) => e != s₁.table.head && e != s₁.table.tail && (s₁.entry e).isNone
    | none => true
  | _ => true

/-- The frame table after `frame_init`, with its header cells at `0` and `1`. -/
def frameTable₀ : FrameTable :=
  frameInit ⟨fun _ => ⟨none, none⟩, [], ⟨0, 1⟩, none, fun _ _ => false, false⟩

def frameSystem : Transition.System FrameTable FrameCall where
  init := frameTable₀
  Enabled s a := s.halted = false ∧ a.fresh s = true
  step := frameStep

instance (s : FrameTable) (a : FrameCall) : Decidable (frameSystem.Enabled s a) :=
  inferInstanceAs (Decidable (_ ∧ _))

namespace FrameTable

/-- The frame table is the list `xs`, and its elements are the live blocks. -/
structure Wf (s : FrameTable) (xs : List ℕ) : Prop where
  dlist : DList s.heap s.table.head s.table.tail xs
  live : ∀ e ∈ xs, (s.entry e).isSome
  only : ∀ e, (s.entry e).isSome → e ∈ xs

section Walks

variable {s : FrameTable} {xs ys zs : List ℕ}

theorem listBegin_eq (hl : DList s.heap s.table.head s.table.tail xs) :
    listBegin s.heap s.table = some ((xs ++ [s.table.tail]).head (by simp)) :=
  hl.head_next

theorem listNext_of_split {e : ℕ} (hl : DList s.heap s.table.head s.table.tail (ys ++ e :: zs)) :
    listNext s.heap e = some ((zs ++ [s.table.tail]).head (by simp)) := by
  rw [listNext_eq]
  exact hl.next_of_split

theorem ne_tail_of_mem {e : ℕ} (hl : DList s.heap s.table.head s.table.tail xs) (he : e ∈ xs) :
    e ≠ s.table.tail := fun h' => tail_not_mem hl.nodup (h' ▸ he)

theorem Wf.nodup (hw : Wf s xs) : xs.Nodup :=
  (List.nodup_cons.mp hw.dlist.nodup).2.sublist (List.sublist_append_left _ _)

/-- The fuel of the walks is enough: the list's elements are distinct live blocks. -/
theorem Wf.length_lt_fuel (hw : Wf s xs) : xs.length < s.fuel := by
  have hnd := hw.nodup
  have hsub : xs ⊆ s.blocks.map (·.1) := fun e he => by
    obtain ⟨p, hp, hpe⟩ := List.lookup_isSome_iff.mp (hw.live e he)
    exact List.mem_map.mpr ⟨p, hp, (beq_iff_eq.mp hpe).symm⟩
  have hle := (List.subperm_of_subset hnd hsub).length_le
  rw [List.length_map] at hle
  exact Nat.lt_succ_of_le hle

/-- `find_frame` walks from the element after `ys`: it finds the first live block of the rest
whose frame is `kpage`. -/
theorem findFrameLoop_eq (kpage : ℕ) : ∀ {ys zs : List ℕ} {n : ℕ},
    DList s.heap s.table.head s.table.tail (ys ++ zs) → (∀ e ∈ zs, (s.entry e).isSome) →
    zs.length < n → s.findFrameLoop kpage n ((zs ++ [s.table.tail]).head (by simp)) =
      some (zs.find? fun e => (s.entry e).any (·.kpage == kpage))
  | _, [], n + 1, _, _, _ => by simp [findFrameLoop]
  | ys, z :: zs, n + 1, hl, hlive, hn => by
    obtain ⟨fe, hfe⟩ := Option.isSome_iff_exists.mp (hlive z List.mem_cons_self)
    have hz : z ≠ s.table.tail := ne_tail_of_mem hl (List.mem_append_right _ List.mem_cons_self)
    by_cases hk : fe.kpage = kpage
    · simp [findFrameLoop, hz, hfe, hk]
    · have hl' : DList s.heap s.table.head s.table.tail ((ys ++ [z]) ++ zs) := by simpa using hl
      have ih := findFrameLoop_eq kpage hl'
        (fun e he => hlive e (List.mem_cons_of_mem z he)) (Nat.lt_of_succ_lt_succ hn)
      simp [findFrameLoop, hz, hfe, hk, listNext_of_split hl, ih]

theorem findFrame_eq (hw : Wf s xs) (kpage : ℕ) :
    s.findFrame kpage = some (xs.find? fun e => (s.entry e).any (·.kpage == kpage)) := by
  rw [findFrame, listBegin_eq hw.dlist, Option.bind_eq_bind, Option.bind_some]
  exact findFrameLoop_eq kpage (show DList _ _ _ ([] ++ xs) from hw.dlist) hw.live hw.length_lt_fuel

theorem sizeLoop_eq : ∀ {ys zs : List ℕ} {n cnt : ℕ},
    DList s.heap s.table.head s.table.tail (ys ++ zs) → zs.length < n →
    s.sizeLoop n ((zs ++ [s.table.tail]).head (by simp)) cnt = some (cnt + zs.length)
  | _, [], n + 1, cnt, _, _ => by simp [sizeLoop]
  | ys, z :: zs, n + 1, cnt, hl, hn => by
    have hz : z ≠ s.table.tail := ne_tail_of_mem hl (List.mem_append_right _ List.mem_cons_self)
    have hl' : DList s.heap s.table.head s.table.tail ((ys ++ [z]) ++ zs) := by simpa using hl
    have ih : s.sizeLoop n ((zs ++ [s.table.tail]).head (by simp)) (cnt + 1) =
        some (cnt + 1 + zs.length) :=
      sizeLoop_eq hl' (Nat.lt_of_succ_lt_succ hn)
    simp only [List.cons_append, List.head_cons] at ih ⊢
    rw [sizeLoop, if_neg hz, listNext_of_split hl, Option.bind_eq_bind, Option.bind_some, ih,
      List.length_cons]
    exact congrArg some (by omega)

theorem listSize_eq (hw : Wf s xs) : s.listSize = some xs.length := by
  rw [listSize, listBegin_eq hw.dlist, Option.bind_eq_bind, Option.bind_some]
  have h : s.sizeLoop s.fuel ((xs ++ [s.table.tail]).head (by simp)) 0 = some (0 + xs.length) :=
    sizeLoop_eq (show DList _ _ _ ([] ++ xs) from hw.dlist) hw.length_lt_fuel
  simpa using h

/-- `clock_hand` moved on from an element lands on the next one, cyclically: the first of the
elements after it, or else of the list. -/
theorem advance_eq {e : ℕ} (hl : DList s.heap s.table.head s.table.tail (ys ++ e :: zs)) :
    s.advance e = some ((zs ++ ys ++ [e]).head (by simp)) := by
  rw [advance, listNext_of_split hl, Option.bind_eq_bind, Option.bind_some]
  cases zs with
  | nil =>
    rw [if_pos (by simp), listBegin_eq hl]
    cases ys <;> rfl
  | cons z zs =>
    have hz : z ≠ s.table.tail :=
      ne_tail_of_mem hl (List.mem_append_right _ (List.mem_cons_of_mem e List.mem_cons_self))
    simp [hz]

end Walks

section Blocks

variable {β : Type*}

theorem lookup_cons_ne {l : List (ℕ × β)} {k e : ℕ} (b : β) (h : e ≠ k) :
    ((k, b) :: l).lookup e = l.lookup e := by
  simp only [List.lookup_cons, beq_false_of_ne h]

theorem lookup_filter_ne (l : List (ℕ × β)) (v e : ℕ) :
    (l.filter (·.1 != v)).lookup e = if e = v then none else l.lookup e := by
  induction l with
  | nil => simp
  | cons p l ih =>
    obtain ⟨k, b⟩ := p
    by_cases hk : k = v
    · -- the filter drops the pair
      subst hk
      rw [List.filter_cons_of_neg (by simp), ih]
      by_cases he : e = k
      · rw [if_pos he, if_pos he]
      · rw [if_neg he, if_neg he, lookup_cons_ne b he]
    · rw [List.filter_cons_of_pos (by simpa using hk)]
      by_cases he : e = k
      · subst he
        simp [hk]
      · rw [lookup_cons_ne b he, ih, lookup_cons_ne b he]

theorem lookup_map_set (l : List (ℕ × β)) (v e : ℕ) (b : β) :
    (l.map fun p => if p.1 = v then (v, b) else p).lookup e =
      if e = v then (l.lookup e).map fun _ => b else l.lookup e := by
  induction l with
  | nil => simp
  | cons p l ih =>
    obtain ⟨k, c⟩ := p
    rw [List.map_cons]
    by_cases hk : k = v
    · subst hk
      rw [if_pos rfl]
      by_cases he : e = k
      · subst he
        simp
      · rw [lookup_cons_ne b he, ih, if_neg he, if_neg he, lookup_cons_ne c he]
    · rw [if_neg hk]
      by_cases he : e = k
      · subst he
        simp [hk]
      · rw [lookup_cons_ne c he, ih, lookup_cons_ne c he]

variable {s : FrameTable}

@[simp] theorem clockHand_free (v : ℕ) : (s.free v).clockHand = s.clockHand := rfl
@[simp] theorem heap_free (v : ℕ) : (s.free v).heap = s.heap := rfl
@[simp] theorem table_free (v : ℕ) : (s.free v).table = s.table := rfl

@[simp] theorem entry_free (v e : ℕ) : (s.free v).entry e = if e = v then none else s.entry e :=
  lookup_filter_ne s.blocks v e

@[simp] theorem entry_setEntry (v e : ℕ) (fe : FrameEntry) :
    (s.setEntry v fe).entry e = if e = v then (s.entry e).map fun _ => fe else s.entry e :=
  lookup_map_set s.blocks v e fe

theorem entry_cons {t : FrameTable} {v : ℕ} {fe : FrameEntry} {l : List (ℕ × FrameEntry)}
    (ht : t.blocks = (v, fe) :: l) (e : ℕ) : t.entry e = if e = v then some fe else l.lookup e := by
  rw [entry, ht]
  by_cases he : e = v
  · subst he
    simp
  · rw [if_neg he]
    exact lookup_cons_ne fe he

end Blocks

section Steps

variable {s : FrameTable} {xs : List ℕ}

/-- Moving the hand on from an element lands on an element. -/
theorem advance_mem (hw : Wf s xs) {e : ℕ} (he : e ∈ xs) : ∃ e', s.advance e = some e' ∧ e' ∈ xs := by
  obtain ⟨ys, zs, rfl⟩ := List.append_of_mem he
  have hsub : ∀ x ∈ zs ++ ys ++ [e], x ∈ ys ++ e :: zs := by
    intro x hx
    simp only [List.mem_append, List.mem_cons] at hx ⊢
    tauto
  exact ⟨_, advance_eq hw.dlist, hsub _ (List.head_mem _)⟩

/-- The loop of `evict_frame` from an element changes only accessed bits and the hand; it stops
on an element, and a victim is where it stopped. -/
theorem clockLoop_spec : ∀ (n : ℕ) {s : FrameTable} {hand : ℕ}, Wf s xs → hand ∈ xs →
    ∃ r acc h₁, clockLoop s n hand = some (r, { s with accessed := acc, clockHand := some h₁ }) ∧
      h₁ ∈ xs ∧ ∀ v, r = some v → v = h₁
  | 0, s, hand, _, hh => ⟨none, s.accessed, hand, rfl, hh, fun _ h => nomatch h⟩
  | n + 1, s, hand, hw, hh => by
    obtain ⟨fe, hfe⟩ := Option.isSome_iff_exists.mp (hw.live hand hh)
    by_cases hv : (!fe.pinned && !s.accessed fe.owner fe.upage) = true
    · refine ⟨some hand, s.accessed, hand, ?_, hh, fun v h => (Option.some.inj h).symm⟩
      simp only [clockLoop, hfe, Option.bind_eq_bind, Option.bind_some, if_pos hv]
    · -- the hand moves on, past a pinned frame or one whose accessed bit it clears
      set s₁ := if fe.pinned then s else s.clearAccessed fe.owner fe.upage
      have hw₁ : Wf s₁ xs := by
        unfold s₁
        split
        · exact hw
        · exact ⟨hw.dlist, hw.live, hw.only⟩
      obtain ⟨next, hnext, hn⟩ := advance_mem hw₁ hh
      obtain ⟨r, acc, h₁, hloop, hh₁, hr⟩ := clockLoop_spec n hw₁ hn
      have hs₁ : ({ s₁ with accessed := acc, clockHand := some h₁ } : FrameTable) =
          { s with accessed := acc, clockHand := some h₁ } := by
        unfold s₁
        split <;> rfl
      refine ⟨r, acc, h₁, ?_, hh₁, hr⟩
      simp only [clockLoop, hfe, Option.bind_eq_bind, Option.bind_some]
      rw [if_neg hv, hnext, Option.bind_some, hloop, hs₁]

/-- `list_remove` of an element and `free` of its block leave a list of live blocks. -/
theorem Wf.remove {ys zs : List ℕ} {v : ℕ} (hw : Wf s (ys ++ v :: zs)) (hand : Option ℕ) :
    ∃ heap', ListHeap.listRemove s.heap v = some (heap', (zs ++ [s.table.tail]).head (by simp)) ∧
      Wf (({ s with heap := heap', clockHand := hand } : FrameTable).free v) (ys ++ zs) := by
  obtain ⟨heap', hrun, hl', -, -⟩ := listRemove_spec hw.dlist
  refine ⟨heap', hrun, hl', fun e he => ?_, fun e he => ?_⟩
  · have hnd := hw.nodup
    have hev : e ≠ v := by
      rintro rfl
      exact (List.nodup_middle.mp hnd |> List.nodup_cons.mp).1 he
    rw [entry_free, if_neg hev]
    exact hw.live e (by simp only [List.mem_append, List.mem_cons] at he ⊢; tauto)
  · rw [entry_free] at he
    split at he
    · cases he
    · next hev =>
      have := hw.only e he
      simp only [List.mem_append, List.mem_cons] at this ⊢
      tauto

/-- `evict_frame` starts on an element, or on the freed block a stale hand points at. -/
theorem clockStart_mem (hw : Wf s xs) (hne : xs ≠ []) :
    ∃ st, s.clockStart = some st ∧
      (st ∈ xs ∨ s.clockHand = some st ∧ st ≠ s.table.tail ∧ s.entry st = none) := by
  have hbegin : listBegin s.heap s.table = some (xs.head hne) := by
    rw [listBegin_eq hw.dlist, List.head_append_of_ne_nil hne]
  unfold clockStart
  cases hc : s.clockHand with
  | none => exact ⟨_, hbegin, .inl (List.head_mem hne)⟩
  | some hand =>
    dsimp only
    by_cases ht : hand = s.table.tail
    · exact ⟨_, by rw [if_pos ht, hbegin], .inl (List.head_mem hne)⟩
    · refine ⟨hand, if_neg ht, ?_⟩
      cases he : s.entry hand with
      | none => exact .inr ⟨rfl, ht, rfl⟩
      | some fe => exact .inl (hw.only hand (by simp [he]))

theorem listEmpty_eq (hw : Wf s xs) : listEmpty s.heap s.table = (xs == []) := by
  rw [listEmpty, listBegin_eq hw.dlist]
  cases xs with
  | nil => simp
  | cons x xs =>
    have hx : x ≠ s.table.tail := ne_tail_of_mem hw.dlist List.mem_cons_self
    simp [hx]

/-- `evict_frame` once its loop has stopped on the victim `v`: the element after `v` becomes
the hand, `v` is taken out and freed, and the accessed bits are those the loop left. -/
theorem evictFrame_of_victim {ys zs : List ℕ} {v : ℕ} (hw : Wf s (ys ++ v :: zs)) {st : ℕ} (hst : s.clockStart = some st)
    {acc : ℕ → ℕ → Bool} (hloop : clockLoop s (2 * (ys ++ v :: zs).length) st =
      some (some v, { s with accessed := acc, clockHand := some v }))
    {fe : FrameEntry} (hfe : s.entry v = some fe) :
    ∃ s', s.evictFrame = some (some fe.kpage, s') ∧ Wf s' (ys ++ zs) ∧ s'.table = s.table ∧
      s'.clockHand = some ((zs ++ ys ++ [v]).head (by simp)) ∧
      (∀ e, s'.entry e = if e = v then none else s.entry e) ∧ s'.accessed = acc := by
  have hempty : listEmpty s.heap s.table = false := by simp [listEmpty_eq hw]
  have hw₁ : Wf ({ s with accessed := acc, clockHand := some v } : FrameTable) (ys ++ v :: zs) :=
    ⟨hw.dlist, hw.live, hw.only⟩
  obtain ⟨heap', hrem, hw'⟩ := hw₁.remove (some ((zs ++ ys ++ [v]).head (by simp)))
  refine ⟨_, ?_, hw', rfl, rfl, fun e => entry_free _ _, rfl⟩
  have hadv := advance_eq hw₁.dlist
  simp only [evictFrame, hempty, hst, listSize_eq hw, hloop, Bool.false_eq_true, if_false,
    Option.bind_eq_bind, Option.bind_some]
  rw [show ({ s with accessed := acc, clockHand := some v } : FrameTable).entry v = some fe
    from hfe, Option.bind_some, hadv, Option.bind_some, hrem, Option.bind_some]

/-- What `evict_frame` can do to a list of live blocks: read a freed block through a stale hand,
find no victim, or take out and free the element where the hand stopped and move the hand to
the next one. -/
theorem evictFrame_cases (hw : Wf s xs) :
    (s.evictFrame = none ∧ ∃ e, s.clockHand = some e ∧ e ≠ s.table.tail ∧ s.entry e = none) ∨
    (∃ s', s.evictFrame = some (none, s') ∧
      (s' = s ∨ ∃ acc h₁, h₁ ∈ xs ∧ s' = { s with accessed := acc, clockHand := some h₁ })) ∨
    ∃ ys v zs fe s', xs = ys ++ v :: zs ∧ s.entry v = some fe ∧
      s.evictFrame = some (some fe.kpage, s') ∧ Wf s' (ys ++ zs) ∧ s'.table = s.table ∧
      s'.clockHand = some ((zs ++ ys ++ [v]).head (by simp)) ∧
      ∀ e, s'.entry e = if e = v then none else s.entry e := by
  by_cases hx : xs = []
  · subst hx
    refine .inr (.inl ⟨s, ?_, .inl rfl⟩)
    simp [evictFrame, listEmpty_eq hw]
  have hempty : listEmpty s.heap s.table = false := by simp [listEmpty_eq hw, hx]
  obtain ⟨st, hst, hmem⟩ := clockStart_mem hw hx
  have hsize := listSize_eq hw
  rcases hmem with hmem | ⟨hc, hne, hfree⟩
  · obtain ⟨r, acc, h₁, hloop, hh₁, hr⟩ := clockLoop_spec (2 * xs.length) hw hmem
    cases r with
    | none =>
      refine .inr (.inl ⟨_, ?_, .inr ⟨acc, h₁, hh₁, rfl⟩⟩)
      simp [evictFrame, hempty, hst, hsize, hloop]
    | some v =>
      -- the victim is where the loop stopped
      obtain rfl := hr v rfl
      obtain ⟨fe, hfe⟩ := Option.isSome_iff_exists.mp (hw.live v hh₁)
      obtain ⟨ys, zs, rfl⟩ := List.append_of_mem hh₁
      obtain ⟨s', he, hw', htable, hc, hentry, -⟩ := evictFrame_of_victim hw hst hloop hfe
      exact .inr (.inr ⟨ys, v, zs, fe, s', rfl, hfe, he, hw', htable, hc, hentry⟩)
  · -- a stale hand: `list_entry` of a freed block
    refine .inl ⟨?_, st, hc, hne, hfree⟩
    obtain ⟨n, hn⟩ : ∃ n, 2 * xs.length = n + 1 :=
      ⟨2 * xs.length - 1, by have := List.length_pos_iff.mpr hx; omega⟩
    simp [evictFrame, hempty, hst, hsize, hn, clockLoop, hfree]

/-- What `frame_free` can do to a list of live blocks: find no entry for the frame, or take out
and free the first one, moving the hand on first if it is there. -/
theorem frameFree_cases (hw : Wf s xs) (kpage : ℕ) :
    (s.frameFree kpage = some s ∧ ∀ e ∈ xs, (s.entry e).any (·.kpage == kpage) = false) ∨
    ∃ ys v zs s', xs = ys ++ v :: zs ∧ s.frameFree kpage = some s' ∧ Wf s' (ys ++ zs) ∧
      s'.table = s.table ∧
      s'.clockHand = (if s.clockHand = some v then some ((zs ++ ys ++ [v]).head (by simp))
        else s.clockHand) ∧
      (∀ e, s'.entry e = if e = v then none else s.entry e) ∧ s'.accessed = s.accessed ∧
      (s.entry v).any (·.kpage == kpage) = true := by
  have hfind := findFrame_eq hw kpage
  cases hf : xs.find? fun e => (s.entry e).any (·.kpage == kpage) with
  | none =>
    refine .inl ⟨by simp [frameFree, hfind, hf], fun e he => ?_⟩
    rw [List.find?_eq_none] at hf
    simpa using hf e he
  | some v =>
    right
    obtain ⟨ys, zs, rfl⟩ := List.append_of_mem (List.mem_of_find?_eq_some hf)
    set hand := if s.clockHand = some v then some ((zs ++ ys ++ [v]).head (by simp))
      else s.clockHand
    obtain ⟨heap', hrem, hw'⟩ := hw.remove hand
    refine ⟨ys, v, zs, _, rfl, ?_, hw', rfl, rfl, fun e => entry_free _ _, rfl,
      List.find?_some (p := fun e => (s.entry e).any (·.kpage == kpage)) hf⟩
    simp only [frameFree, hfind, hf, Option.bind_eq_bind, Option.bind_some]
    unfold hand
    by_cases hc : s.clockHand = some v
    · simp [hc, advance_eq hw.dlist, hrem]
    · simp [hc, hrem]

/-- `list_push_back` of a block that is not a cell of the list makes it the last element. -/
theorem Wf.push (hw : Wf s xs) {e : ℕ} (he : e ∉ s.table.cells xs) (fe : FrameEntry) :
    ∃ heap', listPushBack s.heap s.table e = some heap' ∧
      Wf { s with heap := heap', blocks := (e, fe) :: s.blocks } (xs ++ [e]) := by
  obtain ⟨heap', hrun, hl', -⟩ := listPushBack_spec hw.dlist he
  refine ⟨heap', hrun, hl', fun q hq => ?_, fun q hq => ?_⟩
  · rw [entry_cons rfl]
    split
    · rfl
    · next hqe =>
      rcases List.mem_append.mp hq with hq | hq
      · exact hw.live q hq
      · exact absurd (List.mem_singleton.mp hq) hqe
  · rw [entry_cons rfl] at hq
    split at hq
    · next hqe => exact List.mem_append_right _ (List.mem_singleton.mpr hqe)
    · exact List.mem_append_left _ (hw.only q hq)

/-- A block that is neither header cell and not live is no cell of the list. -/
theorem Wf.not_mem_cells (hw : Wf s xs) {e : ℕ} (hhd : e ≠ s.table.head) (htl : e ≠ s.table.tail)
    (hfree : s.entry e = none) : e ∉ s.table.cells xs := by
  simp only [KList.cells, List.cons_append, List.mem_cons, List.mem_append,
    List.not_mem_nil, or_false, not_or]
  refine ⟨hhd, fun hx => ?_, htl⟩
  have := hw.live e hx
  rw [hfree] at this
  cases this

end Steps

section Hand

variable {s : FrameTable} {xs : List ℕ}

/-- `clock_hand` is `NULL`, `list_end`, or an element of the list `xs`. -/
def HandOn (s : FrameTable) (xs : List ℕ) : Prop :=
  s.clockHand = none ∨ s.clockHand = some s.table.tail ∨ ∃ e ∈ xs, s.clockHand = some e

/-- `clock_hand` points at a freed block. -/
def Stale (s : FrameTable) : Prop :=
  ∃ e, s.clockHand = some e ∧ e ≠ s.table.tail ∧ s.entry e = none

/-- What a call from the list `xs` of live blocks does: it keeps the header, leaves a list of
live blocks, keeps a hand that is on the list on it unless it took out the only element and left
the hand on its freed block, and moves a hand off a freed block only onto the list. -/
def Keeps (s : FrameTable) (xs : List ℕ) (s' : FrameTable) : Prop :=
  s'.table = s.table ∧ ∃ xs', Wf s' xs' ∧
    (HandOn s xs → HandOn s' xs' ∨ ∃ e, xs = [e] ∧ s'.clockHand = some e ∧ s'.entry e = none) ∧
    (Stale s → HandOn s' xs' ∨ Stale s')

theorem keeps_of_fields (hw : Wf s xs) {s' : FrameTable} (hheap : s'.heap = s.heap)
    (htable : s'.table = s.table) (hhand : s'.clockHand = s.clockHand)
    (hentry : ∀ e, (s'.entry e).isSome = (s.entry e).isSome) : Keeps s xs s' := by
  refine ⟨htable, xs, ⟨?_, fun e he => ?_, fun e he => ?_⟩, fun hh => .inl ?_, fun hs => .inr ?_⟩
  · rw [hheap, htable]
    exact hw.dlist
  · rw [hentry]
    exact hw.live e he
  · rw [hentry] at he
    exact hw.only e he
  · unfold HandOn
    rw [hhand, htable]
    exact hh
  · obtain ⟨e, hc, ht, hn⟩ := hs
    refine ⟨e, hhand.trans hc, htable ▸ ht, ?_⟩
    rw [← Option.not_isSome_iff_eq_none, hentry, Option.not_isSome_iff_eq_none]
    exact hn

/-- Past the element `v`, the hand wraps onto an element of the rest, if there is one. -/
theorem cycle_head_mem {ys zs : List ℕ} {v : ℕ} (hne : zs ++ ys ≠ []) :
    (zs ++ ys ++ [v]).head (by simp) ∈ ys ++ zs := by
  rw [List.head_append_of_ne_nil hne]
  have hmem := List.head_mem hne
  simp only [List.mem_append] at hmem ⊢
  tauto

/-- The hand after taking out `v`: on the rest, or on `v`'s freed block when `v` was alone. -/
theorem handOn_remove {ys zs : List ℕ} {v : ℕ} {s' : FrameTable}
    (hc : s'.clockHand = some ((zs ++ ys ++ [v]).head (by simp))) (hv : s'.entry v = none) :
    HandOn s' (ys ++ zs) ∨ ∃ e, ys ++ v :: zs = [e] ∧ s'.clockHand = some e ∧ s'.entry e = none := by
  by_cases hne : zs ++ ys = []
  · obtain ⟨rfl, rfl⟩ := List.append_eq_nil_iff.mp hne
    exact .inr ⟨v, rfl, hc, hv⟩
  · exact .inl (.inr (.inr ⟨_, cycle_head_mem hne, hc⟩))

/-- The hand left on the freed block of the only element is stale. -/
theorem stale_of_single (hw : Wf s xs) {s' : FrameTable} (htable : s'.table = s.table) {e : ℕ}
    (hxs : xs = [e]) (hc : s'.clockHand = some e) (hn : s'.entry e = none) : Stale s' :=
  ⟨e, hc, htable ▸ ne_tail_of_mem hw.dlist (hxs ▸ List.mem_singleton_self e), hn⟩

/-- A hand on the list never reads a freed block. -/
theorem HandOn.not_stale (hw : Wf s xs) (hh : HandOn s xs) : ¬ Stale s := by
  rintro ⟨e, hc, ht, hn⟩
  rcases hh with hn' | ht' | ⟨e', he', hc'⟩
  · rw [hc] at hn'
    cases hn'
  · rw [hc, Option.some.injEq] at ht'
    exact ht ht'
  · rw [hc, Option.some.injEq] at hc'
    subst hc'
    have := hw.live e he'
    rw [hn] at this
    cases this

/-- A stale hand is on no live block. -/
theorem Stale.ne_of_live (hs : Stale s) {v : ℕ} (hv : (s.entry v).isSome) : s.clockHand ≠ some v := by
  obtain ⟨e, hc, -, hn⟩ := hs
  rw [hc]
  rintro ⟨⟩
  rw [hn] at hv
  cases hv

theorem keeps_evictFrame (hw : Wf s xs) {r : Option ℕ} {s' : FrameTable}
    (h : s.evictFrame = some (r, s')) : Keeps s xs s' := by
  rcases evictFrame_cases hw with ⟨hn, -⟩ | ⟨s₁, he, hs₁⟩ |
      ⟨ys, v, zs, fe, s₁, rfl, -, he, hw', htable, hc, hentry⟩
  · rw [hn] at h
    cases h
  · rw [he, Option.some.injEq, Prod.mk.injEq] at h
    obtain ⟨-, rfl⟩ := h
    rcases hs₁ with rfl | ⟨acc, h₁, hh₁, rfl⟩
    · exact keeps_of_fields hw rfl rfl rfl fun _ => rfl
    · have hon : HandOn ({ s with accessed := acc, clockHand := some h₁ } : FrameTable) xs :=
        .inr (.inr ⟨h₁, hh₁, rfl⟩)
      exact ⟨rfl, xs, ⟨hw.dlist, hw.live, hw.only⟩, fun _ => .inl hon, fun _ => .inl hon⟩
  · rw [he, Option.some.injEq, Prod.mk.injEq] at h
    obtain ⟨-, rfl⟩ := h
    have hrem := handOn_remove hc (by rw [hentry, if_pos rfl])
    refine ⟨htable, ys ++ zs, hw', fun _ => hrem, fun _ => ?_⟩
    rcases hrem with hon | ⟨e, hxs, hc', hn⟩
    · exact .inl hon
    · exact .inr (stale_of_single hw htable hxs hc' hn)

theorem keeps_frameFree (hw : Wf s xs) {s' : FrameTable} {kpage : ℕ}
    (h : s.frameFree kpage = some s') : Keeps s xs s' := by
  rcases frameFree_cases hw kpage with ⟨he, -⟩ |
      ⟨ys, v, zs, s₁, rfl, he, hw', htable, hc, hentry, -, -⟩
  · rw [he, Option.some.injEq] at h
    subst h
    exact keeps_of_fields hw rfl rfl rfl fun _ => rfl
  · rw [he, Option.some.injEq] at h
    subst h
    have hlive : (s.entry v).isSome := hw.live v (by simp)
    refine ⟨htable, ys ++ zs, hw', fun hh => ?_, fun hs => .inr ?_⟩
    · by_cases hcv : s.clockHand = some v
      · rw [if_pos hcv] at hc
        exact handOn_remove hc (by rw [hentry, if_pos rfl])
      · -- a hand off `v` stays where it was
        rw [if_neg hcv] at hc
        left
        unfold HandOn
        rw [hc, htable]
        rcases hh with hn | ht | ⟨e, he, hce⟩
        · exact .inl hn
        · exact .inr (.inl ht)
        · refine .inr (.inr ⟨e, ?_, hce⟩)
          have hev : e ≠ v := fun h' => hcv (h' ▸ hce)
          simp only [List.mem_append, List.mem_cons] at he ⊢
          tauto
    · obtain ⟨e, hce, ht, hn⟩ := hs
      have hcv : s.clockHand ≠ some v := Stale.ne_of_live ⟨e, hce, ht, hn⟩ hlive
      have hev : e ≠ v := fun h' => hcv (h' ▸ hce)
      rw [if_neg hcv] at hc
      exact ⟨e, hc.trans hce, htable ▸ ht, by rw [hentry, if_neg hev, hn]⟩

theorem keeps_getFrame (hw : Wf s xs) {palloc : Option ℕ} {k : ℕ} {s₁ : FrameTable}
    (h : s.getFrame palloc = some (k, s₁)) : Keeps s xs s₁ := by
  unfold getFrame at h
  cases palloc with
  | some k' =>
    rw [Option.some.injEq, Prod.mk.injEq] at h
    obtain ⟨-, rfl⟩ := h
    exact keeps_of_fields hw rfl rfl rfl fun _ => rfl
  | none =>
    dsimp only at h
    split at h
    · next k' s₂ he =>
      rw [Option.some.injEq, Prod.mk.injEq] at h
      obtain ⟨-, rfl⟩ := h
      exact keeps_evictFrame hw he
    · cases h

/-- The push at the end of `frame_alloc`: the list grows by the new block and nothing else
changes that the hand depends on. -/
theorem pushEntry_spec (hw : Wf s xs) {kpage : ℕ} {malloc : Option ℕ} {owner upage : ℕ}
    (hfresh : ∀ e, malloc = some e → e ≠ s.table.head ∧ e ≠ s.table.tail ∧ s.entry e = none)
    {r : Option ℕ} {s' : FrameTable} (h : s.pushEntry kpage malloc owner upage = some (r, s')) :
    s'.table = s.table ∧ s'.clockHand = s.clockHand ∧ ∃ xs', Wf s' xs' ∧ (∀ e ∈ xs, e ∈ xs') ∧
      ∀ v, s.entry v = none → s'.entry v = none ∨ v ∈ xs' := by
  unfold pushEntry at h
  cases malloc with
  | none =>
    rw [Option.some.injEq, Prod.mk.injEq] at h
    obtain ⟨-, rfl⟩ := h
    exact ⟨rfl, rfl, xs, hw, fun _ he => he, fun _ hv => .inl hv⟩
  | some e =>
    obtain ⟨hhd, htl, hfree⟩ := hfresh e rfl
    obtain ⟨heap', hpush, hw'⟩ :=
      hw.push (hw.not_mem_cells hhd htl hfree) ⟨kpage, upage, owner, false⟩
    dsimp only at h
    rw [hpush, Option.map_some, Option.some.injEq, Prod.mk.injEq] at h
    obtain ⟨-, rfl⟩ := h
    refine ⟨rfl, rfl, xs ++ [e], hw', fun q hq => List.mem_append_left _ hq, fun v hv => ?_⟩
    rw [entry_cons rfl]
    split
    · next hve => exact .inr (List.mem_append_right _ (List.mem_singleton.mpr hve))
    · exact .inl hv

theorem keeps_frameAlloc (hw : Wf s xs) {palloc malloc : Option ℕ} {owner upage : ℕ}
    (hfresh : (FrameCall.alloc palloc malloc owner upage).fresh s = true) {r : Option ℕ}
    {s' : FrameTable} (h : s.frameAlloc palloc malloc owner upage = some (r, s')) :
    Keeps s xs s' := by
  obtain ⟨⟨k, s₁⟩, hg, hp⟩ := Option.bind_eq_some_iff.mp h
  obtain ⟨htable₁, xs₁, hw₁, hon₁, hst₁⟩ := keeps_getFrame hw hg
  -- `malloc` runs after `evict_frame`: the block is fresh in the table `getFrame` left
  have hfresh₁ : ∀ e, malloc = some e → e ≠ s₁.table.head ∧ e ≠ s₁.table.tail ∧
      s₁.entry e = none := by
    rintro e rfl
    simp only [FrameCall.fresh, hg, Bool.and_eq_true, bne_iff_ne, ne_eq,
      Option.isNone_iff_eq_none] at hfresh
    exact ⟨hfresh.1.1, hfresh.1.2, hfresh.2⟩
  obtain ⟨htable, hhand, xs', hw', hsub, hnew⟩ := pushEntry_spec hw₁ hfresh₁ hp
  -- the push keeps a hand on the list there, and one on a freed block there or on the new block
  have hon : HandOn s₁ xs₁ → HandOn s' xs' := by
    rintro (hn | ht | ⟨e, he, hc⟩)
    · exact .inl (hhand.trans hn)
    · exact .inr (.inl (by rw [hhand, htable, ht]))
    · exact .inr (.inr ⟨e, hsub e he, hhand.trans hc⟩)
  have hfreed : ∀ v, s₁.clockHand = some v → s₁.entry v = none →
      HandOn s' xs' ∨ s'.clockHand = some v ∧ s'.entry v = none := by
    intro v hc hv
    rcases hnew v hv with hv' | hv'
    · exact .inr ⟨hhand.trans hc, hv'⟩
    · exact .inl (.inr (.inr ⟨v, hv', hhand.trans hc⟩))
  refine ⟨htable.trans htable₁, xs', hw', fun hh => ?_, fun hs => ?_⟩
  · rcases hon₁ hh with h₁ | ⟨v, hxs, hc, hv⟩
    · exact .inl (hon h₁)
    · rcases hfreed v hc hv with h' | ⟨hc', hv'⟩
      · exact .inl h'
      · exact .inr ⟨v, hxs, hc', hv'⟩
  · rcases hst₁ hs with h₁ | ⟨v, hc, ht, hv⟩
    · exact .inl (hon h₁)
    · rcases hfreed v hc hv with h' | ⟨hc', hv'⟩
      · exact .inl h'
      · exact .inr ⟨v, hc', htable ▸ ht, hv'⟩

/-- `frame_pin` and `frame_unpin` rewrite one entry and leave every block live or not as it
was. -/
theorem frameSetPinned_fields (hw : Wf s xs) {kpage : ℕ} {pinned : Bool} {s' : FrameTable}
    (h : s.frameSetPinned kpage pinned = some s') :
    s'.heap = s.heap ∧ s'.table = s.table ∧ s'.clockHand = s.clockHand ∧
      ∀ e, (s'.entry e).isSome = (s.entry e).isSome := by
  unfold frameSetPinned at h
  rw [findFrame_eq hw, Option.bind_eq_bind, Option.bind_some] at h
  split at h
  · rw [Option.some.injEq] at h
    subst h
    exact ⟨rfl, rfl, rfl, fun _ => rfl⟩
  · next v _ =>
    obtain ⟨fe, -, hs⟩ := Option.bind_eq_some_iff.mp h
    rw [Option.some.injEq] at hs
    subst hs
    refine ⟨rfl, rfl, rfl, fun e => ?_⟩
    rw [entry_setEntry]
    split
    · exact Option.isSome_map
    · rfl

theorem keeps_frameSetPinned (hw : Wf s xs) {kpage : ℕ} {pinned : Bool} {s' : FrameTable}
    (h : s.frameSetPinned kpage pinned = some s') : Keeps s xs s' := by
  obtain ⟨hheap, htable, hhand, hentry⟩ := frameSetPinned_fields hw h
  exact keeps_of_fields hw hheap htable hhand hentry

end Hand

section Single

variable {s : FrameTable} {e : ℕ} {fe : FrameEntry}

/-- With one unpinned frame, the loop of `evict_frame` picks it: at once, or after clearing its
accessed bit and wrapping back to it. -/
theorem clockLoop_single (hw : Wf s [e]) (hfe : s.entry e = some fe) (hp : fe.pinned = false) :
    ∃ acc, clockLoop s 2 e = some (some e, { s with accessed := acc, clockHand := some e }) := by
  cases ha : s.accessed fe.owner fe.upage with
  | false =>
    refine ⟨s.accessed, ?_⟩
    simp [clockLoop, hfe, hp, ha]
  | true =>
    -- the first round clears the bit, the second takes the frame
    have hadv : (s.clearAccessed fe.owner fe.upage).advance e = some e :=
      @advance_eq (s.clearAccessed fe.owner fe.upage) [] [] e hw.dlist
    have hcl : (s.clearAccessed fe.owner fe.upage).accessed fe.owner fe.upage = false := by
      simp [clearAccessed]
    have hfe₁ : (s.clearAccessed fe.owner fe.upage).entry e = some fe := hfe
    refine ⟨(s.clearAccessed fe.owner fe.upage).accessed, ?_⟩
    simp only [clockLoop, hfe, hp, ha, Option.bind_eq_bind, Option.bind_some, Bool.not_false,
      Bool.not_true, Bool.and_false, Bool.false_eq_true, if_false]
    rw [hadv, Option.bind_some, hfe₁, Option.bind_some]
    simp only [hp, hcl, Bool.not_false, Bool.and_self, if_true]
    rfl

/-- With one frame, unpinned, and the hand on the list, `evict_frame` evicts that frame and
leaves the hand on its freed block. -/
theorem evictFrame_single (hw : Wf s [e]) (hh : HandOn s [e]) (hfe : s.entry e = some fe)
    (hp : fe.pinned = false) :
    ∃ s', s.evictFrame = some (some fe.kpage, s') ∧ Wf s' [] ∧ s'.clockHand = some e ∧
      s'.entry e = none := by
  obtain ⟨st, hst, hmem⟩ := clockStart_mem hw (List.cons_ne_nil e [])
  have hst' : st = e := by
    rcases hmem with hmem | ⟨hc, ht, hn⟩
    · exact List.mem_singleton.mp hmem
    · exact absurd ⟨st, hc, ht, hn⟩ (hh.not_stale hw)
  subst hst'
  obtain ⟨acc, hloop⟩ := clockLoop_single hw hfe hp
  obtain ⟨s', he, hw', -, hc, hentry, -⟩ :=
    evictFrame_of_victim (show Wf s ([] ++ st :: []) from hw) hst hloop hfe
  exact ⟨s', he, hw', hc, by rw [hentry, if_pos rfl]⟩

/-- With one frame and the hand on it, `frame_free` of that frame moves the hand past it, wraps
back to it, and frees it. -/
theorem frameFree_single (hw : Wf s [e]) (hfe : s.entry e = some fe)
    (hc : s.clockHand = some e) :
    ∃ s', s.frameFree fe.kpage = some s' ∧ Wf s' [] ∧ s'.clockHand = some e ∧
      s'.entry e = none := by
  rcases frameFree_cases hw fe.kpage with ⟨-, hnone⟩ |
      ⟨ys, v, zs, s', hxs, he, hw', -, hc', hentry, -, -⟩
  · have := hnone e List.mem_cons_self
    simp [hfe] at this
  · obtain ⟨rfl, rfl, rfl⟩ : ys = [] ∧ v = e ∧ zs = [] := by
      rcases ys with _ | ⟨y, ys⟩
      · simp only [List.nil_append, List.cons.injEq] at hxs
        exact ⟨rfl, hxs.1.symm, hxs.2.symm⟩
      · simp at hxs
    rw [if_pos hc] at hc'
    exact ⟨s', he, hw', hc', by rw [hentry, if_pos rfl]⟩

end Single

end FrameTable

open FrameTable

theorem keeps_frameStep {s : FrameTable} {xs : List ℕ} (hw : FrameTable.Wf s xs) {a : FrameCall}
    (hfresh : a.fresh s = true) : Keeps s xs (frameStep s a) := by
  unfold frameStep
  cases ho : frameStepOpt s a with
  | none => exact keeps_of_fields hw rfl rfl rfl fun _ => rfl
  | some s' =>
    rw [Option.getD_some]
    cases a with
    | alloc palloc malloc owner upage =>
      obtain ⟨⟨r, s''⟩, h, rfl⟩ := Option.map_eq_some_iff.mp ho
      exact keeps_frameAlloc hw hfresh h
    | free kpage => exact keeps_frameFree hw ho
    | evict =>
      obtain ⟨⟨r, s''⟩, h, rfl⟩ := Option.map_eq_some_iff.mp ho
      exact keeps_evictFrame hw h
    | pin kpage => exact keeps_frameSetPinned hw ho
    | unpin kpage => exact keeps_frameSetPinned hw ho
    | access owner upage =>
      rw [frameStepOpt, Option.some.injEq] at ho
      subst ho
      exact keeps_of_fields hw rfl rfl rfl fun _ => rfl

theorem wf_frameTable₀ : FrameTable.Wf frameTable₀ [] :=
  ⟨(listInit_spec _ (by decide)).1, fun _ h => absurd h List.not_mem_nil,
    fun _ h => by simp [frameTable₀, frameInit, entry] at h⟩

/-- Along every run, `frame_table` is a list of live blocks, and `clock_hand` is `NULL`,
`list_end`, an element of the list, or a block that has been freed. -/
theorem hand_on_list_or_freed :
    frameSystem.Invariant fun s => ∃ xs, FrameTable.Wf s xs ∧ (HandOn s xs ∨ Stale s) where
  init := ⟨[], wf_frameTable₀, .inl (.inl rfl)⟩
  step s a := by
    rintro ⟨xs, hw, hh⟩ ⟨-, hfresh⟩
    obtain ⟨htable, xs', hw', hon, hst⟩ := keeps_frameStep hw hfresh
    refine ⟨xs', hw', ?_⟩
    rcases hh with hh | hs
    · rcases hon hh with h' | ⟨e, hxs, hc, hn⟩
      · exact .inl h'
      · exact .inr (stale_of_single hw htable hxs hc hn)
    · exact hst hs

/-- `clock_hand` is `NULL`, `list_end`, or an element of the list `frame_table` holds. -/
def HandValid (s : FrameTable) : Prop :=
  ∀ xs, DList s.heap s.table.head s.table.tail xs → HandOn s xs

/-- Two frames from the pool; `evict_frame` takes the first and moves the hand to the second,
and `frame_free` of the second, now the only one, wraps the hand back onto it and frees it. -/
def freeOnlyFrame : List FrameCall :=
  [.alloc (some 7) (some 200) 1 0x1000, .alloc (some 8) (some 100) 1 0x2000, .evict, .free 8]

theorem clock_hand_left_on_freed_block :
    ∃ t, frameSystem.Reachable t ∧ t.clockHand = some 100 ∧ t.entry 100 = none ∧ ¬ HandValid t := by
  obtain ⟨t, ht, hc, hn, htl⟩ := Transition.System.exists_reachable_of_replay (S := frameSystem)
    (P := fun t => t.clockHand = some 100 ∧ t.entry 100 = none ∧ t.table.tail = 1) freeOnlyFrame
    (by decide)
  refine ⟨t, ht, hc, hn, fun hv => ?_⟩
  obtain ⟨xs, hw, -⟩ := hand_on_list_or_freed.holds ht
  exact (hv xs hw.dlist).not_stale hw ⟨100, hc, by rw [htl]; decide, hn⟩

end Pintos.Clock
