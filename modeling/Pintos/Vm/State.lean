import Pintos.Kernel.Bitmap
import Mathlib.Data.List.Basic

/-! # Virtual memory: pages, frames and swap slots

The state of `vm/` for several user processes on one machine: each process's
supplemental page table (`struct spt`) and page directory, the frame table of
`vm/frame.c` with its clock hand, the user pool of `palloc`, and the swap
table and swap device of `vm/swap.c`.

A page's content is one value: what its 4096 bytes hold as a whole. A file
page's initial content `fileData` is its `read_bytes` from the file followed
by zeros. `expected` is ghost state: for each process and page, the last
value the process wrote there, or the page's initial content.

A page-table entry keeps its dirty and accessed bits when `pagedir_clear_page`
resets its present bit, and `pagedir_is_dirty` and `pagedir_is_accessed` read
them present or not, as the C functions do.
-/

namespace Pintos

inductive PageType
  | file
  | swap
  | zero
  | mmap
  deriving DecidableEq, Repr

structure SptEntry where
  upage : ℕ
  kpage : Option ℕ
  type : PageType
  writable : Bool
  loaded : Bool
  fileData : ℕ
  readBytes : ℕ
  swapSlot : ℕ
  mapid : ℤ
  deriving DecidableEq, Repr

/-- A user page-table entry: the frame and `PTE_P`, `PTE_W`, `PTE_D`, `PTE_A`. -/
structure Pte where
  upage : ℕ
  kpage : ℕ
  present : Bool
  writable : Bool
  dirty : Bool
  accessed : Bool
  deriving DecidableEq, Repr

structure FrameEntry where
  kpage : ℕ
  upage : ℕ
  owner : ℕ
  pinned : Bool
  deriving DecidableEq, Repr

/-- Where a process is: running user code, or in `spt_load_page` past `frame_alloc`, about
to fill frame `kpage` for `upage` from the entry's fields it saved. -/
inductive VmPc
  | user
  | fill (upage kpage : ℕ) (type : PageType) (writable : Bool) (fileData readBytes swapSlot : ℕ)
  | dead
  deriving DecidableEq, Repr

structure VmProc where
  spt : List SptEntry
  pagedir : List Pte
  pc : VmPc
  deriving DecidableEq, Repr

def VmProc.exited : VmProc := ⟨[], [], .dead⟩

structure VmState where
  procs : ℕ → VmProc
  frames : ℕ → ℕ
  userPool : Bitmap
  frameTable : List FrameEntry
  -- The frame of the entry `clock_hand` points at; `none` for `NULL` and `list_end`.
  clockHand : Option ℕ
  swapTable : Bitmap
  swapData : ℕ → ℕ
  panicked : Bool
  expected : ℕ → ℕ → ℕ

/-! ## Page directories (`userprog/pagedir.c`) -/

def pteOf (pd : List Pte) (upage : ℕ) : Option Pte := pd.find? (·.upage == upage)

def pagedirGetPage (pd : List Pte) (upage : ℕ) : Option ℕ :=
  match pteOf pd upage with
  | some e => if e.present then some e.kpage else none
  | none => none

def pagedirIsDirty (pd : List Pte) (upage : ℕ) : Bool := ((pteOf pd upage).map (·.dirty)).getD false

def pagedirIsAccessed (pd : List Pte) (upage : ℕ) : Bool :=
  ((pteOf pd upage).map (·.accessed)).getD false

def updatePte (pd : List Pte) (upage : ℕ) (f : Pte → Pte) : List Pte :=
  pd.map fun e => if e.upage = upage then f e else e

def pagedirClearPage (pd : List Pte) (upage : ℕ) : List Pte :=
  updatePte pd upage ({ · with present := false })

def pagedirSetAccessed (pd : List Pte) (upage : ℕ) (accessed : Bool) : List Pte :=
  updatePte pd upage ({ · with accessed := accessed })

/-- `pagedir_set_page`; `none` is its ASSERT that the page is not present. -/
def pagedirSetPage (pd : List Pte) (upage kpage : ℕ) (writable : Bool) : Option (List Pte) :=
  let pte : Pte := ⟨upage, kpage, true, writable, false, false⟩
  match pteOf pd upage with
  | some e => if e.present then none else some (updatePte pd upage fun _ => pte)
  | none => some (pd ++ [pte])

/-! ## Supplemental page tables (`vm/page.c`) -/

def sptGetEntry (spt : List SptEntry) (upage : ℕ) : Option SptEntry := spt.find? (·.upage == upage)

def sptUpdate (spt : List SptEntry) (upage : ℕ) (f : SptEntry → SptEntry) : List SptEntry :=
  spt.map fun e => if e.upage = upage then f e else e

/-- `hash_delete` of the entry for `upage`. -/
def sptDelete (spt : List SptEntry) (upage : ℕ) : List SptEntry := spt.filter (·.upage != upage)

/-- Updating the entry for `upage` with `f`, which keeps the page address, updates what a lookup
of `upage` finds. -/
theorem sptGetEntry_sptUpdate (spt : List SptEntry) (upage : ℕ) {f : SptEntry → SptEntry}
    (hf : ∀ e, (f e).upage = e.upage) :
    sptGetEntry (sptUpdate spt upage f) upage = (sptGetEntry spt upage).map f := by
  induction spt with
  | nil => rfl
  | cons e es ih =>
    by_cases he : e.upage = upage
    · simp [sptGetEntry, sptUpdate, he, hf]
    · simpa [sptGetEntry, sptUpdate, he] using ih

namespace VmState

variable (s : VmState)

def proc (p : ℕ) : VmProc := s.procs p

def setProc (p : ℕ) (q : VmProc) : VmState := { s with procs := Function.update s.procs p q }

def modifyProc (p : ℕ) (f : VmProc → VmProc) : VmState := s.setProc p (f (s.proc p))

def updateEntry (p upage : ℕ) (f : SptEntry → SptEntry) : VmState :=
  s.modifyProc p fun q => { q with spt := sptUpdate q.spt upage f }

def setFrame (kpage v : ℕ) : VmState := { s with frames := Function.update s.frames kpage v }

/-- What a user read of `upage` by `p` returns, if the page is present. -/
def readValue (p upage : ℕ) : Option ℕ := (pagedirGetPage (s.proc p).pagedir upage).map s.frames

variable {s}

@[simp] theorem proc_setProc (p p' : ℕ) (q : VmProc) :
    (s.setProc p q).proc p' = if p' = p then q else s.proc p' := by
  simp [setProc, proc, Function.update_apply]

@[simp] theorem frameTable_setProc (p : ℕ) (q : VmProc) :
    (s.setProc p q).frameTable = s.frameTable := rfl
@[simp] theorem userPool_setProc (p : ℕ) (q : VmProc) : (s.setProc p q).userPool = s.userPool := rfl
@[simp] theorem swapTable_setProc (p : ℕ) (q : VmProc) :
    (s.setProc p q).swapTable = s.swapTable := rfl
@[simp] theorem frames_setProc (p : ℕ) (q : VmProc) : (s.setProc p q).frames = s.frames := rfl
@[simp] theorem clockHand_setProc (p : ℕ) (q : VmProc) :
    (s.setProc p q).clockHand = s.clockHand := rfl

end VmState

end Pintos
