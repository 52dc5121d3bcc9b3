import Pintos.Vm.Frame
import Pintos.Lib.Transition

/-! # Page faults, unmapping and exit, as one system

`spt_load_page` of `vm/page.c` in two steps: up to `frame_alloc`, which leaves
the process about to fill the frame, and the fill (`file_read`, `swap_in` or
`memset`) with the installation of the page. A process can be switched out
between the two: the fill blocks on the disk, and the frame is not pinned.
What `file_read` returns is the file system's: the fill of a file page reads
its `read_bytes`, and a read that comes back short (`fillShort`) frees the
frame and fails, and `page_fault` kills the process.
`spt_remove_entry` and `spt_destroy_func`; one page of `mmap_unmap` in
`vm/mmap.c`; and `process_exit`'s part in the VM (`mmap_unmap_all`,
`spt_destroy`, `pagedir_destroy`). The page-fault handler of
`userprog/exception.c` loads a page or kills the process; a fault in the
stack window first adds a zero page.
-/

namespace Pintos

/-- Whether the fill can come back short: it reads a file, and asks for some bytes. -/
def VmPc.readsFile : VmPc → Bool
  | .fill _ _ type _ _ readBytes _ => (type == .file || type == .mmap) && 0 < readBytes
  | _ => false

namespace VmState

/-- `spt_load_page` up to the fill: `false` with nothing changed when the page has no entry or
is loaded. -/
def sptLoadPage (s : VmState) (p upage : ℕ) : Option (Bool × VmState) :=
  match sptGetEntry (s.proc p).spt upage with
  | some e =>
    if e.loaded then some (false, s)
    else (s.frameAlloc p e.upage).map fun (k, s₁) =>
      (true, s₁.modifyProc p
        ({ · with pc := .fill e.upage k e.type e.writable e.fileData e.readBytes e.swapSlot }))
  | none => some (false, s)

/-- The rest of `spt_load_page`: fill the frame, install it, and mark the entry loaded. -/
def fillPage (s : VmState) (p : ℕ) : Option VmState :=
  match (s.proc p).pc with
  | .fill upage kpage type writable fileData _ swapSlot => do
    let s₁ ← match type with
      | .file | .mmap => some (s.setFrame kpage fileData)
      | .zero => some (s.setFrame kpage 0)
      | .swap => s.swapIn swapSlot kpage
    let pd ← pagedirSetPage (s₁.proc p).pagedir upage kpage writable
    let s₂ := s₁.modifyProc p ({ · with pagedir := pd, pc := .user })
    some (s₂.updateEntry p upage ({ · with kpage := some kpage, loaded := true }))
  | _ => some s

/-- `spt_set_zero` for a stack page: nothing when the page already has an entry. -/
def sptSetZero (s : VmState) (p upage : ℕ) : VmState :=
  match sptGetEntry (s.proc p).spt upage with
  | some _ => s
  | none =>
    let e : SptEntry := ⟨upage, none, .zero, true, false, 0, 0, 0, -1⟩
    { s.modifyProc p (fun q => { q with spt := q.spt ++ [e] }) with
      expected := Function.update s.expected p (Function.update (s.expected p) upage 0) }

def sptRemoveEntry (s : VmState) (p upage : ℕ) : VmState :=
  match sptGetEntry (s.proc p).spt upage with
  | some e =>
    let s₁ := s.modifyProc p fun q => { q with spt := sptDelete q.spt upage }
    if e.type = .swap ∧ e.swapSlot ≠ 0 then s₁.swapFree e.swapSlot else s₁
  | none => s

def clearPage (s : VmState) (p upage : ℕ) : VmState :=
  s.modifyProc p fun q => { q with pagedir := pagedirClearPage q.pagedir upage }

/-- One page of `mmap_unmap`: write a dirty page back, free its frame, remove its entry. -/
def unmapPage (s : VmState) (p upage : ℕ) : Option VmState := do
  let q := s.proc p
  let s₁ ← match pagedirGetPage q.pagedir upage with
    | some k =>
      let s' := match sptGetEntry q.spt upage with
        | some e =>
          if pagedirIsDirty q.pagedir upage = true ∧ e.type = PageType.mmap ∧ 0 < e.readBytes then
            s.updateEntry p upage ({ · with fileData := s.frames k })
          else s
        | none => s
      (s'.frameFree k).map fun s'' => s''.clearPage p upage
    | none => some s
  some (s₁.sptRemoveEntry p upage)

def mmapUnmap (s : VmState) (p : ℕ) (mapid : ℤ) : Option VmState :=
  (((s.proc p).spt.filter fun e => e.type = PageType.mmap ∧ e.mapid = mapid).map (·.upage)).foldlM
    (fun s upage => s.unmapPage p upage) s

def mmapUnmapAll (s : VmState) (p : ℕ) : Option VmState :=
  (((s.proc p).spt.filter fun e => e.type = PageType.mmap).map (·.mapid)).dedup.foldlM
    (fun s m => s.mmapUnmap p m) s

/-- `spt_destroy_func`. Its `check_write_back` is left out: it acts on mapped pages only, and
`mmap_unmap_all` has removed them all before `spt_destroy` runs. -/
def sptDestroyFunc (s : VmState) (p : ℕ) (e : SptEntry) : Option VmState := do
  let s₁ ← match pagedirGetPage (s.proc p).pagedir e.upage with
    | some k => (s.clearPage p e.upage).frameFree k
    | none => some s
  some (if e.type = .swap ∧ e.swapSlot ≠ 0 then s₁.swapFree e.swapSlot else s₁)

/-- The VM part of `process_exit`. -/
def processExit (s : VmState) (p : ℕ) : Option VmState := do
  let s₁ ← s.mmapUnmapAll p
  let s₂ ← (s₁.proc p).spt.foldlM (fun s e => s.sptDestroyFunc p e) s₁
  -- `pagedir_destroy` frees the frame of every page still present
  let s₃ ← (s₂.proc p).pagedir.foldlM
    (fun s e => if e.present then s.pallocFreePage e.kpage else some s) s₂
  some (s₃.setProc p VmProc.exited)

/-- `page_fault` on a page that is not present: load it, or kill the process. -/
def pageFault (s : VmState) (p upage : ℕ) : Option VmState := do
  let (ok, s₁) ← s.sptLoadPage p upage
  if ok then some s₁ else s.processExit p

/-- The fill when `file_read` returns fewer than `read_bytes` bytes: `spt_load_page` frees the
frame and returns false, and `page_fault` kills the process. -/
def fillShort (s : VmState) (p : ℕ) : Option VmState :=
  match (s.proc p).pc with
  | .fill _ kpage _ _ _ _ _ => (s.frameFree kpage).bind (·.processExit p)
  | _ => some s

/-- A user read of a present page: the MMU sets the accessed bit. -/
def userRead (s : VmState) (p upage : ℕ) : VmState :=
  s.modifyProc p fun q => { q with pagedir := pagedirSetAccessed q.pagedir upage true }

/-- A user write: to a writable present page it lands in the frame and sets the dirty and
accessed bits; to a read-only one it faults and the process is killed. -/
def userWrite (s : VmState) (p upage v : ℕ) : Option VmState :=
  match pteOf (s.proc p).pagedir upage with
  | some e =>
    if e.present ∧ e.writable then
      some { (s.setFrame e.kpage v).modifyProc p (fun q =>
          { q with
            pagedir := updatePte q.pagedir upage ({ · with dirty := true, accessed := true }) })
        with expected := Function.update s.expected p (Function.update (s.expected p) upage v) }
    else s.processExit p
  | none => s.processExit p

end VmState

inductive VmAct
  | fault (p upage : ℕ)
  | growStack (p upage : ℕ)
  | fill (p : ℕ)
  | fillShort (p : ℕ)
  | read (p upage : ℕ)
  | write (p upage v : ℕ)
  | munmap (p : ℕ) (mapid : ℤ)
  | exit (p : ℕ)
  deriving DecidableEq, Repr

open VmState

def vmStepOpt (s : VmState) : VmAct → Option VmState
  | .fault p upage => s.pageFault p upage
  | .growStack p upage => (s.sptSetZero p upage).pageFault p upage
  | .fill p => s.fillPage p
  | .fillShort p => s.fillShort p
  | .read p upage => some (s.userRead p upage)
  | .write p upage v => s.userWrite p upage v
  | .munmap p mapid => s.mmapUnmap p mapid
  | .exit p => s.processExit p

/-- A step; a PANIC or failed ASSERT stops the machine. -/
def vmStep (s : VmState) (a : VmAct) : VmState := (vmStepOpt s a).getD { s with panicked := true }

def VmEnabled (s : VmState) : VmAct → Prop
  | .fault p upage | .growStack p upage =>
    s.panicked = false ∧ (s.proc p).pc = .user ∧ pagedirGetPage (s.proc p).pagedir upage = none
  | .fill p => s.panicked = false ∧ (s.proc p).pc ≠ .user ∧ (s.proc p).pc ≠ .dead
  | .fillShort p => s.panicked = false ∧ (s.proc p).pc.readsFile = true
  | .read p upage | .write p upage _ =>
    s.panicked = false ∧ (s.proc p).pc = .user ∧ pagedirGetPage (s.proc p).pagedir upage ≠ none
  | .munmap p _ | .exit p => s.panicked = false ∧ (s.proc p).pc = .user

instance (s : VmState) (a : VmAct) : Decidable (VmEnabled s a) :=
  match a with
  | .fault _ _ | .growStack _ _ | .read _ _ | .write _ _ _ | .munmap _ _ | .exit _ =>
    inferInstanceAs (Decidable (_ ∧ _))
  | .fill _ | .fillShort _ => inferInstanceAs (Decidable (_ ∧ _))

/-- The content a page has before any write: its file bytes, or zeros. -/
def initialContent (e : SptEntry) : ℕ :=
  match e.type with
  | .zero => 0
  | _ => e.fileData

/-- Processes `0, 1, …` with the page tables `load` gave them, nothing loaded yet, a user
pool of `poolSize` frames and a swap device of `swapSize` slots. -/
def vmInit (spts : List (List SptEntry)) (poolSize swapSize : ℕ) : VmState where
  procs p := match spts[p]? with
    | some spt => ⟨spt, [], .user⟩
    | none => VmProc.exited
  frames _ := 0
  userPool := Bitmap.create poolSize
  frameTable := []
  clockHand := none
  swapTable := Bitmap.create swapSize
  swapData _ := 0
  panicked := false
  expected p upage := ((sptGetEntry (spts.getD p []) upage).map initialContent).getD 0

def vmSystem (spts : List (List SptEntry)) (poolSize swapSize : ℕ) :
    Transition.System VmState VmAct where
  init := vmInit spts poolSize swapSize
  Enabled := VmEnabled
  step := vmStep

instance (spts : List (List SptEntry)) (poolSize swapSize : ℕ) (s : VmState) (a : VmAct) :
    Decidable ((vmSystem spts poolSize swapSize).Enabled s a) :=
  inferInstanceAs (Decidable (VmEnabled s a))

end Pintos
