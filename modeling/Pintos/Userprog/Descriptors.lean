import Pintos.Userprog.Syscall
import Pintos.Lib.Transition
import Mathlib.Data.List.Basic

/-! # The descriptor table

`file_descriptors` of a process under `sys_open`, `sys_close`, `sys_read`,
`sys_write`, `sys_seek`, `sys_tell`, `sys_filesize` and `sys_mmap` called with
any `int` descriptor, and `fd_close_all`, which `sys_exit` runs.

A slot's `struct file` is kept here by value, so a read, write or seek that
moves its position changes the value; what stays is the file up to its
position (`File.rewind`), as `file_read`, `file_write` and `file_seek` move
nothing else of it. Each call's effect on the table is stated once as a
frame relation between the state it starts in and the state it returns in
(`OpenEffect`, `CloseEffect`, `MoveEffect`, `SameFds`), proved through the
binds of the handler with `StateExcept.Preserves`, and the run-level facts are
derived from these.

The table is only ever written in `[2, FD_MAX)`, `open` takes the smallest
free slot, and a slot keeps its file until its descriptor is closed. A call
on a free slot, or on a descriptor outside `[2, FD_MAX)` whatever the table
holds at that index, returns its error value, except `read` and `write` of 0
bytes, which return 0 before they look at the descriptor.
-/

namespace Pintos

open StateExcept

variable {σ : Type}

/-- The layer below with no files at all: every open fails, and reads and writes move
nothing. -/
def Services.closed : Services Unit where
  inputGetc _ := (0, ())
  putbuf _ _ := ()
  filesysCreate _ _ _ := .ok (false, ())
  filesysRemove _ _ := (false, ())
  filesysOpen _ _ := (none, ())
  fileReopen _ _ := (none, ())
  fileClose _ _ := ()
  fileLength _ _ := 0
  inodeReadAt _ _ _ _ := []
  inodeWriteAt _ _ _ _ := (0, ())
  processExecute _ _ := (-1, ())
  processWait _ _ := (-1, ())
  mmapMap _ as _ _ _ := (-1, as, ())
  mmapUnmap _ as _ := (as, ())

section Calls

variable (S : Services σ)

/-- One round of the loop of `fd_close_all`: close the file of slot `i`, if any, and clear
the slot. -/
def closeSlot (i : ℕ) : SysM σ Unit := do
  match (← get).proc.fds i with
  | some f =>
    modifyFs (S.fileClose · f)
    setFd i none
  | none => pure ()

/-- `fd_close_all`: every slot from 2 on in turn; `file_lock` is not modelled at this layer. -/
def fdCloseAll : SysM σ Unit := (List.range' 2 (fdMax - 2)).forM (closeSlot S)

/-- A call on the descriptor table, with the arguments `syscall_handler` passes on. -/
inductive FdCall
  | openFile (ufile : ℕ)
  | close (fd : ℤ)
  | read (fd : ℤ) (ubuf size : ℕ)
  | write (fd : ℤ) (ubuf size : ℕ)
  | seek (fd : ℤ) (position : ℕ)
  | tell (fd : ℤ)
  | filesize (fd : ℤ)
  | mmap (fd : ℤ) (addr : ℕ)

/-- The call's handler, its value dropped. -/
def FdCall.run : FdCall → SysM σ Unit
  | .openFile ufile => do let _ ← sysOpen S ufile
  | .close fd => sysClose S fd
  | .read fd ubuf size => do let _ ← sysRead S fd ubuf size
  | .write fd ubuf size => do let _ ← sysWrite S fd ubuf size
  | .seek fd position => sysSeek fd position
  | .tell fd => do let _ ← sysTell (σ := σ) fd
  | .filesize fd => do let _ ← sysFilesize S fd
  | .mmap fd addr => do let _ ← sysMmap S fd addr

/-- The process's calls in sequence from `s₀`: a call runs when it returns, and one that
stops the process (`sys_exit` or a kernel fault) ends the sequence. -/
def fdSystem (s₀ : SysState σ) : Transition.System (SysState σ) FdCall where
  init := s₀
  Enabled s c := (c.run S s).toBool = true
  step s c :=
    match c.run S s with
    | .ok (_, s') => s'
    | .error _ => s

instance (s₀ s : SysState σ) (c : FdCall) : Decidable ((fdSystem S s₀).Enabled s c) :=
  inferInstanceAs (Decidable (_ = true))

end Calls

section Frames

variable {fd : ℤ} {g : File}

/-- The descriptor table is as it was. -/
def SameFds (s s' : SysState σ) : Prop := s'.proc.fds = s.proc.fds

/-- Every slot keeps its file, or was free and is now filled, within `[2, FD_MAX)`. -/
def OpenEffect (s s' : SysState σ) : Prop :=
  ∀ j, s'.proc.fds j = s.proc.fds j ∨ (2 ≤ j ∧ j < fdMax ∧ s.proc.fds j = none)

/-- Every slot keeps its file, but that of descriptor `fd`, which may be emptied when it lies
in `[2, FD_MAX)`. -/
def CloseEffect (fd : ℤ) (s s' : SysState σ) : Prop :=
  ∀ j, s'.proc.fds j = s.proc.fds j ∨ (2 ≤ fd ∧ fd < fdMax ∧ j = fd.toNat ∧ s'.proc.fds j = none)

/-- Every slot keeps its file, but that of descriptor `fd`, whose file may move its position
when it lies in `[2, FD_MAX)`. -/
def MoveEffect (fd : ℤ) (s s' : SysState σ) : Prop :=
  ∀ j, s'.proc.fds j = s.proc.fds j ∨
    (2 ≤ fd ∧ fd < fdMax ∧ j = fd.toNat ∧
      (s'.proc.fds j).map File.rewind = (s.proc.fds j).map File.rewind)

/-- `MoveEffect` with the file of the slot known: it ends as `g` up to position. -/
def MoveTo (fd : ℤ) (g : File) (s s' : SysState σ) : Prop :=
  ∀ j, s'.proc.fds j = s.proc.fds j ∨
    (2 ≤ fd ∧ fd < fdMax ∧ j = fd.toNat ∧ (s'.proc.fds j).map File.rewind = some g.rewind)

instance : Std.Refl (SameFds (σ := σ)) := ⟨fun _ => rfl⟩

/-! A table left as it was is left within each of the call frames. -/

variable {s s' : SysState σ}

theorem SameFds.openEffect (h : SameFds s s') : OpenEffect s s' := fun j => .inl (congrFun h j)

theorem SameFds.closeEffect (h : SameFds s s') : CloseEffect fd s s' := fun j => .inl (congrFun h j)

theorem SameFds.moveEffect (h : SameFds s s') : MoveEffect fd s s' := fun j => .inl (congrFun h j)

theorem SameFds.moveTo (h : SameFds s s') : MoveTo fd g s s' := fun j => .inl (congrFun h j)

instance : IsTrans (SysState σ) SameFds := ⟨fun _ _ _ h₁ h₂ => h₂.trans h₁⟩

instance : Std.Refl (OpenEffect (σ := σ)) := ⟨fun _ _ => .inl rfl⟩

instance : IsTrans (SysState σ) OpenEffect := by
  refine ⟨fun a b c h₁ h₂ j => ?_⟩
  rcases h₁ j with h₁ | h₁
  · rcases h₂ j with h₂ | ⟨hj, hj', hn⟩
    · exact .inl (h₂.trans h₁)
    · exact .inr ⟨hj, hj', h₁ ▸ hn⟩
  · exact .inr h₁

instance : Std.Refl (CloseEffect (σ := σ) fd) := ⟨fun _ _ => .inl rfl⟩

instance : IsTrans (SysState σ) (CloseEffect fd) := by
  refine ⟨fun a b c h₁ h₂ j => ?_⟩
  rcases h₂ j with h₂ | h₂
  · rcases h₁ j with h₁ | ⟨hf, hf', hj, hn⟩
    · exact .inl (h₂.trans h₁)
    · exact .inr ⟨hf, hf', hj, h₂.trans hn⟩
  · exact .inr h₂

instance : Std.Refl (MoveEffect (σ := σ) fd) := ⟨fun _ _ => .inl rfl⟩

instance : IsTrans (SysState σ) (MoveEffect fd) := by
  refine ⟨fun a b c h₁ h₂ j => ?_⟩
  rcases h₂ j with h₂ | ⟨hf, hf', hj, hm⟩
  · rcases h₁ j with h₁ | ⟨hf, hf', hj, hm'⟩
    · exact .inl (h₂.trans h₁)
    · exact .inr ⟨hf, hf', hj, h₂ ▸ hm'⟩
  · rcases h₁ j with h₁ | ⟨-, -, -, hm'⟩
    · exact .inr ⟨hf, hf', hj, h₁ ▸ hm⟩
    · exact .inr ⟨hf, hf', hj, hm.trans hm'⟩

instance : Std.Refl (MoveTo (σ := σ) fd g) := ⟨fun _ _ => .inl rfl⟩

instance : IsTrans (SysState σ) (MoveTo fd g) := by
  refine ⟨fun a b c h₁ h₂ j => ?_⟩
  rcases h₂ j with h₂ | h₂
  · rcases h₁ j with h₁ | ⟨hf, hf', hj, hm⟩
    · exact .inl (h₂.trans h₁)
    · exact .inr ⟨hf, hf', hj, h₂ ▸ hm⟩
  · exact .inr h₂

end Frames

section Primitives

/-! The pieces of the handler that do not write the table. Those that reach user memory
change nothing but the process's memory and address space. -/

/-- Only the process's memory and address space may change: the table and the layers below
are as they were. -/
def MemOnly (s s' : SysState σ) : Prop := s'.fs = s.fs ∧ s'.proc.fds = s.proc.fds

instance : Std.Refl (MemOnly (σ := σ)) := ⟨fun _ => ⟨rfl, rfl⟩⟩

instance : IsTrans (SysState σ) MemOnly := ⟨fun _ _ _ h₁ h₂ => ⟨h₂.1.trans h₁.1, h₂.2.trans h₁.2⟩⟩

theorem MemOnly.sameFds {s s' : SysState σ} (h : MemOnly s s') : SameFds s s' := h.2

variable {a : ℕ} {w : Bool}

theorem touch_memOnly : Preserves MemOnly (touch (σ := σ) a w) := by
  unfold touch
  refine preserves_get_bind fun s x s' h => ?_
  cases hk : s.proc.kernelAccess a w with
  | none =>
    simp only [hk] at h
    cases h
  | some m =>
    simp only [hk] at h
    cases h
    exact ⟨rfl, rfl⟩

theorem modifyProc_memOnly {f : Proc → Proc} (hf : ∀ p, (f p).fds = p.fds) :
    Preserves MemOnly (modifyProc (σ := σ) f) :=
  preserves_modify fun s => ⟨rfl, hf s.proc⟩

theorem setFd_apply (i : ℕ) (f : Option File) (s : SysState σ) :
    setFd i f s = .ok ((), { s with proc := { s.proc with fds := Function.update s.proc.fds i f } }) :=
  rfl

theorem fdGet_congr {p q : Proc} {fd : ℤ} (h : q.fds = p.fds) : fdGet q fd = fdGet p fd := by
  unfold fdGet
  rw [h]

theorem modifyFs_sameFds {f : σ → σ} : Preserves SameFds (modifyFs f) :=
  preserves_modify fun _ => rfl

theorem withFs_sameFds {α : Type} {f : σ → α × σ} : Preserves SameFds (withFs f) := by
  unfold withFs
  refine preserves_get_bind fun s x s' h => ?_
  cases h
  rfl

theorem withFs_returns {α : Type} {f : σ → α × σ} {Q : α → Prop} (h : ∀ fs, Q (f fs).1) :
    Returns Q (withFs f) := by
  intro s a s' hs
  cases hs
  exact h s.fs

theorem readUserByte_memOnly : Preserves MemOnly (readUserByte (σ := σ) a) :=
  touch_memOnly.bind fun _ => preserves_get.bind fun _ => preserves_pure _

theorem writeUserByte_memOnly {v : UInt8} : Preserves MemOnly (writeUserByte (σ := σ) a v) :=
  touch_memOnly.bind fun _ => modifyProc_memOnly fun _ => rfl

theorem readUserBytes_memOnly (n : ℕ) : Preserves MemOnly (readUserBytes (σ := σ) a n) := by
  induction n generalizing a with
  | zero => exact preserves_pure _
  | succ n ih => exact readUserByte_memOnly.bind fun _ => ih.bind fun _ => preserves_pure _

theorem writeUserBytes_memOnly (vs : List UInt8) : Preserves MemOnly (writeUserBytes (σ := σ) a vs) := by
  induction vs generalizing a with
  | nil => exact preserves_pure _
  | cons v vs ih => exact writeUserByte_memOnly.bind fun _ => ih

theorem copyIn_memOnly {n : ℕ} : Preserves MemOnly (copyIn (σ := σ) a n) :=
  preserves_get.bind fun _ => (preserves_pure _).ite <|
    (readUserBytes_memOnly n).bind fun _ => preserves_pure _

theorem copyOut_memOnly {ks : List UInt8} : Preserves MemOnly (copyOut (σ := σ) a ks) :=
  preserves_get.bind fun _ => (preserves_pure _).ite <|
    (writeUserBytes_memOnly ks).bind fun _ => preserves_pure _

theorem copyInCstrLoop_memOnly (i k : ℕ) (acc : List UInt8) :
    Preserves MemOnly (copyInCstrLoop (σ := σ) a i k acc) := by
  induction k generalizing i acc with
  | zero => exact preserves_pure _
  | succ k ih =>
    exact preserves_get.bind fun _ => (preserves_pure _).ite <|
      readUserByte_memOnly.bind fun _ => (preserves_pure _).ite (ih _ _)

theorem copyInCstr_memOnly {cap : ℕ} : Preserves MemOnly (copyInCstr (σ := σ) a cap) :=
  preserves_get.bind fun _ => (preserves_pure _).ite (copyInCstrLoop_memOnly 0 cap [])

theorem pinBuffer_memOnly {size : ℕ} : Preserves MemOnly (pinBuffer (σ := σ) a size) :=
  modifyProc_memOnly fun _ => rfl

end Primitives

section Loops

variable (S : Services σ) {fd : ℤ} {g : File}

theorem setFd_moveTo (h2 : 2 ≤ fd) (hm : fd < fdMax) {f : File} (hf : f.rewind = g.rewind) :
    Preserves (MoveTo fd g) (setFd (σ := σ) fd.toNat (some f)) := by
  refine preserves_modify fun s j => ?_
  by_cases hj : j = fd.toNat
  · subst hj
    exact .inr ⟨h2, hm, rfl, by simp [hf]⟩
  · exact .inl (Function.update_of_ne hj _ _)

theorem readKeyboardLoop_sameFds {ubuf : ℕ} (is : List ℕ) :
    Preserves SameFds (readKeyboardLoop S ubuf is) := by
  induction is with
  | nil => exact preserves_pure _
  | cons i is ih =>
    exact withFs_sameFds.bind fun _ => (copyOut_memOnly.mono fun _ _ h => h.sameFds).bind fun _ =>
      (Preserves.guard ih)

theorem writeConsoleLoop_sameFds {ubuf size : ℕ} (k done : ℕ) :
    Preserves SameFds (writeConsoleLoop S ubuf size k done) := by
  induction k generalizing done with
  | zero => exact preserves_pure _
  | succ k ih =>
    refine Preserves.ite ((copyIn_memOnly.mono fun _ _ h => h.sameFds).bind fun r => ?_) (preserves_pure _)
    cases r with
    | none => exact preserves_throw _
    | some kbuf => exact modifyFs_sameFds.bind fun _ => ih _

theorem readFileLoop_moveTo (h2 : 2 ≤ fd) (hm : fd < fdMax) (ubuf size : ℕ) :
    ∀ n f total, f.rewind = g.rewind →
      Preserves (MoveTo fd g) (readFileLoop S fd.toNat ubuf size n f total)
  | 0, _, _, _ => preserves_pure _
  | n + 1, f, total, hf => by
    -- each round puts back the file `file_read` advanced, which is `g` up to position
    have hr : ∀ fs want, (fileRead (S.inodeReadAt fs) f want).2.rewind = g.rewind :=
      fun fs want => (rewind_fileRead _ f want).trans hf
    refine Preserves.ite (preserves_get.bind fun s₀ => ?_) (preserves_pure _)
    refine (setFd_moveTo h2 hm (hr _ _)).bind fun _ => (preserves_pure _).ite ?_
    have ih := fun t => readFileLoop_moveTo h2 hm ubuf size n _ t (hr s₀.fs (min (size - total) chunkSize))
    exact (copyOut_memOnly.mono fun _ _ h => h.sameFds.moveTo).bind fun _ =>
      Preserves.ite ((preserves_throw _).bind fun _ => ih _) (ih _)

theorem writeFileLoop_moveTo (h2 : 2 ≤ fd) (hm : fd < fdMax) (ubuf size : ℕ) :
    ∀ n f total, f.rewind = g.rewind →
      Preserves (MoveTo fd g) (writeFileLoop S fd.toNat ubuf size n f total)
  | 0, _, _, _ => preserves_pure _
  | n + 1, f, total, hf => by
    refine Preserves.ite ((copyIn_memOnly.mono fun _ _ h => h.sameFds.moveTo).bind fun r => ?_) (preserves_pure _)
    cases r with
    | none => exact preserves_throw _
    | some kbuf =>
      -- the value `withFs` returns carries the file `file_write` advanced
      refine (withFs_sameFds.mono fun _ _ h => h.moveTo).bind_returns
        (withFs_returns (Q := fun r : ℤ × File => r.2.rewind = g.rewind)
          fun fs => (rewind_fileWrite (S.inodeWriteAt fs) f kbuf).trans hf) fun r hr => ?_
      exact (setFd_moveTo h2 hm hr).bind fun _ => (preserves_pure _).ite <| (preserves_pure _).ite <|
        writeFileLoop_moveTo h2 hm ubuf size n _ _ hr

end Loops

section Effects

/-! What each call does to the table. -/

variable (S : Services σ) {fd : ℤ} {s s' : SysState σ}

theorem fdGet_eq_some {p : Proc} {f : File} (h : fdGet p fd = some f) :
    2 ≤ fd ∧ fd < fdMax ∧ p.fds fd.toNat = some f := by
  unfold fdGet at h
  split at h
  · cases h
  · exact ⟨by omega, by omega, h⟩

/-- Moving the file that `fd` held when the call began is a `MoveEffect`. -/
theorem MoveTo.moveEffect {f : File} (hs : fdGet s.proc fd = some f) (h : MoveTo fd f s s') :
    MoveEffect fd s s' := by
  obtain ⟨-, -, hf⟩ := fdGet_eq_some hs
  intro j
  rcases h j with h | ⟨h2, hm, rfl, hj⟩
  · exact .inl h
  · exact .inr ⟨h2, hm, rfl, by rw [hj, hf]; rfl⟩

theorem sysRead_moveEffect {ubuf size : ℕ} :
    Preserves (MoveEffect fd) (sysRead S fd ubuf size) := by
  refine (preserves_pure _).ite <| (preserves_pure _).ite <| preserves_get.bind fun _ => ?_
  refine Preserves.guard <| (pinBuffer_memOnly.mono fun _ _ h => h.sameFds.moveEffect).bind fun _ => ?_
  refine Preserves.ite (((readKeyboardLoop_sameFds S _).mono fun _ _ h => h.moveEffect).bind
    fun _ => preserves_pure _) (preserves_get_bind fun s r s' h => ?_)
  cases hf : fdGet s.proc fd with
  | none =>
    simp only [hf] at h
    exact preserves_pure _ s r s' h
  | some f =>
    obtain ⟨h2, hm, -⟩ := fdGet_eq_some hf
    simp only [hf] at h
    exact (readFileLoop_moveTo S h2 hm ubuf size size f 0 rfl s r s' h).moveEffect hf

theorem sysWrite_moveEffect {ubuf size : ℕ} :
    Preserves (MoveEffect fd) (sysWrite S fd ubuf size) := by
  refine (preserves_pure _).ite <| preserves_get.bind fun _ => ?_
  refine Preserves.guard <| (preserves_pure _).ite <|
    (pinBuffer_memOnly.mono fun _ _ h => h.sameFds.moveEffect).bind fun _ => ?_
  refine Preserves.ite ((writeConsoleLoop_sameFds S _ _).mono fun _ _ h => h.moveEffect)
    (preserves_get_bind fun s r s' h => ?_)
  cases hf : fdGet s.proc fd with
  | none =>
    simp only [hf] at h
    exact preserves_pure _ s r s' h
  | some f =>
    obtain ⟨h2, hm, -⟩ := fdGet_eq_some hf
    simp only [hf] at h
    exact (writeFileLoop_moveTo S h2 hm ubuf size size f 0 rfl s r s' h).moveEffect hf

theorem sysSeek_moveEffect {position : ℕ} : Preserves (MoveEffect fd) (sysSeek (σ := σ) fd position) := by
  refine preserves_get_bind fun s r s' h => ?_
  cases hf : fdGet s.proc fd with
  | none =>
    simp only [hf] at h
    exact preserves_pure _ s r s' h
  | some f =>
    obtain ⟨h2, hm, -⟩ := fdGet_eq_some hf
    simp only [hf] at h
    cases hk : fileSeek f (toInt32 position) with
    | none =>
      simp only [hk] at h
      exact preserves_throw _ s r s' h
    | some f' =>
      simp only [hk] at h
      exact (setFd_moveTo h2 hm (rewind_fileSeek hk) s r s' h).moveEffect hf

theorem setFd_closeEffect (h2 : 2 ≤ fd) (hm : fd < fdMax) :
    Preserves (CloseEffect fd) (setFd (σ := σ) fd.toNat none) := by
  refine preserves_modify fun s j => ?_
  by_cases hj : j = fd.toNat
  · subst hj
    exact .inr ⟨h2, hm, rfl, by simp⟩
  · exact .inl (Function.update_of_ne hj _ _)

theorem fdDetach_closeEffect : Preserves (CloseEffect fd) (fdDetach (σ := σ) fd) :=
  Preserves.ite_of (fun _ => preserves_pure _) fun hr =>
    preserves_get.bind fun _ => (setFd_closeEffect (by omega) (by omega)).bind fun _ => preserves_pure _

theorem sysClose_closeEffect : Preserves (CloseEffect fd) (sysClose S fd) := by
  refine (preserves_pure _).ite <| fdDetach_closeEffect.bind fun r => ?_
  cases r with
  | none => exact preserves_pure _
  | some f => exact modifyFs_sameFds.mono fun _ _ h => h.closeEffect

/-- `sys_open`'s search finds a free slot in `[2, FD_MAX)` with every slot below it taken. -/
theorem freeFd_eq_some {p : Proc} {i : ℕ} (h : freeFd p = some i) :
    2 ≤ i ∧ i < fdMax ∧ p.fds i = none ∧ ∀ j, 2 ≤ j → j < i → p.fds j ≠ none := by
  have h2 : 2 ≤ fdMax := by decide
  unfold freeFd at h
  obtain ⟨hi, hmem, hlt⟩ := List.find?_range'_eq_some.1 h
  rw [List.mem_range'_1] at hmem
  exact ⟨hmem.1, by omega, by simpa using hi, fun j hj hji => by simpa using hlt j hj hji⟩

theorem freeFd_eq_none {p : Proc} (h : freeFd p = none) : ∀ j, 2 ≤ j → j < fdMax → p.fds j ≠ none := by
  have h2 : 2 ≤ fdMax := by decide
  intro j hj hjm
  unfold freeFd at h
  simpa using List.find?_eq_none.1 h j (List.mem_range'_1.2 ⟨hj, by omega⟩)

theorem freeFd_congr {p q : Proc} (h : p.fds = q.fds) : freeFd p = freeFd q := by
  simp [freeFd, h]

/-- `sys_open`: a refusal before the layer below is asked leaves the table and that layer
as they were; a failed `filesys_open` changes only that layer; an opened file goes to the
smallest free slot, whose number is returned, or, with no slot free, is closed again. -/
theorem sysOpen_result {ufile : ℕ} {r : ℤ} (h : sysOpen S ufile s = .ok (r, s')) :
    (r = -1 ∧ MemOnly s s') ∨
    ∃ kname fs₁, (S.filesysOpen s.fs kname = (none, fs₁) ∧ r = -1 ∧ s'.fs = fs₁ ∧ SameFds s s') ∨
      ∃ f, S.filesysOpen s.fs kname = (some f, fs₁) ∧
        ((∃ i, freeFd s.proc = some i ∧ r = i ∧ s'.fs = fs₁ ∧
            s'.proc.fds = Function.update s.proc.fds i (some f)) ∨
          (freeFd s.proc = none ∧ r = -1 ∧ s'.fs = S.fileClose fs₁ f ∧ SameFds s s')) := by
  unfold sysOpen at h
  split at h
  · simp [sysExit] at h
  obtain ⟨⟨len, kname⟩, s₁, h₁, h₂⟩ := bind_eq_ok.1 h
  -- copying the name in changes neither the table nor the layers below
  obtain ⟨hfs, hfds⟩ := copyInCstr_memOnly s _ s₁ h₁
  dsimp only at h₂
  split at h₂
  · simp [sysExit] at h₂
  split at h₂
  · cases h₂
    exact .inl ⟨rfl, hfs, hfds⟩
  split at h₂
  · cases h₂
    exact .inl ⟨rfl, hfs, hfds⟩
  obtain ⟨o, s₂, h₃, h₄⟩ := bind_eq_ok.1 h₂
  cases h₃
  rcases ho : S.filesysOpen s₁.fs kname with ⟨_ | f, fs₁⟩ <;> simp only [ho] at h₄
  · cases h₄
    exact .inr ⟨kname, fs₁, .inl ⟨hfs ▸ ho, rfl, rfl, hfds⟩⟩
  -- the search looks at the table as it was on entry
  rw [bind_of_ok (get_apply _)] at h₄
  dsimp only at h₄
  rw [freeFd_congr hfds] at h₄
  refine .inr ⟨kname, fs₁, .inr ⟨f, hfs ▸ ho, ?_⟩⟩
  rcases hfree : freeFd s.proc with _ | i <;> simp only [hfree] at h₄
  · obtain ⟨_, s₃, h₅, h₆⟩ := bind_eq_ok.1 h₄
    cases h₅
    cases h₆
    exact .inr ⟨rfl, rfl, rfl, hfds⟩
  · obtain ⟨_, s₃, h₅, h₆⟩ := bind_eq_ok.1 h₄
    cases h₅
    cases h₆
    exact .inl ⟨i, rfl, rfl, rfl, by simp [hfds]⟩

theorem sysOpen_openEffect {ufile : ℕ} : Preserves OpenEffect (sysOpen S ufile) := by
  intro s r s' h
  rcases sysOpen_result S h with
    ⟨-, hm⟩ | ⟨kname, fs₁, ⟨-, -, -, hs⟩ | ⟨f, -, ⟨i, hi, -, -, hfds⟩ | ⟨-, -, -, hs⟩⟩⟩
  · exact hm.sameFds.openEffect
  · exact hs.openEffect
  · obtain ⟨h2, hm, hnone, -⟩ := freeFd_eq_some hi
    intro j
    rw [hfds]
    by_cases hj : j = i
    · subst hj
      exact .inr ⟨h2, hm, hnone⟩
    · exact .inl (Function.update_of_ne hj _ _)
  · exact hs.openEffect

theorem sysTell_sameFds : Preserves SameFds (sysTell (σ := σ) fd) := by
  refine (preserves_pure _).ite <| preserves_get.bind fun s => ?_
  split <;> exact preserves_pure _

theorem sysFilesize_sameFds : Preserves SameFds (sysFilesize S fd) := by
  refine (preserves_pure _).ite <| preserves_get.bind fun s => ?_
  split <;> exact preserves_pure _

theorem sysMmap_sameFds {addr : ℕ} : Preserves SameFds (sysMmap S fd addr) := by
  refine (preserves_pure _).ite <| (preserves_pure _).ite <| (preserves_pure _).ite <|
    preserves_get.bind fun s => ?_
  split
  · exact preserves_pure _
  · refine (preserves_pure _).ite <| (preserves_pure _).ite <| withFs_sameFds.bind fun r => ?_
    split
    · exact preserves_pure _
    · -- the mapping changes the address space and the layers below, not the table
      refine preserves_get_bind fun s₁ r s' h => ?_
      obtain ⟨_, s₂, h₁, h₂⟩ := bind_eq_ok.1 h
      cases h₁
      have h₃ := Preserves.ite (modifyFs_sameFds.bind fun _ => preserves_pure _) (preserves_pure _) _ r s' h₂
      exact h₃

end Effects

section CloseAll

variable (S : Services σ)

theorem closeSlot_run (i : ℕ) (s : SysState σ) :
    ∃ s', closeSlot S i s = .ok ((), s') ∧ s'.proc.toAddrSpace = s.proc.toAddrSpace ∧
      s'.proc.fds = Function.update s.proc.fds i none ∧
      s'.fs = ((s.proc.fds i).toList).foldl S.fileClose s.fs := by
  rw [closeSlot, bind_of_ok (get_apply s)]
  cases hi : s.proc.fds i with
  | none =>
    refine ⟨s, rfl, rfl, ?_, rfl⟩
    rw [← hi, Function.update_eq_self]
  | some f =>
    refine ⟨{ proc := { s.proc with fds := Function.update s.proc.fds i none },
              fs := S.fileClose s.fs f }, rfl, rfl, rfl, rfl⟩

/-- The loop over slots `l`, each listed once: the file of each is closed, in the order of
`l`, and each of them cleared. -/
theorem forM_closeSlot {l : List ℕ} (hl : l.Nodup) (s : SysState σ) :
    ∃ s', l.forM (closeSlot S) s = .ok ((), s') ∧ s'.proc.toAddrSpace = s.proc.toAddrSpace ∧
      (∀ j, s'.proc.fds j = if j ∈ l then none else s.proc.fds j) ∧
      s'.fs = (l.filterMap s.proc.fds).foldl S.fileClose s.fs := by
  induction l generalizing s with
  | nil => exact ⟨s, rfl, rfl, by simp, rfl⟩
  | cons i l ih =>
    obtain ⟨hi, hl⟩ := List.nodup_cons.1 hl
    obtain ⟨s₁, h₁, ha₁, hfds₁, hfs₁⟩ := closeSlot_run S i s
    obtain ⟨s', h', ha', hfds', hfs'⟩ := ih hl s₁
    -- the rest of the loop sees the table with only slot `i` cleared
    have hrest : l.filterMap s₁.proc.fds = l.filterMap s.proc.fds := by
      refine List.filterMap_congr fun j hj => ?_
      rw [hfds₁]
      exact Function.update_of_ne (by rintro rfl; exact hi hj) _ _
    refine ⟨s', by rw [List.forM_eq_forM, List.forM_cons, bind_of_ok h₁]; exact h', ha'.trans ha₁,
      fun j => ?_, ?_⟩
    · rw [hfds', hfds₁]
      by_cases hj : j = i
      · simp [hj]
      · simp [hj]
    · rw [hfs', hrest, hfs₁]
      cases h : s.proc.fds i <;> simp [h]

/-- `fd_close_all` returns, having closed the file of every slot of `[2, FD_MAX)` once, in
slot order, and cleared those slots. -/
theorem fdCloseAll_run (s : SysState σ) :
    ∃ s', fdCloseAll S s = .ok ((), s') ∧ s'.proc.toAddrSpace = s.proc.toAddrSpace ∧
      (∀ j, s'.proc.fds j = if 2 ≤ j ∧ j < fdMax then none else s.proc.fds j) ∧
      s'.fs = ((List.range' 2 (fdMax - 2)).filterMap s.proc.fds).foldl S.fileClose s.fs := by
  have h2 : 2 ≤ fdMax := by decide
  obtain ⟨s', h, ha, hfds, hfs⟩ := forM_closeSlot S List.nodup_range' s
  refine ⟨s', h, ha, fun j => ?_, hfs⟩
  rw [hfds j]
  have hmem : j ∈ List.range' 2 (fdMax - 2) ↔ 2 ≤ j ∧ j < fdMax := by
    rw [List.mem_range'_1]
    omega
  simp only [hmem]

end CloseAll

section Unopened

/-! A call on a descriptor that holds no file. -/

variable (S : Services σ) {fd : ℤ} {s s' : SysState σ}

/-- `fd_get` finds no file at a free slot, nor at any descriptor outside `[2, FD_MAX)`, whatever
the table holds at that index. -/
theorem fdGet_eq_none_of_free {p : Proc} (h : fd < 2 ∨ fdMax ≤ fd ∨ p.fds fd.toNat = none) :
    fdGet p fd = none := by
  unfold fdGet
  split
  · rfl
  · next hr =>
    rcases h with h | h | h
    · exact absurd (.inl h) hr
    · exact absurd (.inr h) hr
    · exact h

theorem sysSeek_unopened {position : ℕ} (h : fdGet s.proc fd = none) :
    sysSeek fd position s = .ok ((), s) := by
  rw [sysSeek, bind_of_ok (get_apply s)]
  simp only [h]
  rfl

theorem sysTell_unopened (h : fdGet s.proc fd = none) : sysTell fd s = .ok (0, s) := by
  unfold sysTell
  split
  · rfl
  · rw [bind_of_ok (get_apply s)]
    simp only [h]
    rfl

theorem sysFilesize_unopened (h : fdGet s.proc fd = none) : sysFilesize S fd s = .ok (-1, s) := by
  unfold sysFilesize
  split
  · rfl
  · rw [bind_of_ok (get_apply s)]
    simp only [h]
    rfl

theorem sysMmap_unopened {addr : ℕ} (h : fdGet s.proc fd = none) :
    sysMmap S fd addr s = .ok (-1, s) := by
  unfold sysMmap
  split
  · rfl
  split
  · rfl
  split
  · rfl
  rw [bind_of_ok (get_apply s)]
  simp only [h]
  rfl

theorem sysClose_unopened (h : fdGet s.proc fd = none) : sysClose S fd s = .ok ((), s) := by
  unfold sysClose fdDetach
  split
  · rfl
  split
  · rfl
  next hr =>
  -- `fd_detach` clears a slot that is already free
  have hk : s.proc.fds fd.toNat = none := by
    unfold fdGet at h
    rwa [if_neg hr] at h
  have hs : ({ s with proc := { s.proc with fds := Function.update s.proc.fds fd.toNat none } } :
      SysState σ) = s := by
    rw [← hk, Function.update_eq_self]
  rw [bind_assoc, bind_of_ok (get_apply s)]
  simp only [hk]
  rw [bind_assoc, bind_of_ok (setFd_apply _ _ s), hs]
  rfl

/-- `read` on a descriptor other than 0 that holds no file: 0 for 0 bytes, otherwise -1 once
the buffer is found valid, with only memory touched. -/
theorem sysRead_unopened {ubuf size : ℕ} {r : ℤ} (h0 : fd ≠ 0) (h : fdGet s.proc fd = none)
    (hr : sysRead S fd ubuf size s = .ok (r, s')) :
    r = (if size = 0 then 0 else -1) ∧ MemOnly s s' := by
  unfold sysRead at hr
  split at hr
  · next hz =>
    cases hr
    exact ⟨by simp [hz], refl_of _ s⟩
  rename_i hz
  split at hr
  · cases hr
    exact ⟨by simp [hz], refl_of _ s⟩
  rw [bind_of_ok (get_apply s)] at hr
  -- the buffer check; `split` discharges the keyboard test after it with `h0`
  split at hr
  · simp [sysExit] at hr
  obtain ⟨_, s₁, h₁, h₂⟩ := bind_eq_ok.1 hr
  have hm₁ := pinBuffer_memOnly s _ s₁ h₁
  rw [bind_of_ok (get_apply s₁), fdGet_congr hm₁.2, h] at h₂
  cases h₂
  exact ⟨by simp [hz], hm₁⟩

/-- `write` on a descriptor other than 1 that holds no file: 0 for 0 bytes, otherwise -1 once
the buffer is found valid, with only memory touched. -/
theorem sysWrite_unopened {ubuf size : ℕ} {r : ℤ} (h1 : fd ≠ 1) (h : fdGet s.proc fd = none)
    (hr : sysWrite S fd ubuf size s = .ok (r, s')) :
    r = (if size = 0 then 0 else -1) ∧ MemOnly s s' := by
  unfold sysWrite at hr
  split at hr
  · next hz =>
    cases hr
    exact ⟨by simp [hz], refl_of _ s⟩
  rename_i hz
  rw [bind_of_ok (get_apply s)] at hr
  split at hr
  · simp [sysExit] at hr
  -- the test for descriptor 0; `split` discharges the console test after it with `h1`
  split at hr
  · cases hr
    exact ⟨by simp [hz], refl_of _ s⟩
  obtain ⟨_, s₁, h₁, h₂⟩ := bind_eq_ok.1 hr
  have hm₁ := pinBuffer_memOnly s _ s₁ h₁
  rw [bind_of_ok (get_apply s₁), fdGet_congr hm₁.2, h] at h₂
  cases h₂
  exact ⟨by simp [hz], hm₁⟩

end Unopened

section Runs

variable (S : Services σ) {s₀ s s' : SysState σ}

/-- The frame of each call. -/
def FdCall.Effect : FdCall → SysState σ → SysState σ → Prop
  | .openFile _ => OpenEffect
  | .close fd => CloseEffect fd
  | .read fd _ _ | .write fd _ _ | .seek fd _ => MoveEffect fd
  | .tell _ | .filesize _ | .mmap _ _ => SameFds

theorem FdCall.run_effect (c : FdCall) : Preserves c.Effect (c.run S) := by
  cases c with
  | openFile ufile =>
    show Preserves OpenEffect _
    exact (sysOpen_openEffect S).bind fun _ => preserves_pure _
  | close fd => exact sysClose_closeEffect S
  | read fd ubuf size =>
    show Preserves (MoveEffect fd) _
    exact (sysRead_moveEffect S).bind fun _ => preserves_pure _
  | write fd ubuf size =>
    show Preserves (MoveEffect fd) _
    exact (sysWrite_moveEffect S).bind fun _ => preserves_pure _
  | seek fd position => exact sysSeek_moveEffect
  | tell fd =>
    show Preserves SameFds _
    exact sysTell_sameFds.bind fun _ => preserves_pure _
  | filesize fd =>
    show Preserves SameFds _
    exact (sysFilesize_sameFds S).bind fun _ => preserves_pure _
  | mmap fd addr =>
    show Preserves SameFds _
    exact (sysMmap_sameFds S).bind fun _ => preserves_pure _

theorem FdCall.run_of_enabled {c : FdCall} (h : (fdSystem S s₀).Enabled s c) :
    c.run S s = .ok ((), (fdSystem S s₀).step s c) := by
  simp only [fdSystem] at h ⊢
  cases hc : c.run S s with
  | error e => simp [hc, Except.toBool] at h
  | ok p =>
    obtain ⟨⟨⟩, s'⟩ := p
    rfl

theorem fdSystem_step_effect {c : FdCall} (h : (fdSystem S s₀).Enabled s c) :
    c.Effect s ((fdSystem S s₀).step s c) :=
  FdCall.run_effect S c s () _ (FdCall.run_of_enabled S h)

/-- No call changes a slot outside `[2, FD_MAX)`. -/
theorem FdCall.Effect.outside {c : FdCall} (h : c.Effect s s') {j : ℕ} (hj : j < 2 ∨ fdMax ≤ j) :
    s'.proc.fds j = s.proc.fds j := by
  cases c with
  | openFile =>
    rcases h j with h | ⟨h2, hm, -⟩
    · exact h
    · omega
  | close fd =>
    rcases h j with h | ⟨h2, hm, rfl, -⟩
    · exact h
    · omega
  | read fd | write fd | seek fd =>
    rcases h j with h | ⟨h2, hm, rfl, -⟩
    · exact h
    · omega
  | tell | filesize | mmap => exact congrFun h j

/-- A slot that holds a file keeps it, up to position, through every call but its own close. -/
theorem FdCall.Effect.keeps {c : FdCall} (h : c.Effect s s') {j : ℕ} (hc : c ≠ .close j)
    (hj : s.proc.fds j ≠ none) :
    (s'.proc.fds j).map File.rewind = (s.proc.fds j).map File.rewind := by
  cases c with
  | openFile =>
    rcases h j with h | ⟨-, -, hn⟩
    · rw [h]
    · exact absurd hn hj
  | close fd =>
    rcases h j with h | ⟨h2, -, rfl, -⟩
    · rw [h]
    · exact absurd (congrArg FdCall.close (Int.toNat_of_nonneg (by omega)).symm) hc
  | read fd | write fd | seek fd =>
    rcases h j with h | ⟨-, -, -, hm⟩
    · rw [h]
    · exact hm
  | tell | filesize | mmap => rw [congrFun h j]

/-- Along every run of calls the slots outside `[2, FD_MAX)`, 0 and 1 among them, keep what
they held at the start. -/
theorem outside_invariant :
    (fdSystem S s₀).Invariant fun s => ∀ j, j < 2 ∨ fdMax ≤ j → s.proc.fds j = s₀.proc.fds j :=
  ⟨fun _ _ => rfl, fun _ _ ih hc j hj => ((fdSystem_step_effect S hc).outside hj).trans (ih j hj)⟩

/-- Along every sequence of calls without its own close, a slot that holds a file keeps it up
to position. -/
theorem fdSystem_keeps {cs : List FdCall} {t : SysState σ}
    (h : (fdSystem S s₀).replay s cs = some t) {j : ℕ} (hc : ∀ c ∈ cs, c ≠ .close j)
    (hj : s.proc.fds j ≠ none) :
    (t.proc.fds j).map File.rewind = (s.proc.fds j).map File.rewind := by
  induction cs generalizing s with
  | nil =>
    cases h
    rfl
  | cons c cs ih =>
    rw [Transition.System.replay_cons] at h
    split at h
    · next hen =>
      have h₁ := (fdSystem_step_effect S hen).keeps (hc c List.mem_cons_self) hj
      -- the slot still holds a file after the first call, so the rest of the run keeps it
      have hj₁ : ((fdSystem S s₀).step s c).proc.fds j ≠ none := by
        intro hn
        rw [hn, Option.map_none, eq_comm, Option.map_eq_none_iff] at h₁
        exact hj h₁
      exact (ih h (fun c' hc' => hc c' (List.mem_cons_of_mem _ hc')) hj₁).trans h₁
    · cases h

end Runs

section Spec

/-- What the descriptor table of a process guarantees over the layer below `S`. -/
structure DescriptorSpec (S : Services σ) : Prop where
  /-- Along every run of calls only slots of `[2, FD_MAX)` change. -/
  outside : ∀ s₀ s, (fdSystem S s₀).Reachable s → ∀ j, j < 2 ∨ fdMax ≤ j →
    s.proc.fds j = s₀.proc.fds j
  /-- `sys_open` puts the file it opened in the smallest free slot and returns that slot, or,
  with none free, closes the file again and returns -1; in every other case it returns -1 with
  the table as it was. -/
  openFile : ∀ s s' ufile r, sysOpen S ufile s = .ok (r, s') →
    (r = -1 ∧ MemOnly s s') ∨
    ∃ kname fs₁, (S.filesysOpen s.fs kname = (none, fs₁) ∧ r = -1 ∧ s'.fs = fs₁ ∧ SameFds s s') ∨
      ∃ f, S.filesysOpen s.fs kname = (some f, fs₁) ∧
        ((∃ i : ℕ, 2 ≤ i ∧ i < fdMax ∧ s.proc.fds i = none ∧
            (∀ j, 2 ≤ j → j < i → s.proc.fds j ≠ none) ∧ r = i ∧ s'.fs = fs₁ ∧
            s'.proc.fds = Function.update s.proc.fds i (some f)) ∨
          ((∀ j, 2 ≤ j → j < fdMax → s.proc.fds j ≠ none) ∧ r = -1 ∧
            s'.fs = S.fileClose fs₁ f ∧ SameFds s s'))
  /-- A slot keeps its file, up to position, through every sequence of calls but its own
  close. -/
  keeps : ∀ s₀ s t cs (j : ℕ), (fdSystem S s₀).replay s cs = some t → (∀ c ∈ cs, c ≠ .close j) →
    s.proc.fds j ≠ none → (t.proc.fds j).map File.rewind = (s.proc.fds j).map File.rewind
  /-- At a free slot, and at every descriptor outside `[2, FD_MAX)` whatever the table holds at
  that index, `close` and `seek` do nothing, `tell` returns 0, and `filesize` and `mmap`
  return -1. -/
  unopened : ∀ s (fd : ℤ), (fd < 2 ∨ fdMax ≤ fd ∨ s.proc.fds fd.toNat = none) →
    sysClose S fd s = .ok ((), s) ∧
    (∀ position, sysSeek fd position s = .ok ((), s)) ∧ sysTell fd s = .ok (0, s) ∧
    sysFilesize S fd s = .ok (-1, s) ∧ ∀ addr, sysMmap S fd addr s = .ok (-1, s)
  /-- There, `read` returns 0 for 0 bytes and otherwise -1, touching only memory. -/
  read : ∀ s s' (fd : ℤ) ubuf size r, fd ≠ 0 →
    (fd < 2 ∨ fdMax ≤ fd ∨ s.proc.fds fd.toNat = none) →
    sysRead S fd ubuf size s = .ok (r, s') → r = (if size = 0 then 0 else -1) ∧ MemOnly s s'
  /-- And so does `write`. -/
  write : ∀ s s' (fd : ℤ) ubuf size r, fd ≠ 1 →
    (fd < 2 ∨ fdMax ≤ fd ∨ s.proc.fds fd.toNat = none) →
    sysWrite S fd ubuf size s = .ok (r, s') → r = (if size = 0 then 0 else -1) ∧ MemOnly s s'
  /-- `fd_close_all` closes the file of every occupied slot of `[2, FD_MAX)` once, in slot
  order, and clears those slots. -/
  closeAll : ∀ s, ∃ s', fdCloseAll S s = .ok ((), s') ∧
    (∀ j, s'.proc.fds j = if 2 ≤ j ∧ j < fdMax then none else s.proc.fds j) ∧
    s'.fs = ((List.range' 2 (fdMax - 2)).filterMap s.proc.fds).foldl S.fileClose s.fs

/-- The layer below with one file, the 8 bytes of inode 5: `filesys_open` opens it under any
name, and reads and writes stop at its end. -/
def Services.oneFile : Services Unit where
  inputGetc _ := (0, ())
  putbuf _ _ := ()
  filesysCreate _ _ _ := .ok (false, ())
  filesysRemove _ _ := (false, ())
  filesysOpen _ _ := (some ⟨5, 0, false⟩, ())
  fileReopen _ _ := (none, ())
  fileClose _ _ := ()
  fileLength _ _ := 8
  inodeReadAt _ _ size offset := List.replicate (min size (8 - offset).toNat) 1
  inodeWriteAt _ _ buffer offset := (min buffer.length (8 - offset).toNat, ())
  processExecute _ _ := (-1, ())
  processWait _ _ := (-1, ())
  mmapMap _ as _ _ _ := (-1, as, ())
  mmapUnmap _ as _ := (as, ())

/-- A process with the name `"a"` at the bottom of its one user page and no file open. -/
def nameProc : Proc where
  spt pg := if pg = 0x0804B000 then some ⟨true, true⟩ else none
  espOnSyscall := 0x0804B000
  mem a := if a = 0x0804B000 then 97 else 0
  fds _ := none

/-- `read` and `write` of 0 bytes return 0 on every descriptor, before they look at it. -/
theorem zero_bytes_unchecked (S : Services σ) (s : SysState σ) (fd : ℤ) (ubuf : ℕ) :
    sysRead S fd ubuf 0 s = .ok (0, s) ∧ sysWrite S fd ubuf 0 s = .ok (0, s) :=
  ⟨rfl, rfl⟩

/-- A process with nothing mapped and no file open. -/
def closedProc : Proc where
  spt _ := none
  espOnSyscall := 0
  mem _ := 0
  fds _ := none

end Spec

end Pintos
