import Pintos.Kernel.Bitmap
import Pintos.Userprog.Uaccess
import Pintos.Lib.Mask

/-! # Two-level page tables

`userprog/pagedir.c` over the 80x86 page directories and page tables of `threads/pte.h`. A
virtual address splits into a page-directory index, a page-table index and an offset; a page
directory is a page of 1024 entries, each zero or pointing to a page table, a page of 1024
entries that map pages to frames. Entries are 32-bit words: a physical page address and flag
bits. `lookup_page` walks the two levels and, when asked, takes a zeroed page table from the
kernel pool of `threads/palloc.c`.

Memory is the 32-bit word at each address, which is how page directories and tables are read
and written; `pagedir_create` copies the kernel's `init_page_dir` word by word. A pointer is a
natural below `2 ^ 32`, 0 being `NULL`, and `uintptr_t` arithmetic does not wrap on the
addresses involved. A result of `none` is a failed `ASSERT`. `invalidate_pagedir` only flushes
the TLB and has no effect here.
-/

namespace Pintos

/-! ## Addresses and entries (`threads/pte.h`, `threads/vaddr.h`) -/

def ptShift : ℕ := 12

def ptBits : ℕ := 10

def pdShift : ℕ := ptShift + ptBits

/-- `BITMASK (SHIFT, CNT)`: `CNT` bits from bit `SHIFT` on. -/
def bitmask (shift cnt : ℕ) : ℕ := ((1 <<< cnt) - 1) <<< shift

def ptMask : ℕ := bitmask ptShift ptBits

/-- `pt_no`: the page-table index of a virtual address. -/
def ptNo (va : ℕ) : ℕ := (va &&& ptMask) >>> ptShift

/-- `pd_no`: the page-directory index of a virtual address. -/
def pdNo (va : ℕ) : ℕ := va >>> pdShift

/-- `vtop`, with its `ASSERT (is_kernel_vaddr (vaddr))`. -/
def vtop (vaddr : ℕ) : Option ℕ := if physBase ≤ vaddr then some (vaddr - physBase) else none

/-- `ptov`, with its `ASSERT (paddr < PHYS_BASE)`. -/
def ptov (paddr : ℕ) : Option ℕ := if paddr < physBase then some (paddr + physBase) else none

def pteAddr : BitVec 32 := 0xfffff000#32

def pteFlags : BitVec 32 := 0x00000fff#32

def pteP : BitVec 32 := 0x1#32

def pteW : BitVec 32 := 0x2#32

def pteU : BitVec 32 := 0x4#32

def pteA : BitVec 32 := 0x20#32

def pteD : BitVec 32 := 0x40#32

/-- `pde_create`: a present, writable user entry pointing to page table `pt`. -/
def pdeCreate (pt : ℕ) : Option (BitVec 32) :=
  if pgOfs pt ≠ 0 then none
  else (vtop pt).map fun p => BitVec.ofNat 32 p ||| pteU ||| pteP ||| pteW

/-- `pde_get_pt`, with its `ASSERT (pde & PTE_P)`. -/
def pdeGetPt (pde : BitVec 32) : Option ℕ :=
  if pde &&& pteP = 0 then none else ptov (pde &&& pteAddr).toNat

def pteCreateKernel (page : ℕ) (writable : Bool) : Option (BitVec 32) :=
  if pgOfs page ≠ 0 then none
  else (vtop page).map fun p => BitVec.ofNat 32 p ||| pteP ||| (if writable then pteW else 0)

def pteCreateUser (page : ℕ) (writable : Bool) : Option (BitVec 32) :=
  (pteCreateKernel page writable).map (· ||| pteU)

def pteGetPage (pte : BitVec 32) : Option ℕ := ptov (pte &&& pteAddr).toNat

/-- Where an entry points, `pte_get_page` and `pde_get_pt` without their `ASSERT`s. -/
def entryPage (e : BitVec 32) : ℕ := (e &&& pteAddr).toNat + physBase

/-- The flags `pte_create_user` gives an entry. -/
def userFlags (writable : Bool) : BitVec 32 := pteP ||| (if writable then pteW else 0) ||| pteU

/-- The directory entry `pde_create` makes for page table `pt`. -/
def pdeOf (pt : ℕ) : BitVec 32 := BitVec.ofNat 32 (pt - physBase) ||| (pteU ||| pteP ||| pteW)

theorem ptNo_eq (va : ℕ) : ptNo va = va / pgSize % 1024 := by
  have hm : ptMask = (2 ^ 10 - 1) <<< 12 := rfl
  apply Nat.eq_of_testBit_eq
  intro i
  rw [ptNo, hm, ptShift, Nat.testBit_shiftRight, Nat.testBit_land, Nat.testBit_shiftLeft,
    Nat.testBit_two_pow_sub_one, show pgSize = 2 ^ 12 from rfl, show 1024 = 2 ^ 10 from rfl,
    Nat.testBit_mod_two_pow, Nat.testBit_div_two_pow]
  simp [Nat.add_comm, Bool.and_comm]

theorem pdNo_eq (va : ℕ) : pdNo va = va / 2 ^ 22 := Nat.shiftRight_eq_div_pow va pdShift

/-- A page address has no flag bits. -/
theorem ofNat_and_pteFlags {p : ℕ} (hal : p % pgSize = 0) : BitVec.ofNat 32 p &&& pteFlags = 0 := by
  apply BitVec.eq_of_toNat_eq
  rw [BitVec.toNat_and, BitVec.toNat_ofNat, show pteFlags.toNat = 2 ^ 12 - 1 from rfl,
    Nat.and_two_pow_sub_one_eq_mod]
  simp only [pgSize] at hal
  simp
  omega

/-- The address bits of an entry built from page `p` and flags `f`. -/
theorem entry_and_pteAddr {p : ℕ} {f : BitVec 32} (hp : p < 2 ^ 32) (hal : p % pgSize = 0)
    (hf : f &&& pteAddr = 0) : ((BitVec.ofNat 32 p ||| f) &&& pteAddr).toNat = p := by
  rw [Mask.or_and_of_and_eq_zero_right hf,
    Mask.and_eq_self_of_and_eq_zero (ofNat_and_pteFlags hal) (by decide), BitVec.toNat_ofNat,
    Nat.mod_eq_of_lt hp]

/-- The flag bits of an entry built from page `p` and flags `f` are those of `f`. -/
theorem entry_and_flag {p : ℕ} {f m : BitVec 32} (hal : p % pgSize = 0)
    (hm : m &&& pteFlags = m) : (BitVec.ofNat 32 p ||| f) &&& m = f &&& m :=
  Mask.or_and_of_and_eq_zero_left (Mask.and_eq_zero_of_and_eq_zero (ofNat_and_pteFlags hal) hm)

/-- The page an entry built from kernel page `page` points to. -/
theorem entryPage_ofNat {page : ℕ} {f : BitVec 32} (hk : physBase ≤ page) (hp : page < 2 ^ 32)
    (hal : page % pgSize = 0) (hf : f &&& pteAddr = 0) :
    entryPage (BitVec.ofNat 32 (page - physBase) ||| f) = page := by
  rw [entryPage, entry_and_pteAddr (by omega) (by simp only [pgSize, physBase] at hal ⊢; omega) hf]
  omega

theorem entryPage_ne_zero (e : BitVec 32) : entryPage e ≠ 0 := by
  unfold entryPage
  simp only [physBase]
  omega

theorem userFlags_and_pteAddr (writable : Bool) : userFlags writable &&& pteAddr = 0 := by
  cases writable <;> decide

theorem pdeCreate_eq {pt : ℕ} (hal : pgOfs pt = 0) (hk : physBase ≤ pt) :
    pdeCreate pt = some (pdeOf pt) := by
  simp [pdeCreate, hal, vtop, hk, pdeOf, BitVec.or_assoc]

theorem pdeGetPt_pdeOf {pt : ℕ} (hk : physBase ≤ pt) (hp : pt < 2 ^ 32) (hal : pt % pgSize = 0) :
    pdeGetPt (pdeOf pt) = some pt := by
  have hf : (pteU ||| pteP ||| pteW) &&& pteAddr = 0 := by decide
  have hP : pdeOf pt &&& pteP ≠ 0 := by
    rw [pdeOf, entry_and_flag (by simp only [pgSize, physBase] at hal ⊢; omega) (by decide)]
    decide
  have hpage := entryPage_ofNat hk hp hal hf
  rw [entryPage] at hpage
  rw [pdeGetPt, if_neg hP, ptov, pdeOf, if_pos (by simp only [physBase] at hpage ⊢; omega), hpage]

theorem pteCreateUser_eq {page : ℕ} (hal : pgOfs page = 0) (hk : physBase ≤ page) (writable : Bool) :
    pteCreateUser page writable = some (BitVec.ofNat 32 (page - physBase) ||| userFlags writable) := by
  simp [pteCreateUser, pteCreateKernel, hal, vtop, hk, userFlags, BitVec.or_assoc]

/-! ## Memory and the kernel pool -/

/-- The words of memory, the kernel pool's `used_map` and `base`, and the globals of
`threads/init.c` that `pagedir.c` reads. -/
structure KernelMem where
  words : ℕ → BitVec 32
  usedMap : Bitmap
  base : ℕ
  initPageDir : ℕ
  initRamPages : ℕ

namespace KernelMem

def write (m : KernelMem) (a : ℕ) (v : BitVec 32) : KernelMem :=
  { m with words := Function.update m.words a v }

/-- `palloc_get_page` on the kernel pool; `zero` is `PAL_ZERO`. -/
def pallocGetPage (m : KernelMem) (zero : Bool) : ℕ × KernelMem :=
  match m.usedMap.scanAndFlip 0 1 false with
  | some (idx, usedMap) =>
    let page := m.base + pgSize * idx
    (page, { m with
      usedMap := usedMap
      words := if zero then fun a => if page ≤ a ∧ a < page + pgSize then 0 else m.words a
        else m.words })
  | none => (0, m)

/-- `palloc_get_page` takes the first clear bit of the pool's map, or returns `NULL` and changes
nothing. -/
theorem pallocGetPage_cases (m : KernelMem) (zero : Bool) :
    m.pallocGetPage zero = (0, m) ∨
      ∃ idx, idx < m.usedMap.bitCnt ∧ m.usedMap.test idx = false ∧
        m.pallocGetPage zero = (m.base + pgSize * idx, { m with
          usedMap := m.usedMap.set idx true
          words := if zero then fun a =>
              if m.base + pgSize * idx ≤ a ∧ a < m.base + pgSize * idx + pgSize then 0
              else m.words a
            else m.words }) := by
  unfold pallocGetPage
  cases hs : m.usedMap.scanAndFlip 0 1 false with
  | none => exact .inl rfl
  | some r =>
    obtain ⟨idx, b'⟩ := r
    obtain ⟨hlt, hfree, -, rfl⟩ := Bitmap.scanAndFlip_eq_some hs
    exact .inr ⟨idx, hlt, hfree, rfl⟩

/-- `lookup_page`: the address of `va`'s page-table entry, 0 when there is no page table and
`create` is false or no page is left for one. -/
def lookupPage (m : KernelMem) (pd va : ℕ) (create : Bool) : Option (ℕ × KernelMem) :=
  if pd = 0 then none
  else if create && !isUserVaddr va then none
  else
    let pde := pd + 4 * pdNo va
    if m.words pde = 0 then
      if create then
        let (pt, m₁) := m.pallocGetPage true
        if pt = 0 then some (0, m₁)
        else do
          let e ← pdeCreate pt
          let m₂ := m₁.write pde e
          let table ← pdeGetPt (m₂.words pde)
          pure (table + 4 * ptNo va, m₂)
      else some (0, m)
    else do
      let table ← pdeGetPt (m.words pde)
      pure (table + 4 * ptNo va, m)

/-- `pagedir_create`: a page of the kernel pool holding a copy of `init_page_dir`. -/
def pagedirCreate (m : KernelMem) : ℕ × KernelMem :=
  let (pd, m₁) := m.pallocGetPage false
  if pd ≠ 0 then
    (pd, { m₁ with
      words := fun a => if pd ≤ a ∧ a < pd + pgSize then m₁.words (m.initPageDir + (a - pd))
        else m₁.words a })
  else (pd, m₁)

/-- `pagedir_set_page`: whether the mapping was added; `false` when no page was left for a page
table. -/
def pagedirSetPage (m : KernelMem) (pd upage kpage : ℕ) (writable : Bool) :
    Option (Bool × KernelMem) :=
  if pgOfs upage ≠ 0 ∨ pgOfs kpage ≠ 0 ∨ !isUserVaddr upage then none
  else do
    let p ← vtop kpage
    if m.initRamPages ≤ p >>> ptShift ∨ pd = m.initPageDir then none
    else
      let (pte, m₁) ← m.lookupPage pd upage true
      if pte ≠ 0 then
        if m₁.words pte &&& pteP ≠ 0 then none
        else do
          let e ← pteCreateUser kpage writable
          pure (true, m₁.write pte e)
      else pure (false, m₁)

/-- `pagedir_get_page`: the kernel address `uaddr` is mapped to, 0 when it is unmapped. -/
def pagedirGetPage (m : KernelMem) (pd uaddr : ℕ) : Option ℕ :=
  if !isUserVaddr uaddr then none
  else do
    let (pte, m₁) ← m.lookupPage pd uaddr false
    if pte ≠ 0 ∧ m₁.words pte &&& pteP ≠ 0 then
      (pteGetPage (m₁.words pte)).map (· + pgOfs uaddr)
    else pure 0

/-- `pagedir_clear_page`: the page is no longer present; its other bits are kept. -/
def pagedirClearPage (m : KernelMem) (pd upage : ℕ) : Option KernelMem :=
  if pgOfs upage ≠ 0 ∨ !isUserVaddr upage then none
  else do
    let (pte, m₁) ← m.lookupPage pd upage false
    if pte ≠ 0 ∧ m₁.words pte &&& pteP ≠ 0 then pure (m₁.write pte (m₁.words pte &&& ~~~pteP))
    else pure m₁

/-- `pagedir_is_dirty` and `pagedir_is_accessed`: whether the entry of `vpage` has `flag`. -/
def pagedirIsFlag (flag : BitVec 32) (m : KernelMem) (pd vpage : ℕ) : Option Bool := do
  let (pte, m₁) ← m.lookupPage pd vpage false
  pure (pte ≠ 0 ∧ m₁.words pte &&& flag ≠ 0)

/-- `pagedir_set_dirty` and `pagedir_set_accessed`: `flag` set to `on` in the entry of
`vpage`, when its page table exists. -/
def pagedirSetFlag (flag : BitVec 32) (m : KernelMem) (pd vpage : ℕ) (on : Bool) :
    Option KernelMem := do
  let (pte, m₁) ← m.lookupPage pd vpage false
  if pte ≠ 0 then
    pure (m₁.write pte (if on then m₁.words pte ||| flag else m₁.words pte &&& ~~~flag))
  else pure m₁

def pagedirIsDirty (m : KernelMem) (pd vpage : ℕ) : Option Bool := pagedirIsFlag pteD m pd vpage

def pagedirSetDirty (m : KernelMem) (pd vpage : ℕ) (dirty : Bool) : Option KernelMem :=
  pagedirSetFlag pteD m pd vpage dirty

def pagedirIsAccessed (m : KernelMem) (pd vpage : ℕ) : Option Bool :=
  pagedirIsFlag pteA m pd vpage

def pagedirSetAccessed (m : KernelMem) (pd vpage : ℕ) (accessed : Bool) : Option KernelMem :=
  pagedirSetFlag pteA m pd vpage accessed

end KernelMem

end Pintos
