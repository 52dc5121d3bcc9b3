import Pintos.Userprog.Pagedir

/-! # Well-formed page tables

`pagedir.c` keeps a process's user mappings in two levels of tables: each user entry of the
page directory is zero or points to a page table, taken zeroed from the kernel pool by
`lookup_page`, and each entry of a page table is zero or maps one user page to a frame.
`entryWord` reads the entry of a user page the way the processor walks the tables, zero when
there is no page table.

The tables are well formed (`PdInv`) when every nonzero user directory entry points to a page
table of its own on a used page of the kernel pool, and every nonzero entry of those is a user
entry for a frame of RAM. Each function of `pagedir.c` keeps that, and its effect on the
entries is stated on `entryWord`: `pagedir_set_page` writes one entry or, when no page is left
for a page table, none; `pagedir_clear_page`, `pagedir_set_dirty` and
`pagedir_set_accessed` change one bit of one entry; the queries read the entry's bits.
-/

namespace Pintos

/-- `pd_no (PHYS_BASE)`: the directory entries of user addresses come first. -/
def userPdes : ℕ := pdNo physBase

/-- A user page: page-aligned and below `PHYS_BASE`. -/
def UserPage (upage : ℕ) : Prop := pgOfs upage = 0 ∧ upage < physBase

namespace KernelMem

/-- A page of the kernel pool that is in use. -/
def PoolPage (m : KernelMem) (p : ℕ) : Prop :=
  ∃ k, k < m.usedMap.bitCnt ∧ m.usedMap.test k = true ∧ p = m.base + pgSize * k

/-- A frame for `pagedir_set_page`: a page of RAM seen at its kernel address. -/
def RamPage (m : KernelMem) (kpage : ℕ) : Prop :=
  pgOfs kpage = 0 ∧ physBase ≤ kpage ∧ (kpage - physBase) >>> ptShift < m.initRamPages

/-- The page-table entry of `upage` as the processor finds it: zero when the directory entry
is zero. -/
def entryWord (m : KernelMem) (pd upage : ℕ) : BitVec 32 :=
  let pde := m.words (pd + 4 * pdNo upage)
  if pde = 0 then 0 else m.words (entryPage pde + 4 * ptNo upage)

end KernelMem

/-- The kernel pool lies in kernel space and all of RAM is mapped there. -/
structure PoolOk (m : KernelMem) : Prop where
  base_aligned : m.base % pgSize = 0
  base_kernel : physBase ≤ m.base
  pool_top : m.base + pgSize * m.usedMap.bitCnt ≤ 2 ^ 32
  ram : m.initRamPages * pgSize ≤ 2 ^ 32 - physBase

/-- Well-formed page tables under directory `pd`: each nonzero user directory entry points to
a page table of its own, and each nonzero entry of those is a user entry for a frame of RAM. -/
structure PdInv (m : KernelMem) (pd : ℕ) : Prop extends PoolOk m where
  pd_page : m.PoolPage pd
  pd_ne_init : pd ≠ m.initPageDir
  table : ∀ i < userPdes, m.words (pd + 4 * i) ≠ 0 →
    ∃ t, m.words (pd + 4 * i) = pdeOf t ∧ m.PoolPage t ∧ t ≠ pd
  table_inj : ∀ i j, i < userPdes → j < userPdes → m.words (pd + 4 * i) ≠ 0 →
    m.words (pd + 4 * i) = m.words (pd + 4 * j) → i = j
  entry : ∀ i < userPdes, m.words (pd + 4 * i) ≠ 0 → ∀ k < 1024,
    m.words (entryPage (m.words (pd + 4 * i)) + 4 * k) ≠ 0 →
      m.words (entryPage (m.words (pd + 4 * i)) + 4 * k) &&& pteU ≠ 0 ∧
      (m.words (entryPage (m.words (pd + 4 * i)) + 4 * k) &&& pteAddr).toNat <
        m.initRamPages * pgSize

/-- What a call does to the kernel pool and to the user entries of directory `pd`: nothing, or
it takes a free page for the page table of a zero entry. -/
def KernelMem.PoolStep (pd : ℕ) (m m' : KernelMem) : Prop :=
  m'.base = m.base ∧
    ((m'.usedMap = m.usedMap ∧ ∀ i < userPdes, m'.words (pd + 4 * i) = m.words (pd + 4 * i)) ∨
      ∃ idx i₀, idx < m.usedMap.bitCnt ∧ m.usedMap.test idx = false ∧ i₀ < userPdes ∧
        m.words (pd + 4 * i₀) = 0 ∧ m'.usedMap = m.usedMap.set idx true ∧
        m'.words (pd + 4 * i₀) = pdeOf (m.base + pgSize * idx) ∧
        ∀ i < userPdes, i ≠ i₀ → m'.words (pd + 4 * i) = m.words (pd + 4 * i))

theorem KernelMem.PoolStep.refl (pd : ℕ) (m : KernelMem) : m.PoolStep pd m :=
  ⟨rfl, .inl ⟨rfl, fun _ _ => rfl⟩⟩

/-- A step followed by a change of nothing it records is a step. -/
theorem KernelMem.PoolStep.of_same {pd : ℕ} {m m' m'' : KernelMem} (h : m.PoolStep pd m')
    (hb : m''.base = m'.base) (hu : m''.usedMap = m'.usedMap)
    (hw : ∀ i < userPdes, m''.words (pd + 4 * i) = m'.words (pd + 4 * i)) : m.PoolStep pd m'' := by
  obtain ⟨hb', ⟨hsame, hsame'⟩ | ⟨idx, i₀, hlt, hfree, hi₀, hz, hset, hpde, hother⟩⟩ := h
  · exact ⟨hb.trans hb', .inl ⟨hu.trans hsame, fun i hi => (hw i hi).trans (hsame' i hi)⟩⟩
  · exact ⟨hb.trans hb', .inr ⟨idx, i₀, hlt, hfree, hi₀, hz, hu.trans hset, (hw i₀ hi₀).trans hpde,
      fun i hi hne => (hw i hi).trans (hother i hi hne)⟩⟩

/-! ## Addresses -/

section Addresses

variable {u u' : ℕ}

theorem UserPage.pdNo_lt (hu : UserPage u) : pdNo u < userPdes := by
  have := hu.2
  rw [userPdes, pdNo_eq, pdNo_eq]
  simp only [physBase] at this ⊢
  omega

theorem UserPage.ptNo_lt (u : ℕ) : ptNo u < 1024 := by
  rw [ptNo_eq]
  exact Nat.mod_lt _ (by decide)

/-- A user page is named by its two indices. -/
theorem UserPage.eq_of_indices (hu : UserPage u) (hu' : UserPage u') (hpd : pdNo u = pdNo u')
    (hpt : ptNo u = ptNo u') : u = u' := by
  have h₁ := hu.1
  have h₂ := hu'.1
  rw [pdNo_eq, pdNo_eq] at hpd
  rw [ptNo_eq, ptNo_eq] at hpt
  simp only [pgOfs, pgSize] at h₁ h₂ hpt
  omega

theorem pdNo_pgRoundDown (a : ℕ) : pdNo (pgRoundDown a) = pdNo a := by
  rw [pdNo_eq, pdNo_eq, pgRoundDown]
  simp only [pgSize]
  omega

theorem ptNo_pgRoundDown (a : ℕ) : ptNo (pgRoundDown a) = ptNo a := by
  rw [ptNo_eq, ptNo_eq, pgRoundDown]
  simp only [pgSize]
  omega

theorem userPage_pgRoundDown {a : ℕ} (ha : a < physBase) : UserPage (pgRoundDown a) := by
  refine ⟨?_, ?_⟩
  · simp only [pgOfs, pgRoundDown, pgSize]
    omega
  · have := pgRoundDown_le a
    omega

/-- Entries of two different pages lie apart. -/
theorem slot_ne {p q i j : ℕ} (hp : p % pgSize = 0) (hq : q % pgSize = 0) (hpq : p ≠ q)
    (hi : i < 1024) (hj : j < 1024) : p + 4 * i ≠ q + 4 * j := by
  simp only [pgSize] at hp hq
  omega

theorem slot_lt {p i : ℕ} (hi : i < 1024) : p ≤ p + 4 * i ∧ p + 4 * i < p + pgSize := by
  simp only [pgSize]
  omega

end Addresses

/-! ## Well-formed tables -/

theorem PoolOk.poolPage_bounds {m : KernelMem} (h : PoolOk m) {p : ℕ} (hp : m.PoolPage p) :
    physBase ≤ p ∧ p < 2 ^ 32 ∧ p + pgSize ≤ 2 ^ 32 ∧ p % pgSize = 0 := by
  obtain ⟨k, hk, -, rfl⟩ := hp
  have hb := h.base_aligned
  have htop := h.pool_top
  have hk' : pgSize * (k + 1) ≤ pgSize * m.usedMap.bitCnt := Nat.mul_le_mul_left _ hk
  have hbk := h.base_kernel
  rw [Nat.mul_succ] at hk'
  refine ⟨by omega, by simp only [pgSize] at hk' htop ⊢; omega, by omega, ?_⟩
  simp only [pgSize] at hb ⊢
  omega

/-- A frame of RAM lies in the 4 GB the kernel maps. -/
theorem PoolOk.ramPage_lt {m : KernelMem} (h : PoolOk m) {kpage : ℕ} (hk : m.RamPage kpage) :
    kpage - physBase < m.initRamPages * pgSize ∧ kpage < 2 ^ 32 := by
  obtain ⟨-, hklo, hkram⟩ := hk
  have hram := h.ram
  rw [Nat.shiftRight_eq_div_pow] at hkram
  simp only [ptShift, pgSize, physBase] at hkram hram hklo ⊢
  omega

/-- A used page of the pool is not the page of a clear bit. -/
theorem KernelMem.PoolPage.ne_free {m : KernelMem} {p idx : ℕ} (hp : m.PoolPage p)
    (hidx : m.usedMap.test idx = false) : p ≠ m.base + pgSize * idx := by
  obtain ⟨k, -, hk, rfl⟩ := hp
  intro heq
  have hki : k = idx := by simp only [pgSize] at heq; omega
  rw [hki, hidx] at hk
  cases hk

namespace PdInv

variable {m : KernelMem} {pd : ℕ}

theorem pd_ne_zero (h : PdInv m pd) : pd ≠ 0 := by
  have := (h.poolPage_bounds h.pd_page).1
  simp only [physBase] at this
  omega

theorem pd_aligned (h : PdInv m pd) : pd % pgSize = 0 := (h.poolPage_bounds h.pd_page).2.2.2

/-- A nonzero user directory entry points to a page table on a used page. -/
theorem table_page (h : PdInv m pd) {i : ℕ} (hi : i < userPdes) (hne : m.words (pd + 4 * i) ≠ 0) :
    m.PoolPage (entryPage (m.words (pd + 4 * i))) ∧ entryPage (m.words (pd + 4 * i)) ≠ pd ∧
      entryPage (m.words (pd + 4 * i)) % pgSize = 0 := by
  obtain ⟨t, ht, hpool, htpd⟩ := h.table i hi hne
  obtain ⟨hlo, hlt, -, hal⟩ := h.poolPage_bounds hpool
  have hf : (pteU ||| pteP ||| pteW) &&& pteAddr = 0 := by decide
  rw [ht, pdeOf, entryPage_ofNat hlo hlt hal hf]
  exact ⟨hpool, htpd, hal⟩

theorem pdeGetPt_eq (h : PdInv m pd) {i : ℕ} (hi : i < userPdes) (hne : m.words (pd + 4 * i) ≠ 0) :
    pdeGetPt (m.words (pd + 4 * i)) = some (entryPage (m.words (pd + 4 * i))) := by
  obtain ⟨t, ht, hpool, -⟩ := h.table i hi hne
  obtain ⟨hlo, hlt, -, hal⟩ := h.poolPage_bounds hpool
  have hf : (pteU ||| pteP ||| pteW) &&& pteAddr = 0 := by decide
  rw [ht, pdeGetPt_pdeOf hlo hlt hal, pdeOf, entryPage_ofNat hlo hlt hal hf]

/-- Two user directory entries point to different page tables. -/
theorem table_ne (h : PdInv m pd) {i j : ℕ} (hi : i < userPdes) (hj : j < userPdes)
    (hne : m.words (pd + 4 * i) ≠ 0) (hne' : m.words (pd + 4 * j) ≠ 0) (hij : i ≠ j) :
    entryPage (m.words (pd + 4 * i)) ≠ entryPage (m.words (pd + 4 * j)) := by
  intro heq
  obtain ⟨t, ht, hpool, -⟩ := h.table i hi hne
  obtain ⟨t', ht', hpool', -⟩ := h.table j hj hne'
  obtain ⟨hlo, hlt, -, hal⟩ := h.poolPage_bounds hpool
  obtain ⟨hlo', hlt', -, hal'⟩ := h.poolPage_bounds hpool'
  have hf : (pteU ||| pteP ||| pteW) &&& pteAddr = 0 := by decide
  rw [ht, ht', pdeOf, pdeOf, entryPage_ofNat hlo hlt hal hf,
    entryPage_ofNat hlo' hlt' hal' hf] at heq
  exact hij (h.table_inj i j hi hj hne (by rw [ht, ht', heq]))

/-- `lookup_page (pd, va, false)` on a user address: the address of its entry, or `NULL` when
its directory entry is zero. -/
theorem lookupPage_false (h : PdInv m pd) {va : ℕ} (hva : pdNo va < userPdes) :
    m.lookupPage pd va false =
      some (if m.words (pd + 4 * pdNo va) = 0 then 0
        else entryPage (m.words (pd + 4 * pdNo va)) + 4 * ptNo va, m) := by
  unfold KernelMem.lookupPage
  rw [if_neg h.pd_ne_zero, if_neg (by simp)]
  dsimp only
  split
  · rfl
  · next hne =>
    rw [h.pdeGetPt_eq hva hne]
    rfl

/-- A nonzero entry points to a frame of RAM, which `pte_get_page` finds. -/
theorem pteGetPage_eq (h : PdInv m pd) {i k : ℕ} (hi : i < userPdes)
    (hne : m.words (pd + 4 * i) ≠ 0) (hk : k < 1024)
    (hw : m.words (entryPage (m.words (pd + 4 * i)) + 4 * k) ≠ 0) :
    pteGetPage (m.words (entryPage (m.words (pd + 4 * i)) + 4 * k)) =
      some (entryPage (m.words (entryPage (m.words (pd + 4 * i)) + 4 * k))) := by
  have hlt := (h.entry i hi hne k hk hw).2
  have hram := h.ram
  rw [pteGetPage, ptov, if_pos (by simp only [physBase, pgSize] at hlt hram ⊢; omega)]
  rfl

/-- `pagedir_is_dirty` and `pagedir_is_accessed` on a user page test the bit of its entry. -/
theorem pagedirIsFlag_eq (h : PdInv m pd) {u : ℕ} (hu : UserPage u) (flag : BitVec 32) :
    m.pagedirIsFlag flag pd u = some (decide (m.entryWord pd u &&& flag ≠ 0)) := by
  unfold KernelMem.pagedirIsFlag KernelMem.entryWord
  rw [h.lookupPage_false hu.pdNo_lt]
  by_cases hz : m.words (pd + 4 * pdNo u) = 0
  · simp [hz]
  · rw [if_neg hz, if_neg hz]
    simp [entryPage_ne_zero]

/-- `pagedir_get_page` on a user address: the frame of its page plus the offset when the page is
present, else `NULL`. -/
theorem pagedirGetPage_eq (h : PdInv m pd) {uaddr : ℕ} (hu : uaddr < physBase) :
    m.pagedirGetPage pd uaddr =
      some (if m.entryWord pd (pgRoundDown uaddr) &&& pteP ≠ 0
        then entryPage (m.entryWord pd (pgRoundDown uaddr)) + pgOfs uaddr else 0) := by
  have hpd : pdNo uaddr < userPdes := by
    rw [← pdNo_pgRoundDown]
    exact (userPage_pgRoundDown hu).pdNo_lt
  unfold KernelMem.pagedirGetPage KernelMem.entryWord
  rw [if_neg (by simp [isUserVaddr, hu]), h.lookupPage_false hpd, pdNo_pgRoundDown,
    ptNo_pgRoundDown]
  by_cases hz : m.words (pd + 4 * pdNo uaddr) = 0
  · rw [if_pos hz, if_pos hz, Option.bind_eq_bind, Option.bind_some]
    dsimp only
    rw [if_neg (fun hc => hc.1 rfl), if_neg (fun hc => hc BitVec.zero_and)]
    rfl
  · have ha : entryPage (m.words (pd + 4 * pdNo uaddr)) + 4 * ptNo uaddr ≠ 0 := by
      have := entryPage_ne_zero (m.words (pd + 4 * pdNo uaddr))
      omega
    rw [if_neg hz, if_neg hz, Option.bind_eq_bind, Option.bind_some]
    dsimp only
    by_cases hP : m.words (entryPage (m.words (pd + 4 * pdNo uaddr)) + 4 * ptNo uaddr) &&& pteP = 0
    · rw [if_neg (fun hc => hc.2 hP), if_neg (fun hc => hc hP)]
      rfl
    · -- a present entry is nonzero, so it points to a frame of RAM
      have hw : m.words (entryPage (m.words (pd + 4 * pdNo uaddr)) + 4 * ptNo uaddr) ≠ 0 := by
        intro h0
        rw [h0] at hP
        exact hP rfl
      rw [if_pos ⟨ha, hP⟩, if_pos hP, h.pteGetPage_eq hpd hz (UserPage.ptNo_lt _) hw]
      rfl

/-- Tables are kept well formed by a change that keeps the pool's used pages in use, the user
directory entries, and the user bit and RAM frame of every nonzero page-table entry. -/
theorem of_entries (h : PdInv m pd) {m' : KernelMem} (hbase : m'.base = m.base)
    (hcnt : m'.usedMap.bitCnt = m.usedMap.bitCnt) (hpool : ∀ p, m.PoolPage p → m'.PoolPage p)
    (hinit : m'.initPageDir = m.initPageDir) (hram : m'.initRamPages = m.initRamPages)
    (hpd : ∀ i < userPdes, m'.words (pd + 4 * i) = m.words (pd + 4 * i))
    (hent : ∀ i < userPdes, m.words (pd + 4 * i) ≠ 0 → ∀ k < 1024,
      m'.words (entryPage (m.words (pd + 4 * i)) + 4 * k) ≠ 0 →
        m'.words (entryPage (m.words (pd + 4 * i)) + 4 * k) &&& pteU ≠ 0 ∧
        (m'.words (entryPage (m.words (pd + 4 * i)) + 4 * k) &&& pteAddr).toNat <
          m.initRamPages * pgSize) :
    PdInv m' pd where
  base_aligned := hbase ▸ h.base_aligned
  base_kernel := hbase ▸ h.base_kernel
  pool_top := hbase ▸ hcnt ▸ h.pool_top
  ram := hram ▸ h.ram
  pd_page := hpool pd h.pd_page
  pd_ne_init := hinit ▸ h.pd_ne_init
  table i hi hne := by
    rw [hpd i hi] at hne ⊢
    obtain ⟨t, ht, hpoolt, htpd⟩ := h.table i hi hne
    exact ⟨t, ht, hpool t hpoolt, htpd⟩
  table_inj i j hi hj hne heq := by
    rw [hpd i hi, hpd j hj] at heq
    rw [hpd i hi] at hne
    exact h.table_inj i j hi hj hne heq
  entry i hi hne k hk hw := by
    rw [hpd i hi] at hne hw ⊢
    rw [hram]
    exact hent i hi hne k hk hw

/-- Rewriting the entry of a user page `u₀` whose page table exists changes what is read for
`u₀` and nothing else. -/
theorem entryWord_write (h : PdInv m pd) {u₀ : ℕ} (hu₀ : UserPage u₀)
    (hne : m.words (pd + 4 * pdNo u₀) ≠ 0) (v : BitVec 32) {u : ℕ} (hu : UserPage u) :
    (m.write (entryPage (m.words (pd + 4 * pdNo u₀)) + 4 * ptNo u₀) v).entryWord pd u =
      if u = u₀ then v else m.entryWord pd u := by
  obtain ⟨-, ht₀pd, hal₀⟩ := h.table_page hu₀.pdNo_lt hne
  have hi : pdNo u < 1024 := by
    have := hu.pdNo_lt
    simp only [userPdes, pdNo_eq, physBase] at this ⊢
    omega
  have hpdw : pd + 4 * pdNo u ≠ entryPage (m.words (pd + 4 * pdNo u₀)) + 4 * ptNo u₀ :=
    slot_ne h.pd_aligned hal₀ (Ne.symm ht₀pd) hi (UserPage.ptNo_lt _)
  unfold KernelMem.entryWord KernelMem.write
  dsimp only
  rw [Function.update_of_ne hpdw]
  by_cases hz : m.words (pd + 4 * pdNo u) = 0
  · have hu₀u : u ≠ u₀ := by
      rintro rfl
      exact hne hz
    rw [if_pos hz, if_neg hu₀u, if_pos hz]
  · by_cases huu : u = u₀
    · subst huu
      rw [if_neg hz, if_pos rfl, Function.update_self]
    · -- another page's entry: in another page table, or at another index of the same one
      have haddr : entryPage (m.words (pd + 4 * pdNo u)) + 4 * ptNo u ≠
          entryPage (m.words (pd + 4 * pdNo u₀)) + 4 * ptNo u₀ := by
        by_cases hpdeq : pdNo u = pdNo u₀
        · have hpt : ptNo u ≠ ptNo u₀ := fun e => huu (hu.eq_of_indices hu₀ hpdeq e)
          rw [hpdeq]
          omega
        · exact slot_ne (h.table_page hu.pdNo_lt hz).2.2 hal₀
            (h.table_ne hu.pdNo_lt hu₀.pdNo_lt hz hne hpdeq) (UserPage.ptNo_lt _)
            (UserPage.ptNo_lt _)
      rw [if_neg hz, if_neg huu, if_neg hz, Function.update_of_ne haddr]

/-- Rewriting a page-table entry leaves the directory's user entries. -/
theorem write_pde (h : PdInv m pd) {u₀ : ℕ} (hu₀ : UserPage u₀)
    (hne : m.words (pd + 4 * pdNo u₀) ≠ 0) (v : BitVec 32) {i : ℕ} (hi : i < userPdes) :
    (m.write (entryPage (m.words (pd + 4 * pdNo u₀)) + 4 * ptNo u₀) v).words (pd + 4 * i) =
      m.words (pd + 4 * i) := by
  obtain ⟨-, ht₀pd, hal₀⟩ := h.table_page hu₀.pdNo_lt hne
  exact Function.update_of_ne (slot_ne h.pd_aligned hal₀ (Ne.symm ht₀pd)
    (by simp only [userPdes, pdNo_eq, physBase] at hi; omega) (UserPage.ptNo_lt _)) _ _

theorem poolStep_write (h : PdInv m pd) {u₀ : ℕ} (hu₀ : UserPage u₀)
    (hne : m.words (pd + 4 * pdNo u₀) ≠ 0) (v : BitVec 32) :
    m.PoolStep pd (m.write (entryPage (m.words (pd + 4 * pdNo u₀)) + 4 * ptNo u₀) v) :=
  (KernelMem.PoolStep.refl pd m).of_same rfl rfl fun _ hi => h.write_pde hu₀ hne v hi

/-- Rewriting an entry with a user entry for a frame of RAM, or with zero, keeps the tables well
formed. -/
theorem write_entry (h : PdInv m pd) {u₀ : ℕ} (hu₀ : UserPage u₀)
    (hne : m.words (pd + 4 * pdNo u₀) ≠ 0) {v : BitVec 32}
    (hv : v ≠ 0 → v &&& pteU ≠ 0 ∧ (v &&& pteAddr).toNat < m.initRamPages * pgSize) :
    PdInv (m.write (entryPage (m.words (pd + 4 * pdNo u₀)) + 4 * ptNo u₀) v) pd := by
  refine h.of_entries rfl rfl (fun _ hp => hp) rfl rfl
    (fun i hi => h.write_pde hu₀ hne v hi) fun i hi hne' k hk hw => ?_
  simp only [KernelMem.write, Function.update_apply] at hw ⊢
  split
  · next heq =>
    rw [if_pos heq] at hw
    exact hv hw
  · next hneq =>
    rw [if_neg hneq] at hw
    exact h.entry i hi hne' k hk hw

end PdInv

/-! ## Changing the tables -/

theorem pdeOf_ne_zero (pt : ℕ) (hal : (pt - physBase) % pgSize = 0) : pdeOf pt ≠ 0 := by
  intro h0
  have hP : pdeOf pt &&& pteP = pteP := by
    rw [pdeOf, entry_and_flag hal (by decide)]
    decide
  rw [h0] at hP
  exact absurd hP (by decide)

namespace PdInv

variable {m : KernelMem} {pd : ℕ}

theorem entryWord_of_eq {u : ℕ} (hz : m.words (pd + 4 * pdNo u) = 0) : m.entryWord pd u = 0 := by
  rw [KernelMem.entryWord]
  exact if_pos hz

theorem entryWord_of_ne {u : ℕ} (hz : m.words (pd + 4 * pdNo u) ≠ 0) :
    m.entryWord pd u = m.words (entryPage (m.words (pd + 4 * pdNo u)) + 4 * ptNo u) := by
  rw [KernelMem.entryWord]
  exact if_neg hz

/-- A nonzero entry read for a user page is a user entry for a frame of RAM. -/
theorem entryWord_ok (h : PdInv m pd) {u : ℕ} (hu : UserPage u) (hw : m.entryWord pd u ≠ 0) :
    m.entryWord pd u &&& pteU ≠ 0 ∧ (m.entryWord pd u &&& pteAddr).toNat < m.initRamPages * pgSize := by
  by_cases hz : m.words (pd + 4 * pdNo u) = 0
  · exact absurd (entryWord_of_eq hz) hw
  · rw [entryWord_of_ne hz] at hw ⊢
    exact h.entry _ hu.pdNo_lt hz _ (UserPage.ptNo_lt u) hw

/-- A zeroed page taken from the pool: the tables stay well formed and read as before. -/
theorem pallocZero (h : PdInv m pd) {idx : ℕ} (hlt : idx < m.usedMap.bitCnt)
    (hfree : m.usedMap.test idx = false) :
    let m₁ : KernelMem := { m with
      usedMap := m.usedMap.set idx true
      words := fun a => if m.base + pgSize * idx ≤ a ∧ a < m.base + pgSize * idx + pgSize then 0
        else m.words a }
    PdInv m₁ pd ∧ m₁.PoolPage (m.base + pgSize * idx) ∧
      (∀ i < userPdes, m₁.words (pd + 4 * i) = m.words (pd + 4 * i)) ∧
      (∀ u, UserPage u → m₁.entryWord pd u = m.entryWord pd u) ∧
      ∀ k < 1024, m₁.words (m.base + pgSize * idx + 4 * k) = 0 := by
  intro m₁
  have hpal : (m.base + pgSize * idx) % pgSize = 0 := by
    have := h.base_aligned
    simp only [pgSize] at this ⊢
    omega
  have hpool : ∀ q, m.PoolPage q → m₁.PoolPage q := by
    rintro q ⟨k, hk, hkt, rfl⟩
    refine ⟨k, hk, ?_, rfl⟩
    simp only [m₁, Bitmap.test_set]
    split <;> simp [hkt]
  -- a used page lies outside the page taken
  have hkeep : ∀ q, m.PoolPage q → ∀ j < 1024, m₁.words (q + 4 * j) = m.words (q + 4 * j) :=
    fun q hq j hj => by
      have hne := hq.ne_free hfree
      have hqal := (h.poolPage_bounds hq).2.2.2
      simp only [m₁]
      rw [if_neg]
      simp only [pgSize] at hqal hpal hne ⊢
      omega
  have hpd : ∀ i < userPdes, m₁.words (pd + 4 * i) = m.words (pd + 4 * i) := fun i hi =>
    hkeep pd h.pd_page i (by simp only [userPdes, pdNo_eq, physBase] at hi; omega)
  have htab : ∀ i < userPdes, m.words (pd + 4 * i) ≠ 0 → ∀ k < 1024,
      m₁.words (entryPage (m.words (pd + 4 * i)) + 4 * k) =
        m.words (entryPage (m.words (pd + 4 * i)) + 4 * k) := fun i hi hne k hk =>
    hkeep _ (h.table_page hi hne).1 k hk
  refine ⟨h.of_entries rfl rfl hpool rfl rfl hpd fun i hi hne k hk hw => ?_,
    ⟨idx, hlt, by simp [m₁], rfl⟩, hpd, fun u hu => ?_, fun k hk => ?_⟩
  · rw [htab i hi hne k hk] at hw ⊢
    exact h.entry i hi hne k hk hw
  · by_cases hz : m.words (pd + 4 * pdNo u) = 0
    · rw [entryWord_of_eq (m := m) hz, entryWord_of_eq (m := m₁) (by rw [hpd _ hu.pdNo_lt]; exact hz)]
    · rw [entryWord_of_ne (m := m) hz, entryWord_of_ne (m := m₁) (by rw [hpd _ hu.pdNo_lt]; exact hz),
        hpd _ hu.pdNo_lt, htab _ hu.pdNo_lt hz _ (UserPage.ptNo_lt u)]
  · simp only [m₁]
    rw [if_pos (slot_lt hk)]

/-- A directory entry written for a fresh, zeroed page table: the tables stay well formed and
read as before, every entry of the new table being zero. -/
theorem newTable (h : PdInv m pd) {i₀ p : ℕ} (hi₀ : i₀ < userPdes)
    (hz : m.words (pd + 4 * i₀) = 0) (hp : m.PoolPage p) (hppd : p ≠ pd)
    (hfresh : ∀ i < userPdes, m.words (pd + 4 * i) ≠ 0 → entryPage (m.words (pd + 4 * i)) ≠ p)
    (hzero : ∀ k < 1024, m.words (p + 4 * k) = 0) :
    PdInv (m.write (pd + 4 * i₀) (pdeOf p)) pd ∧
      ∀ u, UserPage u → (m.write (pd + 4 * i₀) (pdeOf p)).entryWord pd u = m.entryWord pd u := by
  obtain ⟨hplo, hplt, -, hpal⟩ := h.poolPage_bounds hp
  have hf : (pteU ||| pteP ||| pteW) &&& pteAddr = 0 := by decide
  have hpage : entryPage (pdeOf p) = p := entryPage_ofNat hplo hplt hpal hf
  have hpde0 : pdeOf p ≠ 0 :=
    pdeOf_ne_zero p (by simp only [pgSize, physBase] at hpal ⊢; omega)
  have hlt1024 : ∀ i < userPdes, i < 1024 := fun i hi => by
    simp only [userPdes, pdNo_eq, physBase] at hi
    omega
  -- the new entry is the only word written, on the directory's page
  have hdir : ∀ i < userPdes, i ≠ i₀ →
      (m.write (pd + 4 * i₀) (pdeOf p)).words (pd + 4 * i) = m.words (pd + 4 * i) :=
    fun i _ hii => Function.update_of_ne (by omega) _ _
  have hpage_words : ∀ q, q % pgSize = 0 → q ≠ pd → ∀ k < 1024,
      (m.write (pd + 4 * i₀) (pdeOf p)).words (q + 4 * k) = m.words (q + 4 * k) :=
    fun q hq hqpd k hk =>
      Function.update_of_ne (slot_ne hq h.pd_aligned hqpd hk (hlt1024 i₀ hi₀)) _ _
  have hself : (m.write (pd + 4 * i₀) (pdeOf p)).words (pd + 4 * i₀) = pdeOf p :=
    Function.update_self _ _ _
  refine ⟨⟨⟨h.base_aligned, h.base_kernel, h.pool_top, h.ram⟩, h.pd_page, h.pd_ne_init, fun i hi hne => ?_, fun i j hi hj hne heq => ?_,
    fun i hi hne k hk hw => ?_⟩, fun u hu => ?_⟩
  · by_cases hii : i = i₀
    · subst hii
      exact ⟨p, hself, hp, hppd⟩
    · rw [hdir i hi hii] at hne ⊢
      exact h.table i hi hne
  · -- the new entry points to a page no other entry points to
    have hold : ∀ j < userPdes, j ≠ i₀ →
        (m.write (pd + 4 * i₀) (pdeOf p)).words (pd + 4 * j) ≠ pdeOf p := fun j hj hji he => by
      rw [hdir j hj hji] at he
      have hjne : m.words (pd + 4 * j) ≠ 0 := by rw [he]; exact hpde0
      exact hfresh j hj hjne (by rw [he, hpage])
    by_cases hii : i = i₀
    · subst hii
      by_contra hij
      rw [hself] at heq
      exact hold j hj (Ne.symm hij) heq.symm
    · by_cases hji : j = i₀
      · subst hji
        rw [hself] at heq
        exact absurd heq (hold i hi hii)
      · rw [hdir i hi hii, hdir j hj hji] at heq
        rw [hdir i hi hii] at hne
        exact h.table_inj i j hi hj hne heq
  · by_cases hii : i = i₀
    · subst hii
      rw [hself, hpage, hpage_words p hpal hppd k hk, hzero k hk] at hw
      exact absurd rfl hw
    · rw [hdir i hi hii] at hne hw ⊢
      obtain ⟨-, htpd, htal⟩ := h.table_page hi hne
      rw [hpage_words _ htal htpd k hk] at hw ⊢
      exact h.entry i hi hne k hk hw
  · by_cases hui : pdNo u = i₀
    · -- the page's entry now lies in the new table, still zero
      rw [entryWord_of_eq (m := m) (by rw [hui]; exact hz),
        entryWord_of_ne (m := m.write (pd + 4 * i₀) (pdeOf p)) (by rw [hui, hself]; exact hpde0),
        hui, hself, hpage, hpage_words p hpal hppd _ (UserPage.ptNo_lt u), hzero _ (UserPage.ptNo_lt u)]
    · by_cases hz' : m.words (pd + 4 * pdNo u) = 0
      · rw [entryWord_of_eq (m := m) hz',
          entryWord_of_eq (m := m.write (pd + 4 * i₀) (pdeOf p)) (by rw [hdir _ hu.pdNo_lt hui]; exact hz')]
      · obtain ⟨-, htpd, htal⟩ := h.table_page hu.pdNo_lt hz'
        rw [entryWord_of_ne (m := m) hz',
          entryWord_of_ne (m := m.write (pd + 4 * i₀) (pdeOf p)) (by rw [hdir _ hu.pdNo_lt hui]; exact hz'),
          hdir _ hu.pdNo_lt hui, hpage_words _ htal htpd _ (UserPage.ptNo_lt u)]

/-- `lookup_page (pd, u, true)` on a user page: the address of its entry, in tables still well
formed and read as before, taking a page table from the pool when there is none; or `NULL`,
with nothing changed, when a page table is needed and the pool is empty. -/
theorem lookupPage_true (h : PdInv m pd) {u : ℕ} (hu : UserPage u) :
    (m.words (pd + 4 * pdNo u) = 0 ∧ m.lookupPage pd u true = some (0, m)) ∨
      ∃ m', m.lookupPage pd u true = some (entryPage (m'.words (pd + 4 * pdNo u)) + 4 * ptNo u, m') ∧
        PdInv m' pd ∧ m'.words (pd + 4 * pdNo u) ≠ 0 ∧ m'.initRamPages = m.initRamPages ∧
        m.PoolStep pd m' ∧ ∀ u', UserPage u' → m'.entryWord pd u' = m.entryWord pd u' := by
  unfold KernelMem.lookupPage
  rw [if_neg h.pd_ne_zero, if_neg (by simp [isUserVaddr, hu.2])]
  dsimp only
  by_cases hz : m.words (pd + 4 * pdNo u) = 0
  · rw [if_pos hz, if_pos rfl]
    rcases m.pallocGetPage_cases true with h0 | ⟨idx, hlt, hfree, hpal⟩
    · left
      rw [h0]
      exact ⟨hz, rfl⟩
    · right
      rw [hpal, if_pos rfl]
      obtain ⟨h₁, hpool, hpd₁, hview₁, hzero⟩ := h.pallocZero hlt hfree
      set m₁ : KernelMem := { m with
        usedMap := m.usedMap.set idx true
        words := fun a => if m.base + pgSize * idx ≤ a ∧ a < m.base + pgSize * idx + pgSize then 0
          else m.words a } with hm₁
      set pt := m.base + pgSize * idx with hpt
      obtain ⟨hplo, hplt, -, hptal⟩ := h₁.poolPage_bounds hpool
      -- the page taken was free, so it is neither the directory nor a page table
      have hfresh : ∀ i < userPdes, m₁.words (pd + 4 * i) ≠ 0 → entryPage (m₁.words (pd + 4 * i)) ≠ pt :=
        fun i hi hne => by
          rw [hpd₁ i hi] at hne ⊢
          exact (h.table_page hi hne).1.ne_free hfree
      obtain ⟨h₂, hview₂⟩ := h₁.newTable hu.pdNo_lt (by rw [hpd₁ _ hu.pdNo_lt]; exact hz) hpool
        (Ne.symm (h.pd_page.ne_free hfree)) hfresh hzero
      have hself : (m₁.write (pd + 4 * pdNo u) (pdeOf pt)).words (pd + 4 * pdNo u) = pdeOf pt :=
        Function.update_self _ _ _
      have hf : (pteU ||| pteP ||| pteW) &&& pteAddr = 0 := by decide
      refine ⟨m₁.write (pd + 4 * pdNo u) (pdeOf pt), ?_, h₂, ?_, rfl,
        ⟨rfl, .inr ⟨idx, pdNo u, hlt, hfree, hu.pdNo_lt, hz, rfl, hself, fun i hi hne => ?_⟩⟩,
        fun u' hu' => (hview₂ u' hu').trans (hview₁ u' hu')⟩
      · rw [if_neg (by simp only [physBase] at hplo; omega),
          pdeCreate_eq (by simpa [pgOfs] using hptal) hplo, Option.bind_eq_bind, Option.bind_some]
        dsimp only
        have hpage : entryPage (pdeOf pt) = pt := entryPage_ofNat hplo hplt hptal hf
        rw [hself, pdeGetPt_pdeOf hplo hplt hptal, Option.bind_eq_bind, Option.bind_some, hpage]
        rfl
      · rw [hself]
        exact pdeOf_ne_zero pt (by simp only [pgSize, physBase] at hptal ⊢; omega)
      · -- the other user entries of the directory are those of `m`
        show Function.update m₁.words _ _ _ = _
        rw [Function.update_of_ne (by omega)]
        exact hpd₁ i hi
  · rw [if_neg hz, h.pdeGetPt_eq hu.pdNo_lt hz]
    right
    exact ⟨m, rfl, h, hz, rfl, KernelMem.PoolStep.refl pd m, fun _ _ => rfl⟩

/-- `pagedir_set_page` on a user page fails its `ASSERT` exactly when the page is present;
otherwise it writes the new entry, or, when no page is left for a page table, changes no
entry. -/
theorem pagedirSetPage_spec (h : PdInv m pd) {upage kpage : ℕ} (hu : UserPage upage)
    (hk : m.RamPage kpage) (writable : Bool) :
    (m.entryWord pd upage &&& pteP ≠ 0 ∧ m.pagedirSetPage pd upage kpage writable = none) ∨
      (m.entryWord pd upage &&& pteP = 0 ∧ ∃ ok m', m.pagedirSetPage pd upage kpage writable = some (ok, m') ∧
        PdInv m' pd ∧ m.PoolStep pd m' ∧ ∀ u, UserPage u → m'.entryWord pd u =
          if ok ∧ u = upage then BitVec.ofNat 32 (kpage - physBase) ||| userFlags writable
          else m.entryWord pd u) := by
  have hkram' := (h.ramPage_lt hk).1
  obtain ⟨hkal, hklo, hkram⟩ := hk
  have hram := h.ram
  unfold KernelMem.pagedirSetPage
  rw [if_neg (by simp [hu.1, hkal, isUserVaddr, hu.2]), vtop, if_pos hklo, Option.bind_eq_bind,
    Option.bind_some, if_neg (by rw [not_or]; exact ⟨by omega, h.pd_ne_init⟩)]
  rcases h.lookupPage_true hu with ⟨hz, hlook⟩ | ⟨m', hlook, h', hz', hram', hstep, hview⟩
  · -- no page for a page table: nothing changes
    rw [hlook, Option.bind_eq_bind, Option.bind_some]
    dsimp only
    rw [if_neg (fun h0 => h0 rfl)]
    have hw : m.entryWord pd upage = 0 := entryWord_of_eq hz
    refine .inr ⟨by rw [hw]; exact BitVec.zero_and, false, m, rfl, h, KernelMem.PoolStep.refl pd m,
      fun u _ => ?_⟩
    rw [if_neg (fun hc => Bool.false_ne_true hc.1)]
  · have hw : m'.words (entryPage (m'.words (pd + 4 * pdNo upage)) + 4 * ptNo upage) =
        m.entryWord pd upage := by
      rw [← entryWord_of_ne hz', hview upage hu]
    rw [hlook, Option.bind_eq_bind, Option.bind_some]
    dsimp only
    rw [if_pos (by have := entryPage_ne_zero (m'.words (pd + 4 * pdNo upage)); omega), hw]
    by_cases hP : m.entryWord pd upage &&& pteP = 0
    · -- the entry is not present: `pte_create_user` writes the new one
      have hflags := userFlags_and_pteAddr writable
      have hkal' : (kpage - physBase) % pgSize = 0 := by
        simp only [pgOfs, pgSize, physBase] at hkal hklo ⊢
        omega
      set e := BitVec.ofNat 32 (kpage - physBase) ||| userFlags writable with he
      have heU : e &&& pteU ≠ 0 := by
        rw [he, entry_and_flag hkal' (by decide)]
        cases writable <;> decide
      have heA : (e &&& pteAddr).toNat = kpage - physBase := by
        rw [he, entry_and_pteAddr (by omega) hkal' hflags]
      rw [if_neg (fun hc => hc hP), pteCreateUser_eq hkal hklo, Option.bind_eq_bind, Option.bind_some]
      refine .inr ⟨hP, true, _, rfl, h'.write_entry hu hz' fun _ => ⟨heU, by rw [heA, hram']; exact hkram'⟩,
        hstep.of_same rfl rfl fun _ hi => h'.write_pde hu hz' e hi, fun u hu' => ?_⟩
      rw [h'.entryWord_write hu hz' e hu', hview u hu']
      by_cases huu : u = upage
      · rw [if_pos huu, if_pos ⟨rfl, huu⟩]
      · rw [if_neg huu, if_neg (fun hc => huu hc.2)]
    · exact .inl ⟨hP, by rw [if_pos hP]⟩

/-- Rewriting the entry of a user page through `lookup_page (pd, upage, false)`: when the page
table exists the new word `f w` replaces the old `w`; when it does not, nothing is written and
`f 0 = 0` says that nothing is read differently. -/
theorem rewrite_entry (h : PdInv m pd) {upage : ℕ} (hu : UserPage upage) {f : BitVec 32 → BitVec 32}
    (hf0 : m.words (pd + 4 * pdNo upage) = 0 → f 0 = 0)
    (hfw : f (m.entryWord pd upage) ≠ 0 → m.entryWord pd upage ≠ 0)
    (hf : ∀ w, w ≠ 0 → w &&& pteU ≠ 0 → f w &&& pteU ≠ 0 ∧ f w &&& pteAddr = w &&& pteAddr) :
    ∃ m', (if m.words (pd + 4 * pdNo upage) = 0 then m
        else m.write (entryPage (m.words (pd + 4 * pdNo upage)) + 4 * ptNo upage)
          (f (m.words (entryPage (m.words (pd + 4 * pdNo upage)) + 4 * ptNo upage)))) = m' ∧
      PdInv m' pd ∧ m.PoolStep pd m' ∧ ∀ u, UserPage u → m'.entryWord pd u =
        if u = upage then f (m.entryWord pd upage) else m.entryWord pd u := by
  by_cases hz : m.words (pd + 4 * pdNo upage) = 0
  · refine ⟨m, if_pos hz, h, KernelMem.PoolStep.refl pd m, fun u _ => ?_⟩
    by_cases huu : u = upage
    · rw [if_pos huu, huu, entryWord_of_eq hz, hf0 hz]
    · rw [if_neg huu]
  · rw [if_neg hz]
    have hwe := entryWord_of_ne (m := m) hz
    refine ⟨_, rfl, h.write_entry hu hz fun hfw' => ?_, h.poolStep_write hu hz _, fun u hu' => ?_⟩
    · -- the old word was a user entry for a frame of RAM, and `f` keeps both
      rw [← hwe] at hfw' ⊢
      have hok := h.entryWord_ok hu (hfw hfw')
      obtain ⟨hU, hA⟩ := hf _ (hfw hfw') hok.1
      exact ⟨hU, by rw [hA]; exact hok.2⟩
    · rw [h.entryWord_write hu hz _ hu', hwe]

/-- `pagedir_clear_page` on a user page clears its present bit and changes nothing else. -/
theorem pagedirClearPage_spec (h : PdInv m pd) {upage : ℕ} (hu : UserPage upage) :
    ∃ m', m.pagedirClearPage pd upage = some m' ∧ PdInv m' pd ∧ m.PoolStep pd m' ∧
      ∀ u, UserPage u → m'.entryWord pd u =
        if u = upage then m.entryWord pd upage &&& ~~~pteP else m.entryWord pd u := by
  have hf0 : (0 : BitVec 32) &&& ~~~pteP = 0 := BitVec.zero_and
  obtain ⟨m', hm', h', hstep, hview⟩ := h.rewrite_entry hu (fun _ => hf0)
    (fun hw h0 => hw (by rw [h0]; exact hf0)) fun w _ hU =>
      ⟨by rw [Mask.and_not_and_of_and_eq_zero (by decide)]; exact hU,
        Mask.and_not_and_of_and_eq_zero (by decide)⟩
  refine ⟨m', ?_, h', hstep, hview⟩
  rw [← hm']
  unfold KernelMem.pagedirClearPage
  rw [if_neg (by simp [hu.1, isUserVaddr, hu.2]), h.lookupPage_false hu.pdNo_lt, Option.bind_eq_bind,
    Option.bind_some]
  dsimp only
  by_cases hz : m.words (pd + 4 * pdNo upage) = 0
  · rw [if_pos hz, if_pos hz, if_neg (fun hc => hc.1 rfl)]
    rfl
  · rw [if_neg hz, if_neg hz]
    by_cases hP : m.words (entryPage (m.words (pd + 4 * pdNo upage)) + 4 * ptNo upage) &&& pteP = 0
    · -- not present: nothing is written, and clearing the bit would change nothing
      rw [if_neg (fun hc => hc.2 hP),
        Mask.and_eq_self_of_and_eq_zero hP (by decide), KernelMem.write]
      simp
    · rw [if_pos ⟨by have := entryPage_ne_zero (m.words (pd + 4 * pdNo upage)); omega, hP⟩]
      rfl

/-- `pagedir_set_dirty` and `pagedir_set_accessed` on a user page set or clear that bit of its
entry and change nothing else; setting it needs an entry. -/
theorem pagedirSetFlag_spec (h : PdInv m pd) {flag : BitVec 32} (hU : flag &&& pteU = 0)
    (hA : flag &&& pteAddr = 0) {upage : ℕ} (hu : UserPage upage) (on : Bool)
    (hon : on = true → m.entryWord pd upage ≠ 0) :
    ∃ m', m.pagedirSetFlag flag pd upage on = some m' ∧ PdInv m' pd ∧ m.PoolStep pd m' ∧
      ∀ u, UserPage u → m'.entryWord pd u =
        if u = upage then (if on then m.entryWord pd upage ||| flag else m.entryWord pd upage &&& ~~~flag)
        else m.entryWord pd u := by
  have hf0 : (0 : BitVec 32) &&& ~~~flag = 0 := BitVec.zero_and
  obtain ⟨m', hm', h', hstep, hview⟩ := h.rewrite_entry hu
    (f := fun w => if on then w ||| flag else w &&& ~~~flag)
    (fun hz => by
      cases on
      · exact hf0
      · exact absurd (entryWord_of_eq hz) (hon rfl))
    (fun hw h0 => by
      cases on
      · exact hw (by rw [h0]; exact hf0)
      · exact hon rfl h0)
    fun w _ hwU => by
      cases on
      · exact ⟨by rw [if_neg Bool.false_ne_true, Mask.and_not_and_of_and_eq_zero hU]; exact hwU,
          by rw [if_neg Bool.false_ne_true, Mask.and_not_and_of_and_eq_zero hA]⟩
      · exact ⟨by rw [if_pos rfl, Mask.or_and_of_and_eq_zero_right hU]; exact hwU,
          by rw [if_pos rfl, Mask.or_and_of_and_eq_zero_right hA]⟩
  refine ⟨m', ?_, h', hstep, hview⟩
  rw [← hm']
  unfold KernelMem.pagedirSetFlag
  rw [h.lookupPage_false hu.pdNo_lt, Option.bind_eq_bind, Option.bind_some]
  dsimp only
  by_cases hz : m.words (pd + 4 * pdNo upage) = 0
  · rw [if_pos hz, if_pos hz, if_neg (fun hc => hc rfl)]
    rfl
  · rw [if_neg hz, if_neg hz, if_pos (by have := entryPage_ne_zero (m.words (pd + 4 * pdNo upage)); omega)]
    rfl

end PdInv

/-- `pagedir_create` when it gets a page: the first free page of the pool, taken, holding a
copy of `init_page_dir`. -/
theorem KernelMem.pagedirCreate_eq {m : KernelMem} (hb : physBase ≤ m.base)
    (hpd : m.pagedirCreate.1 ≠ 0) :
    ∃ idx, idx < m.usedMap.bitCnt ∧ m.usedMap.test idx = false ∧
      m.pagedirCreate = (m.base + pgSize * idx, { m with
        usedMap := m.usedMap.set idx true
        words := fun a => if m.base + pgSize * idx ≤ a ∧ a < m.base + pgSize * idx + pgSize then
          m.words (m.initPageDir + (a - (m.base + pgSize * idx))) else m.words a }) := by
  rcases m.pallocGetPage_cases false with h0 | ⟨idx, hlt, hfree, hpal⟩
  · unfold KernelMem.pagedirCreate at hpd
    rw [h0] at hpd
    exact absurd rfl hpd
  have hp0 : m.base + pgSize * idx ≠ 0 := by
    simp only [physBase] at hb
    omega
  refine ⟨idx, hlt, hfree, ?_⟩
  unfold KernelMem.pagedirCreate
  rw [hpal]
  dsimp only
  rw [if_pos hp0]
  rfl

/-- The user entries of a directory from `pagedir_create` are those of `init_page_dir`. -/
theorem PoolOk.pagedirCreate_pde {m : KernelMem} (h : PoolOk m)
    (hzero : ∀ i < userPdes, m.words (m.initPageDir + 4 * i) = 0) (hpd : m.pagedirCreate.1 ≠ 0) :
    ∀ i < userPdes, m.pagedirCreate.2.words (m.pagedirCreate.1 + 4 * i) = 0 := by
  obtain ⟨idx, -, -, hc⟩ := KernelMem.pagedirCreate_eq h.base_kernel hpd
  intro i hi
  rw [hc]
  dsimp only
  rw [if_pos (slot_lt (by simp only [userPdes, pdNo_eq, physBase] at hi; omega)),
    Nat.add_sub_cancel_left]
  exact hzero i hi

/-- `pagedir_create` on a pool whose `init_page_dir` is a used page mapping no user page: unless
the pool is empty, a directory on a fresh page, with well-formed tables that map no user page. -/
theorem PoolOk.pagedirCreate_spec {m : KernelMem} (h : PoolOk m) (hinit : m.PoolPage m.initPageDir)
    (hzero : ∀ i < userPdes, m.words (m.initPageDir + 4 * i) = 0) (hpd : m.pagedirCreate.1 ≠ 0) :
    PdInv m.pagedirCreate.2 m.pagedirCreate.1 ∧ m.pagedirCreate.2.initRamPages = m.initRamPages ∧
      ∀ u, UserPage u → m.pagedirCreate.2.entryWord m.pagedirCreate.1 u = 0 := by
  have hdir := h.pagedirCreate_pde hzero hpd
  obtain ⟨idx, hlt, hfree, hc⟩ := KernelMem.pagedirCreate_eq h.base_kernel hpd
  rw [hc] at hdir ⊢
  refine ⟨⟨⟨h.base_aligned, h.base_kernel, h.pool_top, h.ram⟩, ⟨idx, hlt, by simp, rfl⟩,
    Ne.symm (hinit.ne_free hfree), fun i hi hne => absurd (hdir i hi) hne,
    fun i _ hi _ hne _ => absurd (hdir i hi) hne, fun i hi hne => absurd (hdir i hi) hne⟩, rfl,
    fun u hu => PdInv.entryWord_of_eq (hdir _ hu.pdNo_lt)⟩

/-! ## The `ASSERT`s -/

namespace KernelMem

variable {m : KernelMem} {pd : ℕ}

/-- `pagedir_set_page` returns only for a user page and a frame of RAM. -/
theorem setPage_asserts {upage kpage : ℕ} {writable : Bool}
    (h : m.pagedirSetPage pd upage kpage writable ≠ none) : UserPage upage ∧ m.RamPage kpage := by
  unfold pagedirSetPage at h
  by_cases ha : pgOfs upage ≠ 0 ∨ pgOfs kpage ≠ 0 ∨ (!isUserVaddr upage) = true
  · exact absurd (if_pos ha) h
  rw [if_neg ha] at h
  simp only [not_or, not_not, Bool.not_eq_true', isUserVaddr, decide_eq_false_iff_not] at ha
  by_cases hk : physBase ≤ kpage
  · rw [vtop, if_pos hk, Option.bind_eq_bind, Option.bind_some] at h
    by_cases hr : m.initRamPages ≤ (kpage - physBase) >>> ptShift ∨ pd = m.initPageDir
    · exact absurd (if_pos hr) h
    · rw [not_or] at hr
      exact ⟨⟨ha.1, by simpa using ha.2.2⟩, ha.2.1, hk, by omega⟩
  · rw [vtop, if_neg hk] at h
    exact absurd rfl h

/-- `pagedir_clear_page` returns only for a user page. -/
theorem clearPage_asserts {upage : ℕ} (h : m.pagedirClearPage pd upage ≠ none) : UserPage upage := by
  unfold pagedirClearPage at h
  by_cases ha : pgOfs upage ≠ 0 ∨ (!isUserVaddr upage) = true
  · exact absurd (if_pos ha) h
  simp only [not_or, not_not, Bool.not_eq_true', isUserVaddr, decide_eq_false_iff_not] at ha
  exact ⟨ha.1, by simpa using ha.2⟩

end KernelMem

end Pintos
