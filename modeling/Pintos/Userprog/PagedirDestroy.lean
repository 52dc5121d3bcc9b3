import Pintos.Vm.PagedirRefine
import Pintos.Lib.Loop

/-! # The lifetime of a page directory

`pagedir_destroy` gives a directory's pages back to `palloc`: for each present user directory
entry, the frame of each present entry of its page table, then the page table, and last the
directory itself. Frames come from the user pool, page tables and directories from the kernel
pool, so the memory here (`PhysMem`) has both pools, and `palloc_free_page` frees a page in
whichever of them it lies.

On well-formed tables whose present entries map distinct frames in use in the user pool, as
the VM's frame table keeps them, `pagedir_destroy` returns, and frees each page table and the
directory once in the kernel pool and each mapped frame once in the user pool
(`PhysMem.pagedirDestroy_spec`). A frame mapped twice would be freed twice, and the second
`palloc_free_page` fails its `ASSERT`. Both loops are proved with `Loop.foldlM_range_inv`, by
the invariants `FramesFreed` and `TablesFreed`.

From `pagedir_create` on, the calls on a directory take kernel pages only for its page tables
(`PoolUse`, an invariant of `pagedirSystem`), so `pagedir_destroy` leaves the kernel pool's
`used_map` as `pagedir_create` found it (`pagedir_destroy_returns_pages`).
-/

namespace Pintos

/-- `pg_no`: `va >> PGBITS`, and `PGBITS` is `PTSHIFT`. -/
def pgNo (va : ℕ) : ℕ := va >>> ptShift

/-- `page_from_pool`: the pages of a pool are numbered from that of its `base`, for
`bitmap_size (used_map)` pages. -/
def pageFromPool (base : ℕ) (usedMap : Bitmap) (page : ℕ) : Bool :=
  decide (pgNo base ≤ pgNo page ∧ pgNo page < pgNo base + usedMap.bitCnt)

/-- Kernel memory and the user pool of `palloc.c`, from which the frames of user pages come. -/
structure PhysMem extends KernelMem where
  userMap : Bitmap
  userBase : ℕ

namespace PhysMem

/-- `memset (page, 0xcc, PGSIZE)`. -/
def poison (p : PhysMem) (page : ℕ) : ℕ → BitVec 32 :=
  fun a => if page ≤ a ∧ a < page + pgSize then 0xcccccccc#32 else p.words a

/-- A pool's `used_map` once `page` is freed: its bit, which the `ASSERT` wants set, cleared. -/
def freeIn (base : ℕ) (usedMap : Bitmap) (page : ℕ) : Option Bitmap :=
  let idx := pgNo page - pgNo base
  if usedMap.all idx 1 then some (usedMap.setMultiple idx 1 false) else none

/-- `palloc_free_page`: `palloc_free_multiple (page, 1)` in the pool `page` lies in, which
overwrites it with `0xcc` bytes; `none` for its `ASSERT`s and its `NOT_REACHED`. -/
def pallocFreePage (p : PhysMem) (page : ℕ) : Option PhysMem :=
  if pgOfs page ≠ 0 then none
  else if page = 0 then some p
  else if pageFromPool p.base p.usedMap page then
    (freeIn p.base p.usedMap page).map fun map => { p with words := p.poison page, usedMap := map }
  else if pageFromPool p.userBase p.userMap page then
    (freeIn p.userBase p.userMap page).map fun map => { p with words := p.poison page, userMap := map }
  else none

/-- A round of the inner loop of `pagedir_destroy`: when entry `k` of page table `pt` is
present, its frame. -/
def freeFrame (pt : ℕ) (q : PhysMem) (k : ℕ) : Option PhysMem :=
  if q.words (pt + 4 * k) &&& pteP ≠ 0 then (pteGetPage (q.words (pt + 4 * k))).bind q.pallocFreePage
  else some q

/-- The inner loop of `pagedir_destroy`, over the entries of page table `pt`. -/
def freeFrames (p : PhysMem) (pt : ℕ) : Option PhysMem := (List.range (pgSize / 4)).foldlM (freeFrame pt) p

/-- A round of the outer loop of `pagedir_destroy`: when directory entry `i` is present, the
frames of its page table, then the page table. -/
def freeTable (pd : ℕ) (q : PhysMem) (i : ℕ) : Option PhysMem :=
  if q.words (pd + 4 * i) &&& pteP ≠ 0 then do
    let pt ← pdeGetPt (q.words (pd + 4 * i))
    let q' ← q.freeFrames pt
    q'.pallocFreePage pt
  else some q

def pagedirDestroy (p : PhysMem) (pd : ℕ) : Option PhysMem :=
  if pd = 0 then some p
  else if pd = p.initPageDir then none
  else do
    let q ← (List.range userPdes).foldlM (freeTable pd) p
    q.pallocFreePage pd

end PhysMem

/-! ## Pages of the two pools -/

theorem pgNo_eq (va : ℕ) : pgNo va = va / pgSize := Nat.shiftRight_eq_div_pow va ptShift

theorem pageFromPool_iff {base page : ℕ} {usedMap : Bitmap} (hb : base % pgSize = 0) :
    pageFromPool base usedMap page = true ↔
      base ≤ page ∧ page < base + pgSize * usedMap.bitCnt := by
  rw [pageFromPool, decide_eq_true_iff, pgNo_eq, pgNo_eq]
  simp only [pgSize] at hb ⊢
  omega

/-- The pools are page-aligned, lie in kernel space, and lie apart. -/
structure PoolsOk (p : PhysMem) : Prop extends PoolOk p.toKernelMem where
  user_aligned : p.userBase % pgSize = 0
  user_kernel : physBase ≤ p.userBase
  user_top : p.userBase + pgSize * p.userMap.bitCnt ≤ 2 ^ 32
  apart : p.base + pgSize * p.usedMap.bitCnt ≤ p.userBase ∨
    p.userBase + pgSize * p.userMap.bitCnt ≤ p.base

namespace PhysMem

variable {p : PhysMem} {page : ℕ}

/-- Freeing a used page of the kernel pool clears its bit. -/
theorem pallocFreePage_kernel (hb : p.base % pgSize = 0) (hal : page % pgSize = 0) (hne : page ≠ 0)
    (hin : p.base ≤ page ∧ page < p.base + pgSize * p.usedMap.bitCnt)
    (hused : p.usedMap.test (pgNo page - pgNo p.base) = true) :
    p.pallocFreePage page = some { p with
      words := p.poison page
      usedMap := p.usedMap.set (pgNo page - pgNo p.base) false } := by
  have hofs : pgOfs page = 0 := hal
  unfold pallocFreePage freeIn
  rw [if_neg (not_not.mpr hofs), if_neg hne, if_pos ((pageFromPool_iff hb).mpr hin)]
  dsimp only
  rw [Bitmap.all_one, if_pos hused, Bitmap.setMultiple_one]
  rfl

/-- Freeing a used page of the user pool clears its bit there. -/
theorem pallocFreePage_user (hp : PoolsOk p) (hal : page % pgSize = 0)
    (hin : p.userBase ≤ page ∧ page < p.userBase + pgSize * p.userMap.bitCnt)
    (hused : p.userMap.test (pgNo page - pgNo p.userBase) = true) :
    p.pallocFreePage page = some { p with
      words := p.poison page
      userMap := p.userMap.set (pgNo page - pgNo p.userBase) false } := by
  have hofs : pgOfs page = 0 := hal
  have hne : page ≠ 0 := by
    have := hp.user_kernel
    simp only [physBase] at this
    omega
  have hout : pageFromPool p.base p.usedMap page = false := by
    rw [← Bool.not_eq_true, pageFromPool_iff hp.base_aligned]
    rcases hp.apart with h | h <;> omega
  unfold pallocFreePage freeIn
  rw [if_neg (not_not.mpr hofs), if_neg hne, if_neg (by rw [hout]; exact Bool.false_ne_true),
    if_pos ((pageFromPool_iff hp.user_aligned).mpr hin)]
  dsimp only
  rw [Bitmap.all_one, if_pos hused, Bitmap.setMultiple_one]
  rfl

/-- Freeing a page writes over that page only. -/
theorem poison_of_not_mem {a : ℕ} (ha : ¬ (page ≤ a ∧ a < page + pgSize)) : p.poison page a = p.words a :=
  if_neg ha

end PhysMem

/-- The pools stay well placed while only words and the bits of their maps change. -/
theorem PoolsOk.update {p : PhysMem} (hp : PoolsOk p) {W : ℕ → BitVec 32} {K U : Bitmap}
    (hK : K.bitCnt = p.usedMap.bitCnt) (hU : U.bitCnt = p.userMap.bitCnt) :
    PoolsOk { p with words := W, usedMap := K, userMap := U } where
  base_aligned := hp.base_aligned
  base_kernel := hp.base_kernel
  pool_top := hK ▸ hp.pool_top
  ram := hp.ram
  user_aligned := hp.user_aligned
  user_kernel := hp.user_kernel
  user_top := hU ▸ hp.user_top
  apart := hK ▸ hU ▸ hp.apart

theorem Bitmap.test_set_false_iff {b : Bitmap} {idx y : ℕ} :
    (b.set idx false).test y = true ↔ b.test y = true ∧ y ≠ idx := by
  rw [Bitmap.test_set]
  by_cases hy : y = idx
  · simp [hy]
  · simp [hy]

/-- A round of a loop that frees the page of index `f k` when `P k` holds keeps the bits of the
map those of the start with the freed ones cleared. -/
theorem Bitmap.test_cleared_succ {b B : Bitmap} {P : ℕ → Prop} {f : ℕ → ℕ} {k : ℕ}
    (hB : ∀ y, B.test y = true ↔ b.test y = true ∧ ¬ ∃ k' < k, P k' ∧ f k' = y) (hk : P k) (y : ℕ) :
    (B.set (f k) false).test y = true ↔ b.test y = true ∧ ¬ ∃ k' < k + 1, P k' ∧ f k' = y := by
  rw [Bitmap.test_set_false_iff, hB, Nat.exists_lt_succ_right]
  constructor
  · rintro ⟨⟨hy, hnot⟩, hne⟩
    exact ⟨hy, fun hc => hc.elim hnot fun hc' => hne hc'.2.symm⟩
  · rintro ⟨hy, hnot⟩
    exact ⟨⟨hy, fun hc => hnot (.inl hc)⟩, fun hc => hnot (.inr ⟨hk, hc.symm⟩)⟩

theorem Bitmap.test_cleared_skip {b B : Bitmap} {P : ℕ → Prop} {f : ℕ → ℕ} {k : ℕ}
    (hB : ∀ y, B.test y = true ↔ b.test y = true ∧ ¬ ∃ k' < k, P k' ∧ f k' = y) (hk : ¬ P k) (y : ℕ) :
    B.test y = true ↔ b.test y = true ∧ ¬ ∃ k' < k + 1, P k' ∧ f k' = y := by
  rw [hB, Nat.exists_lt_succ_right]
  constructor
  · rintro ⟨hy, hnot⟩
    exact ⟨hy, fun hc => hc.elim hnot fun hc' => hk hc'.1⟩
  · rintro ⟨hy, hnot⟩
    exact ⟨hy, fun hc => hnot (.inl hc)⟩

/-- Two aligned pages of a pool with the same index in its map are the same page. -/
theorem eq_of_pgNo_sub {base a b : ℕ} (hb : base % pgSize = 0) (ha : a % pgSize = 0)
    (hb' : b % pgSize = 0) (hba : base ≤ a) (hbb : base ≤ b) (h : pgNo a - pgNo base = pgNo b - pgNo base) :
    a = b := by
  rw [pgNo_eq, pgNo_eq, pgNo_eq] at h
  simp only [pgSize] at hb ha hb' h
  omega

theorem pgNo_sub_of_eq {base k : ℕ} (hb : base % pgSize = 0) : pgNo (base + pgSize * k) - pgNo base = k := by
  rw [pgNo_eq, pgNo_eq]
  simp only [pgSize] at hb ⊢
  omega

/-- The page an entry points to is page-aligned. -/
theorem entryPage_aligned (e : BitVec 32) : entryPage e % pgSize = 0 := by
  have h0 : (e &&& pteAddr) &&& pteFlags = 0 := by
    rw [BitVec.and_assoc, show pteAddr &&& pteFlags = 0 by decide]
    exact BitVec.and_zero
  have hmod : (e &&& pteAddr).toNat % pgSize = 0 := by
    have := congrArg BitVec.toNat h0
    rw [BitVec.toNat_and, show pteFlags.toNat = 2 ^ 12 - 1 from rfl, Nat.and_two_pow_sub_one_eq_mod] at this
    exact this
  unfold entryPage
  simp only [pgSize, physBase] at hmod ⊢
  omega

namespace PhysMem

variable {p : PhysMem}

/-- The inner loop of `pagedir_destroy` over table `t` from `p`, after `k` rounds: the frames
of the present entries among the first `k` freed, and nothing of the kernel pool written. -/
def FramesFreed (p : PhysMem) (t k : ℕ) (q : PhysMem) : Prop :=
  ∃ W U, q = { p with words := W, userMap := U } ∧
    (∀ a, p.base ≤ a → a < p.base + pgSize * p.usedMap.bitCnt → W a = p.words a) ∧
    U.bitCnt = p.userMap.bitCnt ∧
    ∀ y, U.test y = true ↔ p.userMap.test y = true ∧
      ¬ ∃ k' < k, p.words (t + 4 * k') &&& pteP ≠ 0 ∧
        pgNo (entryPage (p.words (t + 4 * k'))) - pgNo p.userBase = y

/-- The inner loop of `pagedir_destroy` on a page table of the kernel pool whose present entries
map distinct used pages of the user pool: it frees each of those frames once, and writes
nowhere in the kernel pool. -/
theorem freeFrames_spec (hp : PoolsOk p) {t : ℕ}
    (ht : p.base ≤ t ∧ t + pgSize ≤ p.base + pgSize * p.usedMap.bitCnt)
    (hframe : ∀ k < 1024, p.words (t + 4 * k) &&& pteP ≠ 0 →
      pteGetPage (p.words (t + 4 * k)) = some (entryPage (p.words (t + 4 * k))) ∧
      p.userBase ≤ entryPage (p.words (t + 4 * k)) ∧
      entryPage (p.words (t + 4 * k)) < p.userBase + pgSize * p.userMap.bitCnt ∧
      p.userMap.test (pgNo (entryPage (p.words (t + 4 * k))) - pgNo p.userBase) = true)
    (hdist : ∀ k < 1024, ∀ k' < 1024, p.words (t + 4 * k) &&& pteP ≠ 0 →
      p.words (t + 4 * k') &&& pteP ≠ 0 →
      entryPage (p.words (t + 4 * k)) = entryPage (p.words (t + 4 * k')) → k = k') :
    ∃ q, p.freeFrames t = some q ∧ p.FramesFreed t 1024 q := by
  have hstep : ∀ k < pgSize / 4, ∀ q, p.FramesFreed t k q →
      ∃ q', freeFrame t q k = some q' ∧ p.FramesFreed t (k + 1) q' := by
    rintro k hk q ⟨W, U, rfl, hW, hU, hUt⟩
    have hk' : k < 1024 := hk
    have hread : W (t + 4 * k) = p.words (t + 4 * k) :=
      hW _ (by omega) (by simp only [pgSize] at ht ⊢; omega)
    by_cases hP : p.words (t + 4 * k) &&& pteP ≠ 0
    · obtain ⟨hget, hlo, hhi, hused⟩ := hframe k hk' hP
      set f := entryPage (p.words (t + 4 * k)) with hf
      have hfal : f % pgSize = 0 := entryPage_aligned _
      -- no earlier entry maps the same frame, so its bit is still set
      have hfree : U.test (pgNo f - pgNo p.userBase) = true := by
        refine (hUt _).mpr ⟨hused, ?_⟩
        rintro ⟨k', hk'k, hP', hidx⟩
        have heq := eq_of_pgNo_sub hp.user_aligned (entryPage_aligned _) hfal
          (hframe k' (by omega) hP').2.1 hlo hidx
        exact absurd (hdist k' (by omega) k hk' hP' hP heq) (by omega)
      have hq' := pallocFreePage_user (hp.update (W := W) (K := p.usedMap) rfl hU) hfal
        (by rw [hU]; exact ⟨hlo, hhi⟩) hfree
      refine ⟨_, ?_, PhysMem.poison { p with words := W, userMap := U } f,
        U.set (pgNo f - pgNo p.userBase) false, rfl, fun a ha ha' => ?_,
        by rw [Bitmap.bitCnt_set, hU], Bitmap.test_cleared_succ hUt hP⟩
      · show (if W (t + 4 * k) &&& pteP ≠ 0 then (pteGetPage (W (t + 4 * k))).bind _ else _) = _
        rw [hread, if_pos hP, hget, Option.bind_some]
        exact hq'
      · -- the frame lies in the user pool, apart from every kernel page
        have hua := hp.user_aligned
        have hout : ¬ (f ≤ a ∧ a < f + pgSize) := by
          rcases hp.apart with h | h <;> simp only [pgSize] at h hhi hlo ha' hua hfal ⊢ <;> omega
        exact (poison_of_not_mem hout).trans (hW a ha ha')
    · refine ⟨_, ?_, W, U, rfl, hW, hU, Bitmap.test_cleared_skip hUt hP⟩
      show (if W (t + 4 * k) &&& pteP ≠ 0 then _ else _) = _
      rw [hread, if_neg hP]
  exact Loop.foldlM_range_inv ⟨p.words, p.userMap, rfl, fun _ _ _ => rfl, rfl, fun y => by simp⟩ hstep

end PhysMem

/-! ## User pages by directory and table index -/

theorem userPdes_eq : userPdes = 768 := by decide

/-- The user page of directory index `i` and table index `k`. -/
theorem userPage_at {i k : ℕ} (hi : i < userPdes) (hk : k < 1024) :
    UserPage (i * 2 ^ 22 + k * pgSize) ∧ pdNo (i * 2 ^ 22 + k * pgSize) = i ∧
      ptNo (i * 2 ^ 22 + k * pgSize) = k := by
  rw [userPdes_eq] at hi
  refine ⟨⟨?_, ?_⟩, ?_, ?_⟩
  · simp only [pgOfs, pgSize]
    omega
  · simp only [pgSize, physBase]
    omega
  · rw [pdNo_eq]
    simp only [pgSize]
    omega
  · rw [ptNo_eq]
    simp only [pgSize]
    omega

theorem KernelMem.entryWord_at {m : KernelMem} {pd i k : ℕ} (hi : i < userPdes) (hk : k < 1024)
    (hne : m.words (pd + 4 * i) ≠ 0) :
    m.entryWord pd (i * 2 ^ 22 + k * pgSize) = m.words (entryPage (m.words (pd + 4 * i)) + 4 * k) := by
  obtain ⟨-, hpd, hpt⟩ := userPage_at hi hk
  rw [PdInv.entryWord_of_ne (by rw [hpd]; exact hne), hpd, hpt]

/-- The entries of the user pages of directory entry `i` are those of its page table. -/
theorem exists_userPage_eq {m : KernelMem} {pd i : ℕ} {Q : BitVec 32 → Prop} (hi : i < userPdes)
    (hne : m.words (pd + 4 * i) ≠ 0) :
    (∃ u, UserPage u ∧ pdNo u = i ∧ Q (m.entryWord pd u)) ↔
      ∃ k < 1024, Q (m.words (entryPage (m.words (pd + 4 * i)) + 4 * k)) := by
  constructor
  · rintro ⟨u, -, rfl, hQ⟩
    rw [PdInv.entryWord_of_ne hne] at hQ
    exact ⟨ptNo u, UserPage.ptNo_lt u, hQ⟩
  · rintro ⟨k, hk, hQ⟩
    obtain ⟨hu, hpd, -⟩ := userPage_at hi hk
    exact ⟨_, hu, hpd, by rw [KernelMem.entryWord_at hi hk hne]; exact hQ⟩

theorem exists_userPage_lt_succ {Q : ℕ → Prop} {i : ℕ} :
    (∃ u, UserPage u ∧ pdNo u < i + 1 ∧ Q u) ↔
      (∃ u, UserPage u ∧ pdNo u < i ∧ Q u) ∨ ∃ u, UserPage u ∧ pdNo u = i ∧ Q u := by
  constructor
  · rintro ⟨u, hu, hlt, hQ⟩
    rcases Nat.lt_succ_iff_lt_or_eq.mp hlt with h | h
    exacts [.inl ⟨u, hu, h, hQ⟩, .inr ⟨u, hu, h, hQ⟩]
  · rintro (⟨u, hu, hlt, hQ⟩ | ⟨u, hu, rfl, hQ⟩)
    exacts [⟨u, hu, Nat.lt_succ_of_lt hlt, hQ⟩, ⟨u, hu, Nat.lt_succ_self _, hQ⟩]

/-! ## Pages freed so far -/

theorem ne_zero_of_and_ne_zero {w c : BitVec 32} (h : w &&& c ≠ 0) : w ≠ 0 := by
  rintro rfl
  exact h BitVec.zero_and

/-- A nonzero user directory entry is present. -/
theorem PdInv.pde_present {m : KernelMem} {pd : ℕ} (h : PdInv m pd) {i : ℕ} (hi : i < userPdes)
    (hne : m.words (pd + 4 * i) ≠ 0) : m.words (pd + 4 * i) &&& pteP ≠ 0 := by
  obtain ⟨t, ht, hpool, -⟩ := h.table i hi hne
  obtain ⟨hlo, -, -, hal⟩ := h.poolPage_bounds hpool
  rw [ht, pdeOf, entry_and_flag (by simp only [pgSize, physBase] at hal ⊢; omega) (by decide)]
  decide

theorem KernelMem.PoolPage.within {m : KernelMem} {t : ℕ} (ht : m.PoolPage t) :
    m.base ≤ t ∧ t + pgSize ≤ m.base + pgSize * m.usedMap.bitCnt := by
  obtain ⟨k, hk, -, rfl⟩ := ht
  have h := Nat.mul_le_mul_left pgSize (Nat.succ_le_of_lt hk)
  rw [Nat.mul_succ] at h
  omega

/-- The index in the kernel pool's map of one of its used pages. -/
theorem KernelMem.PoolPage.test_pgNo {m : KernelMem} {t : ℕ} (hb : m.base % pgSize = 0)
    (ht : m.PoolPage t) : m.usedMap.test (pgNo t - pgNo m.base) = true := by
  obtain ⟨k, -, hk, rfl⟩ := ht
  rw [pgNo_sub_of_eq hb]
  exact hk

/-- Two used pages of the pool with the same index in its map are the same page. -/
theorem KernelMem.PoolPage.eq_of_pgNo {m : KernelMem} (hb : m.base % pgSize = 0) {a b : ℕ}
    (ha : m.PoolPage a) (hb' : m.PoolPage b) (h : pgNo a - pgNo m.base = pgNo b - pgNo m.base) :
    a = b := by
  obtain ⟨k, -, -, rfl⟩ := ha
  obtain ⟨k', -, -, rfl⟩ := hb'
  rw [pgNo_sub_of_eq hb, pgNo_sub_of_eq hb] at h
  rw [h]

/-- Two different pages share no address. -/
theorem not_mem_page {x y a : ℕ} (hx : x % pgSize = 0) (hy : y % pgSize = 0) (hxy : x ≠ y)
    (ha : x ≤ a ∧ a < x + pgSize) : ¬ (y ≤ a ∧ a < y + pgSize) := by
  simp only [pgSize] at hx hy ha ⊢
  omega

theorem Bitmap.eq_of_test {b b' : Bitmap} (hc : b.bitCnt = b'.bitCnt) (ht : ∀ x, b.test x = b'.test x) :
    b = b' := by
  cases b
  cases b'
  exact Bitmap.mk.injEq _ _ _ _ ▸ ⟨hc, funext ht⟩

namespace PhysMem

variable {p : PhysMem} {pd : ℕ}

/-- Frames that `pagedir_destroy` can free: the present entries of directory `pd` map distinct
used pages of the user pool. -/
structure FramesOk (p : PhysMem) (pd : ℕ) : Prop where
  in_pool : ∀ u, UserPage u → p.entryWord pd u &&& pteP ≠ 0 →
    p.userBase ≤ entryPage (p.entryWord pd u) ∧
      entryPage (p.entryWord pd u) < p.userBase + pgSize * p.userMap.bitCnt
  used : ∀ u, UserPage u → p.entryWord pd u &&& pteP ≠ 0 →
    p.userMap.test (pgNo (entryPage (p.entryWord pd u)) - pgNo p.userBase) = true
  distinct : ∀ u v, UserPage u → UserPage v → p.entryWord pd u &&& pteP ≠ 0 →
    p.entryWord pd v &&& pteP ≠ 0 → entryPage (p.entryWord pd u) = entryPage (p.entryWord pd v) →
      u = v

/-- The outer loop of `pagedir_destroy` over directory `pd` from `p`, after `i` rounds: the page
tables of the first `i` directory entries freed with their frames, and the directory and the
other page tables not written. -/
def TablesFreed (p : PhysMem) (pd i : ℕ) (q : PhysMem) : Prop :=
  ∃ W K U, q = { p with words := W, usedMap := K, userMap := U } ∧
    (∀ a, pd ≤ a → a < pd + pgSize → W a = p.words a) ∧
    (∀ j, i ≤ j → j < userPdes → p.words (pd + 4 * j) ≠ 0 → ∀ a,
      entryPage (p.words (pd + 4 * j)) ≤ a → a < entryPage (p.words (pd + 4 * j)) + pgSize →
        W a = p.words a) ∧
    K.bitCnt = p.usedMap.bitCnt ∧
    (∀ x, K.test x = true ↔ p.usedMap.test x = true ∧
      ¬ ∃ j < i, p.words (pd + 4 * j) ≠ 0 ∧ pgNo (entryPage (p.words (pd + 4 * j))) - pgNo p.base = x) ∧
    U.bitCnt = p.userMap.bitCnt ∧
    ∀ y, U.test y = true ↔ p.userMap.test y = true ∧
      ¬ ∃ u, UserPage u ∧ pdNo u < i ∧ p.entryWord pd u &&& pteP ≠ 0 ∧
        pgNo (entryPage (p.entryWord pd u)) - pgNo p.userBase = y

/-- A present entry of the page table of directory entry `i` is what the inner loop wants: a
frame of the user pool whose bit no earlier page table has cleared. -/
theorem FramesOk.frame (hf : FramesOk p pd) (hp : PoolsOk p) (hpd : PdInv p.toKernelMem pd) {i : ℕ}
    (hi : i < userPdes) (hne : p.words (pd + 4 * i) ≠ 0) {U : Bitmap}
    (hUt : ∀ y, U.test y = true ↔ p.userMap.test y = true ∧
      ¬ ∃ u, UserPage u ∧ pdNo u < i ∧ p.entryWord pd u &&& pteP ≠ 0 ∧
        pgNo (entryPage (p.entryWord pd u)) - pgNo p.userBase = y)
    {k : ℕ} (hk : k < 1024) (hP : p.words (entryPage (p.words (pd + 4 * i)) + 4 * k) &&& pteP ≠ 0) :
    pteGetPage (p.words (entryPage (p.words (pd + 4 * i)) + 4 * k)) =
        some (entryPage (p.words (entryPage (p.words (pd + 4 * i)) + 4 * k))) ∧
      p.userBase ≤ entryPage (p.words (entryPage (p.words (pd + 4 * i)) + 4 * k)) ∧
      entryPage (p.words (entryPage (p.words (pd + 4 * i)) + 4 * k)) <
        p.userBase + pgSize * p.userMap.bitCnt ∧
      U.test (pgNo (entryPage (p.words (entryPage (p.words (pd + 4 * i)) + 4 * k))) -
        pgNo p.userBase) = true := by
  obtain ⟨hu, hpdNo, -⟩ := userPage_at hi hk
  have hw := KernelMem.entryWord_at (m := p.toKernelMem) hi hk hne
  rw [← hw] at hP ⊢
  obtain ⟨hlo, hhi⟩ := hf.in_pool _ hu hP
  refine ⟨?_, hlo, hhi, (hUt _).mpr ⟨hf.used _ hu hP, ?_⟩⟩
  · rw [hw]
    exact hpd.pteGetPage_eq hi hne hk (hw ▸ ne_zero_of_and_ne_zero hP)
  · -- a page of an earlier directory entry with the same frame would be this page
    rintro ⟨u', hu', hlt, hP', hidx⟩
    have heq := eq_of_pgNo_sub hp.user_aligned (entryPage_aligned _) (entryPage_aligned _)
      (hf.in_pool _ hu' hP').1 hlo hidx
    rw [hf.distinct _ _ hu' hu hP' hP heq, hpdNo] at hlt
    exact lt_irrefl _ hlt

/-- Two present entries of one page table map different frames. -/
theorem FramesOk.frame_inj (hf : FramesOk p pd) {i : ℕ} (hi : i < userPdes)
    (hne : p.words (pd + 4 * i) ≠ 0) {k k' : ℕ} (hk : k < 1024) (hk' : k' < 1024)
    (hP : p.words (entryPage (p.words (pd + 4 * i)) + 4 * k) &&& pteP ≠ 0)
    (hP' : p.words (entryPage (p.words (pd + 4 * i)) + 4 * k') &&& pteP ≠ 0)
    (heq : entryPage (p.words (entryPage (p.words (pd + 4 * i)) + 4 * k)) =
      entryPage (p.words (entryPage (p.words (pd + 4 * i)) + 4 * k'))) : k = k' := by
  obtain ⟨hu, -, hpt⟩ := userPage_at hi hk
  obtain ⟨hu', -, hpt'⟩ := userPage_at hi hk'
  have hw := KernelMem.entryWord_at (m := p.toKernelMem) hi hk hne
  have hw' := KernelMem.entryWord_at (m := p.toKernelMem) hi hk' hne
  rw [← hw] at hP heq
  rw [← hw'] at hP' heq
  rw [← hpt, ← hpt', hf.distinct _ _ hu hu' hP hP' heq]

/-- A round of the outer loop of `pagedir_destroy`: a zero directory entry is skipped, and a
present one has the frames of its page table freed, then the page table. -/
theorem freeTable_step (hp : PoolsOk p) (hpd : PdInv p.toKernelMem pd) (hf : FramesOk p pd)
    {i : ℕ} (hi : i < userPdes) {q : PhysMem} (hq : p.TablesFreed pd i q) :
    ∃ q', freeTable pd q i = some q' ∧ p.TablesFreed pd (i + 1) q' := by
  obtain ⟨W, K, U, rfl, hWd, hWt, hK, hKt, hU, hUt⟩ := hq
  have hi' : i < 1024 := by
    rw [userPdes_eq] at hi
    omega
  have hread : W (pd + 4 * i) = p.words (pd + 4 * i) := hWd _ (slot_lt hi').1 (slot_lt hi').2
  by_cases hz : p.words (pd + 4 * i) = 0
  · -- no page table: the round changes nothing
    have h0 : (0 : BitVec 32) &&& pteP = 0 := BitVec.zero_and
    refine ⟨_, ?_, W, K, U, rfl, hWd, fun j hj => hWt j (Nat.le_of_succ_le hj), hK,
      Bitmap.test_cleared_skip hKt (not_not.mpr hz), hU, fun y => ?_⟩
    · show (if W (pd + 4 * i) &&& pteP ≠ 0 then _ else _) = _
      rw [hread, hz, if_neg (not_not.mpr h0)]
    · rw [hUt, exists_userPage_lt_succ, or_iff_left ?_]
      rintro ⟨u, -, hpdNo, hP, -⟩
      rw [PdInv.entryWord_of_eq (by rw [hpdNo]; exact hz), h0] at hP
      exact hP rfl
  have hP := hpd.pde_present hi hz
  obtain ⟨htpool, htpd, htal⟩ := hpd.table_page hi hz
  set t := entryPage (p.words (pd + 4 * i)) with ht
  have htw := htpool.within
  have ht0 : t ≠ 0 := by
    have := (hp.poolPage_bounds htpool).1
    simp only [physBase] at this
    omega
  -- the page table is read as it was
  have hWt' : ∀ k < 1024, W (t + 4 * k) = p.words (t + 4 * k) := fun k hk =>
    hWt i le_rfl hi hz _ (slot_lt hk).1 (slot_lt hk).2
  obtain ⟨q₁, hq₁, W', U', hq₁eq, hW', hU', hU't⟩ := freeFrames_spec (hp.update (W := W) hK hU) (t := t)
    (by dsimp only; rw [hK]; exact htw)
    (fun k hk hPk => by
      dsimp only at hPk ⊢
      rw [hWt' k hk] at hPk
      rw [hWt' k hk, hU]
      exact hf.frame hp hpd hi hz hUt hk hPk)
    (fun k hk k' hk' hPk hPk' heq => by
      dsimp only at hPk hPk' heq
      rw [hWt' k hk] at hPk heq
      rw [hWt' k' hk'] at hPk' heq
      exact hf.frame_inj hi hz hk hk' hPk hPk' heq)
  -- the page table's bit is still set: no earlier entry points to it
  have hused : K.test (pgNo t - pgNo p.base) = true := by
    refine (hKt _).mpr ⟨htpool.test_pgNo hp.base_aligned, ?_⟩
    rintro ⟨j, hj, hzj, hidx⟩
    have hj' : j < userPdes := lt_trans hj hi
    exact hpd.table_ne hj' hi hzj hz (Nat.ne_of_lt hj)
      ((hpd.table_page hj' hzj).1.eq_of_pgNo hp.base_aligned htpool hidx)
  subst hq₁eq
  set q₁ : PhysMem := { { p with words := W, usedMap := K, userMap := U } with
    words := W', userMap := U' } with hq₁def
  have hfree := pallocFreePage_kernel (p := q₁) hp.base_aligned htal ht0
    ⟨htw.1, by dsimp only [q₁]; rw [hK]; simp only [pgSize] at htw ⊢; omega⟩ hused
  refine ⟨_, ?_, q₁.poison t, K.set (pgNo t - pgNo p.base) false, U', rfl, fun a ha ha' => ?_,
    fun j hj hj' hzj a ha ha' => ?_, by rw [Bitmap.bitCnt_set, hK],
    Bitmap.test_cleared_succ hKt hz, hU'.trans hU, fun y => ?_⟩
  · show (if W (pd + 4 * i) &&& pteP ≠ 0 then (pdeGetPt (W (pd + 4 * i)) >>= fun pt =>
      ({ p with words := W, usedMap := K, userMap := U } : PhysMem).freeFrames pt >>=
        fun q' => q'.pallocFreePage pt) else _) = _
    rw [hread, if_pos hP, hpd.pdeGetPt_eq hi hz, Option.bind_eq_bind, Option.bind_some, hq₁,
      Option.bind_eq_bind, Option.bind_some]
    exact hfree
  · -- the directory lies apart from the page table and from the user pool
    have hpdw := hpd.pd_page.within
    rw [poison_of_not_mem (not_mem_page hpd.pd_aligned htal htpd.symm ⟨ha, ha'⟩)]
    exact (hW' a (by dsimp only; omega) (by dsimp only; rw [hK]; omega)).trans (hWd a ha ha')
  · -- so do the page tables of the later entries
    obtain ⟨hjpool, -, hjal⟩ := hpd.table_page hj' hzj
    have hjw := hjpool.within
    rw [poison_of_not_mem (not_mem_page hjal htal (hpd.table_ne hj' hi hzj hz (by omega)) ⟨ha, ha'⟩)]
    exact (hW' a (by dsimp only; omega) (by dsimp only; rw [hK]; omega)).trans
      (hWt j (by omega) hj' hzj a ha ha')
  · -- the frames freed in this round are those of the user pages of directory entry `i`
    have hB : (∃ k < 1024, W (t + 4 * k) &&& pteP ≠ 0 ∧
        pgNo (entryPage (W (t + 4 * k))) - pgNo p.userBase = y) ↔
        ∃ u, UserPage u ∧ pdNo u = i ∧ p.entryWord pd u &&& pteP ≠ 0 ∧
          pgNo (entryPage (p.entryWord pd u)) - pgNo p.userBase = y := by
      rw [exists_userPage_eq (Q := fun w => w &&& pteP ≠ 0 ∧ pgNo (entryPage w) - pgNo p.userBase = y)
        hi hz]
      exact exists_congr fun k => and_congr_right fun hk => by rw [hWt' k hk]
    dsimp only at hU't
    rw [hU't y, hB, hUt, exists_userPage_lt_succ, not_or, and_assoc]

/-- `pagedir_destroy` on well-formed tables whose present entries map distinct used frames of the
user pool: it returns, and the kernel pool has lost the directory and its page tables, the user
pool the frames of the present entries. -/
theorem pagedirDestroy_spec (hp : PoolsOk p) (hpd : PdInv p.toKernelMem pd) (hf : FramesOk p pd) :
    ∃ q, p.pagedirDestroy pd = some q ∧ q.base = p.base ∧ q.usedMap.bitCnt = p.usedMap.bitCnt ∧
      (∀ x, q.usedMap.test x = true ↔ p.usedMap.test x = true ∧ x ≠ pgNo pd - pgNo p.base ∧
        ¬ ∃ i < userPdes, p.words (pd + 4 * i) ≠ 0 ∧
          pgNo (entryPage (p.words (pd + 4 * i))) - pgNo p.base = x) ∧
      q.userBase = p.userBase ∧ q.userMap.bitCnt = p.userMap.bitCnt ∧
      ∀ y, q.userMap.test y = true ↔ p.userMap.test y = true ∧
        ¬ ∃ u, UserPage u ∧ p.entryWord pd u &&& pteP ≠ 0 ∧
          pgNo (entryPage (p.entryWord pd u)) - pgNo p.userBase = y := by
  obtain ⟨q, hq, W, K, U, rfl, -, -, hK, hKt, hU, hUt⟩ :=
    Loop.foldlM_range_inv (P := p.TablesFreed pd)
      ⟨p.words, p.usedMap, p.userMap, rfl, fun _ _ _ => rfl, fun _ _ _ _ _ _ _ => rfl, rfl,
        fun x => by simp, rfl, fun y => by simp⟩
      fun i hi q hq => freeTable_step hp hpd hf hi hq
  have hpdw := hpd.pd_page.within
  -- no page table is the directory, so its bit is still set
  have hused : K.test (pgNo pd - pgNo p.base) = true := by
    refine (hKt _).mpr ⟨hpd.pd_page.test_pgNo hp.base_aligned, ?_⟩
    rintro ⟨j, hj, hzj, hidx⟩
    obtain ⟨hjpool, hjpd, -⟩ := hpd.table_page hj hzj
    exact hjpd (hjpool.eq_of_pgNo hp.base_aligned hpd.pd_page hidx)
  set q₀ : PhysMem := { p with words := W, usedMap := K, userMap := U } with hq₀
  have hfree := pallocFreePage_kernel (p := q₀) hp.base_aligned hpd.pd_aligned hpd.pd_ne_zero
    ⟨hpdw.1, by dsimp only [q₀]; rw [hK]; simp only [pgSize] at hpdw ⊢; omega⟩ hused
  refine ⟨{ q₀ with words := q₀.poison pd, usedMap := K.set (pgNo pd - pgNo p.base) false }, ?_, rfl,
    by rw [Bitmap.bitCnt_set, hK], fun x => ?_, rfl, hU, fun y => ?_⟩
  · unfold pagedirDestroy
    rw [if_neg hpd.pd_ne_zero, if_neg hpd.pd_ne_init, hq, Option.bind_eq_bind, Option.bind_some]
    exact hfree
  · rw [Bitmap.test_set_false_iff, hKt, and_right_comm, and_assoc]
  · -- every user page lies below the user directory entries
    rw [hUt]
    refine and_congr_right fun _ => not_congr (exists_congr fun u => ?_)
    constructor
    · rintro ⟨hu, -, h⟩
      exact ⟨hu, h⟩
    · rintro ⟨hu, h⟩
      exact ⟨hu, hu.pdNo_lt, h⟩

end PhysMem

/-! ## The kernel pool from `pagedir_create` on -/

/-- The kernel pool while directory `pd`, which `pagedir_create` took from `m₀`, is in use: the
map of `m₀` with the bits of the directory and of its page tables set, none of them set in
`m₀`. -/
structure PoolUse (m₀ : KernelMem) (pd : ℕ) (m : KernelMem) : Prop where
  base_eq : m.base = m₀.base
  bitCnt_eq : m.usedMap.bitCnt = m₀.usedMap.bitCnt
  pd_fresh : m₀.usedMap.test (pgNo pd - pgNo m₀.base) = false
  tables_fresh : ∀ i < userPdes, m.words (pd + 4 * i) ≠ 0 →
    m₀.usedMap.test (pgNo (entryPage (m.words (pd + 4 * i))) - pgNo m₀.base) = false
  test_iff : ∀ x, m.usedMap.test x = true ↔ m₀.usedMap.test x = true ∨ x = pgNo pd - pgNo m₀.base ∨
    ∃ i < userPdes, m.words (pd + 4 * i) ≠ 0 ∧ pgNo (entryPage (m.words (pd + 4 * i))) - pgNo m₀.base = x

/-- The directory entry for a page of the pool points to that page. -/
theorem PoolOk.entryPage_pdeOf {m : KernelMem} (h : PoolOk m) {k : ℕ} (hk : k < m.usedMap.bitCnt) :
    entryPage (pdeOf (m.base + pgSize * k)) = m.base + pgSize * k := by
  have hk' := Nat.mul_le_mul_left pgSize (Nat.succ_le_of_lt hk)
  rw [Nat.mul_succ] at hk'
  have htop := h.pool_top
  have hb := h.base_kernel
  have hal := h.base_aligned
  rw [pdeOf, entryPage_ofNat (by omega) (by simp only [pgSize] at hk' htop ⊢; omega)
    (by simp only [pgSize] at hal ⊢; omega) (by decide)]

/-- `pagedir_create` takes the directory's page and nothing else. -/
theorem PoolOk.poolUse_create {m : KernelMem} (h : PoolOk m)
    (hzero : ∀ i < userPdes, m.words (m.initPageDir + 4 * i) = 0) (hpd : m.pagedirCreate.1 ≠ 0) :
    PoolUse m m.pagedirCreate.1 m.pagedirCreate.2 := by
  have hdir := h.pagedirCreate_pde hzero hpd
  -- no user directory entry is set, so no page table is in use
  have hE : ∀ x, ¬ ∃ i < userPdes, m.pagedirCreate.2.words (m.pagedirCreate.1 + 4 * i) ≠ 0 ∧
      pgNo (entryPage (m.pagedirCreate.2.words (m.pagedirCreate.1 + 4 * i))) - pgNo m.base = x := by
    rintro x ⟨i, hi, hne, -⟩
    exact hne (hdir i hi)
  obtain ⟨idx, -, hfree, hc⟩ := KernelMem.pagedirCreate_eq h.base_kernel hpd
  rw [hc] at hdir hE ⊢
  have hidx : pgNo (m.base + pgSize * idx) - pgNo m.base = idx := pgNo_sub_of_eq h.base_aligned
  refine ⟨rfl, Bitmap.bitCnt_set _ _, by rw [hidx]; exact hfree,
    fun i hi hne => absurd (hdir i hi) hne, fun x => ?_⟩
  rw [hidx, Bitmap.test_set, or_iff_left (hE x)]
  by_cases hx : x = idx
  · rw [if_pos hx]
    exact iff_of_true rfl (.inr hx)
  · rw [if_neg hx, or_iff_left hx]

/-- A call keeps the pool's use: it takes a page only for the page table of a zero entry. -/
theorem PoolUse.step {m₀ m m' : KernelMem} {pd : ℕ} (hu : PoolUse m₀ pd m) (h : PoolOk m)
    (hs : m.PoolStep pd m') : PoolUse m₀ pd m' := by
  obtain ⟨hb, ⟨hsame, hw⟩ | ⟨idx, i₀, hlt, hfree, hi₀, hz, hset, hpde, hother⟩⟩ := hs
  · -- no page taken: the map and the directory entries are as they were
    have hE : ∀ x, (∃ i < userPdes, m'.words (pd + 4 * i) ≠ 0 ∧
        pgNo (entryPage (m'.words (pd + 4 * i))) - pgNo m₀.base = x) ↔
        ∃ i < userPdes, m.words (pd + 4 * i) ≠ 0 ∧
          pgNo (entryPage (m.words (pd + 4 * i))) - pgNo m₀.base = x := fun x =>
      exists_congr fun i => and_congr_right fun hi => by rw [hw i hi]
    refine ⟨hb.trans hu.base_eq, hsame ▸ hu.bitCnt_eq, hu.pd_fresh, fun i hi hne => ?_,
      fun x => by rw [hsame, hu.test_iff, hE]⟩
    rw [hw i hi] at hne ⊢
    exact hu.tables_fresh i hi hne
  · -- page `idx` taken for the page table of entry `i₀`
    have hidx : pgNo (entryPage (m'.words (pd + 4 * i₀))) - pgNo m₀.base = idx := by
      rw [hpde, h.entryPage_pdeOf hlt, ← hu.base_eq, pgNo_sub_of_eq h.base_aligned]
    have hfree₀ : m₀.usedMap.test idx = false := by
      cases h0 : m₀.usedMap.test idx
      · rfl
      · rw [(hu.test_iff idx).mpr (.inl h0)] at hfree
        cases hfree
    have hne₀ : m'.words (pd + 4 * i₀) ≠ 0 := by
      have hal := h.base_aligned
      have hbk := h.base_kernel
      rw [hpde]
      exact pdeOf_ne_zero _ (by simp only [pgSize, physBase] at hal hbk ⊢; omega)
    have hE : ∀ x, (∃ i < userPdes, m'.words (pd + 4 * i) ≠ 0 ∧
        pgNo (entryPage (m'.words (pd + 4 * i))) - pgNo m₀.base = x) ↔
        (∃ i < userPdes, m.words (pd + 4 * i) ≠ 0 ∧
          pgNo (entryPage (m.words (pd + 4 * i))) - pgNo m₀.base = x) ∨ x = idx := by
      intro x
      constructor
      · rintro ⟨i, hi, hne, hx⟩
        by_cases hii : i = i₀
        · subst hii
          exact .inr (hx.symm.trans hidx)
        · rw [hother i hi hii] at hne hx
          exact .inl ⟨i, hi, hne, hx⟩
      · rintro (⟨i, hi, hne, hx⟩ | rfl)
        · have hii : i ≠ i₀ := by
            rintro rfl
            exact hne hz
          rw [← hother i hi hii] at hne hx
          exact ⟨i, hi, hne, hx⟩
        · exact ⟨i₀, hi₀, hne₀, hidx⟩
    refine ⟨hb.trans hu.base_eq, by rw [hset, Bitmap.bitCnt_set, hu.bitCnt_eq], hu.pd_fresh,
      fun i hi hne => ?_, fun x => ?_⟩
    · by_cases hii : i = i₀
      · subst hii
        rw [hidx]
        exact hfree₀
      · rw [hother i hi hii] at hne ⊢
        exact hu.tables_fresh i hi hne
    · rw [hset, Bitmap.test_set, hE]
      by_cases hx : x = idx
      · rw [if_pos hx]
        exact iff_of_true rfl (.inr (.inr (.inr hx)))
      · rw [if_neg hx, hu.test_iff, or_iff_left hx]

/-- What each allowed call on a directory does to its tables and to the kernel pool. -/
theorem PdInv.pdCall_spec {m m' : KernelMem} {pd : ℕ} (h : PdInv m pd) {c : PdCall}
    (hc : c.Allowed fun u => m.entryWord pd u ≠ 0) (hs : m.pdCall pd c = some m') :
    PdInv m' pd ∧ m.PoolStep pd m' := by
  cases c with
  | setPage upage kpage writable =>
    obtain ⟨⟨ok, m₂⟩, hset, rfl⟩ := Option.map_eq_some_iff.mp hs
    obtain ⟨hu, hk⟩ := KernelMem.setPage_asserts (by rw [hset]; exact Option.some_ne_none _)
    rcases h.pagedirSetPage_spec hu hk writable with ⟨-, hnone⟩ | ⟨-, ok', m₃, hset', h', hstep, -⟩
    · rw [hnone] at hset
      cases hset
    · rw [hset] at hset'
      cases hset'
      exact ⟨h', hstep⟩
  | clearPage upage =>
    have hs' : m.pagedirClearPage pd upage = some m' := hs
    obtain ⟨m₂, hc', h', hstep, -⟩ := h.pagedirClearPage_spec
      (KernelMem.clearPage_asserts (by rw [hs']; exact Option.some_ne_none _))
    rw [hs'] at hc'
    cases hc'
    exact ⟨h', hstep⟩
  | setDirty upage dirty =>
    have hs' : m.pagedirSetFlag pteD pd upage dirty = some m' := hs
    obtain ⟨m₂, hc', h', hstep, -⟩ := h.pagedirSetFlag_spec (show pteD &&& pteU = 0 by decide) (by decide) hc.1 dirty hc.2
    rw [hs'] at hc'
    cases hc'
    exact ⟨h', hstep⟩
  | setAccessed upage accessed =>
    have hs' : m.pagedirSetFlag pteA pd upage accessed = some m' := hs
    obtain ⟨m₂, hc', h', hstep, -⟩ :=
      h.pagedirSetFlag_spec (show pteA &&& pteU = 0 by decide) (by decide) hc.1 accessed hc.2
    rw [hs'] at hc'
    cases hc'
    exact ⟨h', hstep⟩

section Run

variable {m₀ : KernelMem} (h₀ : PoolOk m₀) (hinit : m₀.PoolPage m₀.initPageDir)
  (hzero : ∀ i < userPdes, m₀.words (m₀.initPageDir + 4 * i) = 0) (hpd : m₀.pagedirCreate.1 ≠ 0)

include h₀ hinit hzero hpd in
/-- Along every run of calls on the directory from `pagedir_create`, the tables stay well formed
and the kernel pool is used by the directory and its page tables only. -/
theorem pagedirSystem_poolUse :
    (pagedirSystem m₀).Invariant fun m =>
      PdInv m m₀.pagedirCreate.1 ∧ PoolUse m₀ m₀.pagedirCreate.1 m where
  init := ⟨(h₀.pagedirCreate_spec hinit hzero hpd).1, h₀.poolUse_create hzero hpd⟩
  step m c := by
    rintro ⟨h, hu⟩ ⟨hall, hsome⟩
    obtain ⟨m', hc⟩ := Option.isSome_iff_exists.mp hsome
    obtain ⟨h', hstep⟩ := h.pdCall_spec hall hc
    have hm' : (pagedirSystem m₀).step m c = m' := by
      simp only [pagedirSystem, hc, Option.getD_some]
    rw [hm']
    exact ⟨h', hu.step h.toPoolOk hstep⟩

include hinit hzero hpd in
theorem pagedir_destroy_returns_pages {userMap : Bitmap} {userBase : ℕ}
    (hp : PoolsOk ⟨m₀, userMap, userBase⟩) {m : KernelMem} (hm : (pagedirSystem m₀).Reachable m)
    (hf : PhysMem.FramesOk ⟨m, userMap, userBase⟩ m₀.pagedirCreate.1) :
    ∃ p', PhysMem.pagedirDestroy ⟨m, userMap, userBase⟩ m₀.pagedirCreate.1 = some p' ∧
      p'.usedMap = m₀.usedMap ∧ p'.userMap.bitCnt = userMap.bitCnt ∧
      ∀ y, p'.userMap.test y = true ↔ userMap.test y = true ∧
        ¬ ∃ u, UserPage u ∧ m.entryWord m₀.pagedirCreate.1 u &&& pteP ≠ 0 ∧
          pgNo (entryPage (m.entryWord m₀.pagedirCreate.1 u)) - pgNo userBase = y := by
  obtain ⟨h, hu⟩ := (pagedirSystem_poolUse hp.toPoolOk hinit hzero hpd).holds hm
  have hp' : PoolsOk ⟨m, userMap, userBase⟩ :=
    { h.toPoolOk with
      user_aligned := hp.user_aligned
      user_kernel := hp.user_kernel
      user_top := hp.user_top
      apart := by
        show m.base + pgSize * m.usedMap.bitCnt ≤ userBase ∨
          userBase + pgSize * userMap.bitCnt ≤ m.base
        rw [hu.base_eq, hu.bitCnt_eq]
        exact hp.apart }
  obtain ⟨q, hq, -, hcnt, hK, -, hU, hUt⟩ := PhysMem.pagedirDestroy_spec hp' h hf
  refine ⟨q, hq, Bitmap.eq_of_test (hcnt.trans hu.bitCnt_eq) fun x => ?_, hU, hUt⟩
  -- the bits cleared are those `pagedir_create` and the calls set
  rw [Bool.eq_iff_iff, hK, hu.test_iff]
  dsimp only
  rw [hu.base_eq]
  constructor
  · rintro ⟨hx | hx | hx, hne, hnE⟩
    · exact hx
    · exact absurd hx hne
    · exact absurd hx hnE
  · intro hx
    refine ⟨.inl hx, ?_, ?_⟩
    · rintro rfl
      rw [hu.pd_fresh] at hx
      cases hx
    · rintro ⟨i, hi, hne, rfl⟩
      rw [hu.tables_fresh i hi hne] at hx
      cases hx

end Run

/-- A user pool of two pages right above `fourPagePool`, the first in use. -/
def twoPageUserPool : Bitmap := (Bitmap.create 2).set 0 true

/-- The new directory of `fourPagePool` after `pagedir_set_page` maps user page 0 to the first
frame of `twoPageUserPool`, which takes a page table. -/
def fourPagePoolFramed : KernelMem :=
  (pagedirSystem fourPagePool).step fourPagePool.pagedirCreate.2
    (.setPage 0 (physBase + 4 * pgSize) true)

theorem pagedir_destroy_after_set_page :
    ∃ p', PhysMem.pagedirDestroy ⟨fourPagePoolFramed, twoPageUserPool, physBase + 4 * pgSize⟩
        fourPagePool.pagedirCreate.1 = some p' ∧
      p'.usedMap = fourPagePool.usedMap ∧ p'.userMap.bitCnt = twoPageUserPool.bitCnt ∧
      ∀ y, p'.userMap.test y = true ↔ twoPageUserPool.test y = true ∧
        ¬ ∃ u, UserPage u ∧ fourPagePoolFramed.entryWord fourPagePool.pagedirCreate.1 u &&& pteP ≠ 0 ∧
          pgNo (entryPage (fourPagePoolFramed.entryWord fourPagePool.pagedirCreate.1 u)) -
            pgNo (physBase + 4 * pgSize) = y := by
  have h₀ : PoolOk fourPagePool := ⟨by decide, by decide, by decide, by decide⟩
  obtain ⟨h₁, -, hz⟩ := h₀.pagedirCreate_spec ⟨0, by decide, by decide, by decide⟩ (fun _ _ => rfl)
    (by decide)
  have hu0 : UserPage 0 := ⟨by decide, by decide⟩
  have hk : fourPagePool.pagedirCreate.2.RamPage (physBase + 4 * pgSize) :=
    ⟨by decide, by decide, by decide⟩
  -- the one present entry maps the frame in use of the user pool
  have hframes : PhysMem.FramesOk ⟨fourPagePoolFramed, twoPageUserPool, physBase + 4 * pgSize⟩
      fourPagePool.pagedirCreate.1 := by
    rcases h₁.pagedirSetPage_spec hu0 hk true with ⟨hP, -⟩ | ⟨-, ok, m', hset, -, -, hview⟩
    · have h0 : (0 : BitVec 32) &&& pteP = 0 := BitVec.zero_and
      rw [hz 0 hu0, h0] at hP
      exact absurd rfl hP
    have hm : fourPagePoolFramed = m' := by
      simp only [fourPagePoolFramed, pagedirSystem, KernelMem.pdCall, hset, Option.map_some,
        Option.getD_some]
    subst hm
    have hnew : ∀ u, UserPage u →
        fourPagePoolFramed.entryWord fourPagePool.pagedirCreate.1 u &&& pteP ≠ 0 → u = 0 ∧
          fourPagePoolFramed.entryWord fourPagePool.pagedirCreate.1 u =
            BitVec.ofNat 32 (physBase + 4 * pgSize - physBase) ||| userFlags true := by
      intro u hu hP
      rw [hview u hu] at hP ⊢
      by_cases hc : ok = true ∧ u = 0
      · rw [if_pos hc]
        exact ⟨hc.2, rfl⟩
      · have h0 : (0 : BitVec 32) &&& pteP = 0 := BitVec.zero_and
        rw [if_neg hc, hz u hu, h0] at hP
        exact absurd rfl hP
    refine ⟨fun u hu hP => ?_, fun u hu hP => ?_, fun u v hu hv hP hP' _ => ?_⟩
    · dsimp only
      rw [(hnew u hu hP).2]
      decide
    · dsimp only
      rw [(hnew u hu hP).2]
      decide
    · rw [(hnew u hu hP).1, (hnew v hv hP').1]
  exact pagedir_destroy_returns_pages ⟨0, by decide, by decide, by decide⟩ (fun _ _ => rfl)
    (by decide) ⟨h₀, by decide, by decide, by decide, by decide⟩
    (Transition.System.Reachable.init.step _ ⟨trivial, by decide +kernel⟩) hframes

end Pintos
