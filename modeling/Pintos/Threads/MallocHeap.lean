import Pintos.Threads.Malloc
import Pintos.Lib.Transition
import Mathlib.Data.List.Nodup

/-! # The kernel heap over whole runs

`threads/malloc.c` under any sequence of `malloc`, `calloc`, `realloc` and `free` calls of a
client that gives back only blocks it holds. The arena headers stand on pages of the kernel
pool that its bitmap marks used, and no header lies inside another arena's pages
(`PagesOk`). Every block of a small arena is either on its descriptor's free list or held by
the client, and the header counts those on the list (`SmallOk`); a small arena always has a
block in use, since `malloc` takes one from a new arena at once and `free` gives the page back
when the last one returns (`HeapInv`).

From that invariant no call fails an `ASSERT` (`heap_never_crashes`) and the blocks the
client holds never overlap (`heap_blocks_disjoint`).
-/

namespace Pintos

/-- The blocks of an arena at page `a` under descriptor `d`, in the order `malloc` lists
them. -/
def arenaBlocks (a : ℕ) (d : Desc) : List ℕ :=
  (List.range d.blocksPerArena).map (arenaToBlock a d.blockSize)

/-- The pages an arena spans: one under a descriptor, `free_cnt` for a big block. -/
def Arena.pageCnt (ar : Arena) : ℕ :=
  match ar.desc with
  | some _ => 1
  | none => ar.freeCnt

/-- A descriptor whose blocks fit in a page after the arena header. -/
structure Desc.Fits (d : Desc) : Prop where
  blockSize_pos : 0 < d.blockSize
  blocksPerArena_pos : 0 < d.blocksPerArena
  le_pgSize : arenaSize + d.blocksPerArena * d.blockSize ≤ pgSize

theorem Desc.Fits.freeList {d : Desc} (h : d.Fits) (l : List ℕ) :
    ({ d with freeList := l } : Desc).Fits :=
  ⟨h.blockSize_pos, h.blocksPerArena_pos, h.le_pgSize⟩

instance (d : Desc) : Decidable d.Fits :=
  decidable_of_iff (0 < d.blockSize ∧ 0 < d.blocksPerArena ∧
      arenaSize + d.blocksPerArena * d.blockSize ≤ pgSize)
    ⟨fun ⟨h₁, h₂, h₃⟩ => ⟨h₁, h₂, h₃⟩, fun ⟨h₁, h₂, h₃⟩ => ⟨h₁, h₂, h₃⟩⟩

/-- The descriptors `malloc_init` builds, from 16 to 1024 bytes, all fit. -/
theorem fits_initDescs : ∀ d ∈ initDescs 10 16, d.Fits := by
  decide

/-! ## Blocks within their page -/

section Layout

variable {a b : ℕ} {d : Desc}

theorem mem_arenaBlocks :
    b ∈ arenaBlocks a d ↔ ∃ k < d.blocksPerArena, b = a + arenaSize + k * d.blockSize := by
  simp [arenaBlocks, arenaToBlock, eq_comm]

/-- Arena blocks depend on the descriptor's sizes only, not on its free list. -/
@[simp] theorem arenaBlocks_freeList (l : List ℕ) :
    arenaBlocks a { d with freeList := l } = arenaBlocks a d := rfl

theorem nodup_arenaBlocks (hfit : d.Fits) : (arenaBlocks a d).Nodup := by
  refine List.nodup_range.map fun k k' (h : arenaToBlock a d.blockSize k = _) => ?_
  unfold arenaToBlock at h
  exact Nat.eq_of_mul_eq_mul_right hfit.blockSize_pos (by omega)

@[simp] theorem length_arenaBlocks : (arenaBlocks a d).length = d.blocksPerArena := by
  simp [arenaBlocks]

/-- The first block of an arena starts right after its header. -/
theorem arenaBlocks_eq_cons (hfit : d.Fits) : ∃ rest, arenaBlocks a d = (a + arenaSize) :: rest := by
  obtain ⟨n, hn⟩ := Nat.exists_eq_succ_of_ne_zero hfit.blocksPerArena_pos.ne'
  rw [arenaBlocks, hn, List.range_succ_eq_map, List.map_cons]
  exact ⟨_, by rw [arenaToBlock, Nat.zero_mul, Nat.add_zero]⟩

/-- A block lies after the header and ends within the page. -/
theorem bounds_of_mem_arenaBlocks (hfit : d.Fits) (hb : b ∈ arenaBlocks a d) :
    a + arenaSize ≤ b ∧ b + d.blockSize ≤ a + pgSize := by
  obtain ⟨k, hk, rfl⟩ := mem_arenaBlocks.mp hb
  have hle : (k + 1) * d.blockSize ≤ d.blocksPerArena * d.blockSize :=
    Nat.mul_le_mul_right _ hk
  have := hfit.le_pgSize
  rw [Nat.succ_mul] at hle
  omega

theorem pgRoundDown_of_mem_arenaBlocks (hfit : d.Fits) (ha : a % pgSize = 0)
    (hb : b ∈ arenaBlocks a d) : pgRoundDown b = a := by
  have hbd := bounds_of_mem_arenaBlocks hfit hb
  have hpos := hfit.blockSize_pos
  unfold pgRoundDown
  simp only [pgSize, arenaSize] at ha hbd ⊢
  omega

/-- The alignment `block_to_arena` checks holds of every block of the arena. -/
theorem aligned_of_mem_arenaBlocks (hfit : d.Fits) (ha : a % pgSize = 0)
    (hb : b ∈ arenaBlocks a d) :
    toSizeT (pgOfs b + sizeRange - arenaSize) % d.blockSize = 0 := by
  obtain ⟨k, hk, rfl⟩ := mem_arenaBlocks.mp hb
  have hbd := bounds_of_mem_arenaBlocks hfit hb
  have hpos := hfit.blockSize_pos
  have hofs : pgOfs (a + arenaSize + k * d.blockSize) = arenaSize + k * d.blockSize := by
    unfold pgOfs
    simp only [pgSize, arenaSize] at ha hbd ⊢
    omega
  have hsize : toSizeT (arenaSize + k * d.blockSize + sizeRange - arenaSize) =
      k * d.blockSize := by
    unfold toSizeT
    simp only [sizeRange, arenaSize, pgSize] at hbd ⊢
    omega
  rw [hofs, hsize, Nat.mul_mod_left]

/-- Blocks of arenas at different pages are different. -/
theorem ne_of_mem_arenaBlocks {a' : ℕ} {d' : Desc} (hfit : d.Fits) (hfit' : d'.Fits)
    (ha : a % pgSize = 0) (ha' : a' % pgSize = 0) (hne : a ≠ a') (hb : b ∈ arenaBlocks a d) :
    b ∉ arenaBlocks a' d' := fun hb' =>
  hne ((pgRoundDown_of_mem_arenaBlocks hfit ha hb).symm.trans
    (pgRoundDown_of_mem_arenaBlocks hfit' ha' hb'))

end Layout

/-! ## The state after an update -/

namespace MallocState

variable (s : MallocState)

@[simp] theorem descs_setArena (a : ℕ) (ar : Arena) : (s.setArena a ar).descs = s.descs := rfl
@[simp] theorem usedMap_setArena (a : ℕ) (ar : Arena) :
    (s.setArena a ar).usedMap = s.usedMap := rfl
@[simp] theorem base_setArena (a : ℕ) (ar : Arena) : (s.setArena a ar).base = s.base := rfl
@[simp] theorem arenas_setFreeList (i : ℕ) (l : List ℕ) :
    (s.setFreeList i l).arenas = s.arenas := rfl
@[simp] theorem usedMap_setFreeList (i : ℕ) (l : List ℕ) :
    (s.setFreeList i l).usedMap = s.usedMap := rfl
@[simp] theorem base_setFreeList (i : ℕ) (l : List ℕ) : (s.setFreeList i l).base = s.base := rfl

theorem descs_setFreeList (i j : ℕ) (l : List ℕ) :
    (s.setFreeList i l).descs[j]? =
      if j = i then (s.descs[i]?).map fun d => { d with freeList := l } else s.descs[j]? := by
  rw [setFreeList, List.getElem?_modify]
  by_cases hj : j = i
  · subst hj
    cases s.descs[j]? <;> simp
  · rw [if_neg hj]
    cases s.descs[j]? <;> simp [Ne.symm hj]

/-- A descriptor after `setFreeList` is the old one, with the new list if it is the one set. -/
theorem getElem?_descs_setFreeList {i j : ℕ} {l : List ℕ} {d' : Desc}
    (h : (s.setFreeList i l).descs[j]? = some d') :
    ∃ d, s.descs[j]? = some d ∧ d' = if j = i then { d with freeList := l } else d := by
  rw [descs_setFreeList] at h
  split at h
  · next hj =>
    subst hj
    obtain ⟨d, hd, rfl⟩ := Option.map_eq_some_iff.mp h
    exact ⟨d, hd, by rw [if_pos rfl]⟩
  · next hj => exact ⟨d', h, by rw [if_neg hj]⟩

/-- `palloc_get_multiple` either returns `NULL` with the pool untouched, or the first run of
`n` free pages, which it marks used. -/
theorem pallocGetMultiple_cases (n : ℕ) :
    s.pallocGetMultiple n = (0, s) ∨
      ∃ idx, 0 < n ∧ s.usedMap.RunAt n false idx ∧
        s.pallocGetMultiple n =
          (s.base + pgSize * idx, { s with usedMap := s.usedMap.setMultiple idx n true }) := by
  unfold pallocGetMultiple
  split
  · exact .inl rfl
  · next hn =>
    cases hscan : s.usedMap.scan 0 n false with
    | none =>
      left
      simp [Bitmap.scanAndFlip, hscan]
    | some idx =>
      right
      obtain ⟨-, hrun, -⟩ := Bitmap.scan_eq_some_iff.mp hscan
      exact ⟨idx, Nat.pos_of_ne_zero hn, hrun, by simp [Bitmap.scanAndFlip, hscan]⟩

end MallocState

/-! ## Arena headers against the pool -/

/-- A header at page `a`: a nonzero page of the pool, the magic number, and a nonempty run of
pages from there that the pool's bitmap marks used. -/
structure HeaderOk (s : MallocState) (a : ℕ) (ar : Arena) : Prop where
  ne_zero : a ≠ 0
  aligned : a % pgSize = 0
  magic : ar.magic = arenaMagic
  base_le : s.base ≤ a
  pageCnt_pos : 0 < ar.pageCnt
  used : s.usedMap.RunAt ar.pageCnt true ((a - s.base) / pgSize)

/-- Every arena header stands on the pool, and none lies inside another arena's pages. -/
structure PagesOk (s : MallocState) : Prop where
  base_aligned : s.base % pgSize = 0
  header : ∀ a ar, s.arenas a = some ar → HeaderOk s a ar
  no_inner : ∀ a ar x, s.arenas a = some ar → a < x → x < a + pgSize * ar.pageCnt →
    s.arenas x = none

theorem HeaderOk.congr {s s' : MallocState} {a : ℕ} {ar : Arena} (h : HeaderOk s a ar)
    (hbase : s'.base = s.base) (hused : s'.usedMap = s.usedMap) : HeaderOk s' a ar :=
  ⟨h.ne_zero, h.aligned, h.magic, hbase ▸ h.base_le, h.pageCnt_pos, hbase ▸ hused ▸ h.used⟩

namespace PagesOk

variable {s : MallocState} {a a' : ℕ} {ar ar' : Arena}

/-- An arena's page is the pool's page at the index its bitmap bit has. -/
theorem eq_base_add (hP : PagesOk s) (ha : s.arenas a = some ar) :
    a = s.base + pgSize * ((a - s.base) / pgSize) := by
  have h := hP.header a ar ha
  have hb := hP.base_aligned
  have ha' := h.aligned
  have hle := h.base_le
  simp only [pgSize] at hb ha' ⊢
  omega

/-- Two arenas' pages do not overlap. -/
theorem apart (hP : PagesOk s) (ha : s.arenas a = some ar) (ha' : s.arenas a' = some ar')
    (hlt : a < a') : a + pgSize * ar.pageCnt ≤ a' := by
  by_contra hin
  have hnone := hP.no_inner a ar a' ha hlt (by omega)
  rw [ha'] at hnone
  cases hnone

theorem eq_of_mem_pages (hP : PagesOk s) (ha : s.arenas a = some ar)
    (ha' : s.arenas a' = some ar') {x : ℕ} (hx : a ≤ x ∧ x < a + pgSize * ar.pageCnt)
    (hx' : a' ≤ x ∧ x < a' + pgSize * ar'.pageCnt) : a = a' := by
  rcases lt_trichotomy a a' with hlt | heq | hgt
  · have := hP.apart ha ha' hlt
    omega
  · exact heq
  · have := hP.apart ha' ha hgt
    omega

/-- A run of free pages lies apart from every arena. -/
theorem apart_of_free (hP : PagesOk s) {n idx : ℕ} (hrun : s.usedMap.RunAt n false idx)
    (hn : 0 < n) (ha : s.arenas a = some ar) :
    s.base + pgSize * idx + pgSize * n ≤ a ∨ a + pgSize * ar.pageCnt ≤ s.base + pgSize * idx := by
  have h := hP.header a ar ha
  have hdis := h.used.disjoint hrun h.pageCnt_pos hn
  have heq := hP.eq_base_add ha
  simp only [pgSize] at heq hdis ⊢
  omega

/-- A byte on an arena's pages lies in the pool, on one of the pages its header's bitmap bits
cover. -/
theorem page_of_mem (hP : PagesOk s) (ha : s.arenas a = some ar) {x : ℕ}
    (hx : a ≤ x ∧ x < a + pgSize * ar.pageCnt) :
    s.base ≤ x ∧ (x - s.base) / pgSize = (a - s.base) / pgSize + (x - a) / pgSize ∧
      (x - a) / pgSize < ar.pageCnt := by
  have heq := hP.eq_base_add ha
  have hsub : x - s.base = pgSize * ((a - s.base) / pgSize) + (x - a) := by omega
  refine ⟨by omega, by rw [hsub, Nat.mul_add_div (by decide)], Nat.div_lt_of_lt_mul (by omega)⟩

/-- Moving a free list touches no header. -/
theorem setFreeList (hP : PagesOk s) (i : ℕ) (l : List ℕ) : PagesOk (s.setFreeList i l) :=
  ⟨hP.base_aligned, fun a ar ha => (hP.header a ar ha).congr rfl rfl, hP.no_inner⟩

/-- Rewriting a header in place, with its magic number and pages, keeps the pages apart. -/
theorem setArena_of_eq (hP : PagesOk s) (ha : s.arenas a = some ar) (hmagic : ar'.magic = ar.magic)
    (hcnt : ar'.pageCnt = ar.pageCnt) : PagesOk (s.setArena a ar') := by
  have h := hP.header a ar ha
  refine ⟨hP.base_aligned, fun x arx hx => ?_, fun x arx y hx hxy hy => ?_⟩
  · rw [MallocState.arenas_setArena] at hx
    split at hx
    · cases hx
      next hxa =>
      subst hxa
      exact ⟨h.ne_zero, h.aligned, hmagic.trans h.magic, h.base_le, hcnt ▸ h.pageCnt_pos,
        hcnt ▸ h.used⟩
    · exact (hP.header x arx hx).congr rfl rfl
  · rw [MallocState.arenas_setArena] at hx ⊢
    have hya : y ≠ a := by
      intro hyeq
      rw [hyeq] at hxy hy
      split at hx
      · next hxa => omega
      · exact absurd (hP.no_inner x arx a hx hxy hy) (by rw [ha]; simp)
    rw [if_neg hya]
    split at hx
    · cases hx
      next hxa =>
      subst hxa
      exact hP.no_inner x ar y ha hxy (hcnt ▸ hy)
    · exact hP.no_inner x arx y hx hxy hy

/-- Marking more pages used keeps every header's run used. -/
theorem markUsed (hP : PagesOk s) (idx n : ℕ) :
    PagesOk { s with usedMap := s.usedMap.setMultiple idx n true } := by
  refine ⟨hP.base_aligned, fun a ar ha => ?_, hP.no_inner⟩
  have h := hP.header a ar ha
  exact ⟨h.ne_zero, h.aligned, h.magic, h.base_le, h.pageCnt_pos, h.used.setMultiple_true⟩

/-- A header written at the start of a run of free pages, which are then marked used, stands
apart from every other arena; there was no header there. -/
theorem newArena (hP : PagesOk s) {n idx : ℕ} (hrun : s.usedMap.RunAt n false idx) (hn : 0 < n)
    (ha0 : s.base + pgSize * idx ≠ 0) (hmagic : ar.magic = arenaMagic) (hcnt : ar.pageCnt = n) :
    s.arenas (s.base + pgSize * idx) = none ∧
      PagesOk (({ s with usedMap := s.usedMap.setMultiple idx n true } : MallocState).setArena
        (s.base + pgSize * idx) ar) := by
  set a := s.base + pgSize * idx with hadef
  have hfresh : ∀ x arx, s.arenas x = some arx → a + pgSize * n ≤ x ∨ x + pgSize * arx.pageCnt ≤ a :=
    fun x arx hx => hP.apart_of_free hrun hn hx
  have hnone : s.arenas a = none := by
    cases hx : s.arenas a with
    | none => rfl
    | some arx =>
      have := (hP.header a arx hx).pageCnt_pos
      rcases hfresh a arx hx with h | h <;> simp only [pgSize] at h <;> omega
  have hidx : (a - s.base) / pgSize = idx := by
    simp only [hadef, pgSize]
    omega
  have hb := hP.base_aligned
  refine ⟨hnone, hb, fun x arx hx => ?_, fun x arx y hx hxy hy => ?_⟩
  · rw [MallocState.arenas_setArena] at hx
    split at hx
    · next hxa =>
      cases hx
      subst hxa
      refine ⟨ha0, ?_, hmagic, by simp [hadef], by omega, ?_⟩
      · simp only [hadef, pgSize] at hb ⊢
        omega
      · simp only [MallocState.usedMap_setArena, MallocState.base_setArena, hidx, hcnt]
        exact Bitmap.runAt_setMultiple hrun.1 true
    · have h := (hP.markUsed idx n).header x arx hx
      exact ⟨h.ne_zero, h.aligned, h.magic, h.base_le, h.pageCnt_pos, h.used⟩
  · rw [MallocState.arenas_setArena] at hx ⊢
    split at hx
    · next hxa =>
      cases hx
      subst hxa
      -- a header inside the new run would have stood on a free page
      have hya : y ≠ a := by omega
      rw [if_neg hya]
      rw [hcnt] at hy
      cases hyv : s.arenas y with
      | none => rfl
      | some ary =>
        have := (hP.header y ary hyv).pageCnt_pos
        rcases hfresh y ary hyv with h | h <;> omega
    · -- the new header does not lie inside an old arena's pages
      have hya : y ≠ a := by
        rintro rfl
        have := (hP.header x arx hx).pageCnt_pos
        rcases hfresh x arx hx with h | h <;> omega
      rw [if_neg hya]
      exact hP.no_inner x arx y hx hxy hy

end PagesOk

namespace MallocState

variable {s : MallocState} {a : ℕ} {ar : Arena}

/-- `palloc_free_multiple` of an arena's pages succeeds: it drops that header, and no other, and
marks the pages free. -/
theorem pallocFreeMultiple_arena (hP : PagesOk s) (ha : s.arenas a = some ar) :
    ∃ s', s.pallocFreeMultiple a ar.pageCnt = some s' ∧ s'.descs = s.descs ∧ s'.base = s.base ∧
      s'.arenas = Function.update s.arenas a none ∧
      s'.usedMap = s.usedMap.setMultiple ((a - s.base) / pgSize) ar.pageCnt false := by
  have h := hP.header a ar ha
  have heq := hP.eq_base_add ha
  have hfit := h.used.1
  have hpos := h.pageCnt_pos
  have hofs : pgOfs a = 0 := h.aligned
  have hrange : s.base ≤ a ∧ a < s.base + pgSize * s.usedMap.bitCnt := by
    have hidx : (a - s.base) / pgSize < s.usedMap.bitCnt := by omega
    refine ⟨h.base_le, ?_⟩
    calc a = s.base + pgSize * ((a - s.base) / pgSize) := heq
      _ < s.base + pgSize * s.usedMap.bitCnt :=
        Nat.add_lt_add_left (Nat.mul_lt_mul_of_pos_left hidx (by decide)) _
  have hrun : a < a + pgSize * ar.pageCnt :=
    Nat.lt_add_of_pos_right (Nat.mul_pos (by decide) hpos)
  refine ⟨{ s with
      mem := memset s.mem a 0xcc (pgSize * ar.pageCnt)
      arenas := fun x => if a ≤ x ∧ x < a + pgSize * ar.pageCnt then none else s.arenas x
      usedMap := s.usedMap.setMultiple ((a - s.base) / pgSize) ar.pageCnt false },
    ?_, rfl, rfl, ?_, rfl⟩
  · rw [pallocFreeMultiple, if_neg (by rw [hofs]; omega), if_neg (by have := h.ne_zero; omega),
      if_neg (by omega), if_pos h.used.all]
  · funext x
    show (if a ≤ x ∧ x < a + pgSize * ar.pageCnt then none else s.arenas x) = _
    by_cases hx : x = a
    · subst hx
      rw [Function.update_self, if_pos ⟨le_rfl, hrun⟩]
    · rw [Function.update_of_ne hx]
      split
      · next hin =>
        exact (hP.no_inner a ar x ha (by omega) hin.2).symm
      · rfl

end MallocState

/-- Giving an arena's pages back leaves the other arenas standing apart on used pages. -/
theorem PagesOk.freeArena {s s' : MallocState} {a : ℕ} {ar : Arena} (hP : PagesOk s)
    (ha : s.arenas a = some ar) (hbase : s'.base = s.base)
    (harenas : s'.arenas = Function.update s.arenas a none)
    (hused : s'.usedMap = s.usedMap.setMultiple ((a - s.base) / pgSize) ar.pageCnt false) :
    PagesOk s' := by
  have hidx := hP.header a ar ha
  refine ⟨hbase ▸ hP.base_aligned, fun x arx hx => ?_, fun x arx y hx hxy hy => ?_⟩
  · rw [harenas] at hx
    have hxa : x ≠ a := by
      rintro rfl
      simp at hx
    rw [Function.update_of_ne hxa] at hx
    have h := hP.header x arx hx
    have hdis : (x - s.base) / pgSize + arx.pageCnt ≤ (a - s.base) / pgSize ∨
        (a - s.base) / pgSize + ar.pageCnt ≤ (x - s.base) / pgSize := by
      have hx' := hP.eq_base_add hx
      have ha' := hP.eq_base_add ha
      rcases Nat.lt_or_gt_of_ne hxa with hlt | hgt
      · have := hP.apart hx ha hlt
        simp only [pgSize] at hx' ha' this ⊢
        omega
      · have := hP.apart ha hx hgt
        simp only [pgSize] at hx' ha' this ⊢
        omega
    refine ⟨h.ne_zero, h.aligned, h.magic, hbase ▸ h.base_le, h.pageCnt_pos, ?_⟩
    rw [hused, hbase]
    exact h.used.setMultiple hdis false
  · rw [harenas] at hx ⊢
    have hxa : x ≠ a := by
      rintro rfl
      simp at hx
    rw [Function.update_of_ne hxa] at hx
    by_cases hya : y = a
    · subst hya
      simp
    · rw [Function.update_of_ne hya]
      exact hP.no_inner x arx y hx hxy hy

/-! ## Blocks, free lists and the client -/

/-- `p` is a block of a small arena of `s`, or the block of a big one. -/
def MallocState.IsBlock (s : MallocState) (p : ℕ) : Prop :=
  (∃ a ar i d, s.arenas a = some ar ∧ ar.desc = some i ∧ s.descs[i]? = some d ∧
      p ∈ arenaBlocks a d) ∨
    ∃ a ar, s.arenas a = some ar ∧ ar.desc = none ∧ p = a + arenaSize

/-- A small arena's blocks: each is on its descriptor's free list or held by the client, never
both, and the header counts those on the free list. -/
structure SmallOk (d : Desc) (held : List ℕ) (a : ℕ) (ar : Arena) : Prop where
  free_iff : ∀ b ∈ arenaBlocks a d, b ∈ d.freeList ↔ b ∉ held
  freeCnt_eq : ar.freeCnt = (arenaBlocks a d).countP (· ∈ d.freeList)

/-- The heap against the blocks its client holds: the headers on the pool, the descriptors'
blocks fitting their pages, every small arena's blocks split between its free list and the
client, every free block a block of a small arena of its descriptor, and every held block a
block of some arena. -/
structure HeapCore (s : MallocState) (held : List ℕ) : Prop where
  pages : PagesOk s
  descs_fit : ∀ (i : ℕ) (d : Desc), s.descs[i]? = some d → d.Fits
  small : ∀ a ar i, s.arenas a = some ar → ar.desc = some i →
    ∃ d, s.descs[i]? = some d ∧ SmallOk d held a ar
  free_block : ∀ i d, s.descs[i]? = some d → ∀ b ∈ d.freeList,
    ∃ a ar, s.arenas a = some ar ∧ ar.desc = some i ∧ b ∈ arenaBlocks a d
  free_nodup : ∀ (i : ℕ) (d : Desc), s.descs[i]? = some d → d.freeList.Nodup
  held_nodup : held.Nodup
  held_block : ∀ p ∈ held, s.IsBlock p

/-- The heap invariant: besides `HeapCore`, every small arena has a block in use. -/
structure HeapInv (s : MallocState) (held : List ℕ) : Prop extends HeapCore s held where
  busy : ∀ a ar i d, s.arenas a = some ar → ar.desc = some i → s.descs[i]? = some d →
    ar.freeCnt < d.blocksPerArena

/-- `malloc_init` starts every descriptor with an empty free list. -/
theorem nil_of_initDescs : ∀ d ∈ initDescs 10 16, d.freeList = [] := by
  decide

/-- The heap `malloc_init` leaves over a pool whose base is a page boundary. -/
theorem heapInv_mallocInit {usedMap : Bitmap} {base : ℕ} (mem : ℕ → UInt8)
    (hbase : base % pgSize = 0) : HeapInv (mallocInit usedMap base mem) [] where
  pages := ⟨hbase, (fun _ _ h => by cases h), (fun _ _ _ h => by cases h)⟩
  descs_fit _ d hd := fits_initDescs d (List.mem_of_getElem? hd)
  small _ _ _ h := by cases h
  free_block _ d hd b hb := by
    rw [nil_of_initDescs d (List.mem_of_getElem? hd)] at hb
    cases hb
  free_nodup _ d hd := by
    rw [nil_of_initDescs d (List.mem_of_getElem? hd)]
    exact List.nodup_nil
  held_nodup := List.nodup_nil
  held_block _ h := by cases h
  busy _ _ _ _ h := by cases h

section Core

variable {s s' : MallocState} {held : List ℕ} {a i : ℕ} {ar : Arena} {d : Desc}

theorem HeapCore.fit (h : HeapCore s held) (hd : s.descs[i]? = some d) : d.Fits :=
  h.descs_fit i d hd

/-- A free block is not held. -/
theorem HeapCore.not_held_of_free (h : HeapCore s held) (hd : s.descs[i]? = some d) {b : ℕ}
    (hb : b ∈ d.freeList) : b ∉ held := by
  obtain ⟨a, ar, ha, hi, hba⟩ := h.free_block i d hd b hb
  obtain ⟨d', hd', hsmall⟩ := h.small a ar i ha hi
  rw [hd] at hd'
  cases hd'
  exact (hsmall.free_iff b hba).mp hb

/-- `block_to_arena` finds the header of a small arena's block, all its `ASSERT`s passing. -/
theorem MallocState.blockToArena_small (hP : PagesOk s) (ha : s.arenas a = some ar)
    (hi : ar.desc = some i) (hd : s.descs[i]? = some d) (hfit : d.Fits) {b : ℕ}
    (hb : b ∈ arenaBlocks a d) : s.blockToArena b = some (a, ar) := by
  have hh := hP.header a ar ha
  simp only [MallocState.blockToArena, pgRoundDown_of_mem_arenaBlocks hfit hh.aligned hb, ha]
  simp [hi, hd, aligned_of_mem_arenaBlocks hfit hh.aligned hb, hh.ne_zero, hh.magic]

/-- The block of a big arena, likewise. -/
theorem HeapCore.blockToArena_big (h : HeapCore s held) (ha : s.arenas a = some ar)
    (hi : ar.desc = none) : s.blockToArena (a + arenaSize) = some (a, ar) := by
  have hh := h.pages.header a ar ha
  have hr : pgRoundDown (a + arenaSize) = a := by
    have := hh.aligned
    unfold pgRoundDown
    simp only [pgSize, arenaSize] at this ⊢
    omega
  have ho : pgOfs (a + arenaSize) = arenaSize := by
    have := hh.aligned
    unfold pgOfs
    simp only [pgSize, arenaSize] at this ⊢
    omega
  simp only [MallocState.blockToArena, hr, ha]
  simp [hi, ho, hh.ne_zero, hh.magic]

/-- A small arena's block lies on its page. -/
theorem HeapCore.small_on_page (h : HeapCore s held) (hi : ar.desc = some i) (hd : s.descs[i]? = some d) {c : ℕ} (hc : c ∈ arenaBlocks a d) :
    a ≤ c ∧ c < a + pgSize * ar.pageCnt := by
  have hbd := bounds_of_mem_arenaBlocks (h.fit hd) hc
  have hpos := (h.fit hd).blockSize_pos
  have hcnt : ar.pageCnt = 1 := by simp [Arena.pageCnt, hi]
  rw [hcnt]
  omega

/-- A big arena's block lies on its pages. -/
theorem HeapCore.big_on_pages (h : HeapCore s held) (ha : s.arenas a = some ar) :
    a ≤ a + arenaSize ∧ a + arenaSize < a + pgSize * ar.pageCnt := by
  have hpos := (h.pages.header a ar ha).pageCnt_pos
  have : pgSize ≤ pgSize * ar.pageCnt := Nat.le_mul_of_pos_right _ hpos
  simp only [pgSize, arenaSize] at this ⊢
  omega

/-- A block of the heap lies on the pages of its arena. -/
theorem HeapCore.mem_pages (h : HeapCore s held) {p : ℕ} (hp : s.IsBlock p) :
    ∃ a ar, s.arenas a = some ar ∧ a ≤ p ∧ p < a + pgSize * ar.pageCnt := by
  rcases hp with ⟨a, ar, i, d, ha, hi, hd, hb⟩ | ⟨a, ar, ha, -, rfl⟩
  · exact ⟨a, ar, ha, h.small_on_page hi hd hb⟩
  · exact ⟨a, ar, ha, h.big_on_pages ha⟩

theorem HeapCore.ne_zero (h : HeapCore s held) {p : ℕ} (hp : s.IsBlock p) : p ≠ 0 := by
  obtain ⟨a, ar, ha, hlo, -⟩ := h.mem_pages hp
  have := (h.pages.header a ar ha).ne_zero
  omega

/-- A block held or free does not lie on a run of free pages. -/
theorem HeapCore.not_mem_free_run (h : HeapCore s held) {p n idx : ℕ} (hp : s.IsBlock p)
    (hrun : s.usedMap.RunAt n false idx) (hn : 0 < n) :
    ¬ (s.base + pgSize * idx ≤ p ∧ p < s.base + pgSize * idx + pgSize * n) := by
  obtain ⟨a, ar, ha, hlo, hhi⟩ := h.mem_pages hp
  rcases h.pages.apart_of_free hrun hn ha with hle | hle <;> omega

/-- Whether a block is one of the heap's depends on its headers and descriptor sizes only. -/
theorem MallocState.IsBlock.congr {p : ℕ} (hp : s.IsBlock p)
    (harenas : ∀ (a : ℕ) (ar : Arena), s.arenas a = some ar →
      ∃ ar', s'.arenas a = some ar' ∧ ar'.desc = ar.desc)
    (hdescs : ∀ (i : ℕ) (d : Desc), s.descs[i]? = some d →
      ∃ d', s'.descs[i]? = some d' ∧ ∀ a, arenaBlocks a d' = arenaBlocks a d) :
    s'.IsBlock p := by
  rcases hp with ⟨a, ar, i, d, ha, hi, hd, hb⟩ | ⟨a, ar, ha, hi, rfl⟩
  · obtain ⟨ar', ha', hdesc⟩ := harenas a ar ha
    obtain ⟨d', hd', hblocks⟩ := hdescs i d hd
    exact .inl ⟨a, ar', i, d', ha', hdesc.trans hi, hd', by rw [hblocks]; exact hb⟩
  · obtain ⟨ar', ha', hdesc⟩ := harenas a ar ha
    exact .inr ⟨a, ar', ha', hdesc.trans hi, rfl⟩

/-- The invariant depends on the headers, the descriptors and the pool, not on the bytes of
memory. -/
theorem HeapInv.congr (h : HeapInv s held) (hP : PagesOk s') (harenas : s'.arenas = s.arenas)
    (hdescs : s'.descs = s.descs) : HeapInv s' held where
  pages := hP
  descs_fit i d hd := by
    rw [hdescs] at hd
    exact h.descs_fit i d hd
  small a ar i ha hi := by
    rw [harenas] at ha
    rw [hdescs]
    exact h.small a ar i ha hi
  free_block i d hd b hb := by
    rw [hdescs] at hd
    rw [harenas]
    exact h.free_block i d hd b hb
  free_nodup i d hd := by
    rw [hdescs] at hd
    exact h.free_nodup i d hd
  held_nodup := h.held_nodup
  held_block p hp := by
    unfold MallocState.IsBlock
    rw [harenas, hdescs]
    exact h.held_block p hp
  busy a ar i d ha hi hd := by
    rw [harenas] at ha
    rw [hdescs] at hd
    exact h.busy a ar i d ha hi hd

theorem HeapInv.withMem (h : HeapInv s held) (mem : ℕ → UInt8) :
    HeapInv { s with mem := mem } held :=
  h.congr ⟨h.pages.base_aligned, fun a ar ha => (h.pages.header a ar ha).congr rfl rfl,
    h.pages.no_inner⟩ rfl rfl

theorem HeapInv.markUsed (h : HeapInv s held) (idx n : ℕ) :
    HeapInv { s with usedMap := s.usedMap.setMultiple idx n true } held :=
  h.congr (h.pages.markUsed idx n) rfl rfl

end Core

/-! ## Moving blocks between a free list and the client -/

/-- Counting the members of `b :: r` over a list without repeats that holds `b` counts one more
than counting those of `r`. -/
theorem countP_mem_cons {l r : List ℕ} {b : ℕ} (hl : l.Nodup) (hb : b ∈ l) (hbr : b ∉ r) :
    l.countP (· ∈ b :: r) = l.countP (· ∈ r) + 1 := by
  have hperm := List.perm_cons_erase hb
  have hnot : b ∉ l.erase b := hl.not_mem_erase
  have hrest : (l.erase b).countP (· ∈ b :: r) = (l.erase b).countP (· ∈ r) :=
    List.countP_congr fun y hy => by
      have hyb : y ≠ b := fun e => hnot (e ▸ hy)
      simp [hyb]
  rw [hperm.countP_eq, hperm.countP_eq, List.countP_cons, List.countP_cons, hrest]
  simp [hbr]

/-- If all but `p` of a list without repeats satisfy a test `p` fails, so do all the others
once the count says so. -/
theorem forall_of_countP_add_one {l : List ℕ} {P : ℕ → Bool} {p : ℕ} (hl : l.Nodup)
    (hp : p ∈ l) (hPp : P p = false) (hcnt : l.countP P + 1 = l.length) :
    ∀ y ∈ l, y ≠ p → P y = true := by
  have hperm := List.perm_cons_erase hp
  have hlen : (l.erase p).countP P = (l.erase p).length := by
    have h₁ := hperm.countP_eq P
    have h₂ := hperm.length_eq
    rw [List.countP_cons, hPp] at h₁
    simp only [List.length_cons, Bool.false_eq_true, if_false, Nat.add_zero] at h₁ h₂
    omega
  intro y hy hyp
  exact List.countP_eq_length.mp hlen y ((List.Nodup.mem_erase_iff hl).mpr ⟨hyp, hy⟩)

section Small

variable {d d' : Desc} {held held' : List ℕ} {a : ℕ} {ar : Arena}

theorem SmallOk.freeCnt_le (h : SmallOk d held a ar) : ar.freeCnt ≤ d.blocksPerArena := by
  rw [h.freeCnt_eq, ← length_arenaBlocks (a := a)]
  exact List.countP_le_length

/-- A small arena keeps its split when neither its free list nor the client changes on its
blocks. -/
theorem SmallOk.of_agree (h : SmallOk d held a ar) (hblocks : arenaBlocks a d' = arenaBlocks a d)
    (hfree : ∀ b ∈ arenaBlocks a d, b ∈ d'.freeList ↔ b ∈ d.freeList)
    (hheld : ∀ b ∈ arenaBlocks a d, b ∈ held' ↔ b ∈ held) : SmallOk d' held' a ar where
  free_iff b hb := by
    rw [hblocks] at hb
    rw [hfree b hb, hheld b hb]
    exact h.free_iff b hb
  freeCnt_eq := by
    rw [h.freeCnt_eq, hblocks]
    exact List.countP_congr fun b hb => by simpa using (hfree b hb).symm

end Small

section Update

variable {s : MallocState} {held : List ℕ} {a i : ℕ} {ar : Arena} {d : Desc}

/-- Blocks of two arenas at different pages are different. -/
theorem HeapCore.not_mem_other (h : HeapCore s held) {x j : ℕ} {arx : Arena} {dj : Desc}
    (ha : s.arenas a = some ar) (hx : s.arenas x = some arx) (hxa : x ≠ a)
    (hd : s.descs[i]? = some d) (hdj : s.descs[j]? = some dj) {b : ℕ}
    (hb : b ∈ arenaBlocks a d) : b ∉ arenaBlocks x dj :=
  ne_of_mem_arenaBlocks (h.fit hd) (h.fit hdj) (h.pages.header a ar ha).aligned
    (h.pages.header x arx hx).aligned (Ne.symm hxa) hb

/-- A change local to small arena `a` of descriptor `i`: its free list becomes `l`, its header
counts `n`, and the client's blocks change only among `a`'s. If `a` keeps its split, the heap
keeps `HeapCore`. -/
theorem HeapCore.update (h : HeapCore s held) (ha : s.arenas a = some ar) (hi : ar.desc = some i)
    (hd : s.descs[i]? = some d) {l held' : List ℕ} {n : ℕ}
    (hsmall : SmallOk { d with freeList := l } held' a { ar with freeCnt := n })
    (hl : ∀ b ∈ l, b ∈ d.freeList ∨ b ∈ arenaBlocks a d) (hlnd : l.Nodup)
    (hfree : ∀ b, b ∉ arenaBlocks a d → (b ∈ l ↔ b ∈ d.freeList))
    (hheld : ∀ b, b ∉ arenaBlocks a d → (b ∈ held' ↔ b ∈ held))
    (hheld' : ∀ p ∈ held', p ∈ held ∨ p ∈ arenaBlocks a d) (hnd : held'.Nodup) :
    HeapCore ((s.setFreeList i l).setArena a { ar with freeCnt := n }) held' := by
  set s' := (s.setFreeList i l).setArena a { ar with freeCnt := n } with hs'
  have harenas : ∀ x, s'.arenas x = if x = a then some { ar with freeCnt := n } else s.arenas x :=
    fun x => by simp [s']
  have hdesc : ∀ {j : ℕ} {dj : Desc}, s'.descs[j]? = some dj →
      ∃ d₀, s.descs[j]? = some d₀ ∧ dj = if j = i then { d₀ with freeList := l } else d₀ :=
    fun hdj => (s.getElem?_descs_setFreeList hdj)
  have hdi : s'.descs[i]? = some { d with freeList := l } := by
    simp only [s', MallocState.descs_setArena, MallocState.descs_setFreeList, hd]
    rfl
  -- every old arena keeps its header's descriptor
  have hkeep : ∀ x arx, s.arenas x = some arx → ∃ arx', s'.arenas x = some arx' ∧ arx'.desc = arx.desc := by
    intro x arx hx
    rw [harenas]
    split
    · next hxa =>
      subst hxa
      rw [ha] at hx
      cases hx
      exact ⟨_, rfl, rfl⟩
    · exact ⟨arx, hx, rfl⟩
  refine ⟨(h.pages.setFreeList i l).setArena_of_eq ha rfl (by simp [Arena.pageCnt, hi]),
    fun j dj hdj => ?_, fun x arx j hx hj => ?_, fun j dj hdj b hb => ?_, fun j dj hdj => ?_,
    hnd, fun p hp => ?_⟩
  · obtain ⟨d₀, hd₀, rfl⟩ := hdesc hdj
    split
    · exact (h.fit hd₀).freeList l
    · exact h.fit hd₀
  · rw [harenas] at hx
    split at hx
    · next hxa =>
      cases hx
      subst hxa
      rw [hi] at hj
      cases hj
      exact ⟨_, hdi, hsmall⟩
    · next hxa =>
      obtain ⟨dj, hdj, hsm⟩ := h.small x arx j hx hj
      have hout : ∀ b ∈ arenaBlocks x dj, b ∉ arenaBlocks a d := fun b hb hba =>
        h.not_mem_other hx ha (Ne.symm hxa) hdj hd hb hba
      by_cases hji : j = i
      · subst hji
        rw [hd] at hdj
        cases hdj
        exact ⟨_, hdi, hsm.of_agree rfl (fun b hb => hfree b (hout b hb))
          (fun b hb => hheld b (hout b hb))⟩
      · have hdj' : s'.descs[j]? = some dj := by
          simp only [s', MallocState.descs_setArena, MallocState.descs_setFreeList, if_neg hji, hdj]
        exact ⟨dj, hdj', hsm.of_agree rfl (fun _ _ => Iff.rfl) (fun b hb => hheld b (hout b hb))⟩
  · obtain ⟨d₀, hd₀, rfl⟩ := hdesc hdj
    by_cases hji : j = i
    · subst hji
      rw [hd] at hd₀
      cases hd₀
      rw [if_pos rfl] at hb ⊢
      rcases hl b hb with hbf | hba
      · obtain ⟨x, arx, hx, hxi, hbx⟩ := h.free_block j d hd b hbf
        obtain ⟨arx', hx', hdesc'⟩ := hkeep x arx hx
        exact ⟨x, arx', hx', hdesc'.trans hxi, hbx⟩
      · exact ⟨a, { ar with freeCnt := n }, by rw [harenas, if_pos rfl], hi, hba⟩
    · rw [if_neg hji] at hb ⊢
      obtain ⟨x, arx, hx, hxi, hbx⟩ := h.free_block j d₀ hd₀ b hb
      obtain ⟨arx', hx', hdesc'⟩ := hkeep x arx hx
      exact ⟨x, arx', hx', hdesc'.trans hxi, hbx⟩
  · obtain ⟨d₀, hd₀, rfl⟩ := hdesc hdj
    by_cases hji : j = i
    · subst hji
      rw [hd] at hd₀
      cases hd₀
      rw [if_pos rfl]
      exact hlnd
    · rw [if_neg hji]
      exact h.free_nodup j d₀ hd₀
  · rcases hheld' p hp with hp' | hpa
    · refine (h.held_block p hp').congr hkeep fun j dj hdj => ?_
      by_cases hji : j = i
      · subst hji
        rw [hd] at hdj
        cases hdj
        exact ⟨_, hdi, fun _ => rfl⟩
      · exact ⟨dj, by simp only [s', MallocState.descs_setArena, MallocState.descs_setFreeList,
          if_neg hji, hdj], fun _ => rfl⟩
    · exact .inl ⟨a, { ar with freeCnt := n }, i, _, by rw [harenas, if_pos rfl], hi, hdi, hpa⟩

end Update

/-! ## `malloc` -/

namespace MallocState

/-- The end of `malloc` under descriptor `i`: pop the first block off the free list and count
it in use in its arena. -/
def popFree (s : MallocState) (i : ℕ) : Option (ℕ × MallocState) :=
  match (s.descs[i]?).map (·.freeList) with
  | some (b :: rest) =>
    let s₂ := s.setFreeList i rest
    match s₂.blockToArena b with
    | some (a, ar) => some (b, s₂.setArena a { ar with freeCnt := ar.freeCnt - 1 })
    | none => none
  | _ => none

variable (s : MallocState) {i : ℕ} {d : Desc}

theorem popFree_eq {b a : ℕ} {rest : List ℕ} {ar : Arena} (hd : s.descs[i]? = some d)
    (hb : d.freeList = b :: rest)
    (hbta : (s.setFreeList i rest).blockToArena b = some (a, ar)) :
    s.popFree i =
      some (b, (s.setFreeList i rest).setArena a { ar with freeCnt := ar.freeCnt - 1 }) := by
  simp only [popFree, hd, Option.map_some, hb, hbta]

theorem mallocFrom_of_ne_nil (h : d.freeList ≠ []) : s.mallocFrom i d = s.popFree i := by
  simp only [mallocFrom, if_neg h]
  rfl

theorem mallocFrom_of_nil_null (h : d.freeList = []) {s₁ : MallocState}
    (hp : s.pallocGetMultiple 1 = (0, s₁)) : s.mallocFrom i d = some (0, s) := by
  simp only [mallocFrom, if_pos h, hp]

theorem mallocFrom_of_nil {a : ℕ} {s₁ : MallocState} (h : d.freeList = [])
    (hp : s.pallocGetMultiple 1 = (a, s₁)) (ha : a ≠ 0) :
    s.mallocFrom i d = ((s₁.setArena a ⟨arenaMagic, some i, d.blocksPerArena⟩).setFreeList i
      (arenaBlocks a d)).popFree i := by
  obtain ⟨n, rfl⟩ := Nat.exists_eq_succ_of_ne_zero ha
  simp only [mallocFrom, if_pos h, hp]
  rfl

end MallocState

section Malloc

variable {s : MallocState} {held : List ℕ} {i : ℕ} {d : Desc}

/-- Every small arena, but perhaps the one of block `b`, has a block in use. -/
def BusyExcept (s : MallocState) (b : ℕ) : Prop :=
  ∀ a ar i d, s.arenas a = some ar → ar.desc = some i → s.descs[i]? = some d →
    b ∉ arenaBlocks a d → ar.freeCnt < d.blocksPerArena

/-- Taking the first free block of a descriptor succeeds, and the client then holds it. -/
theorem HeapCore.popFree (h : HeapCore s held) {b : ℕ} {rest : List ℕ} (hbusy : BusyExcept s b)
    (hd : s.descs[i]? = some d) (hb : d.freeList = b :: rest) :
    ∃ s', s.popFree i = some (b, s') ∧ HeapInv s' (b :: held) := by
  have hbfree : b ∈ d.freeList := by
    rw [hb]
    exact List.mem_cons_self
  obtain ⟨a, ar, ha, hi, hba⟩ := h.free_block i d hd b hbfree
  obtain ⟨d₀, hd₀, hsmall⟩ := h.small a ar i ha hi
  rw [hd] at hd₀
  cases hd₀
  have hfit := h.fit hd
  have hnd : (b :: rest).Nodup := hb ▸ h.free_nodup i d hd
  have hbrest : b ∉ rest := (List.nodup_cons.mp hnd).1
  have hbheld : b ∉ held := h.not_held_of_free hd hbfree
  have hd₂ : (s.setFreeList i rest).descs[i]? = some { d with freeList := rest } := by
    simp only [MallocState.descs_setFreeList, hd]
    rfl
  have hbta : (s.setFreeList i rest).blockToArena b = some (a, ar) :=
    MallocState.blockToArena_small (h.pages.setFreeList i rest) ha hi hd₂ (hfit.freeList rest) hba
  refine ⟨_, s.popFree_eq hd hb hbta, ?_⟩
  -- the arena of `b` now counts one free block fewer and the client holds `b`
  have hsmall' : SmallOk { d with freeList := rest } (b :: held) a
      { ar with freeCnt := ar.freeCnt - 1 } := by
    refine ⟨fun c hc => ?_, ?_⟩
    · by_cases hcb : c = b
      · subst hcb
        simp [hbrest]
      · have := hsmall.free_iff c hc
        rw [hb] at this
        simpa [hcb] using this
    · have hcnt := hsmall.freeCnt_eq
      rw [hb, countP_mem_cons (nodup_arenaBlocks hfit) hba hbrest] at hcnt
      simp only [arenaBlocks_freeList]
      omega
  have hcore := h.update ha hi hd hsmall' (fun c hc => .inl (by rw [hb]; exact List.mem_cons_of_mem b hc))
    (List.nodup_cons.mp hnd).2
    (fun c hc => by
      have hcb : c ≠ b := fun e => hc (e ▸ hba)
      rw [hb]
      simp [hcb])
    (fun c hc => by
      have hcb : c ≠ b := fun e => hc (e ▸ hba)
      simp [hcb])
    (fun p hp => by
      rcases List.mem_cons.mp hp with rfl | hp
      · exact .inr hba
      · exact .inl hp)
    (List.nodup_cons.mpr ⟨hbheld, h.held_nodup⟩)
  refine ⟨hcore, fun x arx j dj hx hj hdj => ?_⟩
  simp only [MallocState.arenas_setArena, MallocState.arenas_setFreeList] at hx
  split at hx
  · next hxa =>
    cases hx
    subst hxa
    rw [hi] at hj
    cases hj
    simp only [MallocState.descs_setArena, MallocState.descs_setFreeList, hd, if_true,
      Option.map_some, Option.some.injEq] at hdj
    subst hdj
    have := hsmall.freeCnt_le
    have := hfit.blocksPerArena_pos
    simp only
    omega
  · next hxa =>
    obtain ⟨d₀, hd₀, rfl⟩ := s.getElem?_descs_setFreeList (by simpa using hdj)
    have hlt := hbusy x arx j d₀ hx hj hd₀ fun hbx =>
      h.not_mem_other hx ha (Ne.symm hxa) hd₀ hd hbx hba
    split <;> exact hlt

end Malloc

/-! ## New arenas -/

section NewArena

variable {s : MallocState} {held : List ℕ} {n idx a : ℕ}

/-- No block of the heap is a block of an arena about to be written at a page without a
header. -/
theorem HeapCore.not_mem_new (h : HeapCore s held) (hnone : s.arenas a = none)
    (haligned : a % pgSize = 0) {d : Desc} (hfit : d.Fits) {q : ℕ} (hq : s.IsBlock q) :
    q ∉ arenaBlocks a d := by
  rcases hq with ⟨x, arx, j, dj, hx, -, hdj, hqx⟩ | ⟨x, arx, hx, -, rfl⟩
  · have hxa : x ≠ a := by
      rintro rfl
      rw [hnone] at hx
      cases hx
    exact ne_of_mem_arenaBlocks (h.fit hdj) hfit (h.pages.header x arx hx).aligned haligned
      hxa hqx
  · intro hqa
    have hr := pgRoundDown_of_mem_arenaBlocks hfit haligned hqa
    have hx' := (h.pages.header x arx hx).aligned
    have hxa : x ≠ a := by
      rintro rfl
      rw [hnone] at hx
      cases hx
    unfold pgRoundDown at hr
    simp only [pgSize, arenaSize] at hr hx' haligned
    omega

/-- A big block's arena written on a run of free pages: the client then holds its block. -/
theorem HeapInv.bigArena (h : HeapInv s held) (hrun : s.usedMap.RunAt n false idx) (hn : 0 < n)
    (ha : s.base + pgSize * idx = a) (ha0 : a ≠ 0) :
    HeapInv (({ s with usedMap := s.usedMap.setMultiple idx n true } : MallocState).setArena
      a ⟨arenaMagic, none, n⟩) ((a + arenaSize) :: held) := by
  subst ha
  obtain ⟨hnone, hP⟩ := h.pages.newArena hrun hn ha0
    (show (⟨arenaMagic, none, n⟩ : Arena).magic = arenaMagic from rfl) rfl
  set a := s.base + pgSize * idx with hadef
  have harenas : ∀ x, (({ s with usedMap := s.usedMap.setMultiple idx n true } :
      MallocState).setArena a ⟨arenaMagic, none, n⟩).arenas x =
        if x = a then some ⟨arenaMagic, none, n⟩ else s.arenas x := fun x => by
    simp
  have hkeep : ∀ x arx, s.arenas x = some arx → x ≠ a := by
    rintro x arx hx rfl
    rw [hnone] at hx
    cases hx
  -- the new block lies on the new pages, where no block of the heap lies
  have hon : s.base + pgSize * idx ≤ a + arenaSize ∧
      a + arenaSize < s.base + pgSize * idx + pgSize * n := by
    simp only [hadef, pgSize, arenaSize]
    omega
  have hnew : ∀ q, s.IsBlock q → q ≠ a + arenaSize := fun q hq hqa =>
    h.not_mem_free_run hq hrun hn (hqa ▸ hon)
  refine ⟨⟨hP, h.descs_fit, fun x arx j hx hj => ?_, fun j dj hdj b hb => ?_, h.free_nodup,
    List.nodup_cons.mpr ⟨fun hq => hnew _ (h.held_block _ hq) rfl, h.held_nodup⟩,
    fun p hp => ?_⟩, fun x arx j dj hx hj hdj => ?_⟩
  · rw [harenas] at hx
    split at hx
    · cases hx
      cases hj
    · obtain ⟨dj, hdj, hsm⟩ := h.small x arx j hx hj
      refine ⟨dj, hdj, hsm.of_agree rfl (fun _ _ => Iff.rfl) fun c hc => ?_⟩
      have hca : c ≠ a + arenaSize := hnew c (.inl ⟨x, arx, j, dj, hx, hj, hdj, hc⟩)
      simp [hca]
  · obtain ⟨x, arx, hx, hxj, hbx⟩ := h.free_block j dj hdj b hb
    exact ⟨x, arx, by rw [harenas, if_neg (hkeep x arx hx)]; exact hx, hxj, hbx⟩
  · rcases List.mem_cons.mp hp with rfl | hp
    · exact .inr ⟨a, _, by rw [harenas, if_pos rfl], rfl, rfl⟩
    · refine (h.held_block p hp).congr (fun x arx hx => ⟨arx, ?_, rfl⟩)
        fun j dj hdj => ⟨dj, hdj, fun _ => rfl⟩
      rw [harenas, if_neg (hkeep x arx hx)]
      exact hx
  · rw [harenas] at hx
    split at hx
    · cases hx
      cases hj
    · exact h.busy x arx j dj hx hj hdj

/-- A small arena written on a free page, all its blocks put on the descriptor's empty free
list: the heap keeps `HeapCore`, every small arena but the new one has a block in use, and the
first block is the first on the list. -/
theorem HeapInv.smallArena (h : HeapInv s held) {i : ℕ} {d : Desc} (hd : s.descs[i]? = some d)
    (hnil : d.freeList = []) (hrun : s.usedMap.RunAt 1 false idx)
    (ha : s.base + pgSize * idx = a) (ha0 : a ≠ 0) :
    let s₂ := ((({ s with usedMap := s.usedMap.setMultiple idx 1 true } : MallocState).setArena
      a ⟨arenaMagic, some i, d.blocksPerArena⟩).setFreeList i (arenaBlocks a d))
    HeapCore s₂ held ∧ BusyExcept s₂ (a + arenaSize) ∧
      s₂.descs[i]? = some { d with freeList := arenaBlocks a d } := by
  subst ha
  obtain ⟨hnone, hP⟩ :=
    h.pages.newArena hrun Nat.one_pos ha0
      (show (⟨arenaMagic, some i, d.blocksPerArena⟩ : Arena).magic = arenaMagic from rfl) rfl
  set a := s.base + pgSize * idx with hadef
  intro s₂
  have hfit := h.fit hd
  have haligned : a % pgSize = 0 := by
    have := h.pages.base_aligned
    simp only [hadef, pgSize] at this ⊢
    omega
  have harenas : ∀ x, s₂.arenas x =
      if x = a then some ⟨arenaMagic, some i, d.blocksPerArena⟩ else s.arenas x := fun x => by
    simp [s₂]
  have hkeep : ∀ x arx, s.arenas x = some arx → x ≠ a := by
    rintro x arx hx rfl
    rw [hnone] at hx
    cases hx
  have hdi : s₂.descs[i]? = some { d with freeList := arenaBlocks a d } := by
    simp only [s₂, MallocState.descs_setFreeList, MallocState.descs_setArena, hd, if_true,
      Option.map_some]
  have hdesc : ∀ {j : ℕ} {dj : Desc}, s₂.descs[j]? = some dj →
      ∃ d₀, s.descs[j]? = some d₀ ∧ dj = if j = i then { d₀ with freeList := arenaBlocks a d } else d₀ :=
    fun hdj => MallocState.getElem?_descs_setFreeList _ hdj
  -- blocks of old arenas are not blocks of the new one
  have hout : ∀ x arx j dj, s.arenas x = some arx → s.descs[j]? = some dj →
      ∀ c ∈ arenaBlocks x dj, c ∉ arenaBlocks a d := fun x arx j dj hx hdj c hc =>
    ne_of_mem_arenaBlocks (h.fit hdj) hfit (h.pages.header x arx hx).aligned haligned
      (hkeep x arx hx) hc
  have hheld : ∀ q ∈ held, q ∉ arenaBlocks a d := fun q hq =>
    h.not_mem_new hnone haligned hfit (h.held_block q hq)
  refine ⟨⟨hP.setFreeList i _, fun j dj hdj => ?_, fun x arx j hx hj => ?_,
    fun j dj hdj b hb => ?_, fun j dj hdj => ?_, h.held_nodup, fun p hp => ?_⟩,
    fun x arx j dj hx hj hdj hbx => ?_, hdi⟩
  · obtain ⟨d₀, hd₀, rfl⟩ := hdesc hdj
    split
    · exact (h.fit hd₀).freeList _
    · exact h.fit hd₀
  · rw [harenas] at hx
    split at hx
    · next hxa =>
      cases hx
      cases hj
      rw [hxa]
      refine ⟨_, hdi, fun c hc => ⟨fun _ hq => hheld c hq hc, fun _ => hc⟩, ?_⟩
      exact ((List.countP_eq_length.mpr fun c hc => by simpa using hc).trans
        length_arenaBlocks).symm
    · next hxa =>
      obtain ⟨dj, hdj, hsm⟩ := h.small x arx j hx hj
      have hfree : ∀ c ∈ arenaBlocks x dj, c ∈ (if j = i then
          ({ dj with freeList := arenaBlocks a d } : Desc) else dj).freeList ↔ c ∈ dj.freeList := by
        intro c hc
        split
        · next hji =>
          subst hji
          rw [hd] at hdj
          cases hdj
          rw [hnil]
          simpa using hout x arx j d hx hd c hc
        · exact Iff.rfl
      refine ⟨_, ?_, hsm.of_agree (by split <;> rfl) hfree fun _ _ => Iff.rfl⟩
      simp only [s₂, MallocState.descs_setFreeList, MallocState.descs_setArena]
      split
      · next hji =>
        subst hji
        rw [hd] at hdj
        cases hdj
        simp [hd]
      · exact hdj
  · obtain ⟨d₀, hd₀, rfl⟩ := hdesc hdj
    split at hb
    · next hji =>
      subst hji
      rw [hd] at hd₀
      cases hd₀
      refine ⟨a, _, by rw [harenas, if_pos rfl], rfl, ?_⟩
      simpa using hb
    · next hji =>
      obtain ⟨x, arx, hx, hxj, hbx⟩ := h.free_block j d₀ hd₀ b hb
      refine ⟨x, arx, by rw [harenas, if_neg (hkeep x arx hx)]; exact hx, hxj, ?_⟩
      simpa [hji] using hbx
  · obtain ⟨d₀, hd₀, rfl⟩ := hdesc hdj
    split
    · exact nodup_arenaBlocks hfit
    · exact h.free_nodup j d₀ hd₀
  · refine (h.held_block p hp).congr (fun x arx hx => ⟨arx, ?_, rfl⟩) fun j dj hdj => ?_
    · rw [harenas, if_neg (hkeep x arx hx)]
      exact hx
    · by_cases hji : j = i
      · subst hji
        rw [hd] at hdj
        cases hdj
        exact ⟨_, hdi, fun _ => rfl⟩
      · exact ⟨dj, by simp only [s₂, MallocState.descs_setFreeList, MallocState.descs_setArena,
          if_neg hji, hdj], fun _ => rfl⟩
  · rw [harenas] at hx
    split at hx
    · next hxa =>
      -- the new arena is the one whose first block is excepted
      cases hx
      cases hj
      obtain ⟨d₀, hd₀, rfl⟩ := hdesc hdj
      rw [hd] at hd₀
      cases hd₀
      obtain ⟨rest, hrest⟩ := arenaBlocks_eq_cons (a := a) hfit
      rw [hxa, if_pos rfl, arenaBlocks_freeList, hrest] at hbx
      exact absurd List.mem_cons_self hbx
    · obtain ⟨d₀, hd₀, rfl⟩ := hdesc hdj
      have hlt := h.busy x arx j d₀ hx hj hd₀
      split <;> exact hlt

end NewArena

/-! ## `free` -/

section Free

variable {s : MallocState} {held : List ℕ} {a i p : ℕ} {ar : Arena} {d : Desc}

/-- A block of the heap on arena `a`'s pages is one of `a`'s blocks. -/
theorem HeapCore.block_on_pages (h : HeapCore s held) (ha : s.arenas a = some ar) {q : ℕ}
    (hq : s.IsBlock q) (hon : a ≤ q ∧ q < a + pgSize * ar.pageCnt) :
    (∃ i d, ar.desc = some i ∧ s.descs[i]? = some d ∧ q ∈ arenaBlocks a d) ∨
      (ar.desc = none ∧ q = a + arenaSize) := by
  rcases hq with ⟨x, arx, j, dj, hx, hj, hdj, hqx⟩ | ⟨x, arx, hx, hj, rfl⟩
  · have hxa := h.pages.eq_of_mem_pages hx ha (h.small_on_page hj hdj hqx) hon
    subst hxa
    rw [ha] at hx
    cases hx
    exact .inl ⟨j, dj, hj, hdj, hqx⟩
  · have hxa := h.pages.eq_of_mem_pages hx ha (h.big_on_pages hx) hon
    subst hxa
    rw [ha] at hx
    cases hx
    exact .inr ⟨hj, rfl⟩

/-- Dropping the header of arena `a`, with its blocks gone from every free list and from the
client: the heap keeps its invariant. -/
theorem HeapInv.dropArena (h : HeapInv s held) (ha : s.arenas a = some ar) {s' : MallocState}
    {held' : List ℕ} (hP : PagesOk s') (harenas : s'.arenas = Function.update s.arenas a none)
    (hdescs : ∀ (j : ℕ) (d' : Desc), s'.descs[j]? = some d' → ∃ d, s.descs[j]? = some d ∧
      d'.blockSize = d.blockSize ∧ d'.blocksPerArena = d.blocksPerArena ∧ d'.freeList.Nodup ∧
      ∀ c, c ∈ d'.freeList ↔ c ∈ d.freeList ∧ ¬ (a ≤ c ∧ c < a + pgSize * ar.pageCnt))
    (hdescs' : ∀ (j : ℕ) (d : Desc), s.descs[j]? = some d → ∃ d', s'.descs[j]? = some d')
    (hheld : ∀ q, q ∈ held' ↔ q ∈ held ∧ ¬ (a ≤ q ∧ q < a + pgSize * ar.pageCnt))
    (hnd : held'.Nodup) : HeapInv s' held' := by
  have hblocks : ∀ {d' d : Desc}, d'.blockSize = d.blockSize →
      d'.blocksPerArena = d.blocksPerArena → ∀ x, arenaBlocks x d' = arenaBlocks x d := by
    intro d' d h₁ h₂ x
    simp only [arenaBlocks, h₁, h₂]
  have hkeep : ∀ x, x ≠ a → s'.arenas x = s.arenas x := fun x hxa => by
    rw [harenas, Function.update_of_ne hxa]
  have hold : ∀ x arx, s'.arenas x = some arx → x ≠ a ∧ s.arenas x = some arx := by
    intro x arx hx
    have hxa : x ≠ a := by
      rintro rfl
      rw [harenas, Function.update_self] at hx
      cases hx
    exact ⟨hxa, by rw [← hkeep x hxa]; exact hx⟩
  -- another arena's blocks lie off `a`'s pages
  have hoff : ∀ x arx, s.arenas x = some arx → x ≠ a → ∀ c,
      x ≤ c ∧ c < x + pgSize * arx.pageCnt → ¬ (a ≤ c ∧ c < a + pgSize * ar.pageCnt) :=
    fun x arx hx hxa c hc hca => hxa (h.pages.eq_of_mem_pages hx ha hc hca)
  refine ⟨⟨hP, fun j d' hd' => ?_, fun x arx j hx hj => ?_, fun j d' hd' c hc => ?_,
    fun j d' hd' => ?_, hnd, fun q hq => ?_⟩, fun x arx j d' hx hj hd' => ?_⟩
  · obtain ⟨d, hd, h₁, h₂, -, -⟩ := hdescs j d' hd'
    have hfit := h.fit hd
    exact ⟨h₁ ▸ hfit.blockSize_pos, h₂ ▸ hfit.blocksPerArena_pos, h₁ ▸ h₂ ▸ hfit.le_pgSize⟩
  · obtain ⟨hxa, hx⟩ := hold x arx hx
    obtain ⟨dj, hdj, hsm⟩ := h.small x arx j hx hj
    obtain ⟨d', hd'⟩ := hdescs' j dj hdj
    obtain ⟨d₀, hd₀, h₁, h₂, -, hmem⟩ := hdescs j d' hd'
    rw [hdj] at hd₀
    cases hd₀
    refine ⟨d', hd', hsm.of_agree (hblocks h₁ h₂ x) (fun c hc => ?_) (fun c hc => ?_)⟩
    · rw [hmem]
      exact and_iff_left (hoff x arx hx hxa c (h.small_on_page hj hdj hc))
    · rw [hheld]
      exact and_iff_left (hoff x arx hx hxa c (h.small_on_page hj hdj hc))
  · obtain ⟨d, hd, h₁, h₂, -, hmem⟩ := hdescs j d' hd'
    obtain ⟨hcf, hcoff⟩ := (hmem c).mp hc
    obtain ⟨x, arx, hx, hxj, hcx⟩ := h.free_block j d hd c hcf
    have hxa : x ≠ a := by
      rintro rfl
      rw [ha] at hx
      cases hx
      exact hcoff (h.small_on_page hxj hd hcx)
    exact ⟨x, arx, by rw [hkeep x hxa]; exact hx, hxj, by rw [hblocks h₁ h₂]; exact hcx⟩
  · obtain ⟨d, -, -, -, hnd', -⟩ := hdescs j d' hd'
    exact hnd'
  · obtain ⟨hq, hqoff⟩ := (hheld q).mp hq
    rcases h.held_block q hq with ⟨x, arx, j, dj, hx, hj, hdj, hqx⟩ | ⟨x, arx, hx, hj, rfl⟩
    · have hxa : x ≠ a := by
        rintro rfl
        rw [ha] at hx
        cases hx
        exact hqoff (h.small_on_page hj hdj hqx)
      obtain ⟨d', hd'⟩ := hdescs' j dj hdj
      obtain ⟨d₀, hd₀, h₁, h₂, -, -⟩ := hdescs j d' hd'
      rw [hdj] at hd₀
      cases hd₀
      exact .inl ⟨x, arx, j, d', by rw [hkeep x hxa]; exact hx, hj, hd',
        by rw [hblocks h₁ h₂]; exact hqx⟩
    · have hxa : x ≠ a := by
        rintro rfl
        rw [ha] at hx
        cases hx
        exact hqoff (h.big_on_pages ha)
      exact .inr ⟨x, arx, by rw [hkeep x hxa]; exact hx, hj, rfl⟩
  · obtain ⟨-, hx⟩ := hold x arx hx
    obtain ⟨d, hd, -, h₂, -, -⟩ := hdescs j d' hd'
    rw [h₂]
    exact h.busy x arx j d hx hj hd

/-- A held block of a small arena coming back while another of its blocks stays in use: it goes
on the free list and the header counts it. -/
theorem HeapInv.freeSmall (h : HeapInv s held) (ha : s.arenas a = some ar) (hi : ar.desc = some i)
    (hd : s.descs[i]? = some d) (hp : p ∈ held) (hpa : p ∈ arenaBlocks a d)
    (hbusy : ar.freeCnt + 1 < d.blocksPerArena) :
    HeapInv ((s.setFreeList i (p :: d.freeList)).setArena a { ar with freeCnt := ar.freeCnt + 1 })
      (held.erase p) := by
  obtain ⟨d₀, hd₀, hsmall⟩ := h.small a ar i ha hi
  rw [hd] at hd₀
  cases hd₀
  have hpf : p ∉ d.freeList := fun hpf => (hsmall.free_iff p hpa).mp hpf hp
  have hpe : p ∉ held.erase p := h.held_nodup.not_mem_erase
  have hsmall' : SmallOk { d with freeList := p :: d.freeList } (held.erase p) a
      { ar with freeCnt := ar.freeCnt + 1 } := by
    refine ⟨fun c hc => ?_, ?_⟩
    · by_cases hcp : c = p
      · subst hcp
        simp [hpe]
      · have := hsmall.free_iff c hc
        simpa [hcp, List.mem_erase_of_ne hcp] using this
    · have hcnt := hsmall.freeCnt_eq
      simp only [arenaBlocks_freeList]
      rw [countP_mem_cons (nodup_arenaBlocks (h.fit hd)) hpa hpf]
      omega
  have hcore := h.update ha hi hd hsmall'
    (fun c hc => by
      rcases List.mem_cons.mp hc with rfl | hc
      · exact .inr hpa
      · exact .inl hc)
    (List.nodup_cons.mpr ⟨hpf, h.free_nodup i d hd⟩)
    (fun c hc => by
      have hcp : c ≠ p := fun e => hc (e ▸ hpa)
      simp [hcp])
    (fun c hc => List.mem_erase_of_ne fun e => hc (e ▸ hpa))
    (fun q hq => .inl (List.mem_of_mem_erase hq)) (h.held_nodup.erase p)
  refine ⟨hcore, fun x arx j dj hx hj hdj => ?_⟩
  simp only [MallocState.arenas_setArena, MallocState.arenas_setFreeList] at hx
  split at hx
  · next hxa =>
    cases hx
    subst hxa
    rw [hi] at hj
    cases hj
    simp only [MallocState.descs_setArena, MallocState.descs_setFreeList, hd, if_true,
      Option.map_some, Option.some.injEq] at hdj
    subst hdj
    exact hbusy
  · obtain ⟨d₀, hd₀, rfl⟩ := s.getElem?_descs_setFreeList (by simpa using hdj)
    have hlt := h.busy x arx j d₀ hx hj hd₀
    split <;> exact hlt

/-- The last block of a small arena coming back: `free` unlinks all of the arena's blocks from
the free list and gives its page back to the pool. -/
theorem HeapInv.release (h : HeapInv s held) (ha : s.arenas a = some ar) (hi : ar.desc = some i)
    (hd : s.descs[i]? = some d) (hp : p ∈ held) (hpa : p ∈ arenaBlocks a d)
    (hlast : ar.freeCnt + 1 = d.blocksPerArena) :
    ∃ s', (((s.setFreeList i (p :: d.freeList)).setArena a
        { ar with freeCnt := ar.freeCnt + 1 }).setFreeList i
        ((arenaBlocks a d).foldl List.erase (p :: d.freeList))).pallocFreeMultiple a 1 = some s' ∧
      HeapInv s' (held.erase p) := by
  obtain ⟨d₀, hd₀, hsmall⟩ := h.small a ar i ha hi
  rw [hd] at hd₀
  cases hd₀
  have hfit := h.fit hd
  have hpf : p ∉ d.freeList := fun hpf => (hsmall.free_iff p hpa).mp hpf hp
  have hl : (p :: d.freeList).Nodup := List.nodup_cons.mpr ⟨hpf, h.free_nodup i d hd⟩
  -- the count says every other block of the arena is already free
  have hall : ∀ c ∈ arenaBlocks a d, c ≠ p → c ∈ d.freeList := by
    have hcnt : (arenaBlocks a d).countP (· ∈ d.freeList) + 1 = (arenaBlocks a d).length := by
      rw [← hsmall.freeCnt_eq, length_arenaBlocks]
      exact hlast
    intro c hc hcp
    simpa using forall_of_countP_add_one (nodup_arenaBlocks hfit) hpa (by simpa using hpf) hcnt
      c hc hcp
  set L := (arenaBlocks a d).foldl List.erase (p :: d.freeList) with hLdef
  have hL : ∀ c, c ∈ L ↔ c ∈ p :: d.freeList ∧ c ∉ arenaBlocks a d := fun c => by
    rw [hLdef, ← List.diff_eq_foldl]
    exact hl.mem_sdiff_iff
  set ar' : Arena := { ar with freeCnt := ar.freeCnt + 1 }
  set s₃ := ((s.setFreeList i (p :: d.freeList)).setArena a ar').setFreeList i L
  have hP₃ : PagesOk s₃ :=
    ((h.pages.setFreeList i _).setArena_of_eq ha (show ar'.magic = ar.magic from rfl)
      (by simp [ar', Arena.pageCnt, hi])).setFreeList i L
  have ha₃ : s₃.arenas a = some ar' := by simp [s₃]
  have hcnt : ar'.pageCnt = 1 := by simp [ar', Arena.pageCnt, hi]
  have hdesc₃ : ∀ j, s₃.descs[j]? = if j = i then some { d with freeList := L } else s.descs[j]? := by
    intro j
    simp only [s₃, MallocState.descs_setFreeList, MallocState.descs_setArena, hd]
    split <;> rfl
  obtain ⟨s', hfree, hdescs', hbase', harenas', hused'⟩ :=
    MallocState.pallocFreeMultiple_arena hP₃ ha₃
  rw [hcnt] at hfree
  refine ⟨s', hfree, h.dropArena ha (hP₃.freeArena ha₃ hbase' harenas' hused') ?_ ?_ ?_ ?_
    (h.held_nodup.erase p)⟩
  · rw [harenas']
    exact Function.update_idem _ _ _
  · intro j d' hd'
    rw [hdescs', hdesc₃] at hd'
    split at hd'
    · next hji =>
      subst hji
      cases hd'
      refine ⟨d, hd, rfl, rfl, ?_, fun c => ?_⟩
      · rw [hLdef, ← List.diff_eq_foldl]
        exact hl.diff
      · rw [hL]
        constructor
        · rintro ⟨hc, hca⟩
          have hcp : c ≠ p := fun e => hca (e ▸ hpa)
          have hcf : c ∈ d.freeList := (List.mem_cons.mp hc).resolve_left hcp
          refine ⟨hcf, fun hon => hca ?_⟩
          obtain ⟨x, arx, hx, hxj, hcx⟩ := h.free_block j d hd c hcf
          rcases h.block_on_pages ha (.inl ⟨x, arx, j, d, hx, hxj, hd, hcx⟩) hon with
            ⟨j', d', hj', hd', hca'⟩ | ⟨hnone, -⟩
          · rw [hi] at hj'
            cases hj'
            rw [hd] at hd'
            cases hd'
            exact hca'
          · rw [hi] at hnone
            cases hnone
        · rintro ⟨hcf, hoff⟩
          exact ⟨List.mem_cons_of_mem p hcf, fun hca => hoff (h.small_on_page hi hd hca)⟩
    · next hji =>
      refine ⟨d', hd', rfl, rfl, h.free_nodup j d' hd', fun c => ⟨fun hc => ⟨hc, fun hon => ?_⟩,
        And.left⟩⟩
      obtain ⟨x, arx, hx, hxj, hcx⟩ := h.free_block j d' hd' c hc
      rcases h.block_on_pages ha (.inl ⟨x, arx, j, d', hx, hxj, hd', hcx⟩) hon with
        ⟨j', d'', hj', -, -⟩ | ⟨hnone, -⟩
      · -- the free block would be of arena `a`, whose descriptor is `i`
        have hxa := h.pages.eq_of_mem_pages hx ha (h.small_on_page hxj hd' hcx) hon
        subst hxa
        rw [ha] at hx
        cases hx
        rw [hi] at hxj
        cases hxj
        exact hji rfl
      · rw [hi] at hnone
        cases hnone
  · intro j d₀ hd₀
    rw [hdescs', hdesc₃]
    split
    · exact ⟨_, rfl⟩
    · exact ⟨d₀, hd₀⟩
  · intro q
    rw [h.held_nodup.mem_erase_iff]
    constructor
    · rintro ⟨hqp, hq⟩
      refine ⟨hq, fun hon => ?_⟩
      rcases h.block_on_pages ha (h.held_block q hq) hon with ⟨j, d', hj, hd', hqa⟩ | ⟨hnone, -⟩
      · rw [hi] at hj
        cases hj
        rw [hd] at hd'
        cases hd'
        exact h.not_held_of_free hd (hall q hqa hqp) hq
      · rw [hi] at hnone
        cases hnone
    · rintro ⟨hq, hoff⟩
      exact ⟨fun hqp => hoff (hqp ▸ h.small_on_page hi hd hpa), hq⟩

/-- A big block coming back: its pages go back to the pool. -/
theorem HeapInv.freeBig (h : HeapInv s held) (ha : s.arenas a = some ar) (hi : ar.desc = none) :
    ∃ s', s.pallocFreeMultiple a ar.freeCnt = some s' ∧
      HeapInv s' (held.erase (a + arenaSize)) := by
  have hcnt : ar.pageCnt = ar.freeCnt := by simp [Arena.pageCnt, hi]
  obtain ⟨s', hfree, hdescs', hbase', harenas', hused'⟩ :=
    MallocState.pallocFreeMultiple_arena h.pages ha
  rw [hcnt] at hfree
  refine ⟨s', hfree, h.dropArena ha (h.pages.freeArena ha hbase' (by rw [harenas']) hused')
    harenas' ?_ ?_ ?_ (h.held_nodup.erase _)⟩
  · intro j d hd
    rw [hdescs'] at hd
    refine ⟨d, hd, rfl, rfl, h.free_nodup j d hd, fun c => ⟨fun hc => ⟨hc, fun hon => ?_⟩,
      And.left⟩⟩
    -- a free block is a small arena's, and `a` is a big one
    obtain ⟨x, arx, hx, hxj, hcx⟩ := h.free_block j d hd c hc
    have hxa := h.pages.eq_of_mem_pages hx ha (h.small_on_page hxj hd hcx) hon
    subst hxa
    rw [ha] at hx
    cases hx
    rw [hi] at hxj
    cases hxj
  · intro j d hd
    exact ⟨d, by rw [hdescs']; exact hd⟩
  · intro q
    rw [h.held_nodup.mem_erase_iff]
    constructor
    · rintro ⟨hqp, hq⟩
      refine ⟨hq, fun hon => ?_⟩
      rcases h.block_on_pages ha (h.held_block q hq) hon with ⟨j, -, hj, -, -⟩ | ⟨-, hqa⟩
      · rw [hi] at hj
        cases hj
      · exact hqp hqa
    · rintro ⟨hq, hoff⟩
      exact ⟨fun hqp => hoff (hqp ▸ h.big_on_pages ha), hq⟩

end Free

/-! ## Whole calls -/

/-- The blocks the client holds after a call returns `p`: `p` too, unless it is `NULL`. -/
def withBlock (p : ℕ) (held : List ℕ) : List ℕ := if p = 0 then held else p :: held

section Calls

variable {s : MallocState} {held : List ℕ}

/-- `malloc` from a heap with the invariant never fails an `ASSERT`, and keeps the invariant
with the block it returns held by the client. -/
theorem HeapInv.malloc (h : HeapInv s held) (size : ℕ) :
    ∃ p s', s.malloc size = some (p, s') ∧ HeapInv s' (withBlock p held) := by
  unfold MallocState.malloc
  by_cases hs : size = 0
  · rw [if_pos hs]
    exact ⟨0, s, rfl, by simpa [withBlock] using h⟩
  rw [if_neg hs]
  cases hf : s.descs.findIdx? (fun d => decide (size ≤ d.blockSize)) with
  | none =>
    -- a big block: a run of pages of its own
    dsimp only
    rcases s.pallocGetMultiple_cases (bigPageCnt size) with hp | ⟨idx, hn, hrun, hp⟩
    · rw [hp]
      exact ⟨0, s, rfl, by simpa [withBlock] using h⟩
    · rw [hp]
      by_cases ha0 : s.base + pgSize * idx = 0
      · rw [ha0]
        exact ⟨0, _, rfl, by simpa [withBlock] using h.markUsed idx (bigPageCnt size)⟩
      · obtain ⟨k, hk⟩ := Nat.exists_eq_succ_of_ne_zero ha0
        rw [hk]
        refine ⟨k + 1 + arenaSize, _, rfl, ?_⟩
        rw [withBlock, if_neg (by omega)]
        exact h.bigArena hrun hn hk (by omega)
  | some i =>
    -- a small block from the descriptor found
    obtain ⟨hlt, -⟩ := List.findIdx?_eq_some_iff_getElem.mp hf
    have hd : s.descs[i]? = some s.descs[i] := List.getElem?_eq_getElem hlt
    dsimp only
    rw [hd]
    dsimp only
    set d := s.descs[i]
    by_cases hnil : d.freeList = []
    · rcases s.pallocGetMultiple_cases 1 with hp | ⟨idx, -, hrun, hp⟩
      · rw [s.mallocFrom_of_nil_null hnil hp]
        exact ⟨0, s, rfl, by simpa [withBlock] using h⟩
      · by_cases ha0 : s.base + pgSize * idx = 0
        · rw [ha0] at hp
          rw [s.mallocFrom_of_nil_null hnil hp]
          exact ⟨0, s, rfl, by simpa [withBlock] using h⟩
        · rw [s.mallocFrom_of_nil hnil hp ha0]
          obtain ⟨hcore, hbusy, hdi⟩ := h.smallArena hd hnil hrun rfl ha0
          obtain ⟨rest, hrest⟩ := arenaBlocks_eq_cons (a := s.base + pgSize * idx) (h.fit hd)
          obtain ⟨s', hpop, hinv⟩ := hcore.popFree hbusy hdi hrest
          refine ⟨_, s', hpop, ?_⟩
          rw [withBlock, if_neg (by simp [arenaSize])]
          exact hinv
    · obtain ⟨b, rest, hb⟩ := List.exists_cons_of_ne_nil hnil
      rw [s.mallocFrom_of_ne_nil hnil]
      obtain ⟨s', hpop, hinv⟩ :=
        h.toHeapCore.popFree (fun a ar i d ha hi hd _ => h.busy a ar i d ha hi hd) hd hb
      have hb0 : b ≠ 0 := by
        obtain ⟨a, ar, ha, hi, hba⟩ := h.free_block i d hd b (by rw [hb]; exact List.mem_cons_self)
        exact h.ne_zero (.inl ⟨a, ar, i, d, ha, hi, hd, hba⟩)
      exact ⟨b, s', hpop, by rw [withBlock, if_neg hb0]; exact hinv⟩

/-- `free` of `NULL` or of a block the client holds never fails an `ASSERT`, and keeps the
invariant with the block no longer held. -/
theorem HeapInv.free (h : HeapInv s held) {p : ℕ} (hp : p = 0 ∨ p ∈ held) :
    ∃ s', s.free p = some s' ∧ HeapInv s' (held.erase p) := by
  unfold MallocState.free
  by_cases hp0 : p = 0
  · rw [if_pos hp0]
    have hph : p ∉ held := fun hph => h.ne_zero (h.held_block p hph) hp0
    exact ⟨s, rfl, by rw [List.erase_of_not_mem hph]; exact h⟩
  rw [if_neg hp0]
  have hph := hp.resolve_left hp0
  rcases h.held_block p hph with ⟨a, ar, i, d, ha, hi, hd, hpa⟩ | ⟨a, ar, ha, hi, rfl⟩
  · -- a small block: back on the free list, and its arena's page back to the pool if it was
    -- the last one in use
    rw [MallocState.blockToArena_small h.pages ha hi hd (h.fit hd) hpa]
    dsimp only
    split
    · next hnone =>
      rw [hi] at hnone
      cases hnone
    next i' hi' =>
    rw [hi] at hi'
    cases hi'
    rw [hd]
    dsimp only
    have h₁ := h.withMem (memset s.mem p 0xcc d.blockSize)
    by_cases hle : d.blocksPerArena ≤ ar.freeCnt + 1
    · have hlast : ar.freeCnt + 1 = d.blocksPerArena := by
        have := h.busy a ar i d ha hi hd
        omega
      rw [if_pos hle, if_pos hlast]
      exact h₁.release ha hi hd hph hpa hlast
    · rw [if_neg hle]
      exact ⟨_, rfl, h₁.freeSmall ha hi hd hph hpa (by omega)⟩
  · -- a big block: its pages back to the pool
    rw [h.blockToArena_big ha hi]
    dsimp only
    split
    · exact h.freeBig ha hi
    · next i' hi' =>
      rw [hi] at hi'
      cases hi'

/-- `block_size` of a small block is its descriptor's block size. -/
theorem HeapCore.blockSize_of_small (h : HeapCore s held) {a i : ℕ} {ar : Arena} {d : Desc}
    (ha : s.arenas a = some ar) (hi : ar.desc = some i) (hd : s.descs[i]? = some d) {c : ℕ}
    (hc : c ∈ arenaBlocks a d) : s.blockSize c = some d.blockSize := by
  simp [MallocState.blockSize, MallocState.blockToArena_small h.pages ha hi hd (h.fit hd) hc, hi, hd]

/-- `block_size` of a big block: its arena's pages less the header. -/
theorem HeapCore.blockSize_of_big (h : HeapCore s held) {a : ℕ} {ar : Arena}
    (ha : s.arenas a = some ar) (hi : ar.desc = none) :
    s.blockSize (a + arenaSize) = some (pgSize * ar.freeCnt - pgOfs (a + arenaSize)) := by
  simp [MallocState.blockSize, h.blockToArena_big ha hi, hi]

/-- `block_size` of a block the client holds. -/
theorem HeapInv.blockSize_held (h : HeapInv s held) {p : ℕ} (hp : p ∈ held) :
    ∃ n, s.blockSize p = some n := by
  rcases h.held_block p hp with ⟨a, ar, i, d, ha, hi, hd, hpa⟩ | ⟨a, ar, ha, hi, rfl⟩
  · exact ⟨d.blockSize, h.blockSize_of_small ha hi hd hpa⟩
  · exact ⟨_, h.blockSize_of_big ha hi⟩

/-- `calloc` never fails an `ASSERT`, and keeps the invariant like `malloc`. -/
theorem HeapInv.calloc (h : HeapInv s held) (a b : ℕ) :
    ∃ p s', s.calloc a b = some (p, s') ∧ HeapInv s' (withBlock p held) := by
  unfold MallocState.calloc
  dsimp only
  split
  · exact ⟨0, s, rfl, by simpa [withBlock] using h⟩
  · obtain ⟨p, s₁, hm, h₁⟩ := h.malloc (toSizeT (a * b))
    rw [hm, Option.map_some]
    by_cases hp : p = 0
    · exact ⟨p, s₁, by simp [hp], h₁⟩
    · exact ⟨p, { s₁ with mem := memset s₁.mem p 0 (toSizeT (a * b)) }, by simp [hp],
        h₁.withMem _⟩

/-- `realloc` of `NULL` or of a block the client holds never fails an `ASSERT`; the client then
holds the new block in place of the old one, or keeps the old one when `malloc` fails. -/
theorem HeapInv.realloc (h : HeapInv s held) {q : ℕ} (hq : q = 0 ∨ q ∈ held) (size : ℕ) :
    ∃ p s', s.realloc q size = some (p, s') ∧
      HeapInv s' (if size = 0 then held.erase q else if p = 0 then held else p :: held.erase q) := by
  have hq0 : q = 0 → q ∉ held := fun hq0 hqh => h.ne_zero (h.held_block q hqh) hq0
  unfold MallocState.realloc
  by_cases hs : size = 0
  · obtain ⟨s', hf, h'⟩ := h.free hq
    exact ⟨0, s', by rw [if_pos hs, hf, Option.map_some], by rw [if_pos hs]; exact h'⟩
  rw [if_neg hs]
  obtain ⟨p, s₁, hm, h₁⟩ := h.malloc size
  rw [hm]
  dsimp only
  by_cases hmove : q ≠ 0 ∧ p ≠ 0
  · -- the old block is copied to the new one and freed
    rw [if_pos hmove]
    rw [withBlock, if_neg hmove.2] at h₁
    have hqh : q ∈ held := hq.resolve_left hmove.1
    obtain ⟨n, hn⟩ := h₁.blockSize_held (List.mem_cons_of_mem p hqh)
    rw [hn]
    dsimp only
    obtain ⟨s', hf, h'⟩ := (h₁.withMem (memcpy s₁.mem p q (min size n))).free
      (.inr (List.mem_cons_of_mem p hqh))
    have hpq : p ≠ q := fun e => (List.nodup_cons.mp h₁.held_nodup).1 (e ▸ hqh)
    refine ⟨p, s', by rw [hf, Option.map_some], ?_⟩
    rw [if_neg hs, if_neg hmove.2]
    rwa [List.erase_cons_tail (by simpa using hpq)] at h'
  · rw [if_neg hmove]
    refine ⟨p, s₁, rfl, ?_⟩
    rw [if_neg hs]
    by_cases hp : p = 0
    · rw [if_pos hp]
      simpa [withBlock, hp] using h₁
    · have hq0' : q = 0 := by
        by_contra hq'
        exact hmove ⟨hq', hp⟩
      rw [if_neg hp, List.erase_of_not_mem (hq0 hq0')]
      simpa [withBlock, hp] using h₁

/-- A held block, with the size `block_size` gives it, lies on its arena's pages. -/
theorem HeapInv.held_range (h : HeapInv s held) {p m : ℕ} (hp : p ∈ held)
    (hm : s.blockSize p = some m) :
    ∃ a ar, s.arenas a = some ar ∧ a ≤ p ∧ 0 < m ∧ p + m ≤ a + pgSize * ar.pageCnt := by
  rcases h.held_block p hp with ⟨a, ar, i, d, ha, hi, hd, hpa⟩ | ⟨a, ar, ha, hi, rfl⟩
  · rw [h.blockSize_of_small ha hi hd hpa] at hm
    cases hm
    have hbd := bounds_of_mem_arenaBlocks (h.fit hd) hpa
    have hcnt : ar.pageCnt = 1 := by simp [Arena.pageCnt, hi]
    exact ⟨a, ar, ha, by omega, (h.fit hd).blockSize_pos, by rw [hcnt]; omega⟩
  · rw [h.blockSize_of_big ha hi] at hm
    cases hm
    have hcnt : ar.pageCnt = ar.freeCnt := by simp [Arena.pageCnt, hi]
    have hpos := (h.pages.header a ar ha).pageCnt_pos
    have hal := (h.pages.header a ar ha).aligned
    have hofs : pgOfs (a + arenaSize) = arenaSize := by
      unfold pgOfs
      simp only [pgSize, arenaSize] at hal ⊢
      omega
    rw [hcnt] at hpos
    have hpages : pgSize ≤ pgSize * ar.freeCnt := Nat.le_mul_of_pos_right _ hpos
    refine ⟨a, ar, ha, by omega, ?_, ?_⟩
    · rw [hofs]
      simp only [pgSize, arenaSize] at hpages ⊢
      omega
    · rw [hofs, hcnt]
      simp only [pgSize, arenaSize] at hpages ⊢
      omega

/-- Two different blocks the client holds do not overlap. -/
theorem HeapInv.disjoint (h : HeapInv s held) {p q m n : ℕ} (hp : p ∈ held) (hq : q ∈ held)
    (hpq : p ≠ q) (hm : s.blockSize p = some m) (hn : s.blockSize q = some n) :
    p + m ≤ q ∨ q + n ≤ p := by
  obtain ⟨a, ar, ha, hlo, hm0, hhi⟩ := h.held_range hp hm
  obtain ⟨a', ar', ha', hlo', hn0, hhi'⟩ := h.held_range hq hn
  rcases lt_trichotomy a a' with hlt | rfl | hgt
  · have := h.pages.apart ha ha' hlt
    omega
  · -- the same arena: two blocks of one descriptor, or one big block twice
    rw [ha] at ha'
    cases ha'
    rcases h.block_on_pages ha (h.held_block p hp) ⟨hlo, by omega⟩ with
        ⟨i, d, hi, hd, hpa⟩ | ⟨hi, rfl⟩ <;>
      rcases h.block_on_pages ha (h.held_block q hq) ⟨hlo', by omega⟩ with
        ⟨j, d', hj, hd', hqa⟩ | ⟨hj, rfl⟩
    · rw [hi] at hj
      cases hj
      rw [hd] at hd'
      cases hd'
      rw [h.blockSize_of_small ha hi hd hpa] at hm
      rw [h.blockSize_of_small ha hi hd hqa] at hn
      cases hm
      cases hn
      obtain ⟨k, -, rfl⟩ := mem_arenaBlocks.mp hpa
      obtain ⟨k', -, rfl⟩ := mem_arenaBlocks.mp hqa
      have hkk : k ≠ k' := fun e => hpq (by rw [e])
      rcases Nat.lt_or_gt_of_ne hkk with hk | hk
      · have := Nat.mul_le_mul_right d.blockSize (Nat.succ_le_of_lt hk)
        rw [Nat.succ_mul] at this
        omega
      · have := Nat.mul_le_mul_right d.blockSize (Nat.succ_le_of_lt hk)
        rw [Nat.succ_mul] at this
        omega
    · rw [hi] at hj
      cases hj
    · rw [hi] at hj
      cases hj
    · exact absurd rfl hpq
  · have := h.pages.apart ha' ha hgt
    omega

end Calls

/-! ## Clients of the heap -/

/-- A call a client of the kernel heap makes. -/
inductive HeapCall
  | malloc (size : ℕ)
  | calloc (a b : ℕ)
  | realloc (block size : ℕ)
  | free (block : ℕ)

/-- The kernel heap, the blocks its client holds, and whether a call has failed an `ASSERT`. -/
structure HeapClient where
  heap : MallocState
  held : List ℕ
  crashed : Bool

/-- A call on the heap and the blocks the client then holds; `none` when an `ASSERT` fails. -/
def heapCall (s : MallocState) (held : List ℕ) : HeapCall → Option (MallocState × List ℕ)
  | .malloc size => (s.malloc size).map fun r => (r.2, withBlock r.1 held)
  | .calloc a b => (s.calloc a b).map fun r => (r.2, withBlock r.1 held)
  | .realloc q size => (s.realloc q size).map fun r =>
    (r.2, if size = 0 then held.erase q else if r.1 = 0 then held else r.1 :: held.erase q)
  | .free q => (s.free q).map fun s' => (s', held.erase q)

/-- The client passes `free` and `realloc` only `NULL` or a block it holds. -/
def HeapCall.Allowed (held : List ℕ) : HeapCall → Prop
  | .realloc q _ => q = 0 ∨ q ∈ held
  | .free q => q = 0 ∨ q ∈ held
  | _ => True

/-- The heap from `s₀` under any sequence of allowed calls. -/
def heapSystem (s₀ : MallocState) : Transition.System HeapClient HeapCall where
  init := ⟨s₀, [], false⟩
  Enabled c call := call.Allowed c.held
  step c call :=
    match heapCall c.heap c.held call with
    | some (s', held') => ⟨s', held', c.crashed⟩
    | none => { c with crashed := true }

section System

variable {s : MallocState} {held : List ℕ} {usedMap : Bitmap} {base : ℕ} {mem : ℕ → UInt8}

/-- An allowed call from a heap with the invariant returns, and keeps the invariant. -/
theorem HeapInv.heapCall_spec (h : HeapInv s held) {call : HeapCall} (hcall : call.Allowed held) :
    ∃ s' held', heapCall s held call = some (s', held') ∧ HeapInv s' held' := by
  cases call with
  | malloc size =>
    obtain ⟨p, s', hm, h'⟩ := h.malloc size
    exact ⟨s', _, by simp [heapCall, hm], h'⟩
  | calloc a b =>
    obtain ⟨p, s', hm, h'⟩ := h.calloc a b
    exact ⟨s', _, by simp [heapCall, hm], h'⟩
  | realloc q size =>
    obtain ⟨p, s', hm, h'⟩ := h.realloc hcall size
    exact ⟨s', _, by simp [heapCall, hm], h'⟩
  | free q =>
    obtain ⟨s', hf, h'⟩ := h.free hcall
    exact ⟨s', _, by simp [heapCall, hf], h'⟩

theorem heapInv_invariant (hbase : base % pgSize = 0) :
    (heapSystem (mallocInit usedMap base mem)).Invariant
      fun c => c.crashed = false ∧ HeapInv c.heap c.held where
  init := ⟨rfl, heapInv_mallocInit mem hbase⟩
  step c call hc hcall := by
    obtain ⟨s', held', hstep, h'⟩ := hc.2.heapCall_spec hcall
    simp only [heapSystem, hstep]
    exact ⟨hc.1, h'⟩

/-- No call of a client that passes `free` and `realloc` only `NULL` or blocks it holds ever fails
an `ASSERT` of `malloc.c`, from a heap that `malloc_init` set up over a page-aligned pool. -/
theorem heap_never_crashes (hbase : base % pgSize = 0) {c : HeapClient}
    (hc : (heapSystem (mallocInit usedMap base mem)).Reachable c) : c.crashed = false :=
  ((heapInv_invariant hbase).holds hc).1

/-- `malloc (16)` and then `malloc (5000)` from `freshHeap`: a small block and a big one. -/
def twoMallocs : HeapClient :=
  (heapSystem freshHeap).step ((heapSystem freshHeap).step (heapSystem freshHeap).init (.malloc 16))
    (.malloc 5000)

theorem reachable_twoMallocs : (heapSystem freshHeap).Reachable twoMallocs :=
  (Transition.System.Reachable.init.step _ trivial).step _ trivial

theorem heap_never_crashes_two_mallocs :
    0xc0101000 % pgSize = 0 ∧ (heapSystem freshHeap).Reachable twoMallocs ∧
      twoMallocs.crashed = false :=
  ⟨by decide, reachable_twoMallocs, heap_never_crashes (by decide) reachable_twoMallocs⟩

/-- In every run of such a client, two different blocks it holds do not overlap, each with the
size `block_size` gives it. -/
theorem heap_blocks_disjoint (hbase : base % pgSize = 0) {c : HeapClient}
    (hc : (heapSystem (mallocInit usedMap base mem)).Reachable c) {p q : ℕ} (hp : p ∈ c.held)
    (hq : q ∈ c.held) (hpq : p ≠ q) :
    ∃ m n, c.heap.blockSize p = some m ∧ c.heap.blockSize q = some n ∧ (p + m ≤ q ∨ q + n ≤ p) := by
  have h := ((heapInv_invariant hbase).holds hc).2
  obtain ⟨m, hm⟩ := h.blockSize_held hp
  obtain ⟨n, hn⟩ := h.blockSize_held hq
  exact ⟨m, n, hm, hn, h.disjoint hp hq hpq hm hn⟩

/-- The small block and the big one of `twoMallocs`. -/
theorem heap_blocks_disjoint_two_mallocs :
    0xc0101000 % pgSize = 0 ∧ (heapSystem freshHeap).Reachable twoMallocs ∧
      0xc010100c ∈ twoMallocs.held ∧ 0xc010200c ∈ twoMallocs.held ∧
      ∃ m n, twoMallocs.heap.blockSize 0xc010100c = some m ∧
        twoMallocs.heap.blockSize 0xc010200c = some n ∧
        (0xc010100c + m ≤ 0xc010200c ∨ 0xc010200c + n ≤ 0xc010100c) := by
  have hp : 0xc010100c ∈ twoMallocs.held := by decide
  have hq : 0xc010200c ∈ twoMallocs.held := by decide
  exact ⟨by decide, reachable_twoMallocs, hp, hq,
    heap_blocks_disjoint (by decide) reachable_twoMallocs hp hq (by decide)⟩

/-- In every run of such a client, each byte of a block it holds lies in the pool, on a page the
pool's bitmap marks used: `malloc` never hands out memory `palloc` could give away again. -/
theorem heap_blocks_on_used_pages (hbase : base % pgSize = 0) {c : HeapClient}
    (hc : (heapSystem (mallocInit usedMap base mem)).Reachable c) {p : ℕ} (hp : p ∈ c.held) :
    ∃ m, 0 < m ∧ c.heap.blockSize p = some m ∧ ∀ x, p ≤ x → x < p + m →
      c.heap.base ≤ x ∧ (x - c.heap.base) / pgSize < c.heap.usedMap.bitCnt ∧
        c.heap.usedMap.test ((x - c.heap.base) / pgSize) = true := by
  have h := ((heapInv_invariant hbase).holds hc).2
  obtain ⟨m, hm⟩ := h.blockSize_held hp
  obtain ⟨a, ar, ha, hlo, hm0, hhi⟩ := h.held_range hp hm
  refine ⟨m, hm0, hm, fun x hpx hxm => ?_⟩
  obtain ⟨hbx, hidx, hk⟩ := h.pages.page_of_mem (x := x) ha ⟨by omega, by omega⟩
  have hused := (h.pages.header a ar ha).used
  rw [hidx]
  exact ⟨hbx, by have := hused.1; omega, hused.2 _ hk⟩

/-- The big block of `twoMallocs`. -/
theorem heap_blocks_on_used_pages_two_mallocs :
    0xc0101000 % pgSize = 0 ∧ (heapSystem freshHeap).Reachable twoMallocs ∧
      0xc010200c ∈ twoMallocs.held ∧
      ∃ m, 0 < m ∧ twoMallocs.heap.blockSize 0xc010200c = some m ∧ ∀ x, 0xc010200c ≤ x →
        x < 0xc010200c + m → twoMallocs.heap.base ≤ x ∧
          (x - twoMallocs.heap.base) / pgSize < twoMallocs.heap.usedMap.bitCnt ∧
          twoMallocs.heap.usedMap.test ((x - twoMallocs.heap.base) / pgSize) = true := by
  have hp : 0xc010200c ∈ twoMallocs.held := by decide
  exact ⟨by decide, reachable_twoMallocs, hp,
    heap_blocks_on_used_pages (by decide) reachable_twoMallocs hp⟩

end System

end Pintos
