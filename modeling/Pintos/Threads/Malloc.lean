import Pintos.Kernel.Bitmap
import Pintos.Userprog.Uaccess

/-! # The kernel heap

`threads/malloc.c` over the kernel pool of `threads/palloc.c`. A request of
at most 1 kB is served from the free list of the smallest descriptor whose
blocks fit it, a fresh one-page arena refilling an empty list; a larger one
gets a run of pages whose arena header counts them. `free` returns a small
block to its list and gives the page back once all of its arena's blocks are
free.

Pointers and sizes are 32-bit `size_t`s kept as naturals, and the sums and
products the C code forms in `size_t` wrap at `2 ^ 32` (`toSizeT`). A pointer
of 0 is `NULL`. An arena header is kept by the address of its page beside the
bytes of memory; a page given back to the pool loses its header, which
`palloc_free_multiple` overwrites with `0xcc`. A result of `none` is a failed
`ASSERT` (or `NOT_REACHED`).
-/

namespace Pintos

/-- `sizeof (struct arena)`. -/
def arenaSize : ℕ := 12

def arenaMagic : ℕ := 0x9a548eed

def sizeRange : ℕ := 2 ^ 32

/-- A value computed in `size_t`. -/
def toSizeT (n : ℕ) : ℕ := n % sizeRange

/-- `memset (p, v, n)`. -/
def memset (mem : ℕ → UInt8) (p : ℕ) (v : UInt8) (n : ℕ) : ℕ → UInt8 :=
  fun x => if p ≤ x ∧ x < p + n then v else mem x

/-- `memcpy (dst, src, n)`. -/
def memcpy (mem : ℕ → UInt8) (dst src n : ℕ) : ℕ → UInt8 :=
  fun x => if dst ≤ x ∧ x < dst + n then mem (src + (x - dst)) else mem x

structure Desc where
  blockSize : ℕ
  blocksPerArena : ℕ
  freeList : List ℕ
  deriving DecidableEq, Repr

/-- `struct arena`; `desc` is the index of the owning descriptor, `none` for a big block. -/
structure Arena where
  magic : ℕ
  desc : Option ℕ
  freeCnt : ℕ
  deriving DecidableEq, Repr

/-- The descriptors, the arena headers by page, the kernel pool's `used_map` and base, and
memory. -/
structure MallocState where
  descs : List Desc
  arenas : ℕ → Option Arena
  usedMap : Bitmap
  base : ℕ
  mem : ℕ → UInt8

namespace MallocState

variable (s : MallocState)

def setArena (a : ℕ) (ar : Arena) : MallocState :=
  { s with arenas := Function.update s.arenas a (some ar) }

def setFreeList (i : ℕ) (l : List ℕ) : MallocState :=
  { s with descs := s.descs.modify i fun d => { d with freeList := l } }

/-- `palloc_get_multiple (0, page_cnt)` on the kernel pool: 0 when no run of free pages
is found. -/
def pallocGetMultiple (pageCnt : ℕ) : ℕ × MallocState :=
  if pageCnt = 0 then (0, s)
  else
    match s.usedMap.scanAndFlip 0 pageCnt false with
    | some (idx, m) => (s.base + pgSize * idx, { s with usedMap := m })
    | none => (0, s)

/-- `palloc_free_multiple` on the kernel pool. -/
def pallocFreeMultiple (pages pageCnt : ℕ) : Option MallocState :=
  if pgOfs pages ≠ 0 then none
  else if pages = 0 ∨ pageCnt = 0 then some s
  else if ¬ (s.base ≤ pages ∧ pages < s.base + pgSize * s.usedMap.bitCnt) then none
  else
    let idx := (pages - s.base) / pgSize
    if s.usedMap.all idx pageCnt then
      some { s with
        mem := memset s.mem pages 0xcc (pgSize * pageCnt)
        arenas := fun a => if pages ≤ a ∧ a < pages + pgSize * pageCnt then none else s.arenas a
        usedMap := s.usedMap.setMultiple idx pageCnt false }
    else none

/-- `block_to_arena` with its `ASSERT`s: the header of the block's page. -/
def blockToArena (b : ℕ) : Option (ℕ × Arena) :=
  let a := pgRoundDown b
  match s.arenas a with
  | none => none
  | some ar =>
    let aligned : Bool :=
      match ar.desc with
      | some i =>
        match s.descs[i]? with
        | some d => toSizeT (pgOfs b + sizeRange - arenaSize) % d.blockSize = 0
        | none => false
      | none => pgOfs b = arenaSize
    if a ≠ 0 ∧ ar.magic = arenaMagic ∧ aligned then some (a, ar) else none

end MallocState

/-- `DIV_ROUND_UP (size + sizeof *a, PGSIZE)`, the pages of a big block, in `size_t`. -/
def bigPageCnt (size : ℕ) : ℕ := toSizeT (size + arenaSize + pgSize - 1) / pgSize

/-- `arena_to_block`: block `idx` of the arena at `a`. -/
def arenaToBlock (a blockSize idx : ℕ) : ℕ := a + arenaSize + idx * blockSize

/-- The loop of `malloc_init`, with one round per slot of `descs`. -/
def initDescs : ℕ → ℕ → List Desc
  | 0, _ => []
  | n + 1, blockSize =>
    if blockSize < pgSize / 2 then
      ⟨blockSize, (pgSize - arenaSize) / blockSize, []⟩ :: initDescs n (blockSize * 2)
    else []

def mallocInit (usedMap : Bitmap) (base : ℕ) (mem : ℕ → UInt8) : MallocState :=
  ⟨initDescs 10 16, fun _ => none, usedMap, base, mem⟩

namespace MallocState

variable (s : MallocState)

/-- The part of `malloc` under descriptor `i`: refill an empty free list with a new arena,
then pop a block and count it in use. -/
def mallocFrom (i : ℕ) (d : Desc) : Option (ℕ × MallocState) :=
  let filled : Option MallocState :=
    if d.freeList = [] then
      match s.pallocGetMultiple 1 with
      | (0, _) => none
      | (a, s₁) =>
        some ((s₁.setArena a ⟨arenaMagic, some i, d.blocksPerArena⟩).setFreeList i
          ((List.range d.blocksPerArena).map (arenaToBlock a d.blockSize)))
    else some s
  match filled with
  | none => some (0, s)
  | some s₁ =>
    match (s₁.descs[i]?).map (·.freeList) with
    | some (b :: rest) =>
      let s₂ := s₁.setFreeList i rest
      match s₂.blockToArena b with
      | some (a, ar) => some (b, s₂.setArena a { ar with freeCnt := ar.freeCnt - 1 })
      | none => none
    | _ => none

def malloc (size : ℕ) : Option (ℕ × MallocState) :=
  if size = 0 then some (0, s)
  else
    match s.descs.findIdx? (fun d => decide (size ≤ d.blockSize)) with
    | none =>
      match s.pallocGetMultiple (bigPageCnt size) with
      | (0, s₁) => some (0, s₁)
      | (a, s₁) => some (a + arenaSize, s₁.setArena a ⟨arenaMagic, none, bigPageCnt size⟩)
    | some i =>
      match s.descs[i]? with
      | some d => s.mallocFrom i d
      | none => none

/-- `calloc (a, b)`: the product is formed in `size_t` and checked against both factors. -/
def calloc (a b : ℕ) : Option (ℕ × MallocState) :=
  let size := toSizeT (a * b)
  if size < a ∨ size < b then some (0, s)
  else
    (s.malloc size).map fun (p, s₁) =>
      if p ≠ 0 then (p, { s₁ with mem := memset s₁.mem p 0 size }) else (p, s₁)

/-- `block_size`: the bytes allocated for the block at `b`. -/
def blockSize (b : ℕ) : Option ℕ :=
  (s.blockToArena b).bind fun (_, ar) =>
    match ar.desc with
    | some i => (s.descs[i]?).map (·.blockSize)
    | none => some (pgSize * ar.freeCnt - pgOfs b)

def free (p : ℕ) : Option MallocState :=
  if p = 0 then some s
  else
    match s.blockToArena p with
    | none => none
    | some (a, ar) =>
      match ar.desc with
      | none => s.pallocFreeMultiple a ar.freeCnt
      | some i =>
        match s.descs[i]? with
        | none => none
        | some d =>
          let s₁ := ({ s with mem := memset s.mem p 0xcc d.blockSize } : MallocState)
          let freeList := p :: d.freeList
          let s₂ := (s₁.setFreeList i freeList).setArena a { ar with freeCnt := ar.freeCnt + 1 }
          if d.blocksPerArena ≤ ar.freeCnt + 1 then
            if ar.freeCnt + 1 = d.blocksPerArena then
              -- the whole arena is free: unlink its blocks and give the page back
              let blocks := (List.range d.blocksPerArena).map (arenaToBlock a d.blockSize)
              (s₂.setFreeList i (blocks.foldl List.erase freeList)).pallocFreeMultiple a 1
            else none
          else some s₂

def realloc (oldBlock newSize : ℕ) : Option (ℕ × MallocState) :=
  if newSize = 0 then (s.free oldBlock).map fun s₁ => (0, s₁)
  else
    match s.malloc newSize with
    | none => none
    | some (newBlock, s₁) =>
      if oldBlock ≠ 0 ∧ newBlock ≠ 0 then
        match s₁.blockSize oldBlock with
        | none => none
        | some oldSize =>
          let s₂ := { s₁ with mem := memcpy s₁.mem newBlock oldBlock (min newSize oldSize) }
          (s₂.free oldBlock).map fun s₃ => (newBlock, s₃)
      else some (newBlock, s₁)

section BigBlocks

variable {s : MallocState}

theorem pallocGetMultiple_aligned (hb : s.base % pgSize = 0) (n : ℕ) :
    (s.pallocGetMultiple n).1 % pgSize = 0 := by
  unfold pallocGetMultiple
  split
  · rfl
  · split
    · simp only [pgSize] at hb ⊢
      omega
    · rfl

/-- `block_to_arena` of the block of a big-block arena at page `a` finds that arena. -/
theorem blockToArena_big {a n : ℕ} (ha : s.arenas a = some ⟨arenaMagic, none, n⟩) (h0 : a ≠ 0)
    (hal : a % pgSize = 0) : s.blockToArena (a + arenaSize) = some (a, ⟨arenaMagic, none, n⟩) := by
  have hr : pgRoundDown (a + arenaSize) = a := by
    unfold pgRoundDown
    simp only [pgSize, arenaSize] at hal ⊢
    omega
  have ho : pgOfs (a + arenaSize) = arenaSize := by
    unfold pgOfs
    simp only [pgSize, arenaSize] at hal ⊢
    omega
  simp [blockToArena, hr, ho, ha, h0]

@[simp] theorem arenas_setArena (a b : ℕ) (ar : Arena) :
    (s.setArena a ar).arenas b = if b = a then some ar else s.arenas b := by
  simp [setArena, Function.update_apply]

/-- A big block counts its pages in its header: its size is those pages less the header. -/
theorem blockSize_big {a n : ℕ} (h0 : a ≠ 0) (hal : a % pgSize = 0) :
    (s.setArena a ⟨arenaMagic, none, n⟩).blockSize (a + arenaSize) =
      some (pgSize * n - arenaSize) := by
  have hb := blockToArena_big (s := s.setArena a ⟨arenaMagic, none, n⟩) (a := a) (n := n)
    (by simp) h0 hal
  have ho : pgOfs (a + arenaSize) = arenaSize := by
    unfold pgOfs
    simp only [pgSize, arenaSize] at hal ⊢
    omega
  simp [blockSize, hb, ho]

/-- Every non-null block `malloc` returns for a request larger than every descriptor's blocks
has `block_size` the pages `DIV_ROUND_UP` counted, less the header. -/
theorem blockSize_malloc_big (hb : s.base % pgSize = 0) {size p : ℕ} {s' : MallocState}
    (hd : ∀ d ∈ s.descs, d.blockSize < size) (hm : s.malloc size = some (p, s')) (hp : p ≠ 0) :
    s'.blockSize p = some (pgSize * bigPageCnt size - arenaSize) := by
  have hs : size ≠ 0 := by
    rintro rfl
    simp [malloc] at hm
    exact hp hm.1.symm
  have hf : s.descs.findIdx? (fun d => decide (size ≤ d.blockSize)) = none := by
    rw [List.findIdx?_eq_none_iff]
    intro d hmem
    simpa using hd d hmem
  have hal := pallocGetMultiple_aligned hb (bigPageCnt size)
  unfold malloc at hm
  rw [if_neg hs, hf] at hm
  dsimp only at hm
  split at hm
  · cases hm
    exact absurd rfl hp
  · next a s₁ ha hpa =>
    cases hm
    rw [hpa] at hal
    exact blockSize_big ha hal

/-- Without wrap-around the pages hold the request and the header. -/
theorem le_bigPageCnt {size : ℕ} (h : size + arenaSize + pgSize - 1 < sizeRange) :
    size ≤ pgSize * bigPageCnt size - arenaSize := by
  unfold bigPageCnt toSizeT
  rw [Nat.mod_eq_of_lt h]
  simp only [pgSize, arenaSize]
  omega

/-- When `size + sizeof *a` wraps, `DIV_ROUND_UP` counts at most one page. -/
theorem bigPageCnt_lt_of_wrap {size : ℕ} (hs : size < sizeRange)
    (h : sizeRange ≤ size + arenaSize + pgSize - 1) : pgSize * bigPageCnt size - arenaSize < size := by
  unfold bigPageCnt toSizeT
  simp only [sizeRange, pgSize, arenaSize] at hs h ⊢
  omega

end BigBlocks

/-- `calloc` checks its product only against the factors, so a product that wraps and
stays above both goes to `malloc` as the wrapped value. -/
theorem calloc_eq_malloc {a b : ℕ} (h : a ≤ toSizeT (a * b) ∧ b ≤ toSizeT (a * b)) :
    s.calloc a b = (s.malloc (toSizeT (a * b))).map fun (p, s₁) =>
      if p ≠ 0 then (p, { s₁ with mem := memset s₁.mem p 0 (toSizeT (a * b)) }) else (p, s₁) := by
  unfold calloc
  rw [if_neg (by omega)]

end MallocState

/-- The kernel heap after `malloc_init`, over a pool of 64 free pages. -/
def freshHeap : MallocState := mallocInit (Bitmap.create 64) 0xc0101000 fun _ => 0

/-- `calloc (65537, 65537)`: the product wraps to 131073, which passes the check, and the
block returned holds 135156 bytes of the 4295098369 asked for. -/
theorem calloc_wraps_product :
    ∃ p s', freshHeap.calloc 65537 65537 = some (p, s') ∧ p ≠ 0 ∧
      s'.blockSize p = some 135156 ∧ 135156 < 65537 * 65537 := by
  have hd : ∀ d ∈ freshHeap.descs, d.blockSize < toSizeT (65537 * 65537) := by decide
  have hc := MallocState.calloc_eq_malloc (s := freshHeap) (a := 65537) (b := 65537) (by decide)
  obtain ⟨p, s₁, hm⟩ : ∃ p s₁, freshHeap.malloc (toSizeT (65537 * 65537)) = some (p, s₁) :=
    ⟨_, _, rfl⟩
  have hp : p ≠ 0 := by
    have : (freshHeap.malloc (toSizeT (65537 * 65537))).map Prod.fst = some 0xc010100c := by
      decide
    rw [hm] at this
    simp only [Option.map_some, Option.some.injEq] at this
    omega
  have hs := MallocState.blockSize_malloc_big (by decide) hd hm hp
  rw [hm] at hc
  refine ⟨p, { s₁ with mem := memset s₁.mem p 0 (toSizeT (65537 * 65537)) }, ?_, hp, ?_,
    by decide⟩
  · rw [hc]
    simp [hp]
  · -- `block_size` does not read the bytes `calloc` zeroes
    calc _ = s₁.blockSize p := rfl
      _ = _ := hs
      _ = some 135156 := by decide

end Pintos
