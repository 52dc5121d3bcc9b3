import Pintos.Userprog.Load

/-! # What a loaded segment holds

The loop of `load_segment` in `userprog/process.c` with the file offsets and
byte counts of each page, in both of its branches. Under `VM` it registers
each page with `spt_set_file`, recording the offset it is read from and how
many bytes it reads and zeroes, and `spt_load_page` fills the page from them
when it is first touched. Without `VM` it reads each page at once from the
file position, which starts at `ofs` and moves on by the bytes read, and
installs it. Either way page `i` is read from `ofs + min read_bytes (i *
PGSIZE)` (`layoutPage`).

For a program header that `validate_segment` accepts, whose `p_offset +
p_filesz` is within the file, the arguments `load` passes meet the `ASSERT`s
of `load_segment` with no 32-bit wrap, the pages are those that cover
`[p_vaddr, p_vaddr + p_memsz)`, between `PGSIZE` and `PHYS_BASE`, and the
byte at `p_vaddr + k` is file byte `p_offset + k` below `p_filesz` and zero
from there to `p_memsz` (`segment_layout`). Allocation of pages and entries
is taken to succeed.
-/

namespace Pintos

/-- What `spt_set_file` records of a file page besides its address: the file offset it is read
from, and the bytes it reads and zeroes. -/
structure FilePage where
  fileOffset : ℕ
  readBytes : ℕ
  zeroBytes : ℕ
  deriving DecidableEq, Repr

/-- The bytes of a file page once `spt_load_page` has read it: `read_bytes` bytes of the file from
`file_offset`, then zeros. -/
def FilePage.byte (file : List UInt8) (e : FilePage) (j : ℕ) : UInt8 :=
  if j < e.readBytes then file.getD (e.fileOffset + j) 0 else 0

/-- `spt_set_file`: a new entry for the page, or failure when it has one. -/
def sptSetFilePage (spt : ℕ → Option FilePage) (upage ofs readBytes zeroBytes : ℕ) :
    Option (ℕ → Option FilePage) :=
  match spt (pgRoundDown upage) with
  | some _ => none
  | none => some (Function.update spt (pgRoundDown upage) (some ⟨ofs, readBytes, zeroBytes⟩))

/-- The loop of `load_segment` under `VM`, for at most `fuel` pages; `none` is a return of
`false`. -/
def loadSegmentVmLoop : ℕ → (ℕ → Option FilePage) → ℕ → ℕ → ℕ → ℕ → Option (ℕ → Option FilePage)
  | 0, spt, _, _, _, _ => some spt
  | fuel + 1, spt, upage, ofs, readBytes, zeroBytes =>
    if 0 < readBytes ∨ 0 < zeroBytes then
      let pageReadBytes := if readBytes < pgSize then readBytes else pgSize
      let pageZeroBytes := pgSize - pageReadBytes
      match sptSetFilePage spt upage ofs pageReadBytes pageZeroBytes with
      | none => none
      | some spt' =>
        loadSegmentVmLoop fuel spt' (upage + pgSize) (ofs + pageReadBytes)
          (readBytes - pageReadBytes) (zeroBytes - pageZeroBytes)
    else some spt

/-- The loop of `load_segment` without `VM`: each page is read from the file position `pos` and
installed, unless its user page is mapped; a short read fails. -/
def loadSegmentLoop (file : List UInt8) :
    ℕ → (ℕ → Option (ℕ → UInt8)) → ℕ → ℕ → ℕ → ℕ → Option (ℕ → Option (ℕ → UInt8))
  | 0, pages, _, _, _, _ => some pages
  | fuel + 1, pages, upage, pos, readBytes, zeroBytes =>
    if 0 < readBytes ∨ 0 < zeroBytes then
      let pageReadBytes := if readBytes < pgSize then readBytes else pgSize
      let pageZeroBytes := pgSize - pageReadBytes
      if pos + pageReadBytes ≤ file.length then
        let kpage := fun j => if j < pageReadBytes then file.getD (pos + j) 0 else 0
        match pages upage with
        | some _ => none
        | none =>
          loadSegmentLoop file fuel (Function.update pages upage (some kpage)) (upage + pgSize)
            (pos + pageReadBytes) (readBytes - pageReadBytes) (zeroBytes - pageZeroBytes)
      else none
    else some pages

/-- `load_segment (file, ofs, upage, read_bytes, zero_bytes, writable)` under `VM`. -/
def loadSegmentVm (spt : ℕ → Option FilePage) (ofs upage readBytes zeroBytes : ℕ) :
    Option (ℕ → Option FilePage) :=
  loadSegmentVmLoop ((readBytes + zeroBytes) / pgSize) spt upage ofs readBytes zeroBytes

/-- `load_segment` without `VM`, which starts with `file_seek (file, ofs)`. -/
def loadSegmentNoVm (file : List UInt8) (pages : ℕ → Option (ℕ → UInt8))
    (ofs upage readBytes zeroBytes : ℕ) : Option (ℕ → Option (ℕ → UInt8)) :=
  loadSegmentLoop file ((readBytes + zeroBytes) / pgSize) pages upage ofs readBytes zeroBytes

/-- The `PT_LOAD` case of `load` under `VM`, from `file_page` and `mem_page`. -/
def loadPtLoadVm (spt : ℕ → Option FilePage) (phdr : Elf32Phdr) (fileLength : ℕ) :
    Option (ℕ → Option FilePage) :=
  if validateSegment phdr fileLength then
    loadSegmentVm spt (pgRoundDown phdr.pOffset) (pgRoundDown phdr.pVaddr)
      (segmentBytes phdr).1 (segmentBytes phdr).2
  else none

/-- The `PT_LOAD` case of `load` without `VM`. -/
def loadPtLoadNoVm (pages : ℕ → Option (ℕ → UInt8)) (phdr : Elf32Phdr) (file : List UInt8) :
    Option (ℕ → Option (ℕ → UInt8)) :=
  if validateSegment phdr file.length then
    loadSegmentNoVm file pages (pgRoundDown phdr.pOffset) (pgRoundDown phdr.pVaddr)
      (segmentBytes phdr).1 (segmentBytes phdr).2
  else none

/-- The byte at user address `a` once its page is faulted in, under `VM`. -/
def fileTableByte (file : List UInt8) (spt : ℕ → Option FilePage) (a : ℕ) : Option UInt8 :=
  (spt (pgRoundDown a)).map fun e => e.byte file (pgOfs a)

/-- The byte at user address `a` in the installed pages, without `VM`. -/
def imageByte (pages : ℕ → Option (ℕ → UInt8)) (a : ℕ) : Option UInt8 :=
  (pages (pgRoundDown a)).map fun kpage => kpage (pgOfs a)

/-- The pages that cover the segment's bytes `[p_vaddr, p_vaddr + p_memsz)`. -/
def CoversSegment (phdr : Elf32Phdr) (q : ℕ) : Prop :=
  ∃ k < phdr.pMemsz, pgRoundDown (phdr.pVaddr + k) = q

/-- What the segment's byte `k` should be: file byte `p_offset + k` below `p_filesz`, then
zero. -/
def segmentByte (phdr : Elf32Phdr) (file : List UInt8) (k : ℕ) : UInt8 :=
  if k < phdr.pFilesz then file.getD (phdr.pOffset + k) 0 else 0

section Layout

/-- Page `i` of a segment read from `ofs` with `readBytes` bytes in all. -/
def layoutPage (ofs readBytes i : ℕ) : FilePage :=
  ⟨ofs + min readBytes (i * pgSize), min pgSize (readBytes - i * pgSize),
    pgSize - min pgSize (readBytes - i * pgSize)⟩

/-- The table after the `n` pages from `upage` are registered. -/
def layoutTable (spt : ℕ → Option FilePage) (upage ofs readBytes n : ℕ) : ℕ → Option FilePage :=
  fun q => if upage ≤ q ∧ q < upage + n * pgSize ∧ q % pgSize = 0 then
    some (layoutPage ofs readBytes ((q - upage) / pgSize)) else spt q

/-- The pages after the `n` pages from `upage` are installed. -/
def layoutImage (file : List UInt8) (pages : ℕ → Option (ℕ → UInt8)) (upage ofs readBytes n : ℕ) :
    ℕ → Option (ℕ → UInt8) :=
  fun q => if upage ≤ q ∧ q < upage + n * pgSize ∧ q % pgSize = 0 then
    some ((layoutPage ofs readBytes ((q - upage) / pgSize)).byte file) else pages q

/-- After the first page, the rest of the segment is laid out as from page 1 on. -/
theorem layoutPage_succ (ofs readBytes i : ℕ) :
    layoutPage (ofs + min readBytes pgSize) (readBytes - min readBytes pgSize) i =
      layoutPage ofs readBytes (i + 1) := by
  simp only [layoutPage, FilePage.mk.injEq, pgSize]
  omega

theorem pgRoundDown_of_mod {a : ℕ} (h : a % pgSize = 0) : pgRoundDown a = a := by
  unfold pgRoundDown
  simp only [pgSize] at h ⊢
  omega

theorem pgRoundDown_mod (a : ℕ) : pgRoundDown a % pgSize = 0 := Nat.mul_mod_left _ _

variable {upage ofs readBytes : ℕ}

/-- Registering page 0 and then the pages from page 1 on lays out the whole segment. -/
theorem layoutTable_succ (spt : ℕ → Option FilePage) (hu : upage % pgSize = 0) (n : ℕ) :
    layoutTable (Function.update spt upage (some (layoutPage ofs readBytes 0))) (upage + pgSize)
        (ofs + min readBytes pgSize) (readBytes - min readBytes pgSize) n =
      layoutTable spt upage ofs readBytes (n + 1) := by
  funext q
  simp only [layoutTable]
  by_cases hq : q = upage
  · subst hq
    rw [if_neg (by simp only [pgSize]; omega), if_pos (by simp only [pgSize] at hu ⊢; omega),
      Function.update_self,
      Nat.sub_self, Nat.zero_div]
  · by_cases hc : upage ≤ q ∧ q < upage + (n + 1) * pgSize ∧ q % pgSize = 0
    · rw [if_pos (by simp only [pgSize] at hu hc ⊢; omega), if_pos hc, layoutPage_succ]
      congr 3
      simp only [pgSize] at hu hc ⊢
      omega
    · rw [if_neg (by simp only [pgSize] at hu hc ⊢; omega), if_neg hc,
        Function.update_of_ne hq]

theorem layoutImage_succ (file : List UInt8) (pages : ℕ → Option (ℕ → UInt8))
    (hu : upage % pgSize = 0) (n : ℕ) :
    layoutImage file (Function.update pages upage (some ((layoutPage ofs readBytes 0).byte file)))
        (upage + pgSize) (ofs + min readBytes pgSize) (readBytes - min readBytes pgSize) n =
      layoutImage file pages upage ofs readBytes (n + 1) := by
  funext q
  simp only [layoutImage]
  by_cases hq : q = upage
  · subst hq
    rw [if_neg (by simp only [pgSize]; omega), if_pos (by simp only [pgSize] at hu ⊢; omega),
      Function.update_self,
      Nat.sub_self, Nat.zero_div]
  · by_cases hc : upage ≤ q ∧ q < upage + (n + 1) * pgSize ∧ q % pgSize = 0
    · rw [if_pos (by simp only [pgSize] at hu hc ⊢; omega), if_pos hc, layoutPage_succ]
      congr 4
      simp only [pgSize] at hu hc ⊢
      omega
    · rw [if_neg (by simp only [pgSize] at hu hc ⊢; omega), if_neg hc,
        Function.update_of_ne hq]

/-- The first page: all of `readBytes` up to a page, from `ofs`. -/
theorem layoutPage_zero (ofs readBytes : ℕ) :
    layoutPage ofs readBytes 0 =
      ⟨ofs, if readBytes < pgSize then readBytes else pgSize,
        pgSize - if readBytes < pgSize then readBytes else pgSize⟩ := by
  simp only [layoutPage, Nat.zero_mul, Nat.min_zero, Nat.add_zero, Nat.sub_zero, FilePage.mk.injEq,
    true_and]
  by_cases h : readBytes < pgSize
  · rw [if_pos h, Nat.min_eq_right (Nat.le_of_lt h)]
    exact ⟨rfl, rfl⟩
  · rw [if_neg h, Nat.min_eq_left (Nat.le_of_not_lt h)]
    exact ⟨rfl, rfl⟩

theorem layoutTable_zero (spt : ℕ → Option FilePage) (upage ofs readBytes : ℕ) :
    layoutTable spt upage ofs readBytes 0 = spt := by
  funext q
  simp only [layoutTable, Nat.zero_mul, Nat.add_zero]
  rw [if_neg (by omega)]

theorem layoutImage_zero (file : List UInt8) (pages : ℕ → Option (ℕ → UInt8))
    (upage ofs readBytes : ℕ) : layoutImage file pages upage ofs readBytes 0 = pages := by
  funext q
  simp only [layoutImage, Nat.zero_mul, Nat.add_zero]
  rw [if_neg (by omega)]

theorem pageReadBytes_eq (readBytes : ℕ) :
    (if readBytes < pgSize then readBytes else pgSize) = min readBytes pgSize := by
  by_cases h : readBytes < pgSize
  · rw [if_pos h, Nat.min_eq_left (Nat.le_of_lt h)]
  · rw [if_neg h, Nat.min_eq_right (Nat.le_of_not_lt h)]

/-- What is left after a page, when what is left is a whole number of pages. -/
theorem remaining_after_page {readBytes zeroBytes n : ℕ}
    (h : readBytes + zeroBytes = (n + 1) * pgSize) :
    readBytes - min readBytes pgSize + (zeroBytes - (pgSize - min readBytes pgSize)) =
      n * pgSize := by
  simp only [pgSize] at h ⊢
  omega

end Layout

section Loops

/-- The pages from `upage` on, for `n` pages, are free. -/
def PagesFree {β : Type} (table : ℕ → Option β) (upage n : ℕ) : Prop :=
  ∀ i < n, table (upage + i * pgSize) = none

theorem PagesFree.first {β : Type} {table : ℕ → Option β} {upage n : ℕ}
    (h : PagesFree table upage (n + 1)) : table upage = none := by
  simpa using h 0 (Nat.succ_pos n)

theorem PagesFree.rest {β : Type} {table : ℕ → Option β} {upage n : ℕ}
    (h : PagesFree table upage (n + 1)) (b : Option β) :
    PagesFree (Function.update table upage b) (upage + pgSize) n := by
  intro i hi
  rw [Function.update_of_ne (by simp only [pgSize]; omega)]
  have := h (i + 1) (by omega)
  rwa [Nat.succ_mul, ← Nat.add_assoc, Nat.add_right_comm] at this

theorem mod_add_pgSize {upage : ℕ} (hu : upage % pgSize = 0) : (upage + pgSize) % pgSize = 0 := by
  rw [Nat.add_mod_right]
  exact hu

/-- The `VM` loop registers, page by page, the layout of the segment. -/
theorem loadSegmentVmLoop_eq : ∀ (n : ℕ) {spt : ℕ → Option FilePage} {upage ofs readBytes zeroBytes : ℕ},
    upage % pgSize = 0 → readBytes + zeroBytes = n * pgSize → PagesFree spt upage n →
    loadSegmentVmLoop n spt upage ofs readBytes zeroBytes =
      some (layoutTable spt upage ofs readBytes n)
  | 0, spt, upage, ofs, readBytes, _, _, _, _ => by
    rw [loadSegmentVmLoop, layoutTable_zero]
  | n + 1, spt, upage, ofs, readBytes, zeroBytes, hu, hsum, hfree => by
    have hpos : 0 < readBytes ∨ 0 < zeroBytes := by
      simp only [pgSize] at hsum
      omega
    have hset : sptSetFilePage spt upage ofs (if readBytes < pgSize then readBytes else pgSize)
        (pgSize - if readBytes < pgSize then readBytes else pgSize) =
          some (Function.update spt upage (some (layoutPage ofs readBytes 0))) := by
      rw [sptSetFilePage, pgRoundDown_of_mod hu, hfree.first, layoutPage_zero]
    rw [loadSegmentVmLoop, if_pos hpos]
    simp only
    rw [hset]
    simp only
    rw [pageReadBytes_eq, loadSegmentVmLoop_eq n (mod_add_pgSize hu) (remaining_after_page hsum)
      (hfree.rest _), layoutTable_succ spt hu n]

/-- The loop without `VM` installs, page by page, the bytes of the same layout, when the segment's
bytes are within the file. -/
theorem loadSegmentLoop_eq (file : List UInt8) :
    ∀ (n : ℕ) {pages : ℕ → Option (ℕ → UInt8)} {upage ofs readBytes zeroBytes : ℕ},
    upage % pgSize = 0 → readBytes + zeroBytes = n * pgSize → PagesFree pages upage n →
    ofs + readBytes ≤ file.length →
    loadSegmentLoop file n pages upage ofs readBytes zeroBytes =
      some (layoutImage file pages upage ofs readBytes n)
  | 0, pages, upage, ofs, readBytes, _, _, _, _, _ => by
    rw [loadSegmentLoop, layoutImage_zero]
  | n + 1, pages, upage, ofs, readBytes, zeroBytes, hu, hsum, hfree, hfile => by
    have hpos : 0 < readBytes ∨ 0 < zeroBytes := by
      simp only [pgSize] at hsum
      omega
    have hread : ofs + (if readBytes < pgSize then readBytes else pgSize) ≤ file.length := by
      rw [pageReadBytes_eq]
      omega
    have hkpage : (fun j => if j < (if readBytes < pgSize then readBytes else pgSize) then
        file.getD (ofs + j) 0 else 0) = (layoutPage ofs readBytes 0).byte file := by
      rw [layoutPage_zero]
      rfl
    rw [loadSegmentLoop, if_pos hpos]
    simp only
    rw [if_pos hread, hfree.first]
    simp only
    rw [hkpage, pageReadBytes_eq, loadSegmentLoop_eq file n (mod_add_pgSize hu)
      (remaining_after_page hsum) (hfree.rest _) (by omega), layoutImage_succ file pages hu n]

end Loops

section Segment

/-- What `validate_segment` establishes of a header whose fields are `uint32_t`s. -/
structure AcceptedSegment (phdr : Elf32Phdr) (fileLength : ℕ) : Prop where
  offset_mod : phdr.pOffset % pgSize = phdr.pVaddr % pgSize
  offset_le : phdr.pOffset ≤ fileLength
  filesz_le : phdr.pFilesz ≤ phdr.pMemsz
  memsz_pos : 0 < phdr.pMemsz
  vaddr_ge : pgSize ≤ phdr.pVaddr
  end_lt : phdr.pVaddr + phdr.pMemsz < physBase

/-- `validate_segment` accepts only segments that end below `PHYS_BASE` without wrapping. -/
theorem acceptedSegment_of_validate {phdr : Elf32Phdr} {fileLength : ℕ}
    (hvaddr : phdr.pVaddr < 2 ^ 32) (hmemsz : phdr.pMemsz < 2 ^ 32)
    (h : validateSegment phdr fileLength = true) : AcceptedSegment phdr fileLength := by
  simp only [validateSegment, isUserVaddr, Bool.and_eq_true, decide_eq_true_eq] at h
  obtain ⟨⟨⟨⟨⟨⟨⟨hmod, hoff⟩, hfile⟩, hmem⟩, hv⟩, hend⟩, hwrap⟩, hlow⟩ := h
  unfold ptrRange at hend hwrap
  -- a sum that wraps ends below `p_vaddr`, which the last test but one rejects
  have hnowrap : phdr.pVaddr + phdr.pMemsz < 2 ^ 32 := by
    by_contra hge
    have : (phdr.pVaddr + phdr.pMemsz) % 2 ^ 32 = phdr.pVaddr + phdr.pMemsz - 2 ^ 32 := by omega
    omega
  refine ⟨hmod, hoff, hfile, Nat.pos_of_ne_zero hmem, hlow, ?_⟩
  rwa [Nat.mod_eq_of_lt hnowrap] at hend

variable {phdr : Elf32Phdr} {fileLength : ℕ}

/-- `read_bytes + zero_bytes` is the page-rounded end of the segment within its first page. -/
theorem segmentBytes_sum (h : AcceptedSegment phdr fileLength) :
    (segmentBytes phdr).1 + (segmentBytes phdr).2 = roundUpPage (pgOfs phdr.pVaddr + phdr.pMemsz) := by
  have hle := h.filesz_le
  unfold segmentBytes roundUpPage pgOfs
  split
  · simp only [pgSize] at hle ⊢
    omega
  · simp

/-- The pages that cover the segment are the pages from `mem_page` up to
`mem_page + read_bytes + zero_bytes`. -/
theorem coversSegment_iff (h : AcceptedSegment phdr fileLength) (q : ℕ) :
    CoversSegment phdr q ↔ pgRoundDown phdr.pVaddr ≤ q ∧
      q < pgRoundDown phdr.pVaddr + ((segmentBytes phdr).1 + (segmentBytes phdr).2) ∧
      q % pgSize = 0 := by
  have hpos := h.memsz_pos
  rw [segmentBytes_sum h]
  unfold CoversSegment pgRoundDown roundUpPage pgOfs
  simp only [pgSize] at hpos ⊢
  constructor
  · rintro ⟨k, hk, rfl⟩
    omega
  -- the first page holds `p_vaddr`; any later one starts at a byte of the segment
  · rintro ⟨hlo, hhi, hq⟩
    by_cases hfirst : q ≤ phdr.pVaddr
    · exact ⟨0, hpos, by omega⟩
    · exact ⟨q - phdr.pVaddr, by omega, by omega⟩

/-- Byte `k` of the segment, in the page that holds it. -/
theorem layoutPage_byte (h : AcceptedSegment phdr fileLength) (file : List UInt8) {k : ℕ} :
    (layoutPage (pgRoundDown phdr.pOffset) (segmentBytes phdr).1
        ((pgRoundDown (phdr.pVaddr + k) - pgRoundDown phdr.pVaddr) / pgSize)).byte file
        (pgOfs (phdr.pVaddr + k)) = segmentByte phdr file k := by
  have hmod := h.offset_mod
  unfold FilePage.byte layoutPage segmentByte segmentBytes pgRoundDown pgOfs
  simp only [pgSize] at hmod ⊢
  split
  -- the file part: page `i` reads from `file_page + i * PGSIZE` while bytes are left
  · by_cases hk : k < phdr.pFilesz
    · rw [if_pos (by omega), if_pos hk]
      congr 1
      omega
    · rw [if_neg (by omega), if_neg hk]
  · next hzero =>
    rw [if_neg (by omega), if_neg (by omega)]

theorem segmentBytes_mod (h : AcceptedSegment phdr fileLength) :
    ((segmentBytes phdr).1 + (segmentBytes phdr).2) % pgSize = 0 := by
  rw [segmentBytes_sum h, roundUpPage]
  exact Nat.mul_mod_left _ _

/-- The segment's pages end at or below `PHYS_BASE`. -/
theorem segment_end_le (h : AcceptedSegment phdr fileLength) :
    pgRoundDown phdr.pVaddr + ((segmentBytes phdr).1 + (segmentBytes phdr).2) ≤ physBase := by
  have hend := h.end_lt
  rw [segmentBytes_sum h]
  unfold pgRoundDown roundUpPage pgOfs
  simp only [pgSize, physBase] at hend ⊢
  omega

/-- The file bytes the segment reads lie within the file. -/
theorem segment_read_le (h : AcceptedSegment phdr fileLength) {n : ℕ}
    (hfile : phdr.pOffset + phdr.pFilesz ≤ n) : pgRoundDown phdr.pOffset + (segmentBytes phdr).1 ≤ n := by
  have hmod := h.offset_mod
  unfold segmentBytes pgRoundDown pgOfs
  simp only [pgSize] at hmod ⊢
  split <;> omega

/-- The pages `load_segment` walks, `mem_page + i * PGSIZE` for `i` below
`(read_bytes + zero_bytes) / PGSIZE`, are those that cover the segment. -/
theorem layout_cond_iff (h : AcceptedSegment phdr fileLength) (q : ℕ) :
    (pgRoundDown phdr.pVaddr ≤ q ∧
        q < pgRoundDown phdr.pVaddr +
          ((segmentBytes phdr).1 + (segmentBytes phdr).2) / pgSize * pgSize ∧
        q % pgSize = 0) ↔ CoversSegment phdr q := by
  rw [Nat.div_mul_cancel (Nat.dvd_of_mod_eq_zero (segmentBytes_mod h)), coversSegment_iff h]

/-- Every page that covers the segment is a user page above page 0. -/
theorem covers_user_page (h : AcceptedSegment phdr fileLength) {q : ℕ}
    (hq : CoversSegment phdr q) : pgSize ≤ q ∧ q + pgSize ≤ physBase := by
  have hend := segment_end_le h
  have hmod := segmentBytes_mod h
  have hge := h.vaddr_ge
  rw [coversSegment_iff h] at hq
  unfold pgRoundDown at hq hend
  simp only [pgSize, physBase] at hq hend hmod hge ⊢
  omega

theorem pagesFree_of_covers {β : Type} (h : AcceptedSegment phdr fileLength)
    {table : ℕ → Option β} (hfree : ∀ q, CoversSegment phdr q → table q = none) :
    PagesFree table (pgRoundDown phdr.pVaddr)
      (((segmentBytes phdr).1 + (segmentBytes phdr).2) / pgSize) := by
  intro i hi
  apply hfree
  rw [← layout_cond_iff h]
  unfold pgRoundDown
  simp only [pgSize] at hi ⊢
  omega

/-- Under `VM`, `load` registers the pages that cover the segment, and only those, each reading
within the file, and faulting them in gives the segment's bytes. -/
theorem loadPtLoadVm_layout {file : List UInt8} (h : AcceptedSegment phdr file.length)
    (hvalid : validateSegment phdr file.length = true)
    (hfile : phdr.pOffset + phdr.pFilesz ≤ file.length) {spt : ℕ → Option FilePage}
    (hfree : ∀ q, CoversSegment phdr q → spt q = none) :
    ∃ spt', loadPtLoadVm spt phdr file.length = some spt' ∧
      (∀ q, ¬ CoversSegment phdr q → spt' q = spt q) ∧
      (∀ q, CoversSegment phdr q → ∃ e, spt' q = some e ∧
        e.readBytes + e.zeroBytes = pgSize ∧ e.fileOffset + e.readBytes ≤ file.length) ∧
      ∀ k < phdr.pMemsz, fileTableByte file spt' (phdr.pVaddr + k) =
        some (segmentByte phdr file k) := by
  have hread := segment_read_le h hfile
  have hloop := @loadSegmentVmLoop_eq (((segmentBytes phdr).1 + (segmentBytes phdr).2) / pgSize)
    spt _ (pgRoundDown phdr.pOffset) _ _ (pgRoundDown_mod _)
    (Nat.div_mul_cancel (Nat.dvd_of_mod_eq_zero (segmentBytes_mod h))).symm
    (pagesFree_of_covers h hfree)
  refine ⟨_, by rw [loadPtLoadVm, if_pos hvalid]; exact hloop, ?_, ?_, ?_⟩
  · intro q hq
    rw [layoutTable, if_neg (by rwa [layout_cond_iff h])]
  · intro q hq
    rw [layoutTable, if_pos ((layout_cond_iff h q).mpr hq)]
    refine ⟨_, rfl, ?_, ?_⟩
    · simp only [layoutPage, pgSize]
      omega
    · simp only [layoutPage]
      omega
  · intro k hk
    rw [fileTableByte, layoutTable, if_pos ((layout_cond_iff h _).mpr ⟨k, hk, rfl⟩), Option.map_some,
      layoutPage_byte h file]

/-- Without `VM`, `load` installs the pages that cover the segment, and only those, with the
segment's bytes. -/
theorem loadPtLoadNoVm_layout {file : List UInt8} (h : AcceptedSegment phdr file.length)
    (hvalid : validateSegment phdr file.length = true)
    (hfile : phdr.pOffset + phdr.pFilesz ≤ file.length) {pages : ℕ → Option (ℕ → UInt8)}
    (hfree : ∀ q, CoversSegment phdr q → pages q = none) :
    ∃ pages', loadPtLoadNoVm pages phdr file = some pages' ∧
      (∀ q, ¬ CoversSegment phdr q → pages' q = pages q) ∧
      (∀ q, CoversSegment phdr q → (pages' q).isSome) ∧
      ∀ k < phdr.pMemsz, imageByte pages' (phdr.pVaddr + k) = some (segmentByte phdr file k) := by
  have hloop := loadSegmentLoop_eq file (((segmentBytes phdr).1 + (segmentBytes phdr).2) / pgSize)
    (pgRoundDown_mod _) (Nat.div_mul_cancel (Nat.dvd_of_mod_eq_zero (segmentBytes_mod h))).symm
    (pagesFree_of_covers h hfree) (segment_read_le h hfile)
  refine ⟨_, by rw [loadPtLoadNoVm, if_pos hvalid]; exact hloop, ?_, ?_, ?_⟩
  · intro q hq
    rw [layoutImage, if_neg (by rwa [layout_cond_iff h])]
  · intro q hq
    rw [layoutImage, if_pos ((layout_cond_iff h q).mpr hq)]
    rfl
  · intro k hk
    rw [imageByte, layoutImage, if_pos ((layout_cond_iff h _).mpr ⟨k, hk, rfl⟩), Option.map_some,
      layoutPage_byte h file]

end Segment

/-- A `PT_LOAD` header that `validate_segment` accepts, with its file bytes inside the file, gives
`load_segment` arguments that meet its assertions, with no 32-bit wrap, and both variants of
`load_segment` map exactly the pages that cover `[p_vaddr, p_vaddr + p_memsz)`, all between
`PGSIZE` and `PHYS_BASE`, holding the segment's bytes. -/
theorem segment_layout (phdr : Elf32Phdr) (file : List UInt8) (hvaddr : phdr.pVaddr < 2 ^ 32)
    (hmemsz : phdr.pMemsz < 2 ^ 32) (hvalid : validateSegment phdr file.length = true)
    (hfile : phdr.pOffset + phdr.pFilesz ≤ file.length) :
    ((segmentBytes phdr).1 + (segmentBytes phdr).2) % pgSize = 0 ∧
      pgOfs (pgRoundDown phdr.pVaddr) = 0 ∧ pgRoundDown phdr.pOffset % pgSize = 0 ∧
      pgRoundDown phdr.pVaddr + ((segmentBytes phdr).1 + (segmentBytes phdr).2) ≤ physBase ∧
      pgRoundDown phdr.pOffset + (segmentBytes phdr).1 ≤ file.length ∧
      (∀ q, CoversSegment phdr q → pgSize ≤ q ∧ q + pgSize ≤ physBase) ∧
      (∀ spt : ℕ → Option FilePage, (∀ q, CoversSegment phdr q → spt q = none) →
        ∃ spt', loadPtLoadVm spt phdr file.length = some spt' ∧
          (∀ q, ¬ CoversSegment phdr q → spt' q = spt q) ∧
          (∀ q, CoversSegment phdr q → ∃ e, spt' q = some e ∧
            e.readBytes + e.zeroBytes = pgSize ∧ e.fileOffset + e.readBytes ≤ file.length) ∧
          ∀ k < phdr.pMemsz, fileTableByte file spt' (phdr.pVaddr + k) =
            some (segmentByte phdr file k)) ∧
      (∀ pages : ℕ → Option (ℕ → UInt8), (∀ q, CoversSegment phdr q → pages q = none) →
        ∃ pages', loadPtLoadNoVm pages phdr file = some pages' ∧
          (∀ q, ¬ CoversSegment phdr q → pages' q = pages q) ∧
          (∀ q, CoversSegment phdr q → (pages' q).isSome) ∧
          ∀ k < phdr.pMemsz, imageByte pages' (phdr.pVaddr + k) = some (segmentByte phdr file k)) := by
  have h := acceptedSegment_of_validate hvaddr hmemsz hvalid
  refine ⟨segmentBytes_mod h, pgRoundDown_mod _, pgRoundDown_mod _, segment_end_le h,
    segment_read_le h hfile, fun _ => covers_user_page h, ?_, ?_⟩
  · intro spt hfree
    exact loadPtLoadVm_layout h hvalid hfile hfree
  · intro pages hfree
    exact loadPtLoadNoVm_layout h hvalid hfile hfree

/-- A two-page segment: four file bytes at `0x1ffe`, then four zero bytes, so the segment
straddles the page boundary at `0x2000`. -/
theorem segment_layout_straddling :
    let phdr : Elf32Phdr := ⟨ptLoad, 0xffe, 0x1ffe, 0, 4, 8, 0, 0x1000⟩
    let file : List UInt8 := List.replicate 0xffe 0 ++ [1, 2, 3, 4]
    phdr.pVaddr < 2 ^ 32 ∧ phdr.pMemsz < 2 ^ 32 ∧ validateSegment phdr file.length = true ∧
      phdr.pOffset + phdr.pFilesz ≤ file.length ∧
      ((segmentBytes phdr).1 + (segmentBytes phdr).2) % pgSize = 0 := by
  intro phdr file
  have hlen : file.length = 0x1002 := by
    simp only [file, List.length_append, List.length_replicate, List.length_cons, List.length_nil]
  have hvalid : validateSegment phdr file.length = true := by
    rw [hlen]
    decide
  exact ⟨by decide, by decide, hvalid, by rw [hlen]; decide,
    (segment_layout phdr file (by decide) (by decide) hvalid (by rw [hlen]; decide)).1⟩

end Pintos
