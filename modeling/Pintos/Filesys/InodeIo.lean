import Pintos.Filesys.Inode
import Mathlib.Logic.Function.Basic
import Mathlib.Algebra.Group.Nat.Defs
import Mathlib.Algebra.Group.Int.Defs

/-! # Reading and writing inodes

`inode_read_at` and `inode_write_at` of `filesys/inode.c`. The data of an
inode occupies the contiguous sectors from `data.start` on, and
`byte_to_sector` finds the sector of a byte. Both functions cut a request
into chunks, each bounded by what is left of the request, of the inode and
of the sector, and move a whole sector directly or go through a bounce
buffer; for a write that means reading the sector first, so that its other
bytes survive.

The bounce buffer is taken to be allocated. Its old contents are overwritten
by `block_read` or `memset` before each use, so every round starts from a
blank one. Each round of a loop moves at least one byte of the request, so
`size` rounds suffice: that is the fuel.

Over the loops, a transfer is described by the file as a byte stream:
reading copies the bytes `[offset, offset + n)` of the stream, and writing
puts the buffer there with nothing else on the disk changed.
-/

namespace Pintos

/-- `BLOCK_SECTOR_SIZE`. -/
def blockSectorSize : ℤ := 512

/-- Memory from a base pointer on: the byte at `p + i` is `p i`. -/
abbrev Bytes := ℤ → UInt8

/-- The file system device: the bytes of each sector. -/
abbrev Disk := ℕ → Bytes

/-- `memcpy (dst + dstOfs, src + srcOfs, cnt)`. -/
def Bytes.memcpy (dst : Bytes) (dstOfs : ℤ) (src : Bytes) (srcOfs cnt : ℤ) : Bytes :=
  fun i => if dstOfs ≤ i ∧ i < dstOfs + cnt then src (srcOfs + (i - dstOfs)) else dst i

/-- `memset (dst, v, cnt)`. -/
def Bytes.memset (dst : Bytes) (v : UInt8) (cnt : ℤ) : Bytes :=
  fun i => if 0 ≤ i ∧ i < cnt then v else dst i

/-- `block_read (fs_device, sector, dst + ofs)`. -/
def blockRead (disk : Disk) (sector : ℕ) (dst : Bytes) (ofs : ℤ) : Bytes :=
  Bytes.memcpy dst ofs (disk sector) 0 blockSectorSize

/-- `block_write (fs_device, sector, src + ofs)`. -/
def blockWrite (disk : Disk) (sector : ℕ) (src : Bytes) (ofs : ℤ) : Disk :=
  Function.update disk sector (Bytes.memcpy (disk sector) 0 src ofs blockSectorSize)

/-- `struct inode_disk`, as far as byte I/O reads it. -/
structure InodeDisk where
  start : ℕ
  length : ℤ
  deriving DecidableEq, Repr

/-- An open `struct inode`, as far as byte I/O reads it. -/
structure Inode where
  denyWriteCnt : ℕ
  data : InodeDisk
  deriving DecidableEq, Repr

def inodeLength (inode : Inode) : ℤ := inode.data.length

/-- `byte_to_sector`; `-1` past the end. C's `/` truncates. -/
def byteToSector (inode : Inode) (pos : ℤ) : ℕ :=
  if pos < inode.data.length then inode.data.start + (pos.tdiv blockSectorSize).toNat
  else 2 ^ 32 - 1

/-- The chunk of one round of either loop: the least of what is left of the request, of
the inode and of the sector. -/
def inodeChunk (inode : Inode) (size offset : ℤ) : ℤ :=
  let inodeLeft := inodeLength inode - offset
  let sectorLeft := blockSectorSize - offset.tmod blockSectorSize
  let minLeft := if inodeLeft < sectorLeft then inodeLeft else sectorLeft
  if size < minLeft then size else minLeft

/-- One round of `inode_read_at`: `chunk` bytes of the sector holding `offset` to
`buffer + bytes_read`, directly for a whole sector and through the bounce buffer otherwise. -/
def readChunk (disk : Disk) (inode : Inode) (buffer : Bytes) (offset bytesRead chunk : ℤ) :
    Bytes :=
  let sectorIdx := byteToSector inode offset
  let sectorOfs := offset.tmod blockSectorSize
  if sectorOfs = 0 ∧ chunk = blockSectorSize then blockRead disk sectorIdx buffer bytesRead
  else
    let bounce := blockRead disk sectorIdx (fun _ => 0) 0
    Bytes.memcpy buffer bytesRead bounce sectorOfs chunk

/-- One round of `inode_write_at`: `chunk` bytes from `buffer + bytes_written` to the sector
holding `offset`. A sector written in part is read into the bounce buffer first. -/
def writeChunk (disk : Disk) (inode : Inode) (buffer : Bytes) (offset bytesWritten chunk : ℤ) :
    Disk :=
  let sectorIdx := byteToSector inode offset
  let sectorOfs := offset.tmod blockSectorSize
  let sectorLeft := blockSectorSize - sectorOfs
  if sectorOfs = 0 ∧ chunk = blockSectorSize then blockWrite disk sectorIdx buffer bytesWritten
  else
    let bounce :=
      if 0 < sectorOfs ∨ chunk < sectorLeft then blockRead disk sectorIdx (fun _ => 0) 0
      else Bytes.memset (fun _ => 0) 0 blockSectorSize
    blockWrite disk sectorIdx (Bytes.memcpy bounce sectorOfs buffer bytesWritten chunk) 0

/-- The loop of `inode_read_at` over `size`, `offset`, `bytes_read` and the buffer. -/
def readAtLoop (disk : Disk) (inode : Inode) : ℕ → ℤ → ℤ → ℤ → Bytes → ℤ × Bytes
  | 0, _, _, bytesRead, buffer => (bytesRead, buffer)
  | fuel + 1, size, offset, bytesRead, buffer =>
    if 0 < size then
      let chunk := inodeChunk inode size offset
      if chunk ≤ 0 then (bytesRead, buffer)
      else
        readAtLoop disk inode fuel (size - chunk) (offset + chunk) (bytesRead + chunk)
          (readChunk disk inode buffer offset bytesRead chunk)
    else (bytesRead, buffer)

/-- `inode_read_at`: the bytes read and the caller's buffer. -/
def inodeReadAt (disk : Disk) (inode : Inode) (buffer : Bytes) (size offset : ℤ) : ℤ × Bytes :=
  readAtLoop disk inode size.toNat size offset 0 buffer

/-- The loop of `inode_write_at` over `size`, `offset`, `bytes_written` and the disk. -/
def writeAtLoop (inode : Inode) (buffer : Bytes) : ℕ → ℤ → ℤ → ℤ → Disk → ℤ × Disk
  | 0, _, _, bytesWritten, disk => (bytesWritten, disk)
  | fuel + 1, size, offset, bytesWritten, disk =>
    if 0 < size then
      let chunk := inodeChunk inode size offset
      if chunk ≤ 0 then (bytesWritten, disk)
      else
        writeAtLoop inode buffer fuel (size - chunk) (offset + chunk) (bytesWritten + chunk)
          (writeChunk disk inode buffer offset bytesWritten chunk)
    else (bytesWritten, disk)

/-- `inode_write_at`: the bytes written and the disk. -/
def inodeWriteAt (disk : Disk) (inode : Inode) (buffer : Bytes) (size offset : ℤ) : ℤ × Disk :=
  if inode.denyWriteCnt ≠ 0 then (0, disk)
  else writeAtLoop inode buffer size.toNat size offset 0 disk

/-! ### The file as a byte stream -/

/-- Byte `pos` of the file: byte `pos % 512` of sector `start + pos / 512`. -/
def fileByte (disk : Disk) (inode : Inode) (pos : ℤ) : UInt8 :=
  disk (inode.data.start + (pos / blockSectorSize).toNat) (pos % blockSectorSize)

/-- The bytes a transfer of `size` bytes at `offset` moves: those before the end. -/
def transferLength (inode : Inode) (size offset : ℤ) : ℤ :=
  min size (max 0 (inodeLength inode - offset))

/-- The disk with the file bytes `[offset, offset + n)` taken from `buffer + src` on. -/
def storeFileBytes (disk : Disk) (inode : Inode) (buffer : Bytes) (src offset n : ℤ) : Disk :=
  fun sector i =>
    let pos := ((sector : ℤ) - inode.data.start) * blockSectorSize + i
    if inode.data.start ≤ sector ∧ 0 ≤ i ∧ i < blockSectorSize ∧ offset ≤ pos ∧ pos < offset + n
    then buffer (src + (pos - offset)) else disk sector i

section Copies

variable {dst src : Bytes} {dstOfs srcOfs : ℤ}

theorem memcpy_of_nonpos {cnt : ℤ} (h : cnt ≤ 0) : Bytes.memcpy dst dstOfs src srcOfs cnt = dst := by
  funext i
  simp only [Bytes.memcpy]
  rw [if_neg (by omega)]

/-- Two copies of adjacent ranges are one copy of both. -/
theorem memcpy_memcpy {a b : ℤ} (ha : 0 ≤ a) (hb : 0 ≤ b) :
    Bytes.memcpy (Bytes.memcpy dst dstOfs src srcOfs a) (dstOfs + a) src (srcOfs + a) b =
      Bytes.memcpy dst dstOfs src srcOfs (a + b) := by
  funext i
  simp only [Bytes.memcpy]
  by_cases hi : dstOfs + a ≤ i ∧ i < dstOfs + a + b
  · rw [if_pos hi, if_pos (by omega)]
    congr 1
    omega
  · rw [if_neg hi]
    split_ifs <;> first | rfl | omega

end Copies

section Sectors

variable {disk : Disk} {inode : Inode} {buffer : Bytes}

theorem byteToSector_of_lt {pos : ℤ} (h0 : 0 ≤ pos) (h : pos < inodeLength inode) :
    byteToSector inode pos = inode.data.start + (pos / 512).toNat := by
  rw [byteToSector, if_pos (show pos < inode.data.length from h), Int.tdiv_eq_ediv_of_nonneg h0]
  rfl

theorem inodeChunk_eq (inode : Inode) (size : ℤ) {offset : ℤ} (h0 : 0 ≤ offset) :
    inodeChunk inode size offset = min size (min (inodeLength inode - offset) (512 - offset % 512)) := by
  simp only [inodeChunk, blockSectorSize, Int.tmod_eq_emod_of_nonneg h0]
  split_ifs <;> omega

/-- The bytes `offset + j` of a chunk that stays in the sector of `offset`. -/
theorem fileByte_add {offset j : ℤ} (hj : 0 ≤ j) (hsec : offset % 512 + j < 512) :
    fileByte disk inode (offset + j) = disk (inode.data.start + (offset / 512).toNat) (offset % 512 + j) := by
  have hdiv : (offset + j) / 512 = offset / 512 := by omega
  have hmod : (offset + j) % 512 = offset % 512 + j := by omega
  simp only [fileByte, blockSectorSize, hdiv, hmod]

/-- A round of the read loop copies the chunk's bytes of the file, whichever way it goes. -/
theorem readChunk_eq {offset bytesRead chunk : ℤ} (h0 : 0 ≤ offset)
    (hsec : offset % 512 + chunk ≤ 512) (hlen : offset < inodeLength inode) :
    readChunk disk inode buffer offset bytesRead chunk =
      Bytes.memcpy buffer bytesRead (fileByte disk inode) offset chunk := by
  funext i
  simp only [readChunk, byteToSector_of_lt h0 hlen, Int.tmod_eq_emod_of_nonneg h0, blockRead,
    blockSectorSize]
  -- the direct and the bounce-buffer branch each take byte `i - bytesRead` of the chunk
  split_ifs with hdirect
  all_goals
    simp only [Bytes.memcpy]
    split_ifs <;> first | rfl | omega | (rw [fileByte_add (by omega) (by omega)]; congr 1; omega)

/-- Both branches of a write round put the chunk into the sector holding `offset`. -/
theorem writeChunk_eq_update {offset bytesWritten chunk : ℤ} (h0 : 0 ≤ offset)
    (hsec : offset % 512 + chunk ≤ 512) (hlen : offset < inodeLength inode) :
    writeChunk disk inode buffer offset bytesWritten chunk =
      Function.update disk (inode.data.start + (offset / 512).toNat)
        (Bytes.memcpy (disk (inode.data.start + (offset / 512).toNat)) (offset % 512) buffer
          bytesWritten chunk) := by
  simp only [writeChunk, byteToSector_of_lt h0 hlen, Int.tmod_eq_emod_of_nonneg h0, blockWrite,
    blockRead, blockSectorSize]
  -- the direct write, the read-modify-write and the write over zeros
  split_ifs with hdirect hread
  all_goals
    congr 1
    funext j
    simp only [Bytes.memcpy, Bytes.memset]
    split_ifs <;> first | rfl | omega | (congr 1; omega)

/-- The stores of a chunk that stays in one sector update that sector alone. -/
theorem storeFileBytes_chunk {offset src chunk : ℤ} (h0 : 0 ≤ offset)
    (hsec : offset % 512 + chunk ≤ 512) :
    storeFileBytes disk inode buffer src offset chunk =
      Function.update disk (inode.data.start + (offset / 512).toNat)
        (Bytes.memcpy (disk (inode.data.start + (offset / 512).toNat)) (offset % 512) buffer
          src chunk) := by
  funext sector i
  simp only [storeFileBytes, Function.update_apply]
  rw [blockSectorSize]
  by_cases hs : sector = inode.data.start + (offset / 512).toNat
  · subst hs
    rw [if_pos rfl]
    simp only [Bytes.memcpy]
    split_ifs <;> first | rfl | omega | (congr 1; omega)
  · rw [if_neg hs, if_neg (by omega)]

/-- A round of the write loop stores the chunk's bytes in the file and nothing else. -/
theorem writeChunk_eq {offset bytesWritten chunk : ℤ} (h0 : 0 ≤ offset)
    (hsec : offset % 512 + chunk ≤ 512) (hlen : offset < inodeLength inode) :
    writeChunk disk inode buffer offset bytesWritten chunk =
      storeFileBytes disk inode buffer bytesWritten offset chunk := by
  rw [writeChunk_eq_update h0 hsec hlen, storeFileBytes_chunk h0 hsec]

theorem storeFileBytes_of_nonpos {src offset n : ℤ} (h : n ≤ 0) :
    storeFileBytes disk inode buffer src offset n = disk := by
  funext sector i
  simp only [storeFileBytes]
  rw [if_neg (by omega)]

/-- Stores of two adjacent ranges are one store of both. -/
theorem storeFileBytes_append {src offset a b : ℤ} (ha : 0 ≤ a) (hb : 0 ≤ b) :
    storeFileBytes (storeFileBytes disk inode buffer src offset a) inode buffer (src + a)
        (offset + a) b =
      storeFileBytes disk inode buffer src offset (a + b) := by
  funext sector i
  simp only [storeFileBytes]
  split_ifs <;> first | rfl | omega | (congr 1; omega)

/-- The file after a store: the stored range from the buffer, the rest as before. -/
theorem fileByte_storeFileBytes {src offset n p : ℤ} (hp : 0 ≤ p) :
    fileByte (storeFileBytes disk inode buffer src offset n) inode p =
      if offset ≤ p ∧ p < offset + n then buffer (src + (p - offset)) else fileByte disk inode p := by
  simp only [fileByte, storeFileBytes]
  rw [blockSectorSize]
  -- the sector and the byte of `p` give `p` back
  have hpos : ((inode.data.start + (p / 512).toNat : ℕ) - (inode.data.start : ℤ)) * 512 + p % 512 = p := by
    omega
  rw [hpos]
  split_ifs <;> first | rfl | omega

end Sectors

section Loops

variable {disk : Disk} {inode : Inode} {buffer : Bytes}

/-- What is left of a transfer after a round of `chunk` bytes. -/
theorem transferLength_sub {size offset : ℤ} (h0 : 0 ≤ offset) (hc : 0 < inodeChunk inode size offset) :
    transferLength inode (size - inodeChunk inode size offset) (offset + inodeChunk inode size offset) =
      transferLength inode size offset - inodeChunk inode size offset := by
  have hchunk := inodeChunk_eq inode size h0
  unfold transferLength
  omega

/-- A loop that stops moves nothing more: the request or the inode is used up. -/
theorem transferLength_of_stop {size offset : ℤ} (hs : 0 ≤ size) (h0 : 0 ≤ offset)
    (hstop : ¬(0 < size ∧ 0 < inodeChunk inode size offset)) : transferLength inode size offset = 0 := by
  have hchunk := inodeChunk_eq inode size h0
  unfold transferLength
  omega

/-- The read loop, from any point with fuel for what is left of the request, copies the bytes
of the file that it has left to read. -/
theorem readAtLoop_eq (fuel : ℕ) : ∀ (size offset bytesRead : ℤ) (buffer : Bytes),
    0 ≤ size → 0 ≤ offset → size.toNat ≤ fuel →
    readAtLoop disk inode fuel size offset bytesRead buffer =
      (bytesRead + transferLength inode size offset,
        Bytes.memcpy buffer bytesRead (fileByte disk inode) offset (transferLength inode size offset)) := by
  induction fuel with
  | zero =>
    intro size offset bytesRead buffer hs h0 hfuel
    have hn : transferLength inode size offset = 0 := transferLength_of_stop hs h0 (by omega)
    rw [readAtLoop, hn, Int.add_zero, memcpy_of_nonpos (Int.le_refl 0)]
  | succ fuel ih =>
    intro size offset bytesRead buffer hs h0 hfuel
    have hchunk := inodeChunk_eq inode size h0
    rw [readAtLoop]
    by_cases hmore : 0 < size ∧ 0 < inodeChunk inode size offset
    · obtain ⟨hpos, hc⟩ := hmore
      have hle : inodeChunk inode size offset ≤ transferLength inode size offset := by
        unfold transferLength
        omega
      dsimp only
      rw [if_pos hpos, if_neg (by omega), readChunk_eq h0 (by omega) (by omega),
        ih _ _ _ _ (by omega) (by omega) (by omega), transferLength_sub h0 hc,
        memcpy_memcpy (by omega) (by omega)]
      have hsum : inodeChunk inode size offset +
          (transferLength inode size offset - inodeChunk inode size offset) =
          transferLength inode size offset := by omega
      rw [hsum]
      congr 1
      omega
    · have hn : transferLength inode size offset = 0 := transferLength_of_stop hs h0 hmore
      rw [hn, Int.add_zero, memcpy_of_nonpos (Int.le_refl 0)]
      dsimp only
      split_ifs <;> first | rfl | omega

/-- The write loop, from any point with fuel for what is left of the request, stores the
bytes it has left to write and nothing else. -/
theorem writeAtLoop_eq (fuel : ℕ) : ∀ (size offset bytesWritten : ℤ) (disk : Disk),
    0 ≤ size → 0 ≤ offset → size.toNat ≤ fuel →
    writeAtLoop inode buffer fuel size offset bytesWritten disk =
      (bytesWritten + transferLength inode size offset,
        storeFileBytes disk inode buffer bytesWritten offset (transferLength inode size offset)) := by
  induction fuel with
  | zero =>
    intro size offset bytesWritten disk hs h0 hfuel
    have hn : transferLength inode size offset = 0 := transferLength_of_stop hs h0 (by omega)
    rw [writeAtLoop, hn, Int.add_zero, storeFileBytes_of_nonpos (Int.le_refl 0)]
  | succ fuel ih =>
    intro size offset bytesWritten disk hs h0 hfuel
    have hchunk := inodeChunk_eq inode size h0
    rw [writeAtLoop]
    by_cases hmore : 0 < size ∧ 0 < inodeChunk inode size offset
    · obtain ⟨hpos, hc⟩ := hmore
      have hle : inodeChunk inode size offset ≤ transferLength inode size offset := by
        unfold transferLength
        omega
      dsimp only
      rw [if_pos hpos, if_neg (by omega), writeChunk_eq h0 (by omega) (by omega),
        ih _ _ _ _ (by omega) (by omega) (by omega), transferLength_sub h0 hc,
        storeFileBytes_append (by omega) (by omega)]
      have hsum : inodeChunk inode size offset +
          (transferLength inode size offset - inodeChunk inode size offset) =
          transferLength inode size offset := by omega
      rw [hsum]
      congr 1
      omega
    · have hn : transferLength inode size offset = 0 := transferLength_of_stop hs h0 hmore
      rw [hn, Int.add_zero, storeFileBytes_of_nonpos (Int.le_refl 0)]
      dsimp only
      split_ifs <;> first | rfl | omega

theorem inodeReadAt_eq {size offset : ℤ} (hs : 0 ≤ size) (h0 : 0 ≤ offset) :
    inodeReadAt disk inode buffer size offset =
      (transferLength inode size offset,
        Bytes.memcpy buffer 0 (fileByte disk inode) offset (transferLength inode size offset)) := by
  rw [inodeReadAt, readAtLoop_eq _ _ _ _ _ hs h0 (Nat.le_refl _), Int.zero_add]

theorem inodeWriteAt_of_deny {size offset : ℤ} (h : inode.denyWriteCnt ≠ 0) :
    inodeWriteAt disk inode buffer size offset = (0, disk) := by
  rw [inodeWriteAt, if_pos h]

theorem inodeWriteAt_eq {size offset : ℤ} (hw : inode.denyWriteCnt = 0) (hs : 0 ≤ size)
    (h0 : 0 ≤ offset) :
    inodeWriteAt disk inode buffer size offset =
      (transferLength inode size offset,
        storeFileBytes disk inode buffer 0 offset (transferLength inode size offset)) := by
  rw [inodeWriteAt, if_neg (by omega), writeAtLoop_eq _ _ _ _ _ hs h0 (Nat.le_refl _), Int.zero_add]

/-- The file table counts a write by the number of bytes asked for; the inode writes as
many when they fit before its end and no opener denies writes. -/
theorem inodeWriteAt_count (t : FileTable) (sector : ℕ) {size offset : ℤ}
    (hdeny : inode.denyWriteCnt = (t.inodes sector).denyWriteCnt) (hs : 0 ≤ size) (h0 : 0 ≤ offset)
    (hfit : offset + size ≤ inodeLength inode) :
    (inodeWriteAt disk inode buffer size offset).1 = t.inodeWriteAt sector size.toNat := by
  unfold FileTable.inodeWriteAt
  by_cases hw : inode.denyWriteCnt = 0
  · rw [inodeWriteAt_eq hw hs h0, if_neg (by omega)]
    unfold transferLength
    omega
  · rw [inodeWriteAt_of_deny hw, if_pos (by omega)]
    rfl

end Loops

/-- Reading at `offset` returns the bytes of the file from there up to the end or the size
asked for; writing stores that many bytes of the buffer there unless writes are denied,
changes no other byte of the disk, and a read of the range gives the buffer back. -/
theorem inode_byte_io (disk : Disk) (inode : Inode) (buffer : Bytes) (size offset : ℤ)
    (hsize : 0 ≤ size) (hoffset : 0 ≤ offset) :
    inodeReadAt disk inode buffer size offset =
        (transferLength inode size offset,
          Bytes.memcpy buffer 0 (fileByte disk inode) offset (transferLength inode size offset)) ∧
      (0 < inode.denyWriteCnt → inodeWriteAt disk inode buffer size offset = (0, disk)) ∧
      (inode.denyWriteCnt = 0 →
        inodeWriteAt disk inode buffer size offset =
            (transferLength inode size offset,
              storeFileBytes disk inode buffer 0 offset (transferLength inode size offset)) ∧
          ∀ (buffer' : Bytes) (k : ℤ), 0 ≤ k → k < transferLength inode size offset →
            (inodeReadAt (inodeWriteAt disk inode buffer size offset).2 inode buffer' size
              offset).2 k = buffer k) := by
  refine ⟨inodeReadAt_eq hsize hoffset, fun hdeny => inodeWriteAt_of_deny (by omega),
    fun hw => ⟨inodeWriteAt_eq hw hsize hoffset, ?_⟩⟩
  intro buffer' k hk hkn
  rw [inodeWriteAt_eq hw hsize hoffset, inodeReadAt_eq hsize hoffset]
  -- byte `k` of the read is file byte `offset + k`, which the write took from `buffer k`
  simp only [Bytes.memcpy]
  rw [if_pos (by omega), fileByte_storeFileBytes (by omega), if_pos (by omega)]
  congr 1
  omega

/-- An inode of 1000 bytes from sector 2 on. -/
def sampleInode : Inode := ⟨0, ⟨2, 1000⟩⟩

theorem inode_byte_io_sample :
    (0 : ℤ) ≤ 600 ∧ (0 : ℤ) ≤ 300 ∧
      (inodeReadAt (fun _ _ => 0) sampleInode (fun _ => 7) 600 300 =
          (transferLength sampleInode 600 300,
            Bytes.memcpy (fun _ => 7) 0 (fileByte (fun _ _ => 0) sampleInode) 300
              (transferLength sampleInode 600 300)) ∧
        (0 < sampleInode.denyWriteCnt →
          inodeWriteAt (fun _ _ => 0) sampleInode (fun _ => 7) 600 300 = (0, fun _ _ => 0)) ∧
        (sampleInode.denyWriteCnt = 0 →
          inodeWriteAt (fun _ _ => 0) sampleInode (fun _ => 7) 600 300 =
              (transferLength sampleInode 600 300,
                storeFileBytes (fun _ _ => 0) sampleInode (fun _ => 7) 0 300
                  (transferLength sampleInode 600 300)) ∧
            ∀ (buffer' : Bytes) (k : ℤ), 0 ≤ k → k < transferLength sampleInode 600 300 →
              (inodeReadAt (inodeWriteAt (fun _ _ => 0) sampleInode (fun _ => 7) 600 300).2
                sampleInode buffer' 600 300).2 k = 7)) :=
  ⟨by decide, by decide, inode_byte_io _ _ _ _ _ (by decide) (by decide)⟩

end Pintos
