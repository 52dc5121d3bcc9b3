import Mathlib.Data.List.Range
import Mathlib.Tactic.Linarith

/-! # Partition tables

`devices/partition.c`. `partition_scan` parses the master boot record in
sector 0 of a block device and registers each primary partition; an entry of
an extended type sends `read_partition_table` on to the table of logical
partitions it points at, whose offsets count from that table's sector, and
whose own extended entries count from the primary extended partition.

The code reads every table with `block_read (block, 0, pt)`: whatever
sector it is asked to parse, it parses sector 0 again. The recursion has no
visited set or depth bound; here it takes fuel, and `none` is a recursion
that has not ended. A `block_sector_t` is a 32-bit word, so sector sums wrap.
The messages the scan prints are left out; the memory allocations are
taken to succeed.
-/

namespace Pintos

/-- A block device: its size in sectors and the bytes of each sector. -/
structure BlockDevice where
  size : ℕ
  read : ℕ → ℕ → UInt8

/-- A partition registered by `found_partition`: its number, type, first sector and size. -/
structure FoundPartition where
  partNr : ℕ
  type : UInt8
  start : ℕ
  size : ℕ
  deriving DecidableEq, Repr

/-- `struct partition_table_entry`, as far as the scan reads it. -/
structure PartitionEntry where
  type : UInt8
  offset : ℕ
  size : ℕ

/-- A little-endian 32-bit word of a sector. -/
def u32At (pt : ℕ → UInt8) (ofs : ℕ) : ℕ :=
  (pt ofs).toNat + 256 * (pt (ofs + 1)).toNat + 65536 * (pt (ofs + 2)).toNat +
    16777216 * (pt (ofs + 3)).toNat

/-- Entry `i` of the table in a sector, at byte `446 + 16 i`. -/
def entryAt (pt : ℕ → UInt8) (i : ℕ) : PartitionEntry :=
  ⟨pt (446 + 16 * i + 4), u32At pt (446 + 16 * i + 8), u32At pt (446 + 16 * i + 12)⟩

/-- The table's `signature`, which must be `0xaa55`. -/
def signature (pt : ℕ → UInt8) : ℕ := (pt 510).toNat + 256 * (pt 511).toNat

/-- The four extended partition types `read_partition_table` follows. -/
def isExtended (type : UInt8) : Bool :=
  type == 0x05 || type == 0x0f || type == 0x85 || type == 0xc5

/-- `found_partition`: a partition that lies within the device is registered. -/
def foundPartition (dev : BlockDevice) (type : UInt8) (start size partNr : ℕ) : List FoundPartition :=
  if dev.size ≤ start then []
  else if (start + size) % 2 ^ 32 < start ∨ dev.size < (start + size) % 2 ^ 32 then []
  else [⟨partNr, type, start, size⟩]

/-- `read_partition_table (block, sector, primary_extended_sector, part_nr)`: the new
`*part_nr` and the partitions registered, with at most `fuel` nested calls. -/
def readPartitionTable (dev : BlockDevice) :
    ℕ → ℕ → ℕ → ℕ → Option (ℕ × List FoundPartition)
  | 0, _, _, _ => none
  | fuel + 1, sector, primaryExtendedSector, partNr =>
    if dev.size ≤ sector then some (partNr, [])
    else
      let pt := dev.read 0
      if signature pt ≠ 0xaa55 then some (partNr, [])
      else
        (List.range 4).foldlM (fun (acc : ℕ × List FoundPartition) i =>
          let e := entryAt pt i
          if e.size = 0 ∨ e.type = 0 then some acc
          else if isExtended e.type then
            let next := if sector = 0 then (e.offset, e.offset)
              else ((e.offset + primaryExtendedSector) % 2 ^ 32, primaryExtendedSector)
            (readPartitionTable dev fuel next.1 next.2 acc.1).map fun r => (r.1, acc.2 ++ r.2)
          else
            some (acc.1 + 1, acc.2 ++
              foundPartition dev e.type ((e.offset + sector) % 2 ^ 32) e.size (acc.1 + 1)))
          (partNr, [])

/-- `partition_scan`: the partitions registered, and the count of partitions found. -/
def partitionScan (dev : BlockDevice) (fuel : ℕ) : Option (ℕ × List FoundPartition) :=
  readPartitionTable dev fuel 0 0 0

section Fold

variable {β γ : Type*} {f g : β → γ → Option β}

/-- A fold in `Option` fails when one of its steps fails from every accumulator. -/
theorem foldlM_eq_none_of_mem {i : γ} (hi : ∀ acc, f acc i = none) :
    ∀ {l : List γ} (init : β), i ∈ l → l.foldlM f init = none
  | [], _, hmem => absurd hmem List.not_mem_nil
  | j :: l, init, hmem => by
    rw [List.foldlM_cons]
    by_cases hji : j = i
    · rw [hji, hi]
      rfl
    · cases hf : f init j with
      | none => rfl
      | some acc =>
        exact foldlM_eq_none_of_mem hi acc ((List.mem_cons.mp hmem).resolve_left (Ne.symm hji))

end Fold

section Scan

variable {dev : BlockDevice}

/-- Whatever sector it is asked to parse, `read_partition_table` reads sector 0: the scan depends
on the device's size and its first sector only. -/
theorem readPartitionTable_congr {dev' : BlockDevice} (hsize : dev'.size = dev.size)
    (hread : dev'.read 0 = dev.read 0) (fuel sector pes partNr : ℕ) :
    readPartitionTable dev' fuel sector pes partNr = readPartitionTable dev fuel sector pes partNr := by
  induction fuel generalizing sector pes partNr with
  | zero => rfl
  | succ fuel ih => simp only [readPartitionTable, foundPartition, hsize, hread, ih]

/-- At a sector inside the device, the scan does not end if the nested call of one extended
entry of sector 0 does not end, from whatever partition count. -/
theorem readPartitionTable_eq_none {fuel sector pes partNr i : ℕ} {next : ℕ × ℕ}
    (hs : sector < dev.size) (hsig : signature (dev.read 0) = 0xaa55) (hi : i < 4)
    (hext : isExtended (entryAt (dev.read 0) i).type = true) (hsz : (entryAt (dev.read 0) i).size ≠ 0)
    (hnext : (if sector = 0 then ((entryAt (dev.read 0) i).offset, (entryAt (dev.read 0) i).offset)
      else (((entryAt (dev.read 0) i).offset + pes) % 2 ^ 32, pes)) = next)
    (hrec : ∀ n, readPartitionTable dev fuel next.1 next.2 n = none) :
    readPartitionTable dev (fuel + 1) sector pes partNr = none := by
  have htype : (entryAt (dev.read 0) i).type ≠ 0 := by
    intro h0
    rw [h0] at hext
    exact absurd hext (by decide)
  rw [readPartitionTable]
  dsimp only
  rw [if_neg (Nat.not_le.mpr hs), if_neg (not_not.mpr hsig)]
  refine foldlM_eq_none_of_mem (fun acc => ?_) _ (List.mem_range.mpr hi)
  rw [if_neg (not_or.mpr ⟨hsz, htype⟩), if_pos hext, hnext, hrec]
  rfl

/-- An extended entry of sector 0 at offset `o`, with `o` and `2 o` inside the device, makes the
scan recurse without end: the table at `o` is parsed from sector 0 and points at `2 o`, and the
table at `2 o` is parsed from sector 0 and points at `2 o` again. -/
theorem partitionScan_diverges {i o : ℕ} (hsig : signature (dev.read 0) = 0xaa55) (hi : i < 4)
    (hext : isExtended (entryAt (dev.read 0) i).type = true) (hsz : (entryAt (dev.read 0) i).size ≠ 0)
    (ho : (entryAt (dev.read 0) i).offset = o) (ho0 : o ≠ 0) (hodev : o < dev.size)
    (h2o : (o + o) % 2 ^ 32 ≠ 0) (h2odev : (o + o) % 2 ^ 32 < dev.size) (fuel : ℕ) :
    partitionScan dev fuel = none := by
  -- the table at `2 o` calls itself
  have hloop : ∀ fuel n, readPartitionTable dev fuel ((o + o) % 2 ^ 32) o n = none := by
    intro fuel
    induction fuel with
    | zero => exact fun _ => rfl
    | succ fuel ih =>
      exact fun n => readPartitionTable_eq_none h2odev hsig hi hext hsz
        (by rw [if_neg h2o, ho]) ih
  -- the table at `o` calls the one at `2 o`
  have hfirst : ∀ fuel n, readPartitionTable dev fuel o o n = none := by
    intro fuel n
    cases fuel with
    | zero => rfl
    | succ fuel =>
      exact readPartitionTable_eq_none hodev hsig hi hext hsz (by rw [if_neg ho0, ho]) (hloop fuel)
  cases fuel with
  | zero => rfl
  | succ fuel =>
    exact readPartitionTable_eq_none (by omega) hsig hi hext hsz (by rw [if_pos rfl, ho]) (hfirst fuel)

end Scan

/-- A device of four sectors: sector 0 describes a primary partition (type `0x21`) at sector 1
and an extended partition at sector 2; sector 2, like every other, holds zeros, so the extended
partition has no table of logical partitions. -/
def phantomDisk : BlockDevice where
  size := 4
  read s b :=
    if s ≠ 0 then 0
    else if b = 450 then 0x21 else if b = 454 then 1 else if b = 458 then 1
    else if b = 466 then 0x05 else if b = 470 then 2 else if b = 474 then 2
    else if b = 510 then 0x55 else if b = 511 then 0xaa else 0

/-- The scan of `phantomDisk` ends and registers a second partition at sector 3, read from
sector 0 when it parses the table at sector 2, which holds no table. -/
theorem partition_scan_registers_phantom :
    partitionScan phantomDisk 3 = some (2, [⟨1, 0x21, 1, 1⟩, ⟨2, 0x21, 3, 1⟩]) ∧
      signature (phantomDisk.read 2) ≠ 0xaa55 := by
  decide

end Pintos
