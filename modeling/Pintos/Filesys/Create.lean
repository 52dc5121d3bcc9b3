import Pintos.Filesys.Directory
import Pintos.Kernel.Bitmap

/-! # Creating files

`filesys_create` of `filesys/filesys.c`. It takes a sector for the new
file's inode from the free map, has `inode_create` take and zero the data
sectors, and adds the name to the root directory. The steps are chained with
`&&`, and on failure only the inode sector goes back to the free map: the
data sectors of an inode that was created stay in use when `dir_add` then
fails.

The free map is a bitmap of the sectors (`filesys/free-map.c`); its writes to
its file are taken to succeed, as are the memory allocations of
`dir_open_root` and `inode_create`. What `inode_create` writes to the disk is
left out.
-/

namespace Pintos

/-- `FREE_MAP_SECTOR`. -/
def freeMapSector : ℕ := 0

/-- The free map and the root directory. -/
structure FsState where
  freeMap : Bitmap
  root : Directory

/-- `free_map_allocate`: the first `cnt` consecutive free sectors, now in use. -/
def freeMapAllocate (freeMap : Bitmap) (cnt : ℕ) : Option (ℕ × Bitmap) :=
  freeMap.scanAndFlip 0 cnt false

/-- `free_map_release`; `none` is a failed `ASSERT (bitmap_all (free_map, sector, cnt))`. -/
def freeMapRelease (freeMap : Bitmap) (sector cnt : ℕ) : Option Bitmap :=
  if freeMap.all sector cnt then some (freeMap.setMultiple sector cnt false) else none

/-- `bytes_to_sectors`: `DIV_ROUND_UP (size, BLOCK_SECTOR_SIZE)`. -/
def bytesToSectors (size : ℤ) : ℕ := ((size + 511) / 512).toNat

/-- `inode_create` on the free map: whether the data sectors were taken. `none` is a failed
`ASSERT (length >= 0)`. -/
def inodeCreate (freeMap : Bitmap) (length : ℤ) : Option (Bool × Bitmap) :=
  if 0 ≤ length then
    match freeMapAllocate freeMap (bytesToSectors length) with
    | some (_, freeMap') => some (true, freeMap')
    | none => some (false, freeMap)
  else none

/-- `filesys_create`; `none` is a failed `ASSERT`. -/
def filesysCreate (s : FsState) (name : List UInt8) (initialSize : ℤ) : Option (Bool × FsState) :=
  match freeMapAllocate s.freeMap 1 with
  -- `inode_sector` stays 0, and nothing is released
  | none => some (false, s)
  | some (inodeSector, freeMap₁) =>
    (inodeCreate freeMap₁ initialSize).bind fun r =>
      let added := if r.1 then s.root.add name inodeSector else (false, s.root)
      if r.1 && added.1 then some (true, ⟨r.2, added.2⟩)
      else if inodeSector ≠ 0 then
        (freeMapRelease r.2 inodeSector 1).map fun freeMap₃ => (false, ⟨freeMap₃, added.2⟩)
      else some (false, ⟨r.2, added.2⟩)

section Steps

variable {freeMap freeMap' : Bitmap}

/-- `free_map_allocate` takes a run of free sectors and marks exactly those. -/
theorem freeMapAllocate_eq_some {cnt i : ℕ} (h : freeMapAllocate freeMap cnt = some (i, freeMap')) :
    freeMap.RunAt cnt false i ∧
      ∀ j, freeMap'.test j = if i ≤ j ∧ j < i + cnt then true else freeMap.test j := by
  simp only [freeMapAllocate, Bitmap.scanAndFlip, Option.map_eq_some_iff, Prod.mk.injEq] at h
  obtain ⟨i', hscan, rfl, rfl⟩ := h
  exact ⟨(Bitmap.scan_eq_some_iff.mp hscan).2.1, Bitmap.test_setMultiple _ _ _⟩

/-- What `inode_create` does to the free map: nothing, or it takes a run of free sectors. -/
theorem inodeCreate_eq_some {length : ℤ} {created : Bool}
    (h : inodeCreate freeMap length = some (created, freeMap')) :
    (created = false ∧ freeMap' = freeMap) ∨
      (created = true ∧ ∃ start, freeMap.RunAt (bytesToSectors length) false start ∧
        ∀ j, freeMap'.test j =
          if start ≤ j ∧ j < start + bytesToSectors length then true else freeMap.test j) := by
  unfold inodeCreate at h
  split_ifs at h
  split at h
  · next start freeMap₁ halloc =>
    cases h
    exact .inr ⟨rfl, start, freeMapAllocate_eq_some halloc⟩
  · cases h
    exact .inl ⟨rfl, rfl⟩

/-- Releasing one sector in use clears its bit. -/
theorem freeMapRelease_one {i : ℕ} (h : freeMap.test i = true) :
    freeMapRelease freeMap i 1 = some (freeMap.set i false) := by
  rw [freeMapRelease, Bitmap.all_one, if_pos h, Bitmap.setMultiple_one]

/-- A `dir_add` that fails leaves the directory alone. -/
theorem Directory.add_slots_of_false {d : Directory} {name : List UInt8} {inodeSector : ℕ}
    (h : (d.add name inodeSector).1 = false) : (d.add name inodeSector).2.slots = d.slots := by
  rcases dirAdd_cases d.slots name inodeSector with ⟨-, heq⟩ | ⟨-, -, k, hk, -, heq⟩
  · simp [Directory.add, heq]
  · simp [Directory.add, heq] at h

end Steps

/-- A failed `filesys_create`, on a free map whose own sector is in use, leaves the root
directory as it was and gives back the inode sector; but when `inode_create` took data
sectors, they stay in use. -/
theorem filesysCreate_false {s s' : FsState} {name : List UInt8} {size : ℤ}
    (hmap : s.freeMap.test freeMapSector = true) (h : filesysCreate s name size = some (false, s')) :
    s'.root.slots = s.root.slots ∧
      ((∀ j, s'.freeMap.test j = s.freeMap.test j) ∨
        ∃ start, (∀ j, start ≤ j → j < start + bytesToSectors size → s.freeMap.test j = false) ∧
          ∀ j, s'.freeMap.test j =
            if start ≤ j ∧ j < start + bytesToSectors size then true else s.freeMap.test j) := by
  unfold filesysCreate at h
  rcases halloc : freeMapAllocate s.freeMap 1 with _ | ⟨i, freeMap₁⟩
  · -- no sector for the inode: nothing changed
    rw [halloc] at h
    cases h
    exact ⟨rfl, .inl fun _ => rfl⟩
  simp only [halloc] at h
  obtain ⟨⟨-, hfree⟩, htest₁⟩ := freeMapAllocate_eq_some halloc
  have hi : s.freeMap.test i = false := by simpa using hfree 0 (Nat.zero_lt_one)
  have hi0 : i ≠ 0 := by
    rintro rfl
    rw [freeMapSector, hi] at hmap
    cases hmap
  have hi₁ : freeMap₁.test i = true := by simp [htest₁]
  rw [Option.bind_eq_some_iff] at h
  obtain ⟨⟨created, freeMap₂⟩, hcreate, h⟩ := h
  rcases inodeCreate_eq_some hcreate with ⟨rfl, rfl⟩ | ⟨rfl, start, ⟨-, hrun⟩, htest₂⟩
  · -- `inode_create` failed: the inode sector alone was taken, and it is given back
    simp only [Bool.false_and, if_false, Bool.false_eq_true, ne_eq, hi0, not_false_eq_true, if_true,
      freeMapRelease_one hi₁, Option.map_some, Option.some.injEq, Prod.mk.injEq] at h
    obtain ⟨-, rfl⟩ := h
    refine ⟨rfl, .inl fun j => ?_⟩
    show (freeMap₂.set i false).test j = _
    rw [Bitmap.test_set, htest₁]
    split_ifs with hji <;> first | omega | (subst hji; exact hi.symm) | rfl
  · by_cases hadded : (s.root.add name i).1 = true
    · simp [hadded] at h
    have hroot := Directory.add_slots_of_false (Bool.eq_false_iff.mpr hadded)
    -- the data sectors were free once the inode sector was taken, so they miss it
    have hnotrun : ¬(start ≤ i ∧ i < start + bytesToSectors size) := fun hin => by
      have hfree₁ := hrun (i - start) (by omega)
      rw [Nat.add_sub_cancel' hin.1, hi₁] at hfree₁
      cases hfree₁
    have hi₂ : freeMap₂.test i = true := by rw [htest₂, if_neg hnotrun, hi₁]
    simp only [Bool.true_and, hadded, if_true, Bool.false_eq_true, if_false, ne_eq, hi0,
      not_false_eq_true, freeMapRelease_one hi₂, Option.map_some, Option.some.injEq,
      Prod.mk.injEq] at h
    obtain ⟨-, rfl⟩ := h
    refine ⟨hroot, .inr ⟨start, fun j hj hj' => ?_, fun j => ?_⟩⟩
    · have hfree₁ := hrun (j - start) (by omega)
      rw [Nat.add_sub_cancel' hj, htest₁] at hfree₁
      -- the inode sector is not in the run, so the run's bits are those of before
      split_ifs at hfree₁
      exact hfree₁
    · show (freeMap₂.set i false).test j = _
      rw [Bitmap.test_set, htest₂, htest₁]
      split_ifs <;> first | omega | (subst_vars; exact hi.symm) | rfl

/-- A successful `filesys_create` adds the name to the root directory's map, under a sector
that was free and is now in use. -/
theorem filesysCreate_true {s s' : FsState} {name : List UInt8} {size : ℤ}
    (h : filesysCreate s name size = some (true, s')) :
    ∃ i, s.freeMap.test i = false ∧ s'.freeMap.test i = true ∧
      (toNameMap s.root.slots).step (.add name i) = (.success true, toNameMap s'.root.slots) := by
  unfold filesysCreate at h
  rcases halloc : freeMapAllocate s.freeMap 1 with _ | ⟨i, freeMap₁⟩
  · simp [halloc] at h
  simp only [halloc] at h
  obtain ⟨⟨-, hfree⟩, htest₁⟩ := freeMapAllocate_eq_some halloc
  rw [Option.bind_eq_some_iff] at h
  obtain ⟨⟨created, freeMap₂⟩, hcreate, h⟩ := h
  -- only a created inode whose name went in returns true
  have hok : created = true ∧ (s.root.add name i).1 = true := by
    cases created <;> cases hadd : (s.root.add name i).1 <;> simp [hadd] at h ⊢
    all_goals
      split_ifs at h <;> simp at h
  obtain ⟨rfl, hadded⟩ := hok
  simp only [hadded, Bool.and_self, if_true, Option.some.injEq, Prod.mk.injEq] at h
  obtain ⟨-, rfl⟩ := h
  refine ⟨i, by simpa using hfree 0 Nat.zero_lt_one, ?_, ?_⟩
  · rcases inodeCreate_eq_some hcreate with ⟨hc, -⟩ | ⟨-, start, ⟨-, hrun⟩, htest₂⟩
    · cases hc
    · rw [htest₂]
      split_ifs with hin
      · rfl
      · simp [htest₁]
  · rw [← dirAdd_toNameMap]
    simp only [Directory.add] at hadded
    rw [hadded]
    rfl

/-- Eight sectors, of which the free map's, the root directory's and the inode of a file
`a` are in use; the root directory has two slots, one for `a`. -/
def oneFileFs : FsState where
  freeMap := ⟨8, fun i => decide (i < 3)⟩
  root := ((Directory.create 2).add [97] 2).2

/-- Creating a second `a` of one byte fails at `dir_add`, and the data sector 4 that
`inode_create` took stays in use. -/
theorem filesys_create_keeps_data_sector :
    (filesysCreate oneFileFs [97] 1).map (fun r => (r.1, r.2.freeMap.test 4, r.2.root.slots)) =
        some (false, true, oneFileFs.root.slots) ∧
      oneFileFs.freeMap.test 4 = false := by
  decide

end Pintos
