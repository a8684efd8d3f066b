import Kerners.Fs.RamFile

/-!
# The boot sector and mounting (`src/fs/fat32/boot.rs`, `mount_fat32` of `src/fs/fat32/mod.rs`)

`Fat32BootSector.fromBytes` parses the BIOS parameter block, `isValid` checks it, and the derived
quantities (`dataStartSector`, `clusterToSector`, `totalClusters`) are computed in `u32` arithmetic
that wraps, as in the release build. `mountFat32` reads block 0 and accepts what `isValid` accepts;
a `Fat32FileSystem` carries the fact that its boot sector passed.
-/

namespace Kerners.Fat32

open Lib Kerners.Block

/-- `read_u16`: two little-endian bytes. -/
def readU16 (buf : Bytes) (offset : Nat) : UInt16 := .ofNat (leNat ((buf.drop offset).take 2))

/-- `read_u32`: four little-endian bytes. -/
def readU32 (buf : Bytes) (offset : Nat) : UInt32 := .ofNat (leNat ((buf.drop offset).take 4))

structure Fat32BootSector where
  jmpBoot : Bytes
  oemName : Bytes
  bytesPerSector : UInt16
  sectorsPerCluster : UInt8
  reservedSectors : UInt16
  numFats : UInt8
  rootEntryCount : UInt16
  totalSectors16 : UInt16
  mediaType : UInt8
  fatSize16 : UInt16
  sectorsPerTrack : UInt16
  numHeads : UInt16
  hiddenSectors : UInt32
  totalSectors32 : UInt32
  fatSize32 : UInt32
  extFlags : UInt16
  fsVersion : UInt16
  rootCluster : UInt32
  fsInfo : UInt16
  backupBootSector : UInt16
  driveNumber : UInt8
  bootSig : UInt8
  volumeId : UInt32
  volumeLabel : Bytes
  fsType : Bytes
  deriving DecidableEq

namespace Fat32BootSector

def fromBytes (buf : Bytes) : Option Fat32BootSector :=
  if buf.length < 90 then none
  else some {
    jmpBoot := buf.take 3
    oemName := (buf.drop 3).take 8
    bytesPerSector := readU16 buf 11
    sectorsPerCluster := buf.getD 13 0
    reservedSectors := readU16 buf 14
    numFats := buf.getD 16 0
    rootEntryCount := readU16 buf 17
    totalSectors16 := readU16 buf 19
    mediaType := buf.getD 21 0
    fatSize16 := readU16 buf 22
    sectorsPerTrack := readU16 buf 24
    numHeads := readU16 buf 26
    hiddenSectors := readU32 buf 28
    totalSectors32 := readU32 buf 32
    fatSize32 := readU32 buf 36
    extFlags := readU16 buf 40
    fsVersion := readU16 buf 42
    rootCluster := readU32 buf 44
    fsInfo := readU16 buf 48
    backupBootSector := readU16 buf 50
    driveNumber := buf.getD 64 0
    bootSig := buf.getD 66 0
    volumeId := readU32 buf 67
    volumeLabel := (buf.drop 71).take 11
    fsType := (buf.drop 82).take 8 }

variable (b : Fat32BootSector)

def isValid : Bool :=
  if b.jmpBoot.getD 0 0 ≠ 0xEB ∧ b.jmpBoot.getD 0 0 ≠ 0xE9 then false
  else if b.bytesPerSector ≠ 512 ∧ b.bytesPerSector ≠ 1024 ∧ b.bytesPerSector ≠ 2048 ∧
      b.bytesPerSector ≠ 4096 then false
  else if b.sectorsPerCluster = 0 ∨ b.sectorsPerCluster &&& (b.sectorsPerCluster - 1) ≠ 0 then false
  else if b.rootEntryCount ≠ 0 ∨ b.totalSectors16 ≠ 0 then false
  else if b.fatSize32 = 0 then false
  else true

def sectorSize : Nat := b.bytesPerSector.toNat

def clusterSectors : Nat := b.sectorsPerCluster.toNat

def clusterSize : Nat := b.clusterSectors * b.sectorSize

def fatStartSector : Nat := b.reservedSectors.toNat

def dataStartSector : Nat :=
  (b.reservedSectors.toNat + b.numFats.toNat * b.fatSize32.toNat % 2 ^ 32) % 2 ^ 32

def clusterToSector (cluster : Nat) : Nat :=
  (b.dataStartSector + (cluster + 2 ^ 32 - 2) % 2 ^ 32 * b.clusterSectors % 2 ^ 32) % 2 ^ 32

def totalClusters : Nat :=
  (b.totalSectors32.toNat + 2 ^ 32 - b.dataStartSector) % 2 ^ 32 / b.clusterSectors

end Fat32BootSector

/-- `Fat32FileSystem`: a mounted volume, whose boot sector passed `is_valid`. -/
structure Fat32FileSystem where
  boot : Fat32BootSector
  valid : boot.isValid = true

open Fat32BootSector

/-- The boot sector in `buf`, if `mount_fat32` accepts it. -/
def acceptBoot (buf : Bytes) : Except VfsError Fat32FileSystem :=
  match Fat32BootSector.fromBytes buf with
  | none => .error .invalidFormat
  | some boot => if h : boot.isValid = true then .ok ⟨boot, h⟩ else .error .invalidFormat

/-- `mount_fat32` on a device of the given block size. -/
def mountFat32 (blockSize : Nat) : DevM Empty Unit VfsError Fat32FileSystem := do
  let buf ← (readBlock 0 blockSize).mapErr fun _ => .ioError
  ProgM.ofExcept (acceptBoot buf)

def mounted (d : Disk) : Except VfsError Fat32FileSystem :=
  ((mountFat32 d.blockSize ()).run Disk.handle d).1.1

/-! ## What `is_valid` guarantees -/

variable {b : Fat32BootSector}

theorem Fat32BootSector.isValid_sizes (h : b.isValid = true) :
    (b.sectorSize = 512 ∨ b.sectorSize = 1024 ∨ b.sectorSize = 2048 ∨ b.sectorSize = 4096) ∧
      0 < b.clusterSectors ∧ 0 < b.fatSize32.toNat := by
  unfold isValid at h
  split_ifs at h with h1 h2 h3 h4 h5
  refine ⟨?_, ?_, ?_⟩
  · unfold sectorSize
    by_cases ha : b.bytesPerSector = 512
    · simp [ha]
    · by_cases hb : b.bytesPerSector = 1024
      · simp [hb]
      · by_cases hc : b.bytesPerSector = 2048
        · simp [hc]
        · have hd : b.bytesPerSector = 4096 := by
            by_contra hd
            exact h2 ⟨ha, hb, hc, hd⟩
          simp [hd]
  · have hne : b.sectorsPerCluster ≠ 0 := fun h0 => h3 (Or.inl h0)
    exact Nat.pos_of_ne_zero fun h0 => hne (UInt8.toNat_inj.mp h0)
  · exact Nat.pos_of_ne_zero fun h0 => h5 (UInt32.toNat_inj.mp h0)

/-! ## Usable geometry -/

/-- The arithmetic on cluster `c` is exact, its FAT entry lies inside each FAT copy and its sectors
inside the data area. -/
structure ClusterUsable (b : Fat32BootSector) (c : Nat) : Prop where
  offset_lt : c * 4 < 2 ^ 32
  sector_lt : b.dataStartSector + (c - 2) * b.clusterSectors < 2 ^ 32
  entry_inside : ∀ k < b.numFats.toNat,
    b.fatStartSector + c * 4 / b.sectorSize + k * b.fatSize32.toNat <
      b.fatStartSector + (k + 1) * b.fatSize32.toNat ∧
    c * 4 % b.sectorSize + 4 ≤ b.sectorSize
  data_inside : b.dataStartSector ≤ b.clusterToSector c ∧
    b.clusterToSector c + b.clusterSectors ≤ b.totalSectors32.toNat

/-- Every quantity derived from the boot sector is exact and inside the volume. -/
structure UsableGeometry (b : Fat32BootSector) (blockSize : Nat) : Prop where
  sector : b.sectorSize = blockSize
  fats : 1 ≤ b.numFats.toNat
  start_lt : b.reservedSectors.toNat + b.numFats.toNat * b.fatSize32.toNat < 2 ^ 32
  start_le : b.dataStartSector ≤ b.totalSectors32.toNat
  clusters : ∀ c, 2 ≤ c → c < b.totalClusters + 2 → ClusterUsable b c

def Fat32BootSector.systemSectors (b : Fat32BootSector) : Nat :=
  b.reservedSectors.toNat + b.numFats.toNat * b.fatSize32.toNat

/-- The clusters that the sectors behind the FATs make up, without wrapping. -/
def Fat32BootSector.dataClusters (b : Fat32BootSector) : Nat :=
  (b.totalSectors32.toNat - b.systemSectors) / b.clusterSectors

/-- What `is_valid` does not check: one sector is one block, there is a FAT, the reserved sectors
and the FATs fit into the volume, and one FAT has an entry for every cluster at an offset that a
`u32` holds. -/
structure GeometryFits (b : Fat32BootSector) (blockSize : Nat) : Prop where
  sector : b.sectorSize = blockSize
  fats : 1 ≤ b.numFats.toNat
  system_le : b.systemSectors ≤ b.totalSectors32.toNat
  fat_entries : b.dataClusters = 0 ∨
    (b.dataClusters + 2) * 4 ≤ b.fatSize32.toNat * b.sectorSize ∧
      (b.dataClusters + 1) * 4 < 2 ^ 32

theorem Fat32BootSector.derived_of_fits (h : b.systemSectors ≤ b.totalSectors32.toNat) :
    b.dataStartSector = b.systemSectors ∧ b.totalClusters = b.dataClusters := by
  have ht := b.totalSectors32.toNat_lt
  have hstart : b.dataStartSector = b.systemSectors := by
    unfold dataStartSector systemSectors at *
    rw [Nat.mod_eq_of_lt (b := 2 ^ 32) (a := b.numFats.toNat * b.fatSize32.toNat) (by omega),
      Nat.mod_eq_of_lt (by omega)]
  refine ⟨hstart, ?_⟩
  unfold totalClusters dataClusters
  rw [hstart]
  congr 1
  omega

theorem ClusterUsable.of_fits {blockSize c : Nat} (hv : b.isValid = true)
    (h : GeometryFits b blockSize) (hc : 2 ≤ c) (hlt : c < b.totalClusters + 2) :
    ClusterUsable b c := by
  obtain ⟨hsize, hspc, -⟩ := isValid_sizes hv
  obtain ⟨hstart, htotal⟩ := derived_of_fits h.system_le
  rw [htotal] at hlt
  obtain ⟨hfat, hoff⟩ : (b.dataClusters + 2) * 4 ≤ b.fatSize32.toNat * b.sectorSize ∧
      (b.dataClusters + 1) * 4 < 2 ^ 32 := by
    rcases h.fat_entries with h0 | h1
    · omega
    · exact h1
  have ht := b.totalSectors32.toNat_lt
  -- the last cluster ends inside the volume
  have hend : (c - 2) * b.clusterSectors + b.clusterSectors ≤
      b.totalSectors32.toNat - b.systemSectors := by
    calc (c - 2) * b.clusterSectors + b.clusterSectors
        = (c - 2 + 1) * b.clusterSectors := (Nat.succ_mul _ _).symm
      _ ≤ b.dataClusters * b.clusterSectors := Nat.mul_le_mul_right _ (by omega)
      _ ≤ _ := Nat.div_mul_le_self _ _
  have hsys := h.system_le
  have hsector : b.clusterToSector c = b.systemSectors + (c - 2) * b.clusterSectors := by
    unfold clusterToSector
    rw [hstart, show (c + 2 ^ 32 - 2) % 2 ^ 32 = c - 2 by omega,
      Nat.mod_eq_of_lt (a := (c - 2) * b.clusterSectors) (by omega), Nat.mod_eq_of_lt (by omega)]
  refine ⟨by omega, by omega, fun k hk => ⟨?_, ?_⟩, by omega, by omega⟩
  · have hq : c * 4 / b.sectorSize < b.fatSize32.toNat :=
      Nat.div_lt_of_lt_mul (by rw [Nat.mul_comm b.sectorSize]; omega)
    rw [Nat.succ_mul]
    omega
  · rcases hsize with h | h | h | h <;> rw [h] <;> omega

/-- **Exactly the accepted volumes whose geometry fits have usable geometry.** -/
theorem mount_geometry_iff (d : Disk) (fs : Fat32FileSystem) (_h : mounted d = .ok fs) :
    UsableGeometry fs.boot d.blockSize ↔ GeometryFits fs.boot d.blockSize := by
  obtain ⟨hsize, hspc, hfs⟩ := Fat32BootSector.isValid_sizes fs.valid
  constructor
  · intro hu
    have hle : fs.boot.systemSectors ≤ fs.boot.totalSectors32.toNat := by
      have h1 := hu.start_lt
      have h2 := hu.start_le
      unfold Fat32BootSector.dataStartSector at h2
      unfold Fat32BootSector.systemSectors
      rw [Nat.mod_eq_of_lt (a := fs.boot.numFats.toNat * fs.boot.fatSize32.toNat) (by omega),
        Nat.mod_eq_of_lt (by omega)] at h2
      exact h2
    obtain ⟨-, htotal⟩ := Fat32BootSector.derived_of_fits hle
    refine ⟨hu.sector, hu.fats, hle, ?_⟩
    by_cases h0 : fs.boot.dataClusters = 0
    · exact Or.inl h0
    · -- the entry of the last cluster is the last one needed
      have hlast := hu.clusters (fs.boot.dataClusters + 1) (by omega) (by omega)
      have hent := (hlast.entry_inside 0 hu.fats).1
      have hq : (fs.boot.dataClusters + 1) * 4 / fs.boot.sectorSize < fs.boot.fatSize32.toNat := by
        omega
      refine Or.inr ⟨?_, hlast.offset_lt⟩
      rcases hsize with h | h | h | h <;> rw [h] at hq ⊢ <;> omega
  · intro hg
    obtain ⟨hstart, htotal⟩ := Fat32BootSector.derived_of_fits hg.system_le
    have ht := fs.boot.totalSectors32.toNat_lt
    have hsys := hg.system_le
    refine ⟨hg.sector, hg.fats, ?_, by omega, fun c hc hlt => .of_fits fs.valid hg hc hlt⟩
    unfold Fat32BootSector.systemSectors at hsys
    omega

open List

/-- A boot sector of 512-byte sectors: one reserved sector, `numFats` FATs of one sector, 64 sectors
in all, clusters of one sector, root cluster 2. -/
def bootSector (numFats : UInt8) : Bytes :=
  [0xEB, 0, 0] ++ List.replicate 8 0 ++ [0, 2, 1, 1, 0, numFats] ++ List.replicate 15 0 ++
    [64, 0, 0, 0, 1, 0, 0, 0] ++ List.replicate 4 0 ++ [2, 0, 0, 0] ++ List.replicate 464 0

/-- A device of 64 blocks with this boot sector and zeros behind it. -/
def bootDisk (numFats : UInt8) : Disk where
  blockSize := 512
  blockCount := 64
  readOnly := false
  blocks := fun n => if n = 0 then bootSector numFats else List.replicate 512 0
  blocks_length := fun n => by
    by_cases hn : n = 0
    · rw [if_pos hn]
      simp only [bootSector, List.length_append, List.length_replicate, List.length_cons,
        List.length_nil]
    · rw [if_neg hn, List.length_replicate]

def bootRecord (numFats : UInt8) : Fat32BootSector :=
  ⟨[0xEB, 0, 0], List.replicate 8 0, 512, 1, 1, numFats, 0, 0, 0, 0, 0, 0, 0, 64, 1, 0, 0, 2, 0, 0,
    0, 0, 0, List.replicate 11 0, List.replicate 8 0⟩

theorem mounted_of_fromBytes {d : Disk} (hd : 0 < d.blockCount)
    (hb : fromBytes (d.blocks 0) = some b) (hv : b.isValid = true) : mounted d = .ok ⟨b, hv⟩ := by
  have hread : d.readBlock 0 d.blockSize = .ok (d.blocks 0) := Disk.readBlock_ok rfl hd
  have hacc : acceptBoot (d.blocks 0) = .ok ⟨b, hv⟩ := by
    unfold acceptBoot
    rw [hb]
    exact dif_pos hv
  simp only [mounted, mountFat32, readBlock, ProgM.mapErr, Bind.bind, Pure.pure, ProgM.bind,
    Prog.bind, Prog.run, Disk.handle, hread, hacc, ProgM.ofExcept]

theorem mount_geometry_iff_oneFat : ∃ fs, mounted (bootDisk 1) = .ok fs ∧
    (UsableGeometry fs.boot 512 ↔ GeometryFits fs.boot 512) ∧ UsableGeometry fs.boot 512 := by
  have h : mounted (bootDisk 1) = .ok ⟨bootRecord 1, by decide⟩ :=
    mounted_of_fromBytes (by decide) (by decide +kernel) _
  have hiff := mount_geometry_iff (bootDisk 1) _ h
  exact ⟨_, h, hiff, hiff.mpr ⟨by decide, by decide, by decide, by decide⟩⟩

/-- `mount_fat32` accepts a volume without any FAT. -/
theorem mount_accepts_no_fat : ∃ fs, mounted (bootDisk 0) = .ok fs ∧
    ¬ UsableGeometry fs.boot (bootDisk 0).blockSize := by
  have h : mounted (bootDisk 0) = .ok ⟨bootRecord 0, by decide⟩ :=
    mounted_of_fromBytes (by decide) (by decide +kernel) _
  exact ⟨_, h, fun hu => absurd hu.fats (by decide)⟩

end Kerners.Fat32
