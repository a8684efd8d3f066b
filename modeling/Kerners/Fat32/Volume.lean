import Kerners.Fat32.VNode

/-!
# A volume as FAT entries and cluster contents

`Vol` is what a FAT32 volume holds: a value for every FAT entry, the entry in every copy of the FAT,
and the bytes of every cluster. `Presents fs d v` says that the disk `d` holds `v`: the geometry is
consistent, the first FAT copy holds `v.fat`, all copies hold `v.copies` and the data area holds
`v.data`. The calls that touch the device are then four
functions on `Vol` (`readEntry_runs`, `writeEntry_runs`, `readCluster_runs`, `writeCluster_runs`);
everything above them is proved on `Vol`.

* FAT entries are indexed by `fatIndex c = c % 2^30`: the byte offset `c * 4` wraps in a `u32`.
* The view allows a write only to the FAT copies and the clusters (`WriteIn`), and only outside the
  sectors of free clusters (`WriteOk`), so every result also says that no cluster is written while
  its FAT entry is free.
-/

namespace Kerners.Fat32

open Lib Kerners.Block Function List

/-- What a volume holds. -/
@[ext] structure Vol where
  /-- The low 28 bits of an entry in the first FAT. -/
  fat : Nat → Nat
  /-- The entry in each copy of the FAT, with its upper four bits. -/
  copies : Nat → List Nat
  data : Nat → Bytes

/-- The entry `old` with the low 28 bits of `x`. -/
def setLow (x old : Nat) : Nat := old - old % 2 ^ 28 + x % 2 ^ 28

theorem setLow_low (x old : Nat) : setLow x old % 2 ^ 28 = x % 2 ^ 28 := by
  unfold setLow
  omega

theorem setLow_setLow (x y old : Nat) : setLow x (setLow y old) = setLow x old := by
  unfold setLow
  omega

theorem setLow_mod (x old : Nat) : setLow x old = setLow (x % 2 ^ 28) old := by
  unfold setLow
  omega

theorem setLow_self {x old : Nat} (h : old % 2 ^ 28 = x % 2 ^ 28) : setLow x old = old := by
  unfold setLow
  omega

namespace Vol

/-- The volume with the entry `i` set to `x` in every copy. -/
def setFat (v : Vol) (i x : Nat) : Vol :=
  { v with
    fat := update v.fat i x
    copies := update v.copies i ((v.copies i).map (setLow x)) }

def setData (v : Vol) (c : Nat) (bs : Bytes) : Vol := { v with data := update v.data c bs }

@[simp] theorem setFat_data (v : Vol) (i x : Nat) : (v.setFat i x).data = v.data := rfl

@[simp] theorem setData_fat (v : Vol) (c : Nat) (bs : Bytes) : (v.setData c bs).fat = v.fat := rfl

@[simp] theorem setFat_self (v : Vol) (i x : Nat) : (v.setFat i x).fat i = x :=
  update_self ..

theorem setFat_of_ne (v : Vol) {i j : Nat} (x : Nat) (h : j ≠ i) :
    (v.setFat i x).fat j = v.fat j := update_of_ne h ..

@[simp] theorem setFat_copies_self (v : Vol) (i x : Nat) :
    (v.setFat i x).copies i = (v.copies i).map (setLow x) := update_self ..

theorem setFat_copies_of_ne (v : Vol) {i j : Nat} (x : Nat) (h : j ≠ i) :
    (v.setFat i x).copies j = v.copies j := update_of_ne h ..

@[simp] theorem setData_copies (v : Vol) (c : Nat) (bs : Bytes) :
    (v.setData c bs).copies = v.copies := rfl

@[simp] theorem setData_self (v : Vol) (c : Nat) (bs : Bytes) : (v.setData c bs).data c = bs :=
  update_self ..

theorem setData_of_ne (v : Vol) {c c' : Nat} (bs : Bytes) (h : c' ≠ c) :
    (v.setData c bs).data c' = v.data c' := update_of_ne h ..

end Vol

/-- Consistent geometry: one sector is one block, there is a FAT, the FAT copies lie in front of the
data area inside the volume and have an entry for every cluster, and the device holds the volume
and is writable. -/
structure Consistent (fs : Fat32FileSystem) (d : Disk) : Prop where
  sector : fs.boot.sectorSize = d.blockSize
  fats : 1 ≤ fs.boot.numFats.toNat
  system_le : fs.boot.systemSectors ≤ fs.boot.totalSectors32.toNat
  fat_entries : (fs.totalClusters + 2) * 4 ≤ fs.boot.fatSize32.toNat * fs.boot.sectorSize
  blocks : fs.boot.totalSectors32.toNat ≤ d.blockCount
  writable : d.readOnly = false

namespace Fat32FileSystem

variable (fs : Fat32FileSystem)

def InRange (c : Nat) : Prop := 2 ≤ c ∧ c < fs.totalClusters + 2

instance (c : Nat) : Decidable (fs.InRange c) := inferInstanceAs (Decidable (_ ∧ _))

/-- The block of the first FAT with entry `i`. -/
def fatBlock (i : Nat) : Nat := fs.boot.fatStartSector + i * 4 / fs.boot.sectorSize

/-- FAT entry `i` on the disk. -/
def fatEntry (d : Disk) (i : Nat) : Nat :=
  entryAt (d.blocks (fs.fatBlock i)) (i * 4 % fs.boot.sectorSize) % 2 ^ 28

/-- Entry `i` in copy `k` of the FAT. -/
def copyEntry (d : Disk) (k i : Nat) : Nat :=
  entryAt (d.blocks (fs.fatBlock i + k * fs.boot.fatSize32.toNat)) (i * 4 % fs.boot.sectorSize)

theorem fatEntry_eq (d : Disk) (i : Nat) : fs.fatEntry d i = fs.copyEntry d 0 i % 2 ^ 28 := by
  rw [copyEntry, Nat.zero_mul, Nat.add_zero]
  rfl

/-- The first block of cluster `c`. -/
def dataBlock (c : Nat) : Nat := fs.boot.systemSectors + (c - 2) * fs.boot.clusterSectors

/-- The bytes of cluster `c` on the disk. -/
def clusterData (d : Disk) (c : Nat) : Bytes :=
  ((List.range fs.boot.clusterSectors).map fun j => d.blocks (fs.dataBlock c + j)).flatten

end Fat32FileSystem

def fatIndex (c : Nat) : Nat := c % 2 ^ 30

/-- The disk holds the volume; outside the volume there is nothing. -/
structure Presents (fs : Fat32FileSystem) (d : Disk) (v : Vol) : Prop where
  consistent : Consistent fs d
  fat : ∀ i, i < fs.totalClusters + 2 → i < 2 ^ 30 → v.fat i = fs.fatEntry d i
  copies : ∀ i, i < fs.totalClusters + 2 → i < 2 ^ 30 →
    v.copies i = (range fs.boot.numFats.toNat).map fun k => fs.copyEntry d k i
  data : ∀ c, fs.InRange c → v.data c = fs.clusterData d c
  fat_out : ∀ i, ¬ (i < fs.totalClusters + 2 ∧ i < 2 ^ 30) → v.fat i = 0
  copies_out : ∀ i, ¬ (i < fs.totalClusters + 2 ∧ i < 2 ^ 30) → v.copies i = []
  data_out : ∀ c, ¬ fs.InRange c → v.data c = []

def Fat32FileSystem.volOf (fs : Fat32FileSystem) (d : Disk) : Vol where
  fat i := if i < fs.totalClusters + 2 ∧ i < 2 ^ 30 then fs.fatEntry d i else 0
  copies i := if i < fs.totalClusters + 2 ∧ i < 2 ^ 30 then
    (range fs.boot.numFats.toNat).map fun k => fs.copyEntry d k i else []
  data c := if fs.InRange c then fs.clusterData d c else []

variable {fs : Fat32FileSystem} {d : Disk} {v v' : Vol} {μ σ ε α : Type} {m : DevM μ σ ε α}
  {s s' : σ} {r : Except ε α}

theorem presents_volOf (hc : Consistent fs d) : Presents fs d (fs.volOf d) :=
  ⟨hc, fun _ h1 h2 => if_pos ⟨h1, h2⟩, fun _ h1 h2 => if_pos ⟨h1, h2⟩, fun _ h => if_pos h,
    fun _ h => if_neg h, fun _ h => if_neg h, fun _ h => if_neg h⟩

open Fat32FileSystem

theorem Presents.eq_volOf (h : Presents fs d v) : v = fs.volOf d := by
  refine Vol.ext (funext fun i => ?_) (funext fun i => ?_) (funext fun i => ?_)
  · by_cases hi : i < fs.totalClusters + 2 ∧ i < 2 ^ 30
    · rw [h.fat i hi.1 hi.2]
      exact (if_pos hi).symm
    · rw [h.fat_out i hi]
      exact (if_neg hi).symm
  · by_cases hi : i < fs.totalClusters + 2 ∧ i < 2 ^ 30
    · rw [h.copies i hi.1 hi.2]
      exact (if_pos hi).symm
    · rw [h.copies_out i hi]
      exact (if_neg hi).symm
  · by_cases hi : fs.InRange i
    · rw [h.data i hi]
      simp only [volOf, if_pos hi]
    · rw [h.data_out i hi]
      simp only [volOf, if_neg hi]

def WriteOk (fs : Fat32FileSystem) : Cmd → Disk → Prop
  | .readBlock _ _, _ => True
  | .writeBlock n _, d => ∀ c, fs.InRange c → fs.fatEntry d (fatIndex c) = fatFree →
      n < fs.dataBlock c ∨ fs.dataBlock c + fs.boot.clusterSectors ≤ n

def Fat32FileSystem.InFat (fs : Fat32FileSystem) (n : Nat) : Prop :=
  fs.boot.fatStartSector ≤ n ∧ n < fs.boot.systemSectors

/-- The sectors of cluster `c`. -/
def Fat32FileSystem.InCluster (fs : Fat32FileSystem) (c n : Nat) : Prop :=
  fs.dataBlock c ≤ n ∧ n < fs.dataBlock c + fs.boot.clusterSectors

def WriteIn (fs : Fat32FileSystem) : Cmd → Prop
  | .readBlock _ _ => True
  | .writeBlock n _ => fs.InFat n ∨ ∃ c, fs.InRange c ∧ fs.InCluster c n

def Allows (fs : Fat32FileSystem) (c : Cmd) (d : Disk) : Prop := WriteOk fs c d ∧ WriteIn fs c

def diskView (fs : Fat32FileSystem) : View Cmd Resp Disk where
  State := Disk
  handler := Disk.handle
  Rel := Eq
  allowed := Allows fs

def volView (fs : Fat32FileSystem) : View Cmd Resp Vol where
  State := Disk
  handler := Disk.handle
  Rel := Presents fs
  allowed := Allows fs

theorem RunsM.of_disk
    (h : ∀ d, Presents fs d v → ∃ d', RunsM (diskView fs) m s d r s' d' ∧ Presents fs d' v') :
    RunsM (volView fs) m s v r s' v' := by
  intro d hd
  obtain ⟨d', hrun, hd'⟩ := h d hd
  obtain ⟨d'', hrun', heq, hall⟩ := hrun d rfl
  obtain rfl : d'' = d' := heq
  exact ⟨d'', hrun', hd', hall⟩

theorem RunsM.of_presented (h : ∀ d, Presents fs d v → RunsM (volView fs) m s v r s' v') :
    RunsM (volView fs) m s v r s' v' :=
  fun d hd => h d hd d hd

/-! ## Geometry -/

section

variable {fs : Fat32FileSystem} {d : Disk} {c : Nat}

theorem sectorSize_cases (fs : Fat32FileSystem) : fs.boot.sectorSize = 512 ∨ fs.boot.sectorSize =
    1024 ∨ fs.boot.sectorSize = 2048 ∨ fs.boot.sectorSize = 4096 :=
  (Fat32BootSector.isValid_sizes fs.valid).1

theorem clusterSectors_pos (fs : Fat32FileSystem) : 0 < fs.boot.clusterSectors :=
  (Fat32BootSector.isValid_sizes fs.valid).2.1

theorem fatIndex_le (c : Nat) : fatIndex c ≤ c := Nat.mod_le _ _

theorem fatIndex_lt (c : Nat) : fatIndex c < 2 ^ 30 := Nat.mod_lt _ (by decide)

theorem fatIndex_eq (h : c < 2 ^ 30) : fatIndex c = c := Nat.mod_eq_of_lt h

theorem fatIndex_inRange (h : fs.InRange c) : fatIndex c < fs.totalClusters + 2 :=
  Nat.lt_of_le_of_lt (fatIndex_le c) h.2

theorem entryOffset_eq (c : Nat) : fs.entryOffset c = fatIndex c * 4 % fs.boot.sectorSize := by
  have h4 : c * 4 % 2 ^ 32 = fatIndex c * 4 := by
    unfold fatIndex
    omega
  unfold entryOffset
  rw [h4]

namespace Consistent

variable (hc : Consistent fs d) {c i : Nat}
include hc

theorem dataStart_eq : fs.boot.dataStartSector = fs.boot.systemSectors :=
  (Fat32BootSector.derived_of_fits hc.system_le).1

theorem clusters_le : fs.totalClusters * fs.boot.clusterSectors ≤
    fs.boot.totalSectors32.toNat - fs.boot.systemSectors := by
  have h := (Fat32BootSector.derived_of_fits hc.system_le).2
  unfold totalClusters
  rw [h]
  exact Nat.div_mul_le_self _ _

theorem fat_le : fs.boot.fatStartSector + fs.boot.fatSize32.toNat ≤ fs.boot.systemSectors := by
  have h : 1 * fs.boot.fatSize32.toNat ≤ fs.boot.numFats.toNat * fs.boot.fatSize32.toNat :=
    Nat.mul_le_mul_right _ hc.fats
  unfold Fat32BootSector.systemSectors Fat32BootSector.fatStartSector
  omega

theorem end_eq : fs.endCluster = fs.totalClusters + 2 := by
  have h1 := hc.clusters_le
  have h2 := hc.fat_le
  have h3 := hc.fat_entries
  have h4 := hc.system_le
  have ht := fs.boot.totalSectors32.toNat_lt
  have h5 : fs.totalClusters * 1 ≤ fs.totalClusters * fs.boot.clusterSectors :=
    Nat.mul_le_mul_left _ (clusterSectors_pos fs)
  unfold endCluster
  apply Nat.mod_eq_of_lt
  rcases sectorSize_cases fs with h | h | h | h <;> rw [h] at h3 <;> omega

theorem inRange_iff : fs.InRange c ↔ ¬ (c < 2 ∨ c ≥ fs.endCluster) := by
  rw [hc.end_eq, Fat32FileSystem.InRange]
  omega

theorem fatSector_lt (hi : i < fs.totalClusters + 2) :
    i * 4 / fs.boot.sectorSize < fs.boot.fatSize32.toNat := by
  have h := hc.fat_entries
  refine Nat.div_lt_of_lt_mul ?_
  rw [Nat.mul_comm fs.boot.sectorSize]
  omega

theorem fatSector_eq (h : c < fs.totalClusters + 2) : fs.fatSector c = fs.fatBlock (fatIndex c) := by
  have h1 := hc.fatSector_lt (Nat.lt_of_le_of_lt (fatIndex_le c) h)
  have h2 := hc.fat_le
  have h3 := hc.system_le
  have ht := fs.boot.totalSectors32.toNat_lt
  have h4 : c * 4 % 2 ^ 32 = fatIndex c * 4 := by
    unfold fatIndex
    omega
  unfold fatSector fatBlock
  rw [h4]
  exact Nat.mod_eq_of_lt (by omega)

theorem fatBlock_lt (hi : i < fs.totalClusters + 2) :
    fs.fatBlock i < fs.boot.fatStartSector + fs.boot.fatSize32.toNat := by
  have h := hc.fatSector_lt hi
  unfold fatBlock
  omega

theorem dataBlock_le (h : fs.InRange c) :
    fs.dataBlock c + fs.boot.clusterSectors ≤ fs.boot.totalSectors32.toNat := by
  have h1 := hc.clusters_le
  have h2 := hc.system_le
  have h3 : (c - 2 + 1) * fs.boot.clusterSectors ≤ fs.totalClusters * fs.boot.clusterSectors :=
    Nat.mul_le_mul_right _ (by have := h.1; have := h.2; omega)
  rw [Nat.succ_mul] at h3
  unfold dataBlock
  omega

theorem clusterToSector_eq (h : fs.InRange c) : fs.boot.clusterToSector c = fs.dataBlock c := by
  have h1 := hc.dataBlock_le h
  have ht := fs.boot.totalSectors32.toNat_lt
  have hlt : c < 2 ^ 32 := by
    have := h.2
    have := hc.end_eq
    have : fs.endCluster < 2 ^ 32 := Nat.mod_lt _ (by decide)
    omega
  have h2 : (c + 2 ^ 32 - 2) % 2 ^ 32 = c - 2 := by
    have := h.1
    omega
  have hpos := clusterSectors_pos fs
  unfold dataBlock at *
  unfold Fat32BootSector.clusterToSector
  rw [hc.dataStart_eq, h2, Nat.mod_eq_of_lt (a := (c - 2) * fs.boot.clusterSectors) (by omega),
    Nat.mod_eq_of_lt (by omega)]

end Consistent

end

/-! ## FAT entries -/

section

variable {fs : Fat32FileSystem} {d : Disk} {v : Vol} {μ σ : Type} {s : σ} {n c i o x j : Nat}
  {buf bs : Bytes} {hl : buf.length = d.blockSize} {t : FatTable}

theorem readBlock_disk {len : Nat} (hl : len = d.blockSize) (hn : n < d.blockCount) :
    RunsM (diskView fs) (readBlock n len : DevM μ σ BlockError Bytes) s d (.ok (d.blocks n)) s d := by
  intro d' hd'
  obtain rfl : d' = d := hd'
  refine ⟨d', ?_, rfl, ⟨trivial, trivial⟩, trivial⟩
  have hrun : (readBlock n len s : Prog Cmd Resp μ _).run Disk.handle d' =
      ((d'.readBlock n len, s), d') := rfl
  rw [Disk.readBlock_ok hl hn] at hrun
  exact hrun

theorem writeBlock_disk (hro : d.readOnly = false) (hl : buf.length = d.blockSize)
    (hn : n < d.blockCount) (hok : Allows fs (.writeBlock n buf) d) :
    RunsM (diskView fs) (writeBlock n buf : DevM μ σ BlockError Unit) s d (.ok ()) s
      (d.put n buf hl) := by
  intro d' hd'
  obtain rfl : d' = d := hd'
  refine ⟨d'.put n buf hl, ?_, rfl, hok, trivial⟩
  have hrun : (writeBlock n buf s : Prog Cmd Resp μ _).run Disk.handle d' =
      (((d'.writeBlock n buf).1, s), (d'.writeBlock n buf).2) := rfl
  rw [Disk.writeBlock_ok hro hl hn] at hrun
  exact hrun

theorem Consistent.put (hc : Consistent fs d) (hl : buf.length = d.blockSize) :
    Consistent fs (d.put n buf hl) :=
  ⟨hc.sector, hc.fats, hc.system_le, hc.fat_entries, hc.blocks, hc.writable⟩

theorem clusterData_put_of_lt (hn : n < fs.boot.systemSectors) :
    fs.clusterData (d.put n buf hl) c = fs.clusterData d c := by
  unfold clusterData
  congr 1
  refine map_congr_left fun j _ => Disk.put_blocks_of_ne ?_
  unfold dataBlock
  omega

theorem allows_of_inFat (hn : fs.InFat n) : Allows fs (.writeBlock n buf) d := by
  have hlt := hn.2
  refine ⟨fun c _ _ => Or.inl ?_, Or.inl hn⟩
  unfold dataBlock
  omega

theorem fatEntry_put_of_ne (hn : fs.fatBlock i ≠ n) :
    fs.fatEntry (d.put n buf hl) i = fs.fatEntry d i := by
  unfold fatEntry
  rw [Disk.put_blocks_of_ne hn]

theorem readEntry_runs (hr : fs.InRange c) :
    RunsM (volView fs) (fs.readEntry c) t v (.ok (v.fat (fatIndex c))) t v := by
  refine RunsM.of_disk fun d hp => ⟨d, ?_, hp⟩
  have hc := hp.consistent
  have hblock : fs.fatBlock (fatIndex c) < d.blockCount := by
    have h1 := hc.fatBlock_lt (fatIndex_inRange hr)
    have h2 := hc.fat_le
    have h3 := hc.system_le
    have h4 := hc.blocks
    omega
  rw [hp.fat _ (fatIndex_inRange hr) (fatIndex_lt c)]
  unfold readEntry fatEntry
  rw [if_neg (hc.inRange_iff.mp hr), hc.fatSector_eq hr.2, entryOffset_eq]
  exact .bind_ok (.mapErr_ok (readBlock_disk hc.sector hblock)) (.pure _)

theorem readEntry_invalid (hr : ¬ fs.InRange c) :
    RunsM (volView fs) (fs.readEntry c) t v (.error .invalidCluster) t v := by
  refine RunsM.of_disk fun d hp => ⟨d, ?_, hp⟩
  unfold readEntry
  rw [if_pos (by by_contra h; exact hr (hp.consistent.inRange_iff.mpr h))]
  exact RunsM.throw _

/-! ### Writing an entry -/

theorem setEntryAt_length (h : o + 4 ≤ buf.length) :
    (setEntryAt buf o x).length = buf.length :=
  splice_length (by rw [leBytes_length]; exact h)

theorem entryAt_setEntryAt (h : o + 4 ≤ buf.length) :
    entryAt (setEntryAt buf o x) o = setLow x (entryAt buf o) := by
  have hold : entryAt buf o < 256 ^ 4 := by
    have := leNat_lt (slice buf o 4)
    rwa [slice_length h] at this
  unfold setEntryAt setLow
  generalize entryAt buf o = old at hold ⊢
  have hback : slice (splice buf o (leBytes 4 (old - old % 2 ^ 28 + x % 2 ^ 28))) o 4 =
      leBytes 4 (old - old % 2 ^ 28 + x % 2 ^ 28) := by
    have hself := @slice_splice_self buf (leBytes 4 (old - old % 2 ^ 28 + x % 2 ^ 28)) o
      (by rw [leBytes_length]; exact h)
    rwa [leBytes_length] at hself
  have hval := congrArg leNat hback
  rw [leNat_leBytes] at hval
  change leNat (slice _ o 4) = _
  rw [hval]
  omega

theorem entryAt_setEntryAt_of_ne {o' : Nat} (h : o + 4 ≤ buf.length)
    (hd : o' + 4 ≤ o ∨ o + 4 ≤ o') : entryAt (setEntryAt buf o x) o' = entryAt buf o' :=
  congrArg leNat (slice_splice_of_disjoint (by rw [leBytes_length]; exact h)
    (by rw [leBytes_length]; exact hd))

theorem entryOffset_le (fs : Fat32FileSystem) (i : Nat) :
    i * 4 % fs.boot.sectorSize + 4 ≤ fs.boot.sectorSize := by
  rcases sectorSize_cases fs with h | h | h | h <;> rw [h] <;> omega

theorem copyEntry_put {d : Disk} (hc : Consistent fs d) {k k' i j : Nat}
    (hi : i < fs.totalClusters + 2) (hj : j < fs.totalClusters + 2)
    (hl : (setEntryAt (d.blocks (fs.fatBlock i + k * fs.boot.fatSize32.toNat))
        (i * 4 % fs.boot.sectorSize) x).length = d.blockSize) :
    fs.copyEntry (d.put (fs.fatBlock i + k * fs.boot.fatSize32.toNat) _ hl) k' j =
      if k' = k ∧ j = i then setLow x (fs.copyEntry d k' j) else fs.copyEntry d k' j := by
  have hlen : i * 4 % fs.boot.sectorSize + 4 ≤
      (d.blocks (fs.fatBlock i + k * fs.boot.fatSize32.toNat)).length := by
    rw [d.blocks_length, ← hc.sector]
    exact entryOffset_le fs i
  by_cases hb : fs.fatBlock j + k' * fs.boot.fatSize32.toNat =
      fs.fatBlock i + k * fs.boot.fatSize32.toNat
  · -- the sectors of a copy are fewer than the copies are apart
    have hk : k' = k ∧ fs.fatBlock j = fs.fatBlock i := by
      have h1 := hc.fatBlock_lt hi
      have h2 := hc.fatBlock_lt hj
      have h3 : fs.boot.fatStartSector ≤ fs.fatBlock i := Nat.le_add_right _ _
      have h4 : fs.boot.fatStartSector ≤ fs.fatBlock j := Nat.le_add_right _ _
      rcases Nat.lt_trichotomy k' k with h | h | h
      · have := Nat.mul_le_mul_right fs.boot.fatSize32.toNat h
        rw [Nat.succ_mul] at this
        omega
      · subst h
        omega
      · have := Nat.mul_le_mul_right fs.boot.fatSize32.toNat h
        rw [Nat.succ_mul] at this
        omega
    obtain ⟨rfl, hij⟩ := hk
    unfold copyEntry
    rw [hij, Disk.put_blocks_self]
    by_cases heq : j = i
    · subst heq
      rw [if_pos ⟨rfl, rfl⟩, entryAt_setEntryAt hlen]
    · rw [if_neg (fun h => heq h.2), entryAt_setEntryAt_of_ne hlen]
      unfold fatBlock at hij
      rcases sectorSize_cases fs with h | h | h | h <;> rw [h] at hij ⊢ <;> omega
  · unfold copyEntry
    rw [Disk.put_blocks_of_ne hb, if_neg]
    rintro ⟨rfl, rfl⟩
    exact hb rfl

theorem Consistent.copySector_eq (hc : Consistent fs d) {k : Nat} (hr : c < fs.totalClusters + 2)
    (hk : k < fs.boot.numFats.toNat) :
    (fs.fatSector c + k * fs.boot.fatSize32.toNat % 2 ^ 32) % 2 ^ 32 =
      fs.fatBlock (fatIndex c) + k * fs.boot.fatSize32.toNat ∧
    fs.fatBlock (fatIndex c) + k * fs.boot.fatSize32.toNat < fs.boot.systemSectors := by
  have h1 := hc.fatBlock_lt (Nat.lt_of_le_of_lt (fatIndex_le c) hr)
  have h2 : (k + 1) * fs.boot.fatSize32.toNat ≤ fs.boot.numFats.toNat * fs.boot.fatSize32.toNat :=
    Nat.mul_le_mul_right _ hk
  rw [Nat.succ_mul] at h2
  have h3 := hc.system_le
  have ht := fs.boot.totalSectors32.toNat_lt
  have hlt : fs.fatBlock (fatIndex c) + k * fs.boot.fatSize32.toNat < fs.boot.systemSectors := by
    unfold Fat32BootSector.systemSectors
    unfold Fat32BootSector.fatStartSector at h1
    omega
  refine ⟨?_, hlt⟩
  rw [hc.fatSector_eq hr, Nat.mod_eq_of_lt (a := k * fs.boot.fatSize32.toNat) (by omega),
    Nat.mod_eq_of_lt (by omega)]

theorem writeCopies_cons_disk (hc : Consistent fs d) {c x k : Nat} {ks : List Nat} {t : FatTable}
    (hr : fs.InRange c) (hk : k < fs.boot.numFats.toNat) :
    ∃ hl, ∀ r t' d',
        RunsM (diskView fs) (fs.writeCopies c x ks) t (d.put (fs.fatBlock (fatIndex c) + k *
          fs.boot.fatSize32.toNat) (setEntryAt
          (d.blocks (fs.fatBlock (fatIndex c) + k * fs.boot.fatSize32.toNat))
          (fatIndex c * 4 % fs.boot.sectorSize) x) hl) r t' d' →
        RunsM (diskView fs) (fs.writeCopies c x (k :: ks)) t d r t' d' := by
  obtain ⟨heq, hlt⟩ := hc.copySector_eq hr.2 hk
  have hn : fs.fatBlock (fatIndex c) + k * fs.boot.fatSize32.toNat < d.blockCount := by
    have h1 := hc.system_le
    have h2 := hc.blocks
    omega
  have hl : (setEntryAt
      (d.blocks (fs.fatBlock (fatIndex c) + k * fs.boot.fatSize32.toNat))
      (fatIndex c * 4 % fs.boot.sectorSize) x).length = d.blockSize := by
    rw [setEntryAt_length, d.blocks_length]
    rw [d.blocks_length, ← hc.sector]
    exact entryOffset_le fs _
  have hin : fs.InFat (fs.fatBlock (fatIndex c) + k * fs.boot.fatSize32.toNat) :=
    ⟨Nat.le_trans (Nat.le_add_right _ _) (Nat.le_add_right _ _), hlt⟩
  refine ⟨hl, fun r t' d' hrest => ?_⟩
  unfold writeCopies
  simp only [heq, entryOffset_eq]
  refine .bind_ok (.mapErr_ok (readBlock_disk hc.sector hn)) ?_
  exact .bind_ok (.mapErr_ok (writeBlock_disk hc.writable hl hn (allows_of_inFat hin)))
    hrest

theorem writeCopies_disk {c x : Nat} {t : FatTable} (hr : fs.InRange c) : ∀ (ks : List Nat)
    (d : Disk), Consistent fs d → (∀ k ∈ ks, k < fs.boot.numFats.toNat) →
    ∃ d', RunsM (diskView fs) (fs.writeCopies c x ks) t d (.ok ()) t d' ∧ Consistent fs d' ∧
      (∀ c', fs.clusterData d' c' = fs.clusterData d c') ∧
      ∀ k < fs.boot.numFats.toNat, ∀ j < fs.totalClusters + 2, fs.copyEntry d' k j =
        if k ∈ ks ∧ j = fatIndex c then setLow x (fs.copyEntry d k j) else fs.copyEntry d k j
  | [], d, hc, _ => ⟨d, .pure _, hc, fun _ => rfl, fun _ _ _ _ => by simp⟩
  | k :: ks, d, hc, hks => by
    have hk := hks k mem_cons_self
    obtain ⟨hl, hround⟩ := @writeCopies_cons_disk _ d hc _ x _ ks t hr hk
    obtain ⟨d', hrun, hc', hdata, hcopy⟩ := writeCopies_disk (x := x) (t := t) hr ks _ (hc.put hl)
      fun k' hk' => hks k' (mem_cons_of_mem k hk')
    refine ⟨d', hround _ _ _ hrun, hc', fun c' => ?_, fun k' hk' j hj => ?_⟩
    · rw [hdata, clusterData_put_of_lt (hc.copySector_eq hr.2 hk).2]
    · rw [hcopy k' hk' j hj, copyEntry_put hc (fatIndex_inRange hr) hj]
      by_cases hj' : j = fatIndex c
      · by_cases h1 : k' = k <;> by_cases h2 : k' ∈ ks <;> simp [hj', h1, h2, setLow_setLow]
      · simp [hj']

theorem writeEntry_runs (hr : fs.InRange c) :
    RunsM (volView fs) (fs.writeEntry c x) t v (.ok ()) t (v.setFat (fatIndex c) (x % 2 ^ 28)) := by
  refine RunsM.of_disk fun d hp => ?_
  have hc := hp.consistent
  obtain ⟨d', hrun, hc', hdata, hcopy⟩ := writeCopies_disk (x := x) (t := t) hr
    (range fs.boot.numFats.toNat) d hc fun k hk => mem_range.1 hk
  have hi := fatIndex_inRange hr
  have hall : ∀ k < fs.boot.numFats.toNat, ∀ j < fs.totalClusters + 2, fs.copyEntry d' k j =
      if j = fatIndex c then setLow x (fs.copyEntry d k j) else fs.copyEntry d k j := by
    intro k hk j hj
    rw [hcopy k hk j hj]
    simp only [mem_range, hk, true_and]
  refine ⟨d', ?_, hc', fun j hj hj' => ?_, fun j hj hj' => ?_, fun c' hr' => ?_, fun j hj => ?_,
    fun j hj => ?_, hp.data_out⟩
  · unfold writeEntry
    rwa [if_neg (hc.inRange_iff.mp hr)]
  · rw [fatEntry_eq, hall 0 hc.fats j hj]
    by_cases h : j = fatIndex c
    · rw [if_pos h, h, Vol.setFat_self, setLow_low]
    · rw [if_neg h, Vol.setFat_of_ne _ _ h, hp.fat j hj hj', fatEntry_eq]
  · by_cases h : j = fatIndex c
    · subst h
      rw [Vol.setFat_copies_self, hp.copies _ hj hj', map_map]
      refine map_congr_left fun k hk => ?_
      rw [hall k (mem_range.1 hk) _ hj, if_pos rfl]
      exact (setLow_mod ..).symm
    · rw [Vol.setFat_copies_of_ne _ _ h, hp.copies j hj hj']
      refine map_congr_left fun k hk => ?_
      rw [hall k (mem_range.1 hk) j hj, if_neg h]
  · rw [Vol.setFat_data, hdata, hp.data c' hr']
  · have h : j ≠ fatIndex c := by
      rintro rfl
      exact hj ⟨hi, fatIndex_lt c⟩
    rw [Vol.setFat_of_ne _ _ h]
    exact hp.fat_out j hj
  · have h : j ≠ fatIndex c := by
      rintro rfl
      exact hj ⟨hi, fatIndex_lt c⟩
    rw [Vol.setFat_copies_of_ne _ _ h]
    exact hp.copies_out j hj

/-! ## Clusters -/

theorem Consistent.sector_eq (hc : Consistent fs d) (hr : fs.InRange c)
    (hj : j < fs.boot.clusterSectors) :
    (fs.dataBlock c + j) % 2 ^ 32 = fs.dataBlock c + j ∧ fs.dataBlock c + j < d.blockCount := by
  have h1 := hc.dataBlock_le hr
  have h2 := hc.blocks
  have ht := fs.boot.totalSectors32.toNat_lt
  exact ⟨Nat.mod_eq_of_lt (by omega), by omega⟩

theorem dataBlock_disjoint {c' : Nat} (hr : fs.InRange c) (hr' : fs.InRange c') (h : c ≠ c') :
    fs.dataBlock c + fs.boot.clusterSectors ≤ fs.dataBlock c' ∨
      fs.dataBlock c' + fs.boot.clusterSectors ≤ fs.dataBlock c := by
  have hstep : ∀ a b : Nat, a < b → 2 ≤ a →
      fs.dataBlock a + fs.boot.clusterSectors ≤ fs.dataBlock b := by
    intro a b hab ha
    have hm : (a - 2 + 1) * fs.boot.clusterSectors ≤ (b - 2) * fs.boot.clusterSectors :=
      Nat.mul_le_mul_right _ (by omega)
    rw [Nat.succ_mul] at hm
    unfold dataBlock
    omega
  rcases Nat.lt_or_gt_of_ne h with h | h
  · exact Or.inl (hstep c c' h hr.1)
  · exact Or.inr (hstep c' c h hr'.1)

theorem readSectors_disk (hc : Consistent fs d) {c : Nat} (hr : fs.InRange c) :
    ∀ (is : List Nat), (∀ j ∈ is, j < fs.boot.clusterSectors) →
        RunsM (diskView fs) (fs.readSectors (fs.dataBlock c) is) () d
          (.ok (is.map fun j => d.blocks (fs.dataBlock c + j)).flatten) () d
  | [], _ => .pure _
  | j :: is, h => by
    obtain ⟨heq, hlt⟩ := hc.sector_eq hr (h j mem_cons_self)
    have ih := readSectors_disk hc hr is fun k hk => h k (mem_cons_of_mem j hk)
    unfold readSectors
    rw [heq]
    refine .bind_ok (.mapErr_ok (readBlock_disk hc.sector hlt)) ?_
    exact .bind_ok ih (.pure _)

theorem readCluster_runs (hr : fs.InRange c) :
    RunsM (volView fs) (fs.readCluster c) () v (.ok (v.data c)) () v := by
  refine RunsM.of_disk fun d hp => ⟨d, ?_, hp⟩
  unfold readCluster
  rw [hp.consistent.clusterToSector_eq hr, hp.data c hr]
  exact readSectors_disk hp.consistent hr _ fun j hj => mem_range.mp hj

theorem sectorBuf_eq (hlen : bs.length = fs.boot.clusterSize) (hj : j < fs.boot.clusterSectors) :
    fs.sectorBuf bs j = slice bs (j * fs.boot.sectorSize) fs.boot.sectorSize ∧
      (fs.sectorBuf bs j).length = fs.boot.sectorSize := by
  have hle : (j + 1) * fs.boot.sectorSize ≤ fs.boot.clusterSectors * fs.boot.sectorSize :=
    Nat.mul_le_mul_right _ hj
  rw [Nat.succ_mul] at hle
  have hs : (slice bs (j * fs.boot.sectorSize) fs.boot.sectorSize).length = fs.boot.sectorSize :=
    slice_length (by rw [hlen]; exact hle)
  have heq : fs.sectorBuf bs j = slice bs (j * fs.boot.sectorSize) fs.boot.sectorSize := by
    change slice bs _ _ ++ replicate (_ - (slice bs _ _).length) 0 = _
    rw [hs, Nat.sub_self, replicate_zero, append_nil]
  exact ⟨heq, by rw [heq, hs]⟩

theorem writeSectors_disk {c : Nat} {bs : Bytes} (hr : fs.InRange c)
    (hlen : bs.length = fs.boot.clusterSize) : ∀ (is : List Nat) (d : Disk), Consistent fs d →
    fs.fatEntry d (fatIndex c) ≠ fatFree → (∀ j ∈ is, j < fs.boot.clusterSectors) →
    ∃ d', RunsM (diskView fs) (fs.writeSectors (fs.dataBlock c) bs is) () d (.ok ()) () d' ∧
      Consistent fs d' ∧ (∀ j ∈ is, d'.blocks (fs.dataBlock c + j) = fs.sectorBuf bs j) ∧
      ∀ n, (∀ j ∈ is, n ≠ fs.dataBlock c + j) → d'.blocks n = d.blocks n
  | [], d, hc, _, _ => ⟨d, RunsM.pure _, hc, by simp, by simp⟩
  | j :: is, d, hc, hused, h => by
    have hj := h j mem_cons_self
    obtain ⟨heq, hlt⟩ := hc.sector_eq hr hj
    have hl : (fs.sectorBuf bs j).length = d.blockSize := by
      rw [(sectorBuf_eq hlen hj).2, hc.sector]
    have hfat : ∀ i, i < fs.totalClusters + 2 →
        fs.fatEntry (d.put (fs.dataBlock c + j) _ hl) i = fs.fatEntry d i := by
      intro i hi
      have h1 := hc.fatBlock_lt hi
      have h2 := hc.fat_le
      refine fatEntry_put_of_ne ?_
      unfold dataBlock
      omega
    have hok : Allows fs (.writeBlock (fs.dataBlock c + j) (fs.sectorBuf bs j)) d := by
      refine ⟨fun c' hr' hfree => ?_, Or.inr ⟨c, hr, Nat.le_add_right _ _, by omega⟩⟩
      have hne : c ≠ c' := by
        rintro rfl
        exact hused hfree
      rcases dataBlock_disjoint hr hr' hne with h | h
      · exact Or.inl (by omega)
      · exact Or.inr (by omega)
    obtain ⟨d', hrun, hc', hdone, hsame⟩ := writeSectors_disk hr hlen is _ (hc.put hl)
      (by rw [hfat _ (fatIndex_inRange hr)]; exact hused)
      (fun k hk => h k (mem_cons_of_mem j hk))
    refine ⟨d', ?_, hc', ?_, ?_⟩
    · unfold writeSectors
      rw [heq]
      exact .bind_ok (.mapErr_ok (writeBlock_disk hc.writable hl hlt hok)) hrun
    · intro k hk
      by_cases hmem : k ∈ is
      · exact hdone k hmem
      · obtain rfl : k = j := (mem_cons.mp hk).resolve_right hmem
        rw [hsame _ fun i hi heq => hmem (by
          have : i = k := by omega
          exact this ▸ hi), Disk.put_blocks_self]
    · intro n hn
      rw [hsame n fun k hk => hn k (mem_cons_of_mem j hk),
        Disk.put_blocks_of_ne (hn j mem_cons_self)]

theorem writeCluster_runs (hr : fs.InRange c) (hlen : bs.length = fs.boot.clusterSize)
    (hused : v.fat (fatIndex c) ≠ fatFree) :
    RunsM (volView fs) (fs.writeCluster c bs) () v (.ok ()) () (v.setData c bs) := by
  refine RunsM.of_disk fun d hp => ?_
  have hc := hp.consistent
  have hfat : ∀ i, i < fs.totalClusters + 2 → i < 2 ^ 30 → v.fat i = fs.fatEntry d i := hp.fat
  have hcopy : ∀ k < fs.boot.numFats.toNat, ∀ i < fs.totalClusters + 2,
      fs.fatBlock i + k * fs.boot.fatSize32.toNat < fs.boot.systemSectors := fun k hk i hi => by
    have h1 := hc.fatBlock_lt hi
    have h2 := Nat.mul_le_mul_right fs.boot.fatSize32.toNat hk
    rw [Nat.succ_mul] at h2
    unfold Fat32BootSector.systemSectors
    unfold Fat32BootSector.fatStartSector at h1
    omega
  obtain ⟨d', hrun, hc', hdone, hsame⟩ := writeSectors_disk hr hlen (range _) d hc
    (by rw [← hfat _ (fatIndex_inRange hr) (fatIndex_lt c)]; exact hused)
    (fun j hj => mem_range.mp hj)
  have hkeep : ∀ k < fs.boot.numFats.toNat, ∀ i < fs.totalClusters + 2,
      fs.copyEntry d' k i = fs.copyEntry d k i := by
    intro k hk i hi
    have hlt := hcopy k hk i hi
    unfold copyEntry
    rw [hsame]
    intro j _
    unfold dataBlock
    omega
  refine ⟨d', ?_, hc', ?_, ?_, ?_, hp.fat_out, hp.copies_out, ?_⟩
  · unfold writeCluster
    rw [hc.clusterToSector_eq hr]
    exact hrun
  · intro i hi hi'
    rw [Vol.setData_fat, hfat i hi hi', fatEntry_eq, fatEntry_eq, hkeep 0 hc.fats i hi]
  · intro i hi hi'
    rw [Vol.setData_copies, hp.copies i hi hi']
    exact map_congr_left fun k hk => (hkeep k (mem_range.1 hk) i hi).symm
  · intro c' hr'
    by_cases hcc : c' = c
    · subst hcc
      rw [Vol.setData_self]
      have hmap : ((range fs.boot.clusterSectors).map fun j =>
          d'.blocks (fs.dataBlock c' + j)) =
          (range fs.boot.clusterSectors).map fun j =>
            slice bs (j * fs.boot.sectorSize) fs.boot.sectorSize := by
        refine map_congr_left fun j hj => ?_
        rw [hdone j hj, (sectorBuf_eq hlen (mem_range.mp hj)).1]
      unfold clusterData
      rw [hmap, flatten_slices _ _ _ (by rw [hlen]; exact Nat.le_refl _),
        take_of_length_le (by rw [hlen]; exact Nat.le_refl _)]
    · rw [Vol.setData_of_ne _ _ hcc, hp.data c' hr']
      unfold clusterData
      congr 1
      refine map_congr_left fun j hj => (hsame _ fun k hk => ?_).symm
      have h1 := mem_range.mp hj
      have h2 := mem_range.mp hk
      rcases dataBlock_disjoint hr' hr hcc with h | h <;> omega
  · intro c' hr'
    have hcc : c' ≠ c := by
      rintro rfl
      exact hr' hr
    rw [Vol.setData_of_ne _ _ hcc]
    exact hp.data_out c' hr'

theorem Presents.data_length (hp : Presents fs d v) (hr : fs.InRange c) :
    (v.data c).length = fs.boot.clusterSize := by
  rw [hp.data c hr]
  unfold clusterData
  rw [length_flatten, map_map]
  have hmap : (List.length ∘ fun j => d.blocks (fs.dataBlock c + j)) = fun _ => d.blockSize :=
    funext fun j => d.blocks_length _
  rw [hmap, map_const', sum_replicate_nat, length_range, ← hp.consistent.sector]
  rfl

end

/-! ## A small volume -/

def smallFs : Fat32FileSystem := ⟨bootRecord 1, by decide⟩

/-- A FAT in which cluster 2 is the end of a chain and all others are free. -/
def smallFat : Bytes :=
  [0xF8, 0xFF, 0xFF, 0x0F, 0xFF, 0xFF, 0xFF, 0x0F, 0xFF, 0xFF, 0xFF, 0x0F] ++ List.replicate 500 0

/-- A volume with one sector of FAT and one cluster of root directory; the other blocks hold the bytes
`fill`. -/
def volumeDisk (fat root : Bytes) (hfat : fat.length = 512) (hroot : root.length = 512)
    (fill : Nat → UInt8) : Disk where
  blockSize := 512
  blockCount := 64
  readOnly := false
  blocks := fun n =>
    if n = 0 then bootSector 1
    else if n = 1 then fat
    else if n = 2 then root
    else List.replicate 512 (fill n)
  blocks_length := fun n => by
    split
    · simp only [bootSector, length_append, length_replicate, length_cons, length_nil]
    · split
      · exact hfat
      · split
        · exact hroot
        · rw [length_replicate]

theorem volumeDisk_consistent {fat root : Bytes} {hfat : fat.length = 512}
    {hroot : root.length = 512} {fill : Nat → UInt8} :
    Consistent smallFs (volumeDisk fat root hfat hroot fill) :=
  ⟨(by decide : smallFs.boot.sectorSize = 512), by decide, by decide, by decide,
    (by decide : smallFs.boot.totalSectors32.toNat ≤ 64), rfl⟩

/-- The volume with this root directory, where nothing else is allocated; free clusters hold the byte
`old`. -/
def smallDisk (root : Bytes) (hroot : root.length = 512) (old : UInt8) : Disk :=
  volumeDisk smallFat root
    (by simp only [smallFat, length_append, length_replicate, length_cons, length_nil]) hroot
    fun _ => old

theorem smallDisk_consistent {root : Bytes} {hroot : root.length = 512} {old : UInt8} :
    Consistent smallFs (smallDisk root hroot old) := volumeDisk_consistent

end Kerners.Fat32
