import Kerners.Fat32.Chain

/-!
# A directory as a list of slots

The clusters of a directory hold 32-byte slots. `slotsOf fs l` lists their places in the order of
the directory, so that `chunks(32)` of the directory's data are the bytes at these places
(`chunks_dirData`) and a write of an entry replaces one of them (`map_slot_putSlot`).
-/

namespace Kerners.Fat32

open Lib Kerners.Block List

/-- The place of a directory slot: a cluster and an offset in it. -/
abbrev Slot := Nat × Nat

namespace Vol

def slot (v : Vol) (s : Slot) : Bytes := slice (v.data s.1) s.2 32

def putSlot (v : Vol) (s : Slot) (bs : Bytes) : Vol := v.setData s.1 (splice (v.data s.1) s.2 bs)

@[simp] theorem putSlot_fat (v : Vol) (s : Slot) (bs : Bytes) : (v.putSlot s bs).fat = v.fat := rfl

theorem putSlot_data_of_ne (v : Vol) {s : Slot} (bs : Bytes) {c : Nat} (h : c ≠ s.1) :
    (v.putSlot s bs).data c = v.data c := v.setData_of_ne _ h

theorem slot_congr {v v' : Vol} {s : Slot} (h : v'.data s.1 = v.data s.1) :
    v'.slot s = v.slot s := by
  unfold slot
  rw [h]

end Vol

def FullClusters (fs : Fat32FileSystem) (v : Vol) : Prop :=
  ∀ c, fs.InRange c → (v.data c).length = fs.boot.clusterSize

def Fat32FileSystem.slotCount (fs : Fat32FileSystem) : Nat := fs.boot.clusterSize / 32

/-- The slots of the clusters `l`, in order. -/
def slotsOf (fs : Fat32FileSystem) (l : List Nat) : List Slot :=
  l.flatMap fun c => (List.range fs.slotCount).map fun j => (c, j * 32)

variable {fs : Fat32FileSystem} {v : Vol} {l : List Nat} {i : Nat} {s : Slot}

theorem clusterSize_eq (fs : Fat32FileSystem) : fs.boot.clusterSize = fs.slotCount * 32 := by
  have hdvd : 32 ∣ fs.boot.clusterSize := by
    have h : 32 ∣ fs.boot.sectorSize := by
      rcases sectorSize_cases fs with h | h | h | h <;> rw [h] <;> decide
    exact Nat.dvd_mul_left_of_dvd h _
  exact (Nat.div_mul_cancel hdvd).symm

theorem two_le_slotCount (fs : Fat32FileSystem) : 2 ≤ fs.slotCount := by
  have h1 : 64 ≤ fs.boot.sectorSize := by
    rcases sectorSize_cases fs with h | h | h | h <;> rw [h] <;> decide
  have h2 : 1 * fs.boot.sectorSize ≤ fs.boot.clusterSectors * fs.boot.sectorSize :=
    Nat.mul_le_mul_right _ (clusterSectors_pos fs)
  have h3 : fs.boot.clusterSectors * fs.boot.sectorSize = fs.slotCount * 32 := clusterSize_eq fs
  omega

theorem slotCount_pos (fs : Fat32FileSystem) : 0 < fs.slotCount :=
  Nat.lt_of_lt_of_le (by decide) (two_le_slotCount fs)

theorem clusterSize_pos (fs : Fat32FileSystem) : 0 < fs.boot.clusterSize := by
  have h := slotCount_pos fs
  rw [clusterSize_eq]
  omega

theorem clusterSize_lt (fs : Fat32FileSystem) : fs.boot.clusterSize < 2 ^ 21 := by
  have h1 : fs.boot.sectorSize ≤ 4096 := by
    rcases sectorSize_cases fs with h | h | h | h <;> rw [h] <;> decide
  have h2 : fs.boot.clusterSectors < 256 := UInt8.toNat_lt _
  have h3 : fs.boot.clusterSectors * fs.boot.sectorSize ≤ 256 * 4096 :=
    Nat.mul_le_mul (Nat.le_of_lt h2) h1
  exact Nat.lt_of_le_of_lt h3 (by decide)

theorem clustersFor_le_iff {size n : Nat} (hsize : size < 2 ^ 63) :
    Fat32File.clustersFor fs size ≤ n ↔ size ≤ n * fs.boot.clusterSize := by
  have hpos := clusterSize_pos fs
  have hlt := clusterSize_lt fs
  unfold Fat32File.clustersFor
  rw [Nat.mod_eq_of_lt (by omega), ← Nat.lt_succ_iff, Nat.div_lt_iff_lt_mul hpos, Nat.succ_mul]
  omega

theorem mem_slotsOf : s ∈ slotsOf fs l ↔ s.1 ∈ l ∧ ∃ j, j < fs.slotCount ∧ s.2 = j * 32 := by
  unfold slotsOf
  simp only [mem_flatMap, mem_map, mem_range]
  constructor
  · rintro ⟨c, hc, j, hj, rfl⟩
    exact ⟨hc, j, hj, rfl⟩
  · rintro ⟨hc, j, hj, hs⟩
    exact ⟨s.1, hc, j, hj, by rw [← hs]⟩

theorem slot_le (h : s ∈ slotsOf fs l) : s.2 + 32 ≤ fs.boot.clusterSize := by
  obtain ⟨-, j, hj, hs⟩ := mem_slotsOf.mp h
  rw [hs, clusterSize_eq]
  omega

theorem slotsOf_getElem? : (slotsOf fs l)[i]? =
    l[i / fs.slotCount]?.map fun c => (c, i % fs.slotCount * 32) := by
  have hlt : i % fs.slotCount < fs.slotCount := Nat.mod_lt _ (slotCount_pos fs)
  have h := getElem?_flatMap_const (slotCount_pos fs) (l := l)
    (f := fun c => (List.range fs.slotCount).map fun j => (c, j * 32)) (by simp) i
  rw [slotsOf, h]
  simp only [getElem?_map, getElem?_range hlt, Option.map_some]
  cases l[i / fs.slotCount]? <;> rfl

theorem offset_div (fs : Fat32FileSystem) (i : Nat) :
    i * 32 / fs.boot.clusterSize = i / fs.slotCount := by
  rw [clusterSize_eq, Nat.mul_div_mul_right _ _ (by decide)]

theorem offset_mod (fs : Fat32FileSystem) (i : Nat) :
    i * 32 % fs.boot.clusterSize = i % fs.slotCount * 32 := by
  rw [clusterSize_eq, Nat.mul_mod_mul_right]

theorem slotsOf_nodup (h : l.Nodup) : (slotsOf fs l).Nodup := by
  unfold slotsOf
  refine nodup_flatMap.mpr ⟨fun c _ => ?_, ?_⟩
  · refine List.Nodup.map (fun a b hab => ?_) nodup_range
    have : a * 32 = b * 32 := congrArg Prod.snd hab
    omega
  · refine h.imp fun {a b} hab => ?_
    refine disjoint_left.mpr fun s h1 h2 => ?_
    obtain ⟨_, _, rfl⟩ := mem_map.mp h1
    obtain ⟨_, _, heq⟩ := mem_map.mp h2
    exact hab (congrArg Prod.fst heq).symm

theorem chunks_dirData (hv : FullClusters fs v) : ∀ {l : List Nat}, (∀ c ∈ l, fs.InRange c) →
    chunks 32 (l.flatMap v.data) = (slotsOf fs l).map v.slot
  | [], _ => rfl
  | c :: l, hl => by
    have hlen : (v.data c).length = fs.slotCount * 32 := by
      rw [hv c (hl c mem_cons_self), clusterSize_eq]
    rw [flatMap_cons, chunks_append (by decide) hlen,
      chunks_dirData hv fun c' hc' => hl c' (mem_cons_of_mem c hc'),
      chunks_eq_slices (by decide) hlen]
    simp only [slotsOf, flatMap_cons, map_append, map_map]
    rfl

/-! ## Writing one slot -/

theorem slot_putSlot_self {bs : Bytes} (hbs : bs.length = 32)
    (hlen : s.2 + 32 ≤ (v.data s.1).length) : (v.putSlot s bs).slot s = bs := by
  have h := @slice_splice_self (v.data s.1) bs s.2 (by rwa [hbs])
  unfold Vol.slot Vol.putSlot
  rw [Vol.setData_self]
  rwa [hbs] at h

theorem slot_putSlot_of_ne {bs : Bytes} {s' : Slot} (hbs : bs.length = 32)
    (hlen : s.2 + 32 ≤ (v.data s.1).length) (h1 : s.2 % 32 = 0) (h2 : s'.2 % 32 = 0)
    (hne : s' ≠ s) : (v.putSlot s bs).slot s' = v.slot s' := by
  unfold Vol.slot Vol.putSlot
  by_cases hc : s'.1 = s.1
  · have hoff : s'.2 ≠ s.2 := fun h => hne (Prod.ext hc h)
    rw [hc, Vol.setData_self]
    exact slice_splice_of_disjoint (by rwa [hbs]) (by rw [hbs]; omega)
  · rw [Vol.setData_of_ne _ _ hc]

theorem mod_of_mem_slotsOf (h : s ∈ slotsOf fs l) : s.2 % 32 = 0 := by
  obtain ⟨-, j, -, hs⟩ := mem_slotsOf.mp h
  omega

theorem map_slot_putSlot {bs : Bytes} (hv : FullClusters fs v) (hr : ∀ c ∈ l, fs.InRange c)
    (hl : l.Nodup) (hi : (slotsOf fs l)[i]? = some s) (hbs : bs.length = 32) :
    (slotsOf fs l).map (v.putSlot s bs).slot = ((slotsOf fs l).map v.slot).set i bs := by
  have hmem := mem_of_getElem? hi
  have hlen : s.2 + 32 ≤ (v.data s.1).length := by
    rw [hv s.1 (hr _ (mem_slotsOf.mp hmem).1)]
    exact slot_le hmem
  refine ext_getElem? fun j => ?_
  rw [getElem?_map, getElem?_set, getElem?_map, length_map]
  by_cases hij : i = j
  · subst hij
    have hlt : i < (slotsOf fs l).length := (List.getElem?_eq_some_iff.mp hi).1
    rw [if_pos rfl, if_pos hlt, hi, Option.map_some, slot_putSlot_self hbs hlen]
  · rw [if_neg hij]
    cases hj : (slotsOf fs l)[j]? with
    | none => rfl
    | some s' =>
      have hne : s' ≠ s := by
        rintro rfl
        exact hij ((List.getElem?_inj (List.getElem?_eq_some_iff.mp hi).1
          (slotsOf_nodup hl)).mp (hi.trans hj.symm))
      rw [Option.map_some, Option.map_some, slot_putSlot_of_ne hbs hlen (mod_of_mem_slotsOf hmem)
        (mod_of_mem_slotsOf (mem_of_getElem? hj)) hne]

/-! ## Reading a directory -/

/-- The visible entries of a directory with the clusters `l`. -/
def entriesOf (fs : Fat32FileSystem) (v : Vol) (l : List Nat) : List Listed :=
  parseSlots [] 0 ((slotsOf fs l).map v.slot)

/-- The first byte of a slot says that it is free: never used, or deleted. -/
def freeByte (b : UInt8) : Bool := b == 0x00 || b == 0xE5

theorem findFree_some (h : findFree ((slotsOf fs l).map v.slot) = some i) :
    ∃ s, (slotsOf fs l)[i]? = some s ∧ freeByte ((v.slot s).getD 0 0) = true := by
  unfold findFree at h
  rw [findIdx?_map] at h
  obtain ⟨hlt, hfree, -⟩ := findIdx?_eq_some_iff_getElem.mp h
  exact ⟨_, getElem?_eq_getElem hlt, hfree⟩

theorem chainLoop_inRange : ∀ {fuel : Nat} {pre l : List Nat} {c : Nat},
    chainLoop fs v fuel pre c = .ok l → (∀ x ∈ pre, fs.InRange x) → ∀ x ∈ l, fs.InRange x
  | 0, _, _, _, h, _ => by
    unfold chainLoop at h
    exact absurd h (by simp)
  | fuel + 1, pre, l, c, h, hpre => by
    unfold chainLoop at h
    split_ifs at h with hcell hr hlen
    · refine chainLoop_inRange h fun x hx => ?_
      rcases mem_append.mp hx with hx | hx
      · exact hpre x hx
      · rw [mem_singleton.mp hx]
        exact hr
    · cases h
      exact hpre

theorem chainOf_inRange {c : Nat} (h : chainOf fs v c = .ok l) : ∀ x ∈ l, fs.InRange x :=
  chainLoop_inRange h (by simp)

theorem ownChain_runs {c : Nat} (h : chainOf fs v c = .ok l) :
    RunsM (volView fs) (fs.ownChain c) () v (.ok l) () v := by
  have hrun := @readChain_runs fs v FatTable.new c
  rw [h] at hrun
  exact .within (.mapErr_ok hrun)

theorem ownChain_runs_error {c : Nat} {e : FatError} (h : chainOf fs v c = .error e) :
    RunsM (volView fs) (fs.ownChain c) () v (.error .ioError) () v := by
  have hrun := @readChain_runs fs v FatTable.new c
  rw [h] at hrun
  exact .within (.mapErr_error (g := fun _ => VfsError.ioError) hrun)

theorem readClusters_runs : ∀ {l : List Nat}, (∀ c ∈ l, fs.InRange c) →
    RunsM (volView fs) (Fat32Dir.readClusters fs l) () v (.ok (l.flatMap v.data)) () v
  | [], _ => .pure _
  | c :: l, h => by
    have ih := readClusters_runs fun c' hc' => h c' (mem_cons_of_mem c hc')
    refine .bind_ok (readCluster_runs (h c mem_cons_self)) ?_
    exact .bind_ok ih (.pure _)

section

variable {dir : Fat32Dir} (h : chainOf fs v dir.cluster = .ok l)
include h

theorem readAllClusterData_runs :
    RunsM (volView fs) (dir.readAllClusterData fs) () v (.ok (l.flatMap v.data)) () v :=
  RunsM.bind_ok (ownChain_runs h) (readClusters_runs (chainOf_inRange h))

theorem parseEntries_runs :
    RunsM (volView fs) (dir.parseEntriesWithOffsets fs) () v (.ok (entriesOf fs v l)) () v := by
  refine RunsM.of_presented fun d hp => RunsM.bind_ok (readAllClusterData_runs h) ?_
  rw [chunks_dirData (fun c hc => hp.data_length hc) (chainOf_inRange h)]
  exact RunsM.pure _

theorem findFreeEntrySlot_runs :
    RunsM (volView fs) (dir.findFreeEntrySlot fs) () v
      ((findFree ((slotsOf fs l).map v.slot)).elim (.error .noSpace) fun i => .ok (i * 32)) ()
      v := by
  refine RunsM.of_presented fun d hp => RunsM.bind_ok (readAllClusterData_runs h) ?_
  rw [chunks_dirData (fun c hc => hp.data_length hc) (chainOf_inRange h)]
  cases findFree ((slotsOf fs l).map v.slot) with
  | none => exact RunsM.throw _
  | some i => exact RunsM.pure _

end

theorem parseEntries_runs_error {dir : Fat32Dir} {e : FatError}
    (h : chainOf fs v dir.cluster = .error e) :
    RunsM (volView fs) (dir.parseEntriesWithOffsets fs) () v (.error .ioError) () v :=
  RunsM.bind_error (.bind_error (ownChain_runs_error h))

/-! ## Writing an entry -/

theorem cluster_of_slot (hi : (slotsOf fs l)[i]? = some s) :
    l[i * 32 / fs.boot.clusterSize]? = some s.1 ∧
    i * 32 % fs.boot.clusterSize = s.2 := by
  rw [offset_div, offset_mod]
  rw [slotsOf_getElem?] at hi
  obtain ⟨x, hx, rfl⟩ := Option.map_eq_some_iff.mp hi
  exact ⟨hx, rfl⟩

theorem slot_mem_chain (hi : (slotsOf fs l)[i]? = some s) : s.1 ∈ l :=
  (mem_slotsOf.mp (mem_of_getElem? hi)).1

section

variable {c : Nat} (h : Chain fs v c l) (hi : (slotsOf fs l)[i]? = some s)
include h hi

theorem putSlot_runs {bs : Bytes} (hbs : bs.length = 32) :
    RunsM (volView fs) (fs.writeCluster s.1 (splice (v.data s.1) s.2 bs)) () v (.ok ()) ()
      (v.putSlot s bs) := by
  have hmem := slot_mem_chain hi
  have hr := h.inRange hmem
  refine RunsM.of_presented fun d hp => writeCluster_runs hr ?_ (h.used hmem)
  have hlen := hp.data_length hr
  rw [splice_length, hlen]
  rw [hbs, hlen]
  exact slot_le (mem_of_getElem? hi)

theorem writeDirEntry_runs {dir : Fat32Dir} (hdir : dir.cluster = c) (e : DirEntry) :
    RunsM (volView fs) (dir.writeDirEntry fs (i * 32) e) () v (.ok ()) () (v.putSlot s e.toBytes) := by
  obtain ⟨hc, ho⟩ := cluster_of_slot hi
  unfold Fat32Dir.writeDirEntry
  refine .bind_ok (ownChain_runs (hdir ▸ chainOf_of_chain h)) ?_
  simp only [hc, ho]
  refine .bind_ok (readCluster_runs (h.inRange (slot_mem_chain hi))) ?_
  exact putSlot_runs h hi e.toBytes_length

/-- The entry that `update_dir_entry` writes. -/
def DirEntry.relocate (e : DirEntry) (newCluster newSize : Nat) : DirEntry :=
  { e.setCluster newCluster with fileSize := .ofNat newSize }

theorem updateDirEntry_runs {f : Fat32File} (hdir : f.parentCluster = c)
    (hoff : f.entryOffset = i * 32) {e : DirEntry} (he : v.slot s = e.toBytes)
    (newCluster newSize : Nat) :
    RunsM (volView fs) (f.updateDirEntry fs newCluster newSize) () v (.ok ()) ()
      (v.putSlot s (e.relocate newCluster newSize).toBytes) := by
  obtain ⟨hc, ho⟩ := cluster_of_slot hi
  have hdrop : (v.data s.1).drop s.2 = e.toBytes ++ (v.data s.1).drop (s.2 + 32) := by
    have hcat := take_append_drop 32 ((v.data s.1).drop s.2)
    rw [drop_drop] at hcat
    rw [← he]
    exact hcat.symm
  unfold Fat32File.updateDirEntry
  refine .bind_ok (ownChain_runs (hdir ▸ chainOf_of_chain h)) ?_
  simp only [hoff, hc, ho]
  refine .bind_ok (readCluster_runs (h.inRange (slot_mem_chain hi))) ?_
  rw [hdrop, DirEntry.fromBytes_toBytes]
  exact putSlot_runs h hi (DirEntry.toBytes_length _)

end

end Kerners.Fat32
