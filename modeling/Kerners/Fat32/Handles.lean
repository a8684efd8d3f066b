import Kerners.Fat32.ByteFile
import Kerners.Fat32.Places
import Kerners.Lib.Machine

/-!
# Two handles on one FAT32 file (`src/fs/fat32/mod.rs`)

Every `lookup` makes a `Fat32File` of its own, with its own copy of the start cluster and of the
size. A call goes by that copy alone, and `update_dir_entry` stores it in the directory. Two handles
on one file share the disk and nothing else.

A handle is `UpToDate` when its copy is what the directory entry says.
-/

namespace Kerners.Fat32

open Lib Kerners.Block

/-! ## The state and its steps -/

structure Shared where
  handle : Bool → FileState
  disk : Disk
  data : Bytes

def Fat32File.entryOn (fs : Fat32FileSystem) (f : Fat32File) (d : Disk) : Option DirEntry :=
  (((fs.readings d).slots f.parentCluster)[f.entryOffset / 32]?).bind DirEntry.fromBytes

namespace Shared

variable (fs : Fat32FileSystem) (f : Fat32File) (x : Shared) (b : Bool) (c : FileCmd)

/-- The copy of the handle `b` is what the directory entry says. -/
def UpToDate : Prop :=
  (f.entryOn fs x.disk).map (fun e => (⟨e.cluster, e.fileSize.toNat⟩ : FileState)) =
    some (x.handle b)

/-- The call `c` through the handle `b`. -/
def call : Except (Fault VfsError) FileResult × FileState × Disk :=
  c.onFat32 fs f (x.handle b) x.disk

/-- The state after the call; a call that fails should leave the byte file alone. -/
def after : Shared where
  handle := Function.update x.handle b (x.call fs f b c).2.1
  disk := (x.call fs f b c).2.2
  data := match (x.call fs f b c).1 with
    | .ok _ => (c.onRam x.data).2
    | .error _ => x.data

/-- The call goes through a handle that is up to date, and leaves no gap. -/
def Current : Prop := x.UpToDate fs f b ∧ c.NoGap (x.handle b).size

/-- The call acts on the byte file, or fails for want of space or of a device, and no free cluster
is written. -/
def ActsOnFile : Prop :=
  (failed (x.call fs f b c).1 ∨ (x.call fs f b c).1 = .ok (c.onRam x.data).1) ∧
    c.WritesUsed fs f (x.handle b) x.disk

/-- A call through one of the handles that meets `ok`. -/
inductive Step (ok : Shared → Bool → FileCmd → Prop) : Shared → Shared → Prop
  | call {x : Shared} {b : Bool} {c : FileCmd} (hv : c.Valid) (h : ok x b c) :
    Step ok x (x.after fs f b c)

end Shared

/-! ## One call -/

/-- The clusters `l` of the chain from `start` are owned. -/
structure ChainIn (fs : Fat32FileSystem) (o : Own) (start : Nat) (l : List Nat) : Prop where
  chain : 2 ≤ start → Chain fs o.vol start l
  empty : start < 2 → l = []
  cells : ∀ x ∈ l, o.cells x

open List

section

variable {fs : Fat32FileSystem} {f : Fat32File} {s : FileState} {d : Disk} {data : Bytes} {o : Own}
  {l : List Nat} {x : Shared} {b : Bool} {c : FileCmd}

theorem entryOn_eq {shared : Prop} (hdir : f.parentCluster = o.dir)
    (hslot :
      ∃ i sl, f.entryOffset = i * 32 ∧ (slotsOf fs o.dirChain)[i]? = some sl ∧ o.slot = some sl)
    (hc : (localProtocol fs shared).Compat o d) : f.entryOn fs d = some o.entry := by
  obtain ⟨i, sl, hoff, hi, hslot⟩ := hslot
  have hbytes := (hc.2.slot sl hslot).2.1
  have hdec := o.entry.fromBytes_toBytes []
  rw [append_nil] at hdec
  unfold Fat32File.entryOn
  rw [readings_eq hc.1]
  change ((slotsAt fs (fs.volOf d) f.parentCluster)[f.entryOffset / 32]?).bind _ = _
  rw [slotsAt, hdir, listAt_of_chain hc.2.dir, hoff,
    Nat.mul_div_cancel i (by decide : 0 < 32), getElem?_map, hi, Option.map_some, hbytes,
    Option.bind_some, hdec]

theorem Represents.entryOn (h : Represents fs f s d data o l) : f.entryOn fs d = some o.entry :=
  entryOn_eq h.place.dir h.place.slot h.compat

theorem FileIn.chainIn {start : Nat} (h : FileIn fs o start l) : ChainIn fs o start l :=
  ⟨h.chain, h.empty, fun x hx => (h.cells x).2 hx⟩

theorem Represents.handle_eq (h : Represents fs f s x.disk data o l) (hb : x.UpToDate fs f b) :
    x.handle b = s := by
  unfold Shared.UpToDate at hb
  rw [h.entryOn, Option.map_some, h.entry.1, h.entry.2] at hb
  exact (Option.some.inj hb).symm

variable (hs : SmallVolume fs)
include hs

theorem ChainIn.read {shared : Prop} {start : Nat} (h : ChainIn fs o start l)
    (hc : (localProtocol fs shared).Compat o d) : (fs.readings d).chain start = .ok l := by
  rw [readings_eq hc.1]
  change chainOf fs (fs.volOf d) start = _
  by_cases h2 : 2 ≤ start
  · have hl := h.chain h2
    refine chainOf_of_chain (hl.congr fun x hx => ?_)
    rw [hs.fatIndex_eq (hl.inRange hx)]
    exact hc.2.fat x (h.cells x hx)
  · rw [h.empty (Nat.not_le.1 h2)]
    exact chainOf_small (Nat.not_le.1 h2)

theorem Represents.call (h : Represents fs f s x.disk x.data o l) (hv : c.Valid)
    (hcur : x.Current fs f b c) : x.ActsOnFile fs f b c ∧
      ∃ s' o' l', Represents fs f s' (x.after fs f b c).disk (x.after fs f b c).data o' l' := by
  obtain ⟨hup, hgap⟩ := hcur
  obtain rfl := h.handle_eq hup
  rw [h.size] at hgap
  obtain ⟨hall, ⟨hfail, o', h'⟩ | ⟨hres, o', l', h'⟩⟩ := h.step hs hv hgap
  · refine ⟨⟨.inl hfail, hall⟩, x.handle b, o', l, ?_⟩
    have hdata : (x.after fs f b c).data = x.data := by
      unfold Shared.after Shared.call
      rcases hfail with he | he <;> simp only [he]
    rw [hdata]
    exact h'
  · refine ⟨⟨.inr hres, hall⟩, (x.call fs f b c).2.1, o', l', ?_⟩
    have hdata : (x.after fs f b c).data = (c.onRam x.data).2 := by
      unfold Shared.after Shared.call
      simp only [hres]
    rw [hdata]
    exact h'

end

/-! ## Two lookups -/

section

variable {fs : Fat32FileSystem} {dir : Fat32Dir} {name : Str} {d d' d1 d2 : Disk}
  {f f1 f2 : Fat32File} {s s1 s2 : FileState} {w : Owner}

/-- `lookup(name)` in the directory `dir` of the disk `d` returned the file `f`, with the state `s`,
and left the disk `d'`. -/
def LookedUp (fs : Fat32FileSystem) (dir : Fat32Dir) (name : Str) (d : Disk) (f : Fat32File)
    (s : FileState) (d' : Disk) : Prop :=
  ((dir.lookup fs name : OpM Unit VNode) ()).run Disk.handle d = ((.ok (.file f s), ()), d')

theorem LookedUp.entries (h : LookedUp fs dir name d f s d') (hc : Consistent fs d) :
    Consistent fs d' ∧
    fs.volOf d' = fs.volOf d ∧
    ∃ l e, chainOf fs (fs.volOf d) dir.cluster = .ok l ∧
      Fat32Dir.findEntry (entriesOf fs (fs.volOf d) l) name = some e ∧
      dir.vnodeOf e = .file f s := by
  have hp := presents_volOf hc
  cases hl : chainOf fs (fs.volOf d) dir.cluster with
  | error e =>
    have hres := runsM_eq (lookup_runs_error (σ := Unit) (t := ()) hl name) hp
    rw [show ((dir.lookup fs name : OpM Unit VNode) ()).run Disk.handle d = _ from h] at hres
    exact absurd hres (by simp)
  | ok l =>
    obtain ⟨d1, heq, hp', -⟩ := lookup_runs (σ := Unit) (t := ()) hl name d hp
    have hres := heq.symm.trans h
    obtain rfl : d1 = d' := congrArg Prod.snd hres
    refine ⟨hp'.consistent, hp'.eq_volOf.symm, l, ?_⟩
    have hnode : lookupIn dir (entriesOf fs (fs.volOf d) l) name = .ok (.file f s) :=
      congrArg (fun q => q.1.1) hres
    unfold lookupIn at hnode
    cases hfind : Fat32Dir.findEntry (entriesOf fs (fs.volOf d) l) name with
    | none =>
      rw [hfind] at hnode
      cases hnode
    | some e =>
      rw [hfind] at hnode
      exact ⟨e, rfl, rfl, Except.ok.inj hnode⟩

theorem LookedUp.again (h1 : LookedUp fs dir name d f1 s1 d1) (hc : Consistent fs d)
    (h2 : LookedUp fs dir name d1 f2 s2 d2) : f2 = f1 ∧ s2 = s1 := by
  obtain ⟨hc1, hv1, l, e, hl, he, hn⟩ := h1.entries hc
  obtain ⟨-, -, l', e', hl', he', hn'⟩ := h2.entries hc1
  rw [hv1] at hl' he'
  obtain rfl : l = l' := Except.ok.inj (hl.symm.trans hl')
  obtain rfl : e = e' := Option.some.inj (he.symm.trans he')
  have hsame := hn'.symm.trans hn
  simpa using hsame

theorem LookedUp.fileOn (h : LookedUp fs dir name d f s d') (hc : Consistent fs d)
    (hdir : Dirs fs (fs.readings d) w dir.cluster) :
    FileOn fs (readingsOf fs (fs.volOf d)) f s := by
  rw [readings_eq hc] at hdir
  obtain ⟨-, -, l, e, hl, hfind, hnode⟩ := h.entries hc
  refine ⟨w, dir, e, hdir, ?_, hnode⟩
  change e ∈ parseSlots [] 0 (slotsAt fs (fs.volOf d) dir.cluster)
  rw [slotsAt, listAt_ok hl]
  exact mem_of_find?_eq_some hfind

theorem FileOn.represents (hs : SmallVolume fs) (hc : Consistent fs d) (hwf : fs.WellFormed d)
    (hf : FileOn fs (fs.readings d) f s) (hstart : s.startCluster < fatEocMin) :
    ∃ data l, data.length = s.size ∧ Represents fs f s d data (fileOwn fs (fs.volOf d) f s) l := by
  have hok := (wellFormed_iff hc).mp hwf
  rw [readings_eq hc] at hf
  have hfull : FullClusters fs (fs.volOf d) := fun c hr => (presents_volOf hc).data_length hr
  obtain ⟨hat, hcl, hin, hsize⟩ := fileOwn_start hok hfull hf
  have hstate : s.size = (f.entryIn fs (fs.volOf d)).fileSize.toNat :=
    congrArg FileState.size (hok.fileOn hf).state
  have hlens : ∀ x ∈ listAt fs (fs.volOf d) s.startCluster,
      ((fs.volOf d).data x).length = fs.boot.clusterSize := hin.lengths
  have hlen : (((fs.volOf d).content (listAt fs (fs.volOf d) s.startCluster)).take s.size).length =
      s.size := by
    rw [length_take, Vol.content_length hlens]
    exact Nat.min_eq_left hsize
  exact ⟨_, _, hlen, ⟨hc, fileOwn_holds hs hok hf⟩, hat, hin, ⟨hcl.symm, hstate.symm⟩, hstart,
    hlen.symm, hlen.trans_le hsize, by rw [hlen]; rfl⟩

theorem LookedUp.represents (hs : SmallVolume fs) (h : LookedUp fs dir name d f s d')
    (hc : Consistent fs d) (hwf : fs.WellFormed d) (hdir : Dirs fs (fs.readings d) w dir.cluster)
    (hstart : s.startCluster < fatEocMin) :
    ∃ data o l, data.length = s.size ∧ Represents fs f s d' data o l := by
  obtain ⟨hc', hv, -⟩ := h.entries hc
  have hf := h.fileOn hc hdir
  rw [← readings_eq hc] at hf
  obtain ⟨data, l, hlen, hrep⟩ := hf.represents hs hc hwf hstart
  exact ⟨data, _, l, hlen, { hrep with compat := ⟨hc', hv ▸ hrep.compat.2⟩ }⟩

theorem LookedUp.readings (h : LookedUp fs dir name d f s d') (hc : Consistent fs d) :
    Consistent fs d' ∧ fs.readings d' = fs.readings d := by
  obtain ⟨hc', hv, -⟩ := h.entries hc
  exact ⟨hc', readings_congr hc hc' hv⟩

end

/-! ## A volume with one empty file -/

/-- A root directory with the empty file `A`. -/
def fileRoot : Bytes := (DirEntry.newFile ['A'] 0 0).toBytes ++ List.replicate 480 0

/-- The file system of `smallFs` with the empty file `A`. -/
def fileDisk : Disk := smallDisk fileRoot
  (by rw [fileRoot, List.length_append, DirEntry.toBytes_length, List.length_replicate]) 0xAA

theorem fileDisk_entries : (smallFs.readings fileDisk).entries 2 =
    [⟨['A'], DirEntry.newFile ['A'] 0 0, 0⟩] := by decide +kernel

theorem fileDisk_emptyFiles : EmptyFiles smallFs fileDisk := by
  intro e he
  change e ∈ (smallFs.readings fileDisk).entries 2 at he
  rw [fileDisk_entries] at he
  rw [mem_singleton.1 he]
  decide

theorem fileDisk_wellFormed : smallFs.WellFormed fileDisk :=
  fileDisk_emptyFiles.wellFormed smallDisk_consistent
    (.step (smallFs_small.cell (by decide)) (.done (by decide +kernel)))
    (by decide +kernel :
      List.Pairwise (fun a b : Bytes => a.getD 0 0 = 0x00 → b.getD 0 0 = 0x00)
        ((slotsOf smallFs [2]).map (smallFs.volOf fileDisk).slot))

/-! ## A volume with a file of two clusters -/

/-- A FAT in which the cluster 3 is followed by the cluster 4. -/
def chainFat : Bytes :=
  [0xF8, 0xFF, 0xFF, 0x0F, 0xFF, 0xFF, 0xFF, 0x0F, 0xFF, 0xFF, 0xFF, 0x0F, 4, 0, 0, 0,
    0xFF, 0xFF, 0xFF, 0x0F] ++ List.replicate 492 0

/-- The file system of `smallFs` with the file `A` of 600 bytes, in the clusters 3 and 4. Each cluster
is filled with its number. -/
def chainDisk : Disk := volumeDisk chainFat
  ((DirEntry.newFile ['A'] 3 600).toBytes ++ List.replicate 480 0)
  (by simp only [chainFat, length_append, length_replicate, length_cons, length_nil])
  (by rw [length_append, DirEntry.toBytes_length, length_replicate]) UInt8.ofNat

theorem chainDisk_consistent : Consistent smallFs chainDisk := volumeDisk_consistent

theorem chainDisk_entries : (smallFs.readings chainDisk).entries 2 =
    [⟨['A'], DirEntry.newFile ['A'] 3 600, 0⟩] := by decide +kernel

theorem chainDisk_fileOn :
    FileOn smallFs (smallFs.readings chainDisk) ⟨['A'], 2, 0⟩ ⟨3, 600⟩ := by
  refine ⟨.root, ⟨2, []⟩, ⟨['A'], DirEntry.newFile ['A'] 3 600, 0⟩, .root, ?_, by decide⟩
  rw [chainDisk_entries]
  exact mem_singleton_self _

theorem chainDisk_chain : Chain smallFs (smallFs.volOf chainDisk) 3 [3, 4] := by
  refine .step (smallFs_small.cell (by decide)) ?_
  have hnext : (smallFs.volOf chainDisk).fat (fatIndex 3) = 4 := by decide +kernel
  rw [hnext]
  exact .step (smallFs_small.cell (by decide)) (.done (by decide +kernel))

theorem chainDisk_wellFormed : smallFs.WellFormed chainDisk := by
  have hall : ∀ e ∈ (smallFs.readings chainDisk).entries smallFs.root,
      e = ⟨['A'], DirEntry.newFile ['A'] 3 600, 0⟩ := by
    intro e he
    change e ∈ (smallFs.readings chainDisk).entries 2 at he
    rw [chainDisk_entries] at he
    exact mem_singleton.1 he
  refine FlatFiles.wellFormed (l := [2]) ⟨?_, fun e he => ?_, fun e he _ => ?_,
    fun e he e' he' hne => ?_, fun e he => ?_, ?_⟩ chainDisk_consistent
  · exact .step (smallFs_small.cell (by decide)) (.done (by decide +kernel))
  · rw [hall e he]
    decide
  · rw [hall e he]
    exact ⟨[3, 4], chainDisk_chain, by simp [List.Disjoint]⟩
  · rw [hall e he, hall e' he'] at hne
    exact absurd rfl hne
  · rw [hall e he]
    change 600 ≤ (listAt smallFs (smallFs.volOf chainDisk) 3).length * 512
    rw [listAt_of_chain chainDisk_chain]
    decide
  · exact (by decide +kernel :
      List.Pairwise (fun a b : Bytes => a.getD 0 0 = 0x00 → b.getD 0 0 = 0x00)
        ((slotsOf smallFs [2]).map (smallFs.volOf chainDisk).slot))

end Kerners.Fat32
