import Kerners.Fat32.Directory
import Kerners.Fat32.Files

/-!
# FAT32 files and RamFs files as byte files (`src/fs/fat32/mod.rs`, `src/fs/ramfs/mod.rs`)

`RamFsFile` keeps the bytes of a file in a vector; `Fat32File` keeps them in the clusters of a chain,
whose number is the size rounded up. A sequence of `write`, `truncate` and `read` calls is run on
both from a new file, and the results are compared.

* A `Fat32File` call is the program of `VNode`, run on a disk. The vnode keeps its start cluster and
  size between the calls, also when a call fails.
* Clusters come from `alloc_cluster` with the bytes they had before: nothing writes zeros between an
  old end of file and a later write, or into the new part of an enlarged file.
-/

namespace Kerners.Fat32

open Lib Kerners.Block List

/-! ## `read` -/

section

variable {fs : Fat32FileSystem} {shared : Prop} {o : Own} {l : List Nat}

theorem slice_append {a b : Bytes} {offset n : Nat} (h : offset ≤ a.length) :
    slice (a ++ b) offset n =
      (a.drop offset).take (min (a.length - offset) n) ++
        slice b 0 (n - min (a.length - offset) n) := by
  have hlen : (a.drop offset).length = a.length - offset := length_drop ..
  unfold slice
  rw [drop_append_of_le_length h, take_append, hlen, drop_zero]
  rcases Nat.le_total (a.length - offset) n with hle | hle
  · rw [Nat.min_eq_left hle, take_of_length_le (i := n) (by omega),
      take_of_length_le (l := a.drop offset) (by omega)]
  · rw [Nat.min_eq_right hle, Nat.sub_eq_zero_of_le hle, Nat.sub_self]

theorem readLoop_safe : ∀ {cs : List Nat} {offset want : Nat}, (∀ c ∈ cs, o.cells c) →
    (∀ c ∈ cs, (o.vol.data c).length = fs.boot.clusterSize) → offset ≤ fs.boot.clusterSize →
    offset + want ≤ cs.length * fs.boot.clusterSize →
    (localProtocol fs shared).SafeM (Fat32File.readLoop fs cs offset want) () o fun r _ o' =>
      r = .ok (slice (o.vol.content cs) offset want) ∧ o' = o
  | [], offset, want, _, _, _, hle => by
    obtain rfl : want = 0 := by
      rw [length_nil, Nat.zero_mul] at hle
      omega
    exact .pure ⟨by simp [slice], rfl⟩
  | c :: cs, offset, want, hcells, hlen, hoff, hle => by
    have hclen := hlen c mem_cons_self
    unfold Fat32File.readLoop
    by_cases hw : want = 0
    · subst hw
      rw [if_pos rfl]
      exact .pure ⟨by simp [slice], rfl⟩
    rw [if_neg hw]
    refine .bind (readCluster_safe (hcells c mem_cons_self) ?_)
    have ih := @readLoop_safe cs 0 (want - min (fs.boot.clusterSize - offset) want)
      (fun x hx => hcells x (mem_cons_of_mem c hx))
      (fun x hx => hlen x (mem_cons_of_mem c hx)) (Nat.zero_le _) (by
        rw [length_cons, Nat.succ_mul] at hle
        omega)
    refine .bind_of ih ?_ (fun e t' o' h => by cases h.1)
    rintro rest t' o' ⟨hrest, rfl⟩
    cases hrest
    refine .pure ⟨?_, rfl⟩
    congr 1
    have hcont : o'.vol.content (c :: cs) = o'.vol.data c ++ o'.vol.content cs := rfl
    rw [hcont, slice_append (by omega), hclen]

theorem content_drop {v : Vol} (hlen : ∀ x ∈ l, (v.data x).length = fs.boot.clusterSize) (k : Nat)
    (hk : k ≤ l.length) : v.content (l.drop k) = (v.content l).drop (k * fs.boot.clusterSize) := by
  have hfront : (v.content (l.take k)).length = k * fs.boot.clusterSize := by
    rw [Vol.content_length fun x hx => hlen x (mem_of_mem_take hx), length_take,
      Nat.min_eq_left hk]
  have hcat : v.content l = v.content (l.take k) ++ v.content (l.drop k) := by
    rw [← Vol.content_append, take_append_drop]
  rw [hcat, drop_left' hfront]

variable (hs : SmallVolume fs)
include hs

theorem read_safe {s : FileState} {data : Bytes} (hf : FileIn fs o s.startCluster l)
    (hsize : s.size = data.length) (hfit : data.length ≤ l.length * fs.boot.clusterSize)
    (hdata : (o.vol.content l).take data.length = data) (offset len : Nat) :
    (localProtocol fs shared).SafeM (Fat32File.read fs s offset len) () o fun r _ o' =>
      r = .ok (RamFsFile.read data offset len) ∧ o' = o := by
  have hpos := clusterSize_pos fs
  unfold Fat32File.read RamFsFile.read
  rw [hsize]
  by_cases hoff : offset ≥ data.length
  · rw [if_pos hoff, if_pos hoff]
    exact .pure ⟨rfl, rfl⟩
  rw [if_neg hoff, if_neg hoff]
  have hstart : ¬ s.startCluster < 2 := fun h => by
    rw [hf.empty h, length_nil, Nat.zero_mul] at hfit
    omega
  rw [if_neg hstart]
  have hsub : ∀ x ∈ l, o.cells x := fun x hx => (hf.cells x).mpr hx
  refine .bind (.within (.mapErr
    (readChain_safe hs (hf.chain (by omega)) hsub ?_)))
  have hdm := Nat.div_add_mod offset fs.boot.clusterSize
  rw [Nat.mul_comm] at hdm
  have hk : offset / fs.boot.clusterSize ≤ l.length := by
    rw [Nat.div_le_iff_le_mul_add_pred hpos]
    rw [Nat.mul_comm]
    omega
  have hloop := @readLoop_safe fs shared o (l.drop (offset / fs.boot.clusterSize))
    (offset % fs.boot.clusterSize) (min len (data.length - offset))
    (fun x hx => hsub x (mem_of_mem_drop hx))
    (fun x hx => hf.lengths x (mem_of_mem_drop hx)) (Nat.le_of_lt (Nat.mod_lt _ hpos)) (by
      rw [length_drop, Nat.sub_mul]
      omega)
  refine hloop.mono ?_
  rintro r _ o' ⟨rfl, rfl⟩
  refine ⟨?_, rfl⟩
  congr 1
  rw [content_drop hf.lengths _ hk]
  have hcut : ((o'.vol.content l).drop offset).take (min len (data.length - offset)) =
      (((o'.vol.content l).take data.length).drop offset).take (min len (data.length - offset)) := by
    rw [drop_take, take_take, Nat.min_eq_left (Nat.min_le_right ..)]
  unfold slice
  rw [drop_drop, hdm, hcut, hdata]

end

/-! ## Sequences of calls -/

inductive FileCmd where
  | write (offset : Nat) (buf : Bytes)
  | truncate (size : Nat)
  | read (offset len : Nat)
  deriving DecidableEq

structure FileResult where
  bytes : Bytes
  count : Nat
  size : Nat
  deriving DecidableEq

namespace FileCmd

/-- The calls in question: a write stores something, and offsets and sizes have 32 bits. -/
def Valid : FileCmd → Prop
  | .write offset buf => buf ≠ [] ∧ offset + buf.length < 2 ^ 32
  | .truncate size => size < 2 ^ 32
  | .read offset _ => offset < 2 ^ 32

/-- The call does not reach beyond the end of a file of this size without writing all of it. -/
def NoGap (size : Nat) : FileCmd → Prop
  | .write offset _ => offset ≤ size
  | .truncate newSize => newSize ≤ size
  | .read _ _ => True

/-- The call on a `RamFsFile`. -/
def onRam (data : Bytes) : FileCmd → FileResult × Bytes
  | .write offset buf =>
    let data := RamFsFile.write data offset buf
    (⟨[], buf.length, data.length⟩, data)
  | .truncate size =>
    let data := RamFsFile.truncate data size
    (⟨[], 0, data.length⟩, data)
  | .read offset len =>
    let bytes := RamFsFile.read data offset len
    (⟨bytes, bytes.length, data.length⟩, data)

/-- The call on a `Fat32File` of the disk `d`. -/
def onFat32 (fs : Fat32FileSystem) (f : Fat32File) (s : FileState) (d : Disk) :
    FileCmd → Except (Fault VfsError) FileResult × FileState × Disk
  | .write offset buf =>
    let r := (f.write fs offset buf ⟨.new, s.startCluster, s.size⟩).run Disk.handle d
    (r.1.1.map fun n => ⟨[], n, r.1.2.size⟩, ⟨r.1.2.startCluster, r.1.2.size⟩, r.2)
  | .truncate size =>
    let r := (f.truncate fs size ⟨.new, s.startCluster, s.size⟩).run Disk.handle d
    (r.1.1.map fun _ => ⟨[], 0, r.1.2.size⟩, ⟨r.1.2.startCluster, r.1.2.size⟩, r.2)
  | .read offset len =>
    let r := (Fat32File.read fs s offset len ()).run Disk.handle d
    (r.1.1.map fun bytes => ⟨bytes, bytes.length, s.size⟩, s, r.2)

def WritesUsed (fs : Fat32FileSystem) (f : Fat32File) (s : FileState) (d : Disk) : FileCmd → Prop
  | .write offset buf =>
    (f.write fs offset buf ⟨.new, s.startCluster, s.size⟩).Allowed Disk.handle (WriteOk fs) d
  | .truncate size =>
    (f.truncate fs size ⟨.new, s.startCluster, s.size⟩).Allowed Disk.handle (WriteOk fs) d
  | .read offset len => (Fat32File.read fs s offset len ()).Allowed Disk.handle (WriteOk fs) d

end FileCmd

/-- A sequence of calls on a `RamFsFile`. -/
def ramRun (data : Bytes) : List FileCmd → List FileResult
  | [] => []
  | c :: cs => (c.onRam data).1 :: ramRun (c.onRam data).2 cs

/-- A sequence of calls on a `Fat32File`. -/
def fatRun (fs : Fat32FileSystem) (f : Fat32File) (s : FileState) (d : Disk) :
    List FileCmd → List (Except (Fault VfsError) FileResult)
  | [] => []
  | c :: cs =>
    let r := c.onFat32 fs f s d
    r.1 :: fatRun fs f r.2.1 r.2.2 cs

def NoGaps (data : Bytes) : List FileCmd → Prop
  | [] => True
  | c :: cs => c.NoGap data.length ∧ NoGaps (c.onRam data).2 cs

def failed (r : Except (Fault VfsError) FileResult) : Prop :=
  r = .error (.err .noSpace) ∨ r = .error (.err .ioError)

/-! ## One call -/

/-- **The file on the disk has the contents `data`.** -/
structure Represents (fs : Fat32FileSystem) (f : Fat32File) (s : FileState) (d : Disk)
    (data : Bytes) (o : Own) (l : List Nat) : Prop where
  compat : (localProtocol fs False).Compat o d
  place : AtSlot fs f o
  file : FileIn fs o s.startCluster l
  entry : o.entry.cluster = s.startCluster ∧ o.entry.fileSize.toNat = s.size
  start_lt : s.startCluster < fatEocMin
  size : s.size = data.length
  fits : data.length ≤ l.length * fs.boot.clusterSize
  bytes : (o.vol.content l).take data.length = data

open FileCmd

section

variable {fs : Fat32FileSystem} {f : Fat32File} {s : FileState} {d : Disk} {data : Bytes} {o : Own}
  {l : List Nat} {α σ : Type}

theorem safeM_run {m : OpM σ α} {t : σ} {Q : Except (Fault VfsError) α → σ → Own → Prop}
    (h : (localProtocol fs False).SafeM m t o Q) (hc : (localProtocol fs False).Compat o d) :
    ((m t).Allowed Disk.handle (Allows fs) d) ∧
    ∃ o' evs, Q ((m t).run Disk.handle d).1.1 ((m t).run Disk.handle d).1.2 o' ∧
      Keeps fs o o' evs (fs.volOf d) (fs.volOf ((m t).run Disk.handle d).2) ∧
      (localProtocol fs False).Compat o' ((m t).run Disk.handle d).2 := by
  obtain ⟨hall, o', evs, hq, hg, hc'⟩ :=
    Protocol.Safe.run localProtocol_preorder (fun _ _ h => h.elim) h hc
  exact ⟨hall, o', evs, hq, hg, hc'⟩

theorem DirEntry.relocate_state (e : DirEntry) {c n : Nat} (hc : c < 2 ^ 32) (hn : n < 2 ^ 32) :
    (e.relocate c n).cluster = c ∧ (e.relocate c n).fileSize.toNat = n :=
  ⟨DirEntry.cluster_setCluster e hc, UInt32.toNat_ofNat_of_lt' hn⟩

/-- Own no more than the clusters `l`. -/
def Own.only (o : Own) (l : List Nat) : Own := { o with cells := fun x => x ∈ l }

theorem Keeps.only {o' : Own} {evs : List Nat} {v v' : Vol} (hk : Keeps fs o o' evs v v')
    (h : ∀ x ∈ l, o'.cells x) : Keeps fs o (o'.only l) evs v v' :=
  { hk with
    fresh := fun x hx => hk.fresh x (h x hx)
    gained := fun x hx => hk.gained x (h x hx) }

theorem AtSlot.keeps {o' : Own} {evs : List Nat} {v v' : Vol} (h : AtSlot fs f o)
    (hk : Keeps fs o o' evs v v') : AtSlot fs f o' := by
  obtain ⟨i, s, h1, h2, h3⟩ := h.slot
  exact ⟨h.dir.trans hk.dir.symm, hk.avoid.trans h.avoid, i, s, h1, by rwa [hk.dirChain],
    hk.slot.trans h3⟩

theorem FileIn.start_lt {start : Nat} (h : FileIn fs o start l)
    (hne : l ≠ []) : start < fatEocMin := by
  by_cases hstart : 2 ≤ start
  · cases h.chain hstart with
    | done _ => exact absurd rfl hne
    | step hc _ => exact Nat.lt_of_lt_of_le hc.2 (by decide)
  · exact absurd (h.empty (by omega)) hne

theorem ne_nil_of_lt {n : Nat} (hpos : 0 < n) (h : n ≤ l.length * fs.boot.clusterSize) :
    l ≠ [] := by
  rintro rfl
  rw [length_nil, Nat.zero_mul] at h
  omega

theorem take_splice_append {bytes junk buf : Bytes} {offset n : Nat} (hoff : offset ≤ n)
    (hn : n ≤ bytes.length) :
    (splice (bytes ++ junk) offset buf).take (max n (offset + buf.length)) =
      splice (bytes.take n) offset buf := by
  have h1 : (bytes ++ junk).take offset = bytes.take offset :=
    take_append_of_le_length (by omega)
  have h2 : (bytes.take n).take offset = bytes.take offset := by
    rw [take_take, Nat.min_eq_left hoff]
  have hlen : (bytes.take offset ++ buf).length = offset + buf.length := by
    rw [length_append, length_take]
    omega
  unfold splice
  rw [h1, h2, take_append, hlen,
    take_of_length_le (l := bytes.take offset ++ buf) (by omega)]
  congr 1
  rcases Nat.le_total n (offset + buf.length) with h | h
  · rw [Nat.max_eq_right h, Nat.sub_self, take_zero,
      drop_of_length_le (by rw [length_take]; omega)]
  · rw [Nat.max_eq_left h, drop_append_of_le_length (by omega),
      take_append_of_le_length (by rw [length_drop]; omega), drop_take]

variable (hs : SmallVolume fs)
include hs

theorem Represents.untouched (h : Represents fs f s d data o l) {o' : Own} {d' : Disk}
    (hext : Extends o o') (hc : (localProtocol fs False).Compat o' d') :
    Represents fs f s d' data (o'.only l) l := by
  have hin : ∀ x ∈ l, o.cells x := fun x hx => (h.file.cells x).mpr hx
  have hin' : ∀ x ∈ l, o'.cells x := fun x hx => hext.cells x (hin x hx)
  have hdata : ∀ x ∈ l, o'.vol.data x = o.vol.data x := fun x hx => hext.data x (hin x hx)
  have hold := hc.2
  refine ⟨⟨hc.1, ?_⟩, ?_, ?_, ?_, h.start_lt, h.size, h.fits, ?_⟩
  · exact ⟨hold.dir, fun x hx => hold.cells x (hin' x hx), fun x hx => hold.fat x (hin' x hx),
      fun x hx => hold.copies x (hin' x hx),
      fun x hx => hold.data x (hin' x hx), hold.slot, hold.avoid, fun hsh => hsh.elim⟩
  · exact h.place.same ⟨hext.dir, hext.dirChain, hext.slot, hext.avoid, hext.entry⟩
  · refine ⟨fun hstart => (h.file.chain hstart).congr fun x hx => ?_, h.file.empty, fun _ => Iff.rfl,
      fun x hx => (congrArg List.length (hdata x hx)).trans (h.file.lengths x hx)⟩
    rw [hs.fatIndex_eq ((h.file.chain hstart).inRange hx)]
    exact hext.fat x (hin x hx)
  · exact ⟨(congrArg DirEntry.cluster hext.entry).trans h.entry.1,
      (congrArg (fun e : DirEntry => e.fileSize.toNat) hext.entry).trans h.entry.2⟩
  · exact (congrArg (List.take _) (Vol.content_congr hdata)).trans h.bytes

theorem Represents.write (h : Represents fs f s d data o l) {offset : Nat} {buf : Bytes}
    (hv : (write offset buf).Valid) (hgap : offset ≤ data.length) :
    let r := (write offset buf).onFat32 fs f s d
    (write offset buf).WritesUsed fs f s d ∧
    (failed r.1 ∧ (∃ o' evs, Keeps fs o o' evs (fs.volOf d) (fs.volOf r.2.2) ∧
        Represents fs f s r.2.2 data o' l) ∨
      r.1 = .ok ((write offset buf).onRam data).1 ∧
      ∃ o' l' evs, Keeps fs o o' evs (fs.volOf d) (fs.volOf r.2.2) ∧
        Represents fs f r.2.1 r.2.2 ((write offset buf).onRam data).2 o' l') := by
  intro r
  obtain ⟨hbuf, hend⟩ := hv
  have hpos := length_pos_iff.2 hbuf
  obtain ⟨hall, o', evs, hdone, hkeep, hcompat⟩ := safeM_run
    (write_safe (t := ⟨.new, s.startCluster, s.size⟩) hs (hintOk_new fs) h.file h.place hbuf hend)
    h.compat
  have hclen := Vol.content_length h.file.lengths
  generalize hrun : (f.write fs offset buf ⟨.new, s.startCluster, s.size⟩).run Disk.handle d = q
    at hdone hkeep hcompat
  obtain ⟨⟨res, t'⟩, d'⟩ := q
  have hr : r = (res.map fun n => ⟨[], n, t'.size⟩, ⟨t'.startCluster, t'.size⟩, d') := by
    change onFat32 .. = _
    unfold onFat32
    simp only [hrun]
  rw [hr]
  refine ⟨hall.mono fun _ _ h => h.1, ?_⟩
  cases res with
  | error e =>
    obtain ⟨hext, he | ⟨_, he⟩⟩ := hdone
    · have hin : ∀ x ∈ l, o'.cells x := fun x hx => hext.cells x ((h.file.cells x).mpr hx)
      exact .inl ⟨.inl (by rw [he]; rfl), _, evs, hkeep.only hin, h.untouched hs hext hcompat⟩
    · exact absurd h.start_lt (Nat.not_lt.2 he)
  | ok n =>
    obtain ⟨rfl, hsize, l', junk, hst, hpre, -, hfit, hcont⟩ := hdone
    simp only at hsize hst hcont
    have hl' := ne_nil_of_lt (by omega) hfit
    have hwrite : RamFsFile.write data offset buf = splice data offset buf :=
      RamFsFile.write_eq hgap
    have hlen : (splice data offset buf).length = max data.length (offset + buf.length) := by
      unfold splice
      simp only [length_append, length_take, length_drop]
      omega
    have hlt := hst.file.start_lt hl'
    refine .inr ⟨?_, o', l', evs, hkeep, hcompat, h.place.keeps hkeep, hst.file, ?_, hlt, ?_, ?_, ?_⟩
    · simp only [onRam, hwrite, hlen, ← h.size]
      rw [hsize]
      rfl
    · have hold := o.entry.fileSize.toNat_lt
      rw [h.entry.2] at hold
      rw [hst.entry]
      exact o.entry.relocate_state (Nat.lt_trans hlt (by decide))
        (hsize ▸ Nat.max_lt.2 ⟨hold, hend⟩)
    · simp only [onRam, hwrite, hlen, ← h.size]
      exact hsize
    · simp only [onRam, hwrite, hlen]
      exact Nat.max_le.2
        ⟨h.fits.trans (Nat.mul_le_mul_right _ hpre.length_le), hfit⟩
    · simp only [onRam, hwrite, hlen]
      have hin : data.length ≤ (o.vol.content l).length := hclen ▸ h.fits
      rw [hcont, take_splice_append hgap hin, h.bytes]

theorem Represents.truncate (h : Represents fs f s d data o l) {n : Nat} (hgap : n ≤ data.length)
    (hn : n < 2 ^ 32) :
    let r := (truncate n).onFat32 fs f s d
    (truncate n).WritesUsed fs f s d ∧
    (failed r.1 ∧ (∃ o' evs, Keeps fs o o' evs (fs.volOf d) (fs.volOf r.2.2) ∧
        Represents fs f s r.2.2 data o' l) ∨
      r.1 = .ok ((truncate n).onRam data).1 ∧
      ∃ o' l' evs, Keeps fs o o' evs (fs.volOf d) (fs.volOf r.2.2) ∧
        Represents fs f r.2.1 r.2.2 ((truncate n).onRam data).2 o' l') := by
  intro r
  obtain ⟨hall, o', evs, hdone, hkeep, hcompat⟩ := safeM_run
    (truncate_safe (t := ⟨.new, s.startCluster, s.size⟩) hs (hintOk_new fs) h.file h.place hn
      fun hsh => hsh.elim) h.compat
  generalize hrun : (f.truncate fs n ⟨.new, s.startCluster, s.size⟩).run Disk.handle d = q
    at hdone hkeep hcompat
  obtain ⟨⟨res, t'⟩, d'⟩ := q
  have hr : r = (res.map fun _ => ⟨[], 0, t'.size⟩, ⟨t'.startCluster, t'.size⟩, d') := by
    change onFat32 .. = _
    unfold onFat32
    simp only [hrun]
  rw [hr]
  refine ⟨hall.mono fun _ _ h => h.1, ?_⟩
  cases res with
  | error e =>
    obtain ⟨hext, he | ⟨_, he⟩⟩ := hdone
    · have hin : ∀ x ∈ l, o'.cells x := fun x hx => hext.cells x ((h.file.cells x).mpr hx)
      exact .inl ⟨.inl (by rw [he]; rfl), _, evs, hkeep.only hin, h.untouched hs hext hcompat⟩
    · exact absurd h.start_lt (Nat.not_lt.2 he)
  | ok u =>
    obtain ⟨hsize, hzero, l', hst, hkept⟩ := hdone
    simp only at hsize hzero hst hkept
    rw [h.size, Nat.min_eq_right hgap] at hkept
    obtain ⟨hfit, hcont⟩ := hkept h.fits
    have htrunc : RamFsFile.truncate data n = data.take n := RamFsFile.truncate_eq hgap
    have hlen : (data.take n).length = n := by
      rw [length_take, Nat.min_eq_left hgap]
    have hstart : t'.startCluster < fatEocMin := by
      rcases Nat.eq_zero_or_pos n with h0 | hpos
      · exact Nat.lt_trans (hzero h0) (by decide)
      · exact hst.file.start_lt (ne_nil_of_lt hpos hfit)
    refine .inr ⟨?_, o', l', evs, hkeep, hcompat, h.place.keeps hkeep, hst.file, ?_, hstart, ?_, ?_, ?_⟩
    · simp only [onRam, htrunc, hlen, hsize]
      rfl
    · rw [hst.entry]
      exact o.entry.relocate_state (Nat.lt_trans hstart (by decide)) (hsize ▸ hn)
    · simp only [onRam, htrunc, hlen]
      exact hsize
    · simp only [onRam, htrunc, hlen]
      exact hfit
    · simp only [onRam, htrunc, hlen]
      rw [hcont]
      conv_rhs => rw [← h.bytes, take_take, Nat.min_eq_left hgap]

theorem Represents.read (h : Represents fs f s d data o l) (offset len : Nat) :
    let r := (read offset len).onFat32 fs f s d
    (read offset len).WritesUsed fs f s d ∧
    r.1 = .ok ((read offset len).onRam data).1 ∧
      ∃ o' l' evs, Keeps fs o o' evs (fs.volOf d) (fs.volOf r.2.2) ∧
        Represents fs f r.2.1 r.2.2 ((read offset len).onRam data).2 o' l' := by
  intro r
  obtain ⟨hall, o', evs, ⟨hres, rfl⟩, hkeep, hcompat⟩ := safeM_run
    (read_safe hs h.file h.size h.fits h.bytes offset len) h.compat
  refine ⟨hall.mono fun _ _ h => h.1, ?_, o', l, evs, hkeep, hcompat, h.place, h.file, h.entry,
    h.start_lt, h.size, h.fits, h.bytes⟩
  change Except.map _ ((Fat32File.read fs s offset len ()).run Disk.handle d).1.1 = _
  rw [hres, h.size]
  rfl

/-- **One call on the file**, and what it leaves alone. -/
theorem Represents.call_keeps (h : Represents fs f s d data o l) {c : FileCmd} (hv : c.Valid)
    (hgap : c.NoGap data.length) : let r := c.onFat32 fs f s d
    c.WritesUsed fs f s d ∧
    (failed r.1 ∧ (∃ o' evs, Keeps fs o o' evs (fs.volOf d) (fs.volOf r.2.2) ∧
        Represents fs f s r.2.2 data o' l) ∨
      r.1 = .ok (c.onRam data).1 ∧
      ∃ o' l' evs, Keeps fs o o' evs (fs.volOf d) (fs.volOf r.2.2) ∧
        Represents fs f r.2.1 r.2.2 (c.onRam data).2 o' l') := by
  cases c with
  | write offset buf => exact h.write hs hv hgap
  | truncate n => exact h.truncate hs hgap hv
  | read offset len => exact (h.read hs offset len).imp id .inr

theorem Represents.step (h : Represents fs f s d data o l) {c : FileCmd} (hv : c.Valid)
    (hgap : c.NoGap data.length) :
    c.WritesUsed fs f s d ∧
    (failed (c.onFat32 fs f s d).1 ∧ (∃ o', Represents fs f s (c.onFat32 fs f s d).2.2 data o' l) ∨
     (c.onFat32 fs f s d).1 = .ok (c.onRam data).1 ∧
     ∃ o' l',
       Represents fs f (c.onFat32 fs f s d).2.1 (c.onFat32 fs f s d).2.2 (c.onRam data).2 o'
         l') := by
  obtain ⟨hall, ⟨hfail, o', -, -, h'⟩ | ⟨hres, o', l', -, -, h'⟩⟩ := h.call_keeps hs hv hgap
  · exact ⟨hall, .inl ⟨hfail, o', h'⟩⟩
  · exact ⟨hall, .inr ⟨hres, o', l', h'⟩⟩

theorem Represents.run : ∀ {cs : List FileCmd} {s : FileState} {d : Disk} {data : Bytes} {o : Own}
    {l : List Nat}, Represents fs f s d data o l → (∀ c ∈ cs, c.Valid) → NoGaps data cs →
    (∀ r ∈ fatRun fs f s d cs, ¬ failed r) → fatRun fs f s d cs = (ramRun data cs).map .ok
  | [], _, _, _, _, _, _, _, _, _ => rfl
  | c :: cs, s, d, data, o, l, h, hv, hgap, hok => by
    rcases (h.step hs (hv c mem_cons_self) hgap.1).2 with ⟨hfail, -⟩ | ⟨hres, o', l', h'⟩
    · exact absurd hfail (hok _ mem_cons_self)
    · have ih := h'.run (fun c' hc' => hv c' (mem_cons_of_mem c hc')) hgap.2
        fun r hr => hok r (mem_cons_of_mem _ hr)
      change (c.onFat32 fs f s d).1 :: fatRun fs f _ _ cs = _
      rw [hres, ih]
      rfl

end

/-! ## A new file -/

variable {fs : Fat32FileSystem} {dir : Fat32Dir} {name : Str} {d d' : Disk} {f : Fat32File}
  {s : FileState} {l : List Nat}

/-- `create(name, File)` in the directory `dir` of the disk `d` returned the file `f`, with the state
`s`, and left the disk `d'`. -/
def Created (fs : Fat32FileSystem) (dir : Fat32Dir) (name : Str) (d : Disk) (f : Fat32File)
    (s : FileState) (d' : Disk) : Prop :=
  ((dir.create fs name .file : OpM Unit VNode) ()).run Disk.handle d = ((.ok (.file f s), ()), d')

theorem Created.represents (h : Created fs dir name d f s d') (hc : Consistent fs d)
    (hdir : Chain fs (fs.volOf d) dir.cluster l) : ∃ o, Represents fs f s d' [] o [] := by
  have hp := presents_volOf hc
  have hfull : FullClusters fs (fs.volOf d) := fun c hr => hp.data_length hr
  obtain ⟨r, v', hrun, hok⟩ := create_file_runs (σ := Unit) (t := ()) hdir name
  obtain ⟨d1, heq, hp', _⟩ := hrun d hp
  have hres : ((r, ()), d1) = ((.ok (.file f s), ()), d') := heq.symm.trans h
  obtain rfl : d1 = d' := congrArg Prod.snd hres
  obtain ⟨i, sl, hi, hnode, hv'⟩ := hok _ (congrArg (fun p => p.1.1) hres)
  obtain ⟨rfl, rfl⟩ : f = ⟨name, dir.cluster, i * 32⟩ ∧ s = ⟨0, 0⟩ := by simpa using hnode
  obtain rfl := hp'.eq_volOf
  have hmem := mem_of_getElem? hi
  have hlen : sl.2 + 32 ≤ ((fs.volOf d).data sl.1).length := by
    rw [hfull sl.1 (hdir.inRange (mem_slotsOf.mp hmem).1)]
    exact slot_le hmem
  let o : Own := ⟨fs.volOf d1, fun _ => False, dir.cluster, l, some sl, DirEntry.newFile name 0 0,
    [], []⟩
  have hold : Holds fs False o (fs.volOf d1) := by
    refine ⟨?_, fun _ hx => hx.elim, fun _ _ => rfl, fun _ _ => rfl, fun _ _ => rfl, ?_,
      by simp [o], fun hsh => hsh.elim⟩
    · rw [hv']
      exact hdir.congr fun _ _ => rfl
    · rintro _ ⟨⟩
      refine ⟨hmem, ?_, fun hsh => hsh.elim⟩
      rw [hv']
      exact slot_putSlot_self (DirEntry.toBytes_length _) hlen
  refine ⟨o, ⟨hp'.consistent, hold⟩, ⟨rfl, rfl, i, sl, rfl, hi, rfl⟩, ?_,
    ⟨DirEntry.cluster_setCluster (DirEntry.empty.setName name) (by decide), rfl⟩, by decide, rfl,
    by simp, by simp⟩
  exact ⟨fun h => absurd h (by decide), fun _ => rfl, fun _ => by simp [o], by simp⟩

/-- **A FAT32 file is the byte file that a RamFs file is**, as long as no call leaves a gap, runs
out of space or meets a device error. -/
theorem byte_files_agree (hs : SmallVolume fs) (hc : Consistent fs d)
    (hdir : Chain fs (fs.volOf d) dir.cluster l) (h : Created fs dir name d f s d')
    {cs : List FileCmd} (hv : ∀ c ∈ cs, c.Valid) (hgap : NoGaps [] cs)
    (hok : ∀ r ∈ fatRun fs f s d' cs, ¬ failed r) :
    fatRun fs f s d' cs = (ramRun [] cs).map .ok := by
  obtain ⟨o, hrep⟩ := h.represents hc hdir
  exact hrep.run hs hv hgap hok

/-- The file system of `smallFs` with an empty root directory; free clusters hold `0xAA`. -/
def usedDisk : Disk := smallDisk (List.replicate 512 0) (length_replicate ..) 0xAA

/-- A new file `A` in the root directory of `usedDisk`, and the results of calls on it. -/
def runOnNew (cs : List FileCmd) : Option (List (Option FileResult)) :=
  match ((Fat32Dir.create smallFs ⟨2, []⟩ ['A'] .file : OpM Unit VNode) ()).run Disk.handle
    usedDisk with
  | ((.ok (.file f s), _), d') => some ((fatRun smallFs f s d' cs).map Except.toOption)
  | _ => none

theorem runOnNew_some {cs : List FileCmd} {rs : List (Option FileResult)}
    (h : runOnNew cs = some rs) : ∃ f s d', Created smallFs ⟨2, []⟩ ['A'] usedDisk f s d' ∧
      (fatRun smallFs f s d' cs).map Except.toOption = rs := by
  unfold runOnNew at h
  split at h
  · rename_i f s _ d' hrun
    exact ⟨f, s, d', hrun, Option.some.inj h⟩
  · exact absurd h (by simp)

theorem byte_files_agree_append :
    ∃ f s d', Created smallFs ⟨2, []⟩ ['A'] usedDisk f s d' ∧
      fatRun smallFs f s d' [.write 0 [1, 2], .write 2 [3], .truncate 2, .read 0 9] =
        (ramRun [] [.write 0 [1, 2], .write 2 [3], .truncate 2, .read 0 9]).map .ok := by
  obtain ⟨f, s, d', hnew, hres⟩ := runOnNew_some
    (show runOnNew [.write 0 [1, 2], .write 2 [3], .truncate 2, .read 0 9] =
      some [some ⟨[], 2, 2⟩, some ⟨[], 1, 3⟩, some ⟨[], 0, 2⟩, some ⟨[1, 2], 2, 2⟩] by
        decide +kernel)
  have hdir : Chain smallFs (smallFs.volOf usedDisk) 2 [2] :=
    .step (smallFs_small.cell (by decide)) (.done (by decide +kernel))
  have hc : Consistent smallFs usedDisk := smallDisk_consistent
  refine ⟨f, s, d', hnew, byte_files_agree smallFs_small hc hdir hnew ?_ ?_ ?_⟩
  · simp [FileCmd.Valid]
  · exact ⟨Nat.le_refl 0, (by decide : 2 ≤ 2), (by decide : 2 ≤ 3), trivial, trivial⟩
  · intro r hr hfail
    have hsome : r.toOption ∈ _ := mem_map_of_mem hr
    rw [hres] at hsome
    rcases hfail with rfl | rfl <;> simp [Except.toOption] at hsome

/-- **A byte that was never written reads as what was there before**: after a write at offset 1 of a
new file, its first byte is that of the recycled cluster; a `RamFsFile` has a zero there. -/
theorem gap_reads_old_bytes :
    ∃ f s d', Created smallFs ⟨2, []⟩ ['A'] usedDisk f s d' ∧
      (fatRun smallFs f s d' [.write 1 [7], .read 0 2]).map Except.toOption =
        [some ⟨[], 1, 2⟩, some ⟨[0xAA, 7], 2, 2⟩] ∧
      ramRun [] [.write 1 [7], .read 0 2] = [⟨[], 1, 2⟩, ⟨[0, 7], 2, 2⟩] := by
  obtain ⟨f, s, d', hnew, hres⟩ := runOnNew_some
    (show runOnNew [.write 1 [7], .read 0 2] =
      some [some ⟨[], 1, 2⟩, some ⟨[0xAA, 7], 2, 2⟩] by decide +kernel)
  exact ⟨f, s, d', hnew, hres, by decide⟩

end Kerners.Fat32
