import Kerners.Fat32.Entries
import Kerners.Fat32.Handles
import Mathlib.Data.List.Flatten

/-!
# What `write` leaves on the disk (`fs/fat32/mod.rs`)

`Fat32File::write` seen from outside: the bytes of the file, its directory entry, and everything
else on the disk. The specification of `write` on what it owns (`write_safe`) gives the first two.
For the rest there are two sources: the file system writes only to the FAT copies and to clusters
(`WriteIn`), and a call leaves alone the clusters that it neither owns nor takes (`Keeps.idle`).
-/

namespace Kerners.Fat32

open Lib Kerners.Block List

def fileBytes (fs : Fat32FileSystem) (d : Disk) (s : FileState) : Bytes :=
  ((fs.volOf d).content (listAt fs (fs.volOf d) s.startCluster)).take s.size

/-- **What a successful `write` leaves**, in the state `s'` of the handle and on the disk `d'`. -/
structure WriteFramed (fs : Fat32FileSystem) (d d' : Disk) (f : Fat32File) (s s' : FileState)
    (offset : Nat) (buf : Bytes) : Prop where
  size : s'.size = max s.size (offset + buf.length)
  bytes : fileBytes fs d' s' = splice (fileBytes fs d s) offset buf
  length : (fileBytes fs d' s').length = s'.size
  entry : f.entryIn fs (fs.volOf d') =
    (f.entryIn fs (fs.volOf d)).relocate s'.startCluster s'.size
  inSync : (f.entryIn fs (fs.volOf d')).cluster = s'.startCluster ∧
    (f.entryIn fs (fs.volOf d')).fileSize.toNat = s'.size
  chain : listAt fs (fs.volOf d) s.startCluster <+: listAt fs (fs.volOf d') s'.startCluster
  blocks : ∀ n, ¬ fs.InFat n → ¬ fs.InCluster (f.slotIn fs (fs.volOf d)).1 n →
    (∀ c ∈ listAt fs (fs.volOf d') s'.startCluster, ¬ fs.InCluster c n) → d'.blocks n = d.blocks n
  fat : ∀ k < fs.boot.numFats.toNat, ∀ i < fs.totalClusters + 2,
    fs.rawEntry d' k i ≠ fs.rawEntry d k i →
    (listAt fs (fs.volOf d) s.startCluster).getLast? = some i ∨ fs.fatEntry d i = fatFree

/-! ## Blocks -/

theorem run_blocks {μ α : Type} {ok : Cmd → Disk → Prop} {n : Nat}
    (hn : ∀ m buf d, ok (.writeBlock m buf) d → n ≠ m) :
    ∀ {p : Prog Cmd Resp μ α} {d : Disk},
      p.Allowed Disk.handle ok d → (p.run Disk.handle d).2.blocks n = d.blocks n
  | .pure _, _, _ => rfl
  | .mark _ k, _, hp => run_blocks (p := k) hn hp
  | .op (.readBlock m len) k, d, hp => run_blocks (p := k (d.readBlock m len)) (d := d) hn hp.2
  | .op (.writeBlock m buf) k, d, hp => by
    refine (run_blocks (p := k (d.writeBlock m buf).1) hn hp.2).trans ?_
    change (d.writeBlock m buf).2.blocks n = d.blocks n
    unfold Disk.writeBlock
    split_ifs with hro hlen hcount
    · rfl
    · rfl
    · exact Disk.put_blocks_of_ne (h := hlen) (hn m buf d hp.1)
    · rfl

section

variable {fs : Fat32FileSystem} {d d' : Disk} {c n : Nat}

theorem blocks_of_data (hc : Consistent fs d) (hc' : Consistent fs d') (hr : fs.InRange c)
    (h : (fs.volOf d').data c = (fs.volOf d).data c) (hn : fs.InCluster c n) :
    d'.blocks n = d.blocks n := by
  rw [← (presents_volOf hc).eq_volOf, ← (presents_volOf hc').eq_volOf] at h
  rw [(presents_volOf hc').data c hr, (presents_volOf hc).data c hr] at h
  unfold Fat32FileSystem.clusterData at h
  have hlists := eq_iff_flatten_eq.2 ⟨h, by
    simp [Function.comp_def, Disk.blocks_length, ← hc.sector, ← hc'.sector]⟩
  obtain ⟨j, rfl⟩ := Nat.exists_eq_add_of_le hn.1
  have hj : j ∈ List.range fs.boot.clusterSectors := by
    have := hn.2
    exact mem_range.2 (by omega)
  exact map_inj_left.1 hlists j hj

theorem data_of_slots {v v' : Vol} (hlen : (v.data c).length = fs.boot.clusterSize)
    (hlen' : (v'.data c).length = fs.boot.clusterSize)
    (h : ∀ j < fs.slotCount, v'.slot (c, j * 32) = v.slot (c, j * 32)) : v'.data c = v.data c := by
  have hmap : ((List.range fs.slotCount).map fun j => slice (v'.data c) (j * 32) 32) =
      (List.range fs.slotCount).map fun j => slice (v.data c) (j * 32) 32 :=
    map_congr_left fun j hj => h j (mem_range.1 hj)
  rw [clusterSize_eq] at hlen hlen'
  have h1 := flatten_slices (v.data c) 32 fs.slotCount hlen.ge
  have h2 := flatten_slices (v'.data c) 32 fs.slotCount hlen'.ge
  rw [take_of_length_le hlen.le] at h1
  rw [take_of_length_le hlen'.le] at h2
  rw [← h1, ← h2, hmap]

end

/-! ## The write -/

variable {fs : Fat32FileSystem} {d d' : Disk} {f : Fat32File} {s : FileState} {t' : FileOp}
  {o' : Own} {evs l' : List Nat} {offset x : Nat} {buf : Bytes} {o : Own} {v' v : Vol}

theorem Stored.chain (hs : SmallVolume fs) (hst : Stored fs o o' t' l')
    (hold : Holds fs False o' v') (h2 : 2 ≤ t'.startCluster) : Chain fs v' t'.startCluster l' := by
  have hl := hst.file.chain h2
  refine hl.congr fun x hx => ?_
  rw [hs.fatIndex_eq (hl.inRange hx)]
  exact hold.fat x ((hst.file.cells x).2 hx)

theorem Stored.listAt_eq (hs : SmallVolume fs) (hst : Stored fs o o' t' l')
    (hold : Holds fs False o' v') : listAt fs v' t'.startCluster = l' := by
  by_cases h2 : 2 ≤ t'.startCluster
  · exact listAt_of_chain (hst.chain hs hold h2)
  · rw [listAt_small (Nat.not_le.1 h2), hst.file.empty (Nat.not_le.1 h2)]

theorem Stored.entryIn_eq (hst : Stored fs (fileOwn fs (fs.volOf d) f s) o' t' l')
    (hold : Holds fs False o' (fs.volOf d')) : f.entryIn fs (fs.volOf d') = o'.entry := by
  have hdir : Chain fs (fs.volOf d') f.parentCluster (listAt fs (fs.volOf d) f.parentCluster) := by
    have h := hold.dir
    rwa [hst.dir, hst.dirChain] at h
  have hslot : f.slotIn fs (fs.volOf d') = f.slotIn fs (fs.volOf d) := by
    unfold Fat32File.slotIn
    rw [listAt_of_chain hdir]
  unfold Fat32File.entryIn
  rw [hslot, (hold.slot _ hst.slot).2.1]
  have hself := o'.entry.fromBytes_toBytes []
  rw [append_nil] at hself
  rw [hself]
  rfl

theorem Stored.idle (hst : Stored fs (fileOwn fs v f s) o' t' l')
    (hk : Keeps fs (fileOwn fs v f s) o' evs v v')
    (hsub : ∀ x ∈ listAt fs v s.startCluster, x ∈ l') (hx : x ∉ l') :
    v'.copies x = v.copies x ∧ (x ∉ listAt fs v f.parentCluster → v'.data x = v.data x) := by
  have hcells : ¬ (fileOwn fs v f s).cells x := fun h => hx (hsub x h)
  suffices hevs : x ∉ evs from ⟨hk.copies x (.inl ⟨hcells, hevs⟩), (hk.idle x hcells hevs).2⟩
  intro he
  apply hx
  have hgot : x ∈ o'.got := by
    rw [hk.got]
    exact mem_append_right _ he
  exact (hst.file.cells x).1 ((hst.gained x hgot).resolve_left nofun)

theorem Keeps.data_dir (hk : Keeps fs (fileOwn fs v f s) o' evs v v') (hfull : FullClusters fs v)
    (hfull' : FullClusters fs v') (hr : fs.InRange x) (hx : x ∈ listAt fs v f.parentCluster)
    (hne : x ≠ (f.slotIn fs v).1) : v'.data x = v.data x := by
  refine data_of_slots (hfull x hr) (hfull' x hr) fun j hj => ?_
  refine hk.slots (x, j * 32) (mem_slotsOf.2 ⟨hx, j, hj, rfl⟩) fun heq => hne ?_
  exact congrArg Prod.fst (show (x, j * 32) = f.slotIn fs v from heq)

theorem Stored.copies_eq (hs : SmallVolume fs) (hst : Stored fs (fileOwn fs v f s) o' t' l')
    (hold : Holds fs False o' v') (hk : Keeps fs (fileOwn fs v f s) o' evs v v')
    (hp : FilePlace fs v f s) (hpre : listAt fs v s.startCluster <+: l')
    (hlinks : Links (fileOwn fs v f s) o') {i : Nat}
    (hlast : (listAt fs v s.startCluster).getLast? ≠ some i) (hused : v.fat i ≠ fatFree) :
    v'.copies i = v.copies i := by
  by_cases hi : i ∈ l'
  · have hcell := (hst.file.cells i).2 hi
    rcases hk.fresh i hcell with hc | ⟨-, hfree⟩
    · -- a cluster of the old chain, and not its last
      have hl := hp.chain (two_le_of_mem hc)
      have hnext := Walk.next_cell hl i hc hlast
      rw [hs.fatIndex_eq (hl.inRange hc)] at hnext
      rcases hlinks i hc with ⟨-, hsame⟩ | hend
      · exact (hold.copies i hcell).trans hsame
      · exact absurd hend (Chain.cell_not_stop _ hnext)
    · exact absurd hfree hused
  · exact (hst.idle hk hpre.subset hi).1

theorem copies_volOf (hs : SmallVolume fs) (hc : Consistent fs d) {i : Nat}
    (hi : i < fs.totalClusters + 2) : (fs.volOf d).copies i =
      (List.range fs.boot.numFats.toNat).map fun k => fs.rawEntry d k i := by
  have hi' : i < 2 ^ 30 := by
    unfold SmallVolume fatReservedMin at hs
    omega
  rw [(presents_volOf hc).copies i hi hi']
  refine map_congr_left fun k hk => ?_
  rw [rawEntry_eq hc hi (mem_range.1 hk), fatIndex_eq hi']

theorem fat_volOf (hs : SmallVolume fs) (hc : Consistent fs d) {i : Nat}
    (hi : i < fs.totalClusters + 2) : (fs.volOf d).fat i = fs.rawEntry d 0 i % 2 ^ 28 := by
  have hi' : i < 2 ^ 30 := by
    unfold SmallVolume fatReservedMin at hs
    omega
  rw [(presents_volOf hc).fat i hi hi', Fat32FileSystem.fatEntry_eq, rawEntry_eq hc hi hc.fats,
    fatIndex_eq hi']

/-- The copies of the FAT hold the same as before for an entry exactly if the volumes agree. -/
theorem copies_volOf_eq_iff (hs : SmallVolume fs) (hc : Consistent fs d) (hc' : Consistent fs d')
    {i : Nat} (hi : i < fs.totalClusters + 2) :
    (fs.volOf d').copies i = (fs.volOf d).copies i ↔
      ∀ k < fs.boot.numFats.toNat, fs.rawEntry d' k i = fs.rawEntry d k i := by
  rw [copies_volOf hs hc hi, copies_volOf hs hc' hi, map_inj_left]
  simp only [mem_range]

theorem splice_length_of_le {bs new : Bytes} (h : offset ≤ bs.length) :
    (splice bs offset new).length = max bs.length (offset + new.length) := by
  simp only [splice, length_append, length_take, length_drop]
  omega

/-- **`write` is right and touches nothing else**, on a well-formed volume and with a handle that
agrees with the directory entry. -/
theorem write_framed (hs : SmallVolume fs) (hc : Consistent fs d) (hwf : fs.WellFormed d)
    (hf : FileOn fs (fs.readings d) f s) (hbuf : buf ≠ []) (hoff : offset ≤ s.size)
    (hend : offset + buf.length < 2 ^ 32) {n : Nat}
    (hrun : (f.write fs offset buf ⟨.new, s.startCluster, s.size⟩).run Disk.handle d =
      ((.ok n, t'), d')) :
    n = buf.length ∧ WriteFramed fs d d' f s ⟨t'.startCluster, t'.size⟩ offset buf := by
  have hok := (wellFormed_iff hc).1 hwf
  rw [readings_eq hc] at hf
  have hfull : FullClusters fs (fs.volOf d) := fun x hx => (presents_volOf hc).data_length hx
  obtain ⟨hat, -, hin, hsize⟩ := fileOwn_start hok hfull hf
  obtain ⟨hall, o', evs, hdone, hk, hcompat⟩ := safeM_run
    (write_safe (t := ⟨.new, s.startCluster, s.size⟩) hs (hintOk_new fs) hin hat hbuf hend)
    ⟨hc, fileOwn_holds hs hok hf⟩
  have hb := fun n hn => run_blocks (n := n) hn hall
  rw [hrun] at hdone hk hcompat hb
  obtain ⟨hn, hsz, l', junk, hst, hpre, hlinks, hfit, hcont⟩ := hdone
  obtain ⟨hc', hold⟩ := hcompat
  have hfull' : FullClusters fs (fs.volOf d') := fun x hx => (presents_volOf hc').data_length hx
  have hp := hok.fileOn hf
  have hl' := hst.listAt_eq hs hold
  have hlen := Vol.content_length hin.lengths
  have hbytes : fileBytes fs d' ⟨t'.startCluster, t'.size⟩ =
      splice (fileBytes fs d s) offset buf := by
    have hdata : (fs.volOf d').content l' = o'.vol.content l' :=
      Vol.content_congr fun x hx => hold.data x ((hst.file.cells x).2 hx)
    unfold fileBytes
    rw [hl', hdata, hcont, hsz]
    exact take_splice_append hoff (by rw [hlen]; exact hsize)
  have hold_len : (fileBytes fs d s).length = s.size := by
    unfold fileBytes
    rw [length_take]
    exact Nat.min_eq_left (by rw [← hlen] at hsize; exact hsize)
  have hsz_lt : s.size < 2 ^ 32 := by
    rw [congrArg FileState.size hp.state]
    exact UInt32.toNat_lt _
  have hstart_lt : t'.startCluster < fatEocMin :=
    hst.file.start_lt (ne_nil_of_lt (by have := length_pos_of_ne_nil hbuf; omega) hfit)
  have hentry := hst.entryIn_eq hold
  refine ⟨hn, hsz, hbytes, ?_, hentry.trans hst.entry, ?_, by rwa [hl'], ?_, ?_⟩
  · rw [hbytes, splice_length_of_le (by rwa [hold_len]), hold_len]
    exact hsz.symm
  · rw [hentry, hst.entry]
    refine DirEntry.relocate_state _ (Nat.lt_trans hstart_lt (by decide)) ?_
    change t'.size < 2 ^ 32
    rw [hsz]
    exact Nat.max_lt.2 ⟨hsz_lt, hend⟩
  · intro n hnfat hnslot hnfile
    rw [hl'] at hnfile
    by_cases hcl : ∃ c, fs.InRange c ∧ fs.InCluster c n
    · obtain ⟨c, hr, hn⟩ := hcl
      have hcl' : c ∉ l' := fun h => hnfile c h hn
      refine blocks_of_data hc hc' hr ?_ hn
      by_cases hdir : c ∈ listAt fs (fs.volOf d) f.parentCluster
      · refine hk.data_dir hfull hfull' hr hdir ?_
        rintro rfl
        exact hnslot hn
      · exact (hst.idle hk hpre.subset hcl').2 hdir
    · refine hb n ?_
      rintro m buf d ⟨-, hm⟩ rfl
      exact hm.elim hnfat hcl
  · intro k hk' i hi hne
    by_contra hcon
    rw [not_or] at hcon
    have hi' : i < 2 ^ 30 := by
      have := hs
      unfold SmallVolume fatReservedMin at this
      omega
    rw [← (presents_volOf hc).fat i hi hi'] at hcon
    exact hne ((copies_volOf_eq_iff hs hc hc' hi).1
      (hst.copies_eq hs hold hk hp hpre hlinks hcon.1 hcon.2) k hk')

theorem write_framed_third_cluster :
    ∃ t' d',
      (Fat32File.write smallFs ⟨['A'], 2, 0⟩ 600 (List.replicate 500 7) ⟨.new, 3, 600⟩).run
        Disk.handle chainDisk = ((.ok 500, t'), d') ∧
      WriteFramed smallFs chainDisk d' ⟨['A'], 2, 0⟩ ⟨3, 600⟩ ⟨t'.startCluster, t'.size⟩ 600
        (List.replicate 500 7) := by
  have hne : List.replicate 500 (7 : UInt8) ≠ [] := List.cons_ne_nil _ _
  have hres : ((Fat32File.write smallFs ⟨['A'], 2, 0⟩ 600 (List.replicate 500 7) ⟨.new, 3, 600⟩).run
      Disk.handle chainDisk).1.1.toOption = some 500 := by decide +kernel
  cases hrun : (Fat32File.write smallFs ⟨['A'], 2, 0⟩ 600 (List.replicate 500 7)
      ⟨.new, 3, 600⟩).run Disk.handle chainDisk with
  | mk q d' =>
    obtain ⟨r, t'⟩ := q
    rw [hrun] at hres
    cases r with
    | error e => cases hres
    | ok n =>
      cases hres
      exact ⟨t', d', rfl, (write_framed smallFs_small chainDisk_consistent chainDisk_wellFormed
        chainDisk_fileOn hne (by decide) (by rw [List.length_replicate]; decide) hrun).2⟩

end Kerners.Fat32
