import Kerners.Fat32.Entries
import Kerners.Fat32.Reading

/-!
# The size of a file after `truncate` and `write` (fs/fat32/mod.rs)

`Fat32File` keeps its size in 32 bits; `truncate` takes a `u64` and `write` computes the end of the
written range in a `usize`, and both narrow with `as u32`.
-/

namespace Kerners.Fat32

open Lib Kerners.Block

variable {fs : Fat32FileSystem} {α β : Type} {m : FileM α} {f : α → FileM β}

/-! ## What changes the size -/

def KeepsSize (m : FileM α) : Prop :=
  ∀ {t t' : FileOp} {d d' : Disk} {r : Except (Fault VfsError) α},
    RunsM anyView m t d r t' d' → t'.size = t.size

/-- The operation ends with the size `n` if it succeeds. -/
def EndsSize (m : FileM α) (n : Nat) : Prop :=
  ∀ {t t' : FileOp} {d d' : Disk} {a : α}, RunsM anyView m t d (.ok a) t' d' → t'.size = n

theorem runsM_any_total {μ σ ε : Type} (m : DevM μ σ ε α) (s : σ) (d : Disk) :
    ∃ r s' d', RunsM anyView m s d r s' d' :=
  ⟨_, _, _, runsM_any_iff.2 rfl⟩

theorem KeepsSize.of_runs (h : ∀ t d, ∃ r t' d', RunsM anyView m t d r t' d' ∧ t'.size = t.size) :
    KeepsSize m := by
  intro t t' d d' r hrun
  obtain ⟨r1, t1, d1, hrun1, hsize⟩ := h t d
  obtain ⟨-, rfl, -⟩ := runsM_any_det hrun hrun1
  exact hsize

theorem KeepsSize.pure (a : α) : KeepsSize (Pure.pure a : FileM α) :=
  KeepsSize.of_runs fun _ _ => ⟨_, _, _, RunsM.pure a, rfl⟩

theorem KeepsSize.throw (e : Fault VfsError) : KeepsSize (ProgM.throw e : FileM α) :=
  KeepsSize.of_runs fun _ _ => ⟨_, _, _, RunsM.throw e, rfl⟩

theorem KeepsSize.get : KeepsSize (ProgM.get : FileM FileOp) :=
  KeepsSize.of_runs fun _ _ => ⟨_, _, _, RunsM.get, rfl⟩

theorem KeepsSize.bind (hm : KeepsSize m) (hf : ∀ a, KeepsSize (f a)) : KeepsSize (m >>= f) := by
  refine KeepsSize.of_runs fun t d => ?_
  obtain ⟨r, t1, d1, hrun⟩ := runsM_any_total m t d
  cases r with
  | error e => exact ⟨_, _, _, RunsM.bind_error hrun, hm hrun⟩
  | ok a =>
    obtain ⟨r2, t2, d2, hrun2⟩ := runsM_any_total (f a) t1 d1
    exact ⟨_, _, _, RunsM.bind_ok hrun hrun2, (hf a hrun2).trans (hm hrun)⟩

theorem KeepsSize.vfsCall (m : VfsM α) : KeepsSize (vfsCall m : FileM α) := by
  refine KeepsSize.of_runs fun t d => ?_
  obtain ⟨r, u, d1, hrun⟩ := runsM_any_total
    ((Fat32FileSystem.plainCall m).mapErr Fault.err : OpM Unit α) () d
  exact ⟨_, _, _, RunsM.within hrun, rfl⟩

theorem KeepsSize.onFat (e : VfsError) (m : FatOp α) : KeepsSize (onFat e m) := by
  refine KeepsSize.of_runs fun t d => ?_
  obtain ⟨r, u, d1, hrun⟩ := runsM_any_total
    (m.mapErr fun _ => (Fault.err e : Fault VfsError)) t.fat d
  exact ⟨_, _, _, RunsM.zoom hrun, rfl⟩

open Fat32File

theorem KeepsSize.setStart (c : Nat) : KeepsSize (setStart c) :=
  KeepsSize.of_runs fun _ _ => ⟨_, _, _, RunsM.bind_ok RunsM.get RunsM.set, rfl⟩

theorem EndsSize.setSize (n : Nat) : EndsSize (setSize n) n := by
  intro t t' d d' a hrun
  obtain ⟨-, rfl, -⟩ := runsM_any_det hrun (RunsM.bind_ok RunsM.get RunsM.set)
  rfl

theorem EndsSize.after {n : Nat} (hf : ∀ a, EndsSize (f a) n) : EndsSize (m >>= f) n := by
  intro t t' d d' b hrun
  obtain ⟨a, t1, d1, -, h2⟩ := runsM_any_bind hrun
  exact hf a h2

theorem EndsSize.before {n : Nat} (hm : EndsSize m n) (hf : ∀ a, KeepsSize (f a)) :
    EndsSize (m >>= f) n := by
  intro t t' d d' b hrun
  obtain ⟨a, t1, d1, h1, h2⟩ := runsM_any_bind hrun
  exact (hf a h2).trans (hm h1)

theorem keepsSize_ensureStart : KeepsSize (ensureStart fs) := by
  unfold ensureStart
  refine KeepsSize.bind KeepsSize.get fun s => ?_
  split_ifs
  · exact KeepsSize.bind (KeepsSize.onFat _ _) fun c => KeepsSize.setStart c
  · exact KeepsSize.pure _

theorem keepsSize_ensureChain (required : Nat) : KeepsSize (ensureChain fs required) := by
  unfold ensureChain
  refine KeepsSize.bind KeepsSize.get fun s => KeepsSize.bind (KeepsSize.onFat _ _) fun chain => ?_
  split_ifs
  · cases chain.getLast? with
    | none => exact KeepsSize.throw _
    | some last => exact KeepsSize.bind (KeepsSize.onFat _ _) fun _ => KeepsSize.pure _
  · exact KeepsSize.pure _

theorem keepsSize_writeLoop : ∀ (cs : List Nat) (offset : Nat) (buf : Bytes),
    KeepsSize (writeLoop fs cs offset buf)
  | [], _, _ => KeepsSize.pure _
  | c :: cs, offset, buf => by
    unfold writeLoop
    split_ifs
    · exact KeepsSize.pure _
    · exact KeepsSize.bind (KeepsSize.vfsCall _) fun _ => KeepsSize.bind (KeepsSize.vfsCall _)
        fun _ => KeepsSize.bind (keepsSize_writeLoop cs 0 _) fun _ => KeepsSize.pure _

/-! ## The size after a call -/

open EndsSize

section

variable {f : Fat32File} {t t' : FileOp} {d d' : Disk} {n : Nat}

theorem keepsSize_update (f : Fat32File) : KeepsSize (ProgM.get >>= fun s : FileOp =>
    (vfsCall (f.updateDirEntry fs s.startCluster s.size) : FileM Unit)) :=
  KeepsSize.bind KeepsSize.get fun _ => KeepsSize.vfsCall _

theorem truncate_size {u : Unit} (h : RunsM anyView (f.truncate fs n) t d (.ok u) t' d') :
    t'.size = n % 2 ^ 32 := by
  unfold truncate at h
  obtain ⟨s, t1, d1, h1, h2⟩ := runsM_any_bind h
  obtain ⟨hs, rfl, rfl⟩ := runsM_any_det h1 RunsM.get
  cases hs
  generalize n % 2 ^ 32 = k at h2 ⊢
  have hset : ∀ k, EndsSize (setSize k >>= fun _ => ProgM.get >>= fun s : FileOp =>
      (vfsCall (f.updateDirEntry fs s.startCluster s.size) : FileM Unit)) k := fun k =>
    before (setSize k) fun _ => keepsSize_update f
  by_cases hzero : k = 0
  · subst hzero
    simp only [if_true] at h2
    split_ifs at h2
    · exact after (fun _ => after fun _ => hset 0) h2
    · exact hset 0 h2
  · simp only [if_neg hzero] at h2
    split_ifs at h2 with hless hstart hmore
    · exact after (fun _ => hset k) h2
    · exact hset k h2
    · exact after (fun _ => after fun _ => hset k) h2
    · -- the size stays, and it is the new one
      rw [keepsSize_update f h2]
      omega

theorem write_size {offset : Nat} {buf : Bytes} (hbuf : buf ≠ [])
    (h : RunsM anyView (f.write fs offset buf) t d (.ok n) t' d') :
    t'.size = sizeAfter t.size ((offset + buf.length) % 2 ^ 64) := by
  have hne : ¬ buf.isEmpty = true := by simpa using hbuf
  unfold write at h
  rw [if_neg hne] at h
  obtain ⟨_, t1, d1, h1, h2⟩ := runsM_any_bind h
  obtain ⟨chain, t2, d2, h3, h4⟩ := runsM_any_bind h2
  obtain ⟨written, t3, d3, h5, h6⟩ := runsM_any_bind h4
  obtain ⟨s, t4, d4, h7, h8⟩ := runsM_any_bind h6
  obtain ⟨hs, rfl, rfl⟩ := runsM_any_det h7 RunsM.get
  cases hs
  have hsize : s.size = t.size := by
    rw [keepsSize_writeLoop _ _ _ h5, keepsSize_ensureChain _ h3, keepsSize_ensureStart h1]
  have hend : KeepsSize (ProgM.get >>= fun s : FileOp =>
      (vfsCall (f.updateDirEntry fs s.startCluster s.size) : FileM Unit) >>= fun _ =>
        (pure written : FileM Nat)) :=
    KeepsSize.bind KeepsSize.get fun _ => KeepsSize.bind (KeepsSize.vfsCall _) fun _ =>
      KeepsSize.pure _
  unfold sizeAfter
  rw [← hsize]
  by_cases hmore : (offset + buf.length) % 2 ^ 64 > s.size
  · simp only [if_pos hmore] at h8 ⊢
    exact before (setSize _) (fun _ => hend) h8
  · simp only [if_neg hmore] at h8 ⊢
    exact hend h8

theorem truncate_keeps_bytes {s : FileState} (hs : SmallVolume fs) (hc : Consistent fs d)
    (hwf : fs.WellFormed d) (hf : FileOn fs (fs.readings d) f s) (hn : n < 2 ^ 32)
    (hrun : (f.truncate fs n ⟨.new, s.startCluster, s.size⟩).run Disk.handle d =
      ((.ok (), t'), d')) :
    (fileBytes fs d' ⟨t'.startCluster, t'.size⟩).take (min n s.size) =
      (fileBytes fs d s).take (min n s.size) := by
  have hok := (wellFormed_iff hc).1 hwf
  rw [readings_eq hc] at hf
  have hfull : FullClusters fs (fs.volOf d) := fun x hx => (presents_volOf hc).data_length hx
  obtain ⟨hat, -, hin, hsize⟩ := fileOwn_start hok hfull hf
  obtain ⟨-, o', evs, hdone, -, hcompat⟩ := safeM_run
    (truncate_safe (t := ⟨.new, s.startCluster, s.size⟩) hs (hintOk_new fs) hin hat hn nofun)
    ⟨hc, fileOwn_holds hs hok hf⟩
  rw [hrun] at hdone hcompat
  obtain ⟨hsz, -, l', hst, hbytes⟩ := hdone
  obtain ⟨hc', hold⟩ := hcompat
  have hl' := hst.listAt_eq hs hold
  have hdata : (fs.volOf d').content l' = o'.vol.content l' :=
    Vol.content_congr fun x hx => hold.data x ((hst.file.cells x).2 hx)
  have hkept := (hbytes hsize).2
  simp only at hkept hsz
  unfold fileBytes
  rw [List.take_take, List.take_take, hl', hdata, hsz, Nat.min_comm n s.size,
    Nat.min_eq_left (Nat.min_le_right _ _), Nat.min_eq_left (Nat.min_le_left _ _), hkept]
  rfl

end

/-- **Sizes are kept exactly below `2 ^ 32`**, by `truncate` and by `write`; for such a size
`truncate` keeps the bytes in front of it. -/
theorem sizes_kept_iff (fs : Fat32FileSystem) (f : Fat32File) (s : FileState) (hsize : s.size < 2 ^ 32)
    (d d' : Disk) (t' : FileOp) :
    (∀ n, (f.truncate fs n ⟨.new, s.startCluster, s.size⟩).run Disk.handle d = ((.ok (), t'), d') →
      (t'.size = n ↔ n < 2 ^ 32)) ∧
    (∀ offset buf n, buf ≠ [] →
      (f.write fs offset buf ⟨.new, s.startCluster, s.size⟩).run Disk.handle d = ((.ok n, t'), d') →
      (t'.size = max s.size (offset + buf.length) ↔ offset + buf.length < 2 ^ 32)) ∧
    (SmallVolume fs → Consistent fs d → fs.WellFormed d → FileOn fs (fs.readings d) f s →
      ∀ n < 2 ^ 32,
      (f.truncate fs n ⟨.new, s.startCluster, s.size⟩).run Disk.handle d = ((.ok (), t'), d') →
      (fileBytes fs d' ⟨t'.startCluster, t'.size⟩).take (min n s.size) =
        (fileBytes fs d s).take (min n s.size)) := by
  refine ⟨fun n hrun => ?_, fun offset buf n hbuf hrun => ?_,
    fun hs hc hwf hf n hn hrun => truncate_keeps_bytes hs hc hwf hf hn hrun⟩
  · rw [truncate_size (runsM_any_iff.2 hrun)]
    omega
  · have h := write_size hbuf (runsM_any_iff.2 hrun)
    rw [h]
    unfold sizeAfter
    change (if (offset + buf.length) % 2 ^ 64 > s.size then _ else s.size) = _ ↔ _
    split_ifs with hmore <;> omega

/-- The file of two clusters cut to a size in its first, and a write behind its end. -/
theorem sizes_kept_iff_chainDisk :
    (∃ t' d',
       (Fat32File.truncate smallFs ⟨['A'], 2, 0⟩ 100 ⟨.new, 3, 600⟩).run Disk.handle chainDisk =
         ((.ok (), t'), d') ∧
       t'.size = 100 ∧
       (fileBytes smallFs d' ⟨t'.startCluster, t'.size⟩).take 100 =
         (fileBytes smallFs chainDisk ⟨3, 600⟩).take 100) ∧
    ∃ t' d',
      (Fat32File.write smallFs ⟨['A'], 2, 0⟩ 600 [7, 8] ⟨.new, 3, 600⟩).run Disk.handle chainDisk =
        ((.ok 2, t'), d') ∧
      t'.size = 602 := by
  have hcut : ((Fat32File.truncate smallFs ⟨['A'], 2, 0⟩ 100 ⟨.new, 3, 600⟩).run Disk.handle
      chainDisk).1.1.toOption = some () := by decide +kernel
  have hwrite : ((Fat32File.write smallFs ⟨['A'], 2, 0⟩ 600 [7, 8] ⟨.new, 3, 600⟩).run Disk.handle
      chainDisk).1.1.toOption = some 2 := by decide +kernel
  constructor
  · cases hrun : (Fat32File.truncate smallFs ⟨['A'], 2, 0⟩ 100 ⟨.new, 3, 600⟩).run Disk.handle
        chainDisk with
    | mk q d' =>
      obtain ⟨r, t'⟩ := q
      rw [hrun] at hcut
      cases r with
      | error e => cases hcut
      | ok u =>
        obtain ⟨hsize, -, hbytes⟩ := sizes_kept_iff smallFs ⟨['A'], 2, 0⟩ ⟨3, 600⟩ (by decide)
          chainDisk d' t'
        exact ⟨t', d', rfl, (hsize 100 hrun).2 (by decide), hbytes smallFs_small
          chainDisk_consistent chainDisk_wellFormed chainDisk_fileOn 100 (by decide) hrun⟩
  · cases hrun : (Fat32File.write smallFs ⟨['A'], 2, 0⟩ 600 [7, 8] ⟨.new, 3, 600⟩).run Disk.handle
        chainDisk with
    | mk q d' =>
      obtain ⟨r, t'⟩ := q
      rw [hrun] at hwrite
      cases r with
      | error e => cases hwrite
      | ok n =>
        cases hwrite
        exact ⟨t', d', rfl, ((sizes_kept_iff smallFs ⟨['A'], 2, 0⟩ ⟨3, 600⟩ (by decide) chainDisk d'
          t').2.1 600 [7, 8] 2 (by decide) hrun).2 (by decide)⟩

/-- The file of `fileDisk` after one byte was written to it. -/
def oneByte : (Except (Fault VfsError) Nat × FileOp) × Disk :=
  (Fat32File.write smallFs ⟨['A'], 2, 0⟩ 0 [7] ⟨.new, 0, 0⟩).run Disk.handle fileDisk

/-- **`truncate(2^32)` empties the file.** -/
theorem truncate_wraps :
    oneByte.1.2.size = 1 ∧
    ((Fat32File.truncate smallFs ⟨['A'], 2, 0⟩ (2 ^ 32)
      ⟨.new, oneByte.1.2.startCluster, oneByte.1.2.size⟩).run Disk.handle oneByte.2).1.1.toOption =
        some () ∧
    ((Fat32File.truncate smallFs ⟨['A'], 2, 0⟩ (2 ^ 32)
      ⟨.new, oneByte.1.2.startCluster, oneByte.1.2.size⟩).run Disk.handle oneByte.2).1.2.size = 0 := by
  decide +kernel

end Kerners.Fat32
