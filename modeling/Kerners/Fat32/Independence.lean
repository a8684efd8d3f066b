import Kerners.Fat32.Concurrent

/-!
# Several files on one volume (`src/fs/fat32/mod.rs`)

A handle of each of several files, and calls on them in any order. They share the FAT, the free
clusters and their directories; still each is a byte file of its own.
-/

namespace Kerners.Fat32

open Lib Kerners.Block Function

variable {ι : Type} [DecidableEq ι] {fs : Fat32FileSystem} {f : ι → Fat32File} {s : ι → FileState}
  {d : Disk} {data : ι → Bytes}

/-- Calls on the files `f`, whose handles have the states `s`. -/
def filesRun (fs : Fat32FileSystem) (f : ι → Fat32File) (s : ι → FileState) (d : Disk) :
    List (ι × FileCmd) → List (Except (Fault VfsError) FileResult)
  | [] => []
  | (i, c) :: cs =>
    let r := c.onFat32 fs (f i) (s i) d
    r.1 :: filesRun fs f (update s i r.2.1) r.2.2 cs

/-- The same calls on `RamFsFile`s. -/
def ramsRun (data : ι → Bytes) : List (ι × FileCmd) → List FileResult
  | [] => []
  | (i, c) :: cs => (c.onRam (data i)).1 :: ramsRun (update data i (c.onRam (data i)).2) cs

def NoGapsIn (data : ι → Bytes) : List (ι × FileCmd) → Prop
  | [] => True
  | (i, c) :: cs => c.NoGap (data i).length ∧ NoGapsIn (update data i (c.onRam (data i)).2) cs

structure FilesOn (fs : Fat32FileSystem) (f : ι → Fat32File) (s : ι → FileState) (d : Disk)
    (data : ι → Bytes) (o : ι → Own) : Prop where
  file : ∀ i, ∃ l, Represents fs (f i) (s i) d (data i) (o i) l
  apart : ∀ i j, i ≠ j → Apart fs (o i) (o j)

theorem FilesOn.step {o : ι → Own} (hs : SmallVolume fs) (h : FilesOn fs f s d data o) {i : ι}
    {c : FileCmd} (hv : c.Valid) (hgap : c.NoGap (data i).length)
    (hok : ¬ failed (c.onFat32 fs (f i) (s i) d).1) :
    (c.onFat32 fs (f i) (s i) d).1 = .ok (c.onRam (data i)).1 ∧
      ∃ o', FilesOn fs f (update s i (c.onFat32 fs (f i) (s i) d).2.1)
        (c.onFat32 fs (f i) (s i) d).2.2 (update data i (c.onRam (data i)).2) o' := by
  obtain ⟨l, hi⟩ := h.file i
  obtain ⟨-, ⟨hfail, -⟩ | ⟨hres, oi, li, evs, hkeep, hi'⟩⟩ := hi.call_keeps hs hv hgap
  · exact absurd hfail hok
  have hapart : ∀ j, j ≠ i → Apart fs oi (o j) := fun j hj => by
    obtain ⟨lj, hj'⟩ := h.file j
    exact (h.apart i j hj.symm).keeps hs hj'.compat.2 hkeep
  refine ⟨hres, update o i oi, fun j => ?_, fun j k hjk => ?_⟩
  · by_cases hj : j = i
    · subst hj
      exact ⟨li, by simpa only [update_self] using hi'⟩
    · -- nothing that another file relies on is changed
      obtain ⟨lj, hj'⟩ := h.file j
      have hold := (h.apart i j (Ne.symm hj)).holds hs hj'.compat.2 hkeep hi'.compat.2
        (.inl hj'.place.avoid)
      rw [update_of_ne hj, update_of_ne hj, update_of_ne hj]
      exact ⟨lj, { hj' with compat := ⟨hi'.compat.1, hold⟩ }⟩
  · by_cases hj : j = i
    · subst hj
      rw [update_self, update_of_ne hjk.symm]
      exact hapart k hjk.symm
    · by_cases hk : k = i
      · subst hk
        rw [update_self, update_of_ne hj]
        exact (hapart j hj).symm
      · rw [update_of_ne hj, update_of_ne hk]
        exact h.apart j k hjk

theorem FilesOn.run (hs : SmallVolume fs) : ∀ {cs : List (ι × FileCmd)} {s : ι → FileState}
    {d : Disk} {data : ι → Bytes} {o : ι → Own}, FilesOn fs f s d data o →
    (∀ c ∈ cs, c.2.Valid) → NoGapsIn data cs → (∀ r ∈ filesRun fs f s d cs, ¬ failed r) →
    filesRun fs f s d cs = (ramsRun data cs).map .ok
  | [], _, _, _, _, _, _, _, _ => rfl
  | (i, c) :: cs, s, d, data, o, h, hv, hgap, hok => by
    obtain ⟨hres, o', h'⟩ := h.step hs (hv _ List.mem_cons_self) hgap.1 (hok _ List.mem_cons_self)
    have ih := FilesOn.run hs h' (fun c' hc' => hv c' (List.mem_cons_of_mem _ hc')) hgap.2
      fun r hr => hok r (List.mem_cons_of_mem _ hr)
    change (c.onFat32 fs (f i) (s i) d).1 :: filesRun fs f _ _ cs = _
    rw [hres, ih]
    rfl

/-- **Files on one volume are independent**: calls on any number of visible files of a well-formed
volume, in any order, return what they return on as many `RamFsFile`s. -/
theorem files_independent (hs : SmallVolume fs) (hc : Consistent fs d) (hwf : fs.WellFormed d)
    (hf : ∀ i, FileOn fs (fs.readings d) (f i) (s i)) (hstart : ∀ i, (s i).startCluster < fatEocMin)
    (hne : ∀ i j, i ≠ j →
      ((f i).parentCluster, (f i).entryOffset) ≠ ((f j).parentCluster, (f j).entryOffset)) :
    ∃ data : ι → Bytes, (∀ i, (data i).length = (s i).size) ∧
      ∀ cs, (∀ c ∈ cs, c.2.Valid) → NoGapsIn data cs → (∀ r ∈ filesRun fs f s d cs, ¬ failed r) →
        filesRun fs f s d cs = (ramsRun data cs).map .ok := by
  have hok := (wellFormed_iff hc).mp hwf
  choose data l hlen hrep using fun i => (hf i).represents hs hc hwf (hstart i)
  have hon : FilesOn fs f s d data fun i => fileOwn fs (fs.volOf d) (f i) (s i) := by
    refine ⟨fun i => ⟨l i, hrep i⟩, fun i j hij => ?_⟩
    rw [readings_eq hc] at hf
    exact fileOwn_apart hok (hf i) (hf j) (hne i j hij)
  exact ⟨data, hlen, fun cs hv hgap hnf => hon.run hs hv hgap hnf⟩

theorem files_independent_two :
    filesRun smallFs twoFiles (fun _ => ⟨0, 0⟩) twoDisk
      [(false, .write 0 [1, 2]), (true, .write 0 [3]), (false, .read 0 9)] =
      [.ok ⟨[], 2, 2⟩, .ok ⟨[], 1, 1⟩, .ok ⟨[1, 2], 2, 2⟩] := by
  obtain ⟨data, hlen, hrun⟩ := files_independent (f := twoFiles) (s := fun _ => ⟨0, 0⟩)
    smallFs_small smallDisk_consistent twoDisk_wellFormed twoWrites_on (fun _ => by decide)
    (by decide)
  have hdata : data = fun _ => [] := funext fun i => List.length_eq_zero_iff.1 (hlen i)
  subst hdata
  refine (hrun _ ?_ ?_ ?_).trans (by decide)
  · simp [FileCmd.Valid]
  · exact ⟨Nat.le_refl 0, Nat.le_refl 0, trivial, trivial⟩
  · have hall : (filesRun smallFs twoFiles (fun _ => ⟨0, 0⟩) twoDisk
        [(false, .write 0 [1, 2]), (true, .write 0 [3]), (false, .read 0 9)]).all
        (fun r => r.toOption.isSome) = true := by decide +kernel
    rintro r hr (rfl | rfl)
    · exact absurd (List.all_eq_true.1 hall _ hr) (by decide)
    · exact absurd (List.all_eq_true.1 hall _ hr) (by decide)

end Kerners.Fat32
