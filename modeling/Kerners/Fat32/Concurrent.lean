import Kerners.Fat32.AllocOps
import Kerners.Lib.Interleave

/-!
# Two FAT32 writers at once (`src/fs/fat32/mod.rs`, `src/fs/fat32/fat.rs`)

Two operations that allocate clusters run on one device, each in a thread of its own; a turn is one
`read_block` or one `write_block`. The mutex of `alloc_cluster` is in the `FatTable` that each
operation makes for itself, so nothing keeps the scans of the two apart.
-/

namespace Kerners.Fat32

open Lib Kerners.Block

/-! ## Ownerships apart -/

/-- What `o1` may change is nothing that `o2` relies on. A slot that `o2` only avoids may be the
slot of `o1`, which stays in use. -/
structure Spares (fs : Fat32FileSystem) (o1 o2 : Own) : Prop where
  cells : ∀ x, o2.cells x → ¬ o1.cells x
  dir : ∀ x ∈ o2.dirChain, ¬ o1.cells x
  slot : ∀ s, o2.slot = some s → s ∈ slotsOf fs o1.dirChain → ¬ o1.Touches s
  avoid : ∀ s ∈ o2.avoid, s ∈ slotsOf fs o1.dirChain → o1.Touches s → o1.slot = some s

/-- Two operations that own different things; their directories are one or disjoint. -/
structure Apart (fs : Fat32FileSystem) (o1 o2 : Own) : Prop where
  left : Spares fs o1 o2
  right : Spares fs o2 o1
  dirs : o1.dirChain = o2.dirChain ∨ o1.dirChain.Disjoint o2.dirChain

section

variable {fs : Fat32FileSystem} {shared : Prop} {o1 o1' o2 : Own} {v v' : Vol} {evs : List Nat}

theorem Apart.symm (h : Apart fs o1 o2) : Apart fs o2 o1 :=
  ⟨h.right, h.left, h.dirs.imp Eq.symm List.Disjoint.symm⟩

theorem Apart.slot_eq (hs : SmallVolume fs) (ha : Apart fs o1 o2) (h2 : Holds fs shared o2 v)
    (hk : Keeps fs o1 o1' evs v v') {s : Slot} (hmem : s ∈ slotsOf fs o2.dirChain)
    (ht : s ∈ slotsOf fs o1.dirChain → ¬ o1.Touches s) : v'.slot s = v.slot s := by
  rcases ha.dirs with heq | hdisj
  · have hmem1 : s ∈ slotsOf fs o1.dirChain := heq ▸ hmem
    exact hk.slots s hmem1 (ht hmem1)
  · have hx := (mem_slotsOf.mp hmem).1
    have hused := h2.dir.used hx
    rw [hs.fatIndex_eq (h2.dir.inRange hx)] at hused
    unfold Vol.slot
    rw [hk.data s.1 (h2.dir.inRange hx) ⟨ha.left.dir s.1 hx, hused⟩ fun h => hdisj h hx]

theorem Apart.holds (hs : SmallVolume fs) (ha : Apart fs o1 o2) (h2 : Holds fs shared o2 v)
    (hk : Keeps fs o1 o1' evs v v') (h1' : Holds fs shared o1' v') (hno : o2.avoid = [] ∨ shared) :
    Holds fs shared o2 v' := by
  have hcell : ∀ x, o2.cells x → fs.InRange x ∧ o1.Foreign v x := fun x hx =>
    ⟨(h2.cells x hx).1, ha.left.cells x hx, (h2.cells x hx).2.1⟩
  have hfat : ∀ x, o2.cells x → v'.fat x = v.fat x := fun x hx =>
    hk.fat x (hcell x hx).1 (hcell x hx).2
  constructor
  case dir =>
    refine h2.dir.congr fun x hx => ?_
    have hr := h2.dir.inRange hx
    have hused := h2.dir.used hx
    rw [hs.fatIndex_eq hr] at hused ⊢
    exact hk.fat x hr ⟨ha.left.dir x hx, hused⟩
  case cells =>
    intro x hx
    obtain ⟨hr, hused, hnd⟩ := h2.cells x hx
    exact ⟨hr, by rwa [hfat x hx], hnd⟩
  case fat =>
    intro x hx
    rw [hfat x hx]
    exact h2.fat x hx
  case copies =>
    intro x hx
    rw [hk.copies x (.inr (hcell x hx))]
    exact h2.copies x hx
  case data =>
    intro x hx
    rw [hk.data x (hcell x hx).1 (hcell x hx).2 fun hd => ha.right.dir x hd hx]
    exact h2.data x hx
  case slot =>
    intro s hslot
    obtain ⟨hmem, hbytes, hlive⟩ := h2.slot s hslot
    exact ⟨hmem, (ha.slot_eq hs h2 hk hmem (ha.left.slot s hslot)).trans hbytes, hlive⟩
  case avoid =>
    intro s hav
    obtain ⟨hmem, hlive⟩ := h2.avoid s hav
    refine ⟨hmem, ?_⟩
    by_cases ht : s ∈ slotsOf fs o1.dirChain ∧ o1.Touches s
    · have hslot := ha.left.avoid s hav ht.1 ht.2
      obtain ⟨-, hbytes, hlive'⟩ := h1'.slot s (hk.slot.trans hslot)
      rw [hbytes]
      rcases hno with hno | hshared
      · simp [hno] at hav
      · exact hlive' hshared
    · rwa [ha.slot_eq hs h2 hk hmem fun hm htouch => ht ⟨hm, htouch⟩]
  case got => exact h2.got

theorem Apart.keeps (hs : SmallVolume fs) (ha : Apart fs o1 o2) (h2 : Holds fs shared o2 v)
    (hk : Keeps fs o1 o1' evs v v') : Apart fs o1' o2 := by
  have hcells : ∀ x, o2.cells x → ¬ o1'.cells x := fun x hx hx' => by
    rcases hk.fresh x hx' with h | h
    · exact ha.left.cells x hx h
    · exact (h2.cells x hx).2.1 h.2
  have hdir : ∀ x ∈ o2.dirChain, ¬ o1'.cells x := fun x hx hx' => by
    rcases hk.fresh x hx' with h | h
    · exact ha.left.dir x hx h
    · have hused := h2.dir.used hx
      rw [hs.fatIndex_eq h.1] at hused
      exact hused h.2
  refine ⟨⟨hcells, hdir, ?_, ?_⟩, ⟨fun x hx hx' => hcells x hx' hx, ?_, ?_, ?_⟩, ?_⟩
  · intro s hslot hmem ht
    exact ha.left.slot s hslot (hk.dirChain ▸ hmem) ((Own.touches_congr hk.slot hk.avoid).1 ht)
  · intro s hav hmem ht
    exact hk.slot.trans
      (ha.left.avoid s hav (hk.dirChain ▸ hmem) ((Own.touches_congr hk.slot hk.avoid).1 ht))
  · rw [hk.dirChain]
    exact ha.right.dir
  · rw [hk.slot]
    exact ha.right.slot
  · rw [hk.avoid]
    exact ha.right.avoid
  · rw [hk.dirChain]
    exact ha.dirs

theorem localProtocol_stable (hs : SmallVolume fs) : (localProtocol fs True).Stable (Apart fs) where
  symm := Apart.symm
  keep := fun ha _ h2 hk h1' => ⟨⟨h1'.1, ha.holds hs h2.2 hk h1'.2 (.inr trivial)⟩, ha.keeps hs h2.2 hk⟩

end

/-! ## Operations on different files -/

open List

section

variable {fs : Fat32FileSystem} {v : Vol} {f f' : Fat32File} {s s' : FileState}
  {dir dir' : Fat32Dir} {a b : AllocOp}

theorem Chain.two_le {c : Nat} {l : List Nat} (h : Chain fs v c l) : 2 ≤ c := by
  cases h with
  | done h => exact Nat.le_trans (by decide) h
  | step h _ => exact h.1.1

theorem fileOwn_apart (hok : VolOk fs v) (hf : FileOn fs (readingsOf fs v) f s)
    (hf' : FileOn fs (readingsOf fs v) f' s')
    (hne : (f.parentCluster, f.entryOffset) ≠ (f'.parentCluster, f'.entryOffset)) :
    Apart fs (fileOwn fs v f s) (fileOwn fs v f' s') := by
  obtain ⟨w, hd⟩ := hf.dirs
  obtain ⟨w', hd'⟩ := hf'.dirs
  have hcells := hok.files_disjoint hf hf' hne
  have hslot := hok.slotIn_ne hf hf' hne
  refine ⟨⟨fun x hx' hx => hcells hx hx', fun x hx' hx => hok.file_dir_disjoint hf hd' hx hx', ?_,
    fun _ h => by cases h⟩, ⟨fun x hx hx' => hcells hx hx',
    fun x hx hx' => hok.file_dir_disjoint hf' hd hx' hx, ?_, fun _ h => by cases h⟩,
    (hok.dirs_disjoint hd hd' hf.two_le hf'.two_le).imp_left (congrArg (listAt fs v))⟩
  · rintro _ ⟨⟩ - ht
    exact hslot ht.symm
  · rintro _ ⟨⟩ - ht
    exact hslot ht

theorem fileOwn_dirOwn_apart (hok : VolOk fs v) (hf : FileOn fs (readingsOf fs v) f s)
    (hdir : ∃ w, Dirs fs (readingsOf fs v) w dir.cluster) (ha : a.file = some f) :
    Apart fs (fileOwn fs v f s) (dirOwn fs v dir a) := by
  obtain ⟨w, hd⟩ := hf.dirs
  obtain ⟨⟨w', hd'⟩, hchain⟩ := hok.startIn hdir
  refine ⟨⟨fun _ h => h.elim, fun x hx' hx => hok.file_dir_disjoint hf hd' hx hx',
    fun _ h => (by cases h), ?_⟩, ⟨fun _ _ h => h, fun _ _ h => h, ?_, fun _ h => by cases h⟩,
    (hok.dirs_disjoint hd hd' hf.two_le (Chain.two_le hchain)).imp_left (congrArg (listAt fs v))⟩
  · intro sl hsl _ _
    obtain ⟨hsl, -⟩ := mem_filter.1 hsl
    rw [ha] at hsl
    simpa [eq_comm, fileOwn] using hsl
  · rintro _ ⟨⟩ hmem ht
    refine ht (mem_filter.2 ⟨?_, decide_eq_true hmem⟩)
    simp [ha]

theorem dirOwn_apart (hok : VolOk fs v) (hdir : ∃ w, Dirs fs (readingsOf fs v) w dir.cluster)
    (hdir' : ∃ w, Dirs fs (readingsOf fs v) w dir'.cluster) (ha : a.file = none)
    (hb : b.file = none) : Apart fs (dirOwn fs v dir b) (dirOwn fs v dir' a) := by
  obtain ⟨⟨w, hd⟩, hchain⟩ := hok.startIn hdir
  obtain ⟨⟨w', hd'⟩, hchain'⟩ := hok.startIn hdir'
  refine ⟨⟨fun _ h => h.elim, fun _ _ h => h, fun _ h => (by cases h), fun sl hsl => ?_⟩,
    ⟨fun _ h => h.elim, fun _ _ h => h, fun _ h => (by cases h), fun sl hsl => ?_⟩,
    (hok.dirs_disjoint hd hd' (Chain.two_le hchain) (Chain.two_le hchain')).imp_left
      (congrArg (listAt fs v))⟩
  · simp [dirOwn, ha] at hsl
  · simp [dirOwn, hb] at hsl

theorem AllocOp.own_apart (hok : VolOk fs v) (ha : a.On fs (readingsOf fs v))
    (hb : b.On fs (readingsOf fs v)) (hne : a.Differs b) :
    Apart fs (a.own fs v b) (b.own fs v a) := by
  cases a with
  | write f | truncate f =>
    cases b with
    | write f' | truncate f' => exact fileOwn_apart hok ha hb (hne f f' rfl rfl)
    | createDirectory dir => exact fileOwn_dirOwn_apart hok ha hb rfl
  | createDirectory dir =>
    cases b with
    | write f' | truncate f' => exact (fileOwn_dirOwn_apart hok hb ha rfl).symm
    | createDirectory dir' => exact dirOwn_apart hok ha hb rfl rfl

end

/-! ## Two operations at once -/

section

variable {fs : Fat32FileSystem} {d : Disk} {ops : Bool → AllocOp}
  {c : Conf Bool Disk (Running Cmd Resp CallKind Nat AllocEnd)}

/-- Two operations that start on the disk `d`, one in each thread. -/
def atOnce (fs : Fat32FileSystem) (ops : Bool → AllocOp) (d : Disk) :
    Conf Bool Disk (Running Cmd Resp CallKind Nat AllocEnd) :=
  ⟨d, fun i => .start ((ops i).prog fs)⟩

theorem Apart.cells_disjoint {o1 o2 : Own} (h : Apart fs o1 o2) {l1 l2 : List Nat}
    (h1 : ∀ x ∈ l1, o1.cells x) (h2 : ∀ x ∈ l2, o2.cells x) : l1.Disjoint l2 := fun x hx1 hx2 =>
  h.left.cells x (h2 x hx2) (h1 x hx1)

theorem atOnce_interleaved (hs : SmallVolume fs) (hc : Consistent fs d) (hwf : fs.WellFormed d)
    (hon : ∀ i, (ops i).On fs (fs.readings d)) (hne : (ops false).Differs (ops true))
    (hr : Reach (Fires (Conf.next (Running.turn Disk.handle)) (localProtocol fs True).WholeCalls)
        (atOnce fs ops d) c) :
    ∃ o b,
      Protocol.Interleaved (localProtocol fs True) (Apart fs) (fun o e => o.got = e)
        (fun i => (ops i).Ends fs) c o b := by
  have hok := (wellFormed_iff hc).mp hwf
  have hfull : FullClusters fs (fs.volOf d) := fun x hx => (presents_volOf hc).data_length hx
  rw [readings_eq hc] at hon
  have hapart := AllocOp.own_apart hok (hon false) (hon true) hne
  refine Protocol.interleaved_of_reach (P := localProtocol fs True)
    (o := fun i => (ops i).own fs (fs.volOf d) (ops !i)) (localProtocol_stable hs)
    (fun h hk => by rw [hk.got, h]) (fun i => ⟨hc, AllocOp.own_holds hs hok (hon i) (hon !i)⟩)
    ?_ ?_ (fun i => AllocOp.safe hs hok hfull (hon i)) hr
  · rintro (_ | _) (_ | _) hij
    · exact absurd rfl hij
    · exact hapart
    · exact hapart.symm
    · exact absurd rfl hij
  · intro i
    cases ops i <;> rfl

/-- **Two operations on different files get different clusters, and leave disjoint chains**, while
the commands of one call are not mixed with those of another and a cluster is free for each
`alloc_cluster`. -/
theorem allocs_disjoint (hs : SmallVolume fs) (hc : Consistent fs d) (hwf : fs.WellFormed d)
    (hon : ∀ i, (ops i).On fs (fs.readings d)) (hne : (ops false).Differs (ops true))
    (hr : Reach (Fires (Conf.next (Running.turn Disk.handle)) (localProtocol fs True).WholeCalls)
        (atOnce fs ops d) c) :
    (c.thread false).got.Disjoint (c.thread true).got ∧
    ∀ r1 r2, (c.thread false).result = some r1 → (c.thread true).result = some r2 →
        ∃ l1 l2, (ops false).ChainOn fs c.shared r1 l1 ∧
          (ops true).ChainOn fs c.shared r2 l2 ∧
          l1.Disjoint l2 := by
  obtain ⟨o, b, h⟩ := atOnce_interleaved hs hc hwf hon hne hr
  have hapart := h.apart false true (by decide)
  refine ⟨hapart.cells_disjoint (fun x hx => ?_) fun x hx => ?_, fun r1 r2 h1 h2 => ?_⟩
  · exact (h.stands false).compat.2.got trivial x ((h.stands false).has ▸ hx)
  · exact (h.stands true).compat.2.got trivial x ((h.stands true).has ▸ hx)
  · obtain ⟨hout1, hend1⟩ := h.ended h1
    obtain ⟨hout2, hend2⟩ := h.ended h2
    have hb : c.shared = b := h.between fun i => by cases i <;> assumption
    obtain ⟨l1, hl1, hin1⟩ := hend1.chainOn hs (h.stands false).compat
    obtain ⟨l2, hl2, hin2⟩ := hend2.chainOn hs (h.stands true).compat
    rw [hb]
    exact ⟨l1, l2, hl1, hl2, hapart.cells_disjoint hin1 hin2⟩

end

/-! ## Two writers -/

/-- A root directory with the empty files `A` and `B`. -/
def twoRoot : Bytes :=
  (DirEntry.newFile ['A'] 0 0).toBytes ++ (DirEntry.newFile ['B'] 0 0).toBytes ++
    List.replicate 448 0

/-- The file system of `smallFs` with the empty files `A` and `B`. -/
def twoDisk : Disk := smallDisk twoRoot
  (by rw [twoRoot, List.length_append, List.length_append, DirEntry.toBytes_length,
    DirEntry.toBytes_length, List.length_replicate]) 0xAA

theorem twoDisk_entries : (smallFs.readings twoDisk).entries 2 =
    [⟨['A'], DirEntry.newFile ['A'] 0 0, 0⟩, ⟨['B'], DirEntry.newFile ['B'] 0 0, 32⟩] := by
  decide +kernel

theorem twoDisk_emptyFiles : EmptyFiles smallFs twoDisk := by
  intro e he
  change e ∈ (smallFs.readings twoDisk).entries 2 at he
  rw [twoDisk_entries] at he
  rcases mem_pair.1 he with rfl | rfl <;> decide

theorem twoDisk_wellFormed : smallFs.WellFormed twoDisk :=
  twoDisk_emptyFiles.wellFormed smallDisk_consistent
    (.step (smallFs_small.cell (by decide)) (.done (by decide +kernel)))
    (by decide +kernel :
      List.Pairwise (fun a b : Bytes => a.getD 0 0 = 0x00 → b.getD 0 0 = 0x00)
        ((slotsOf smallFs [2]).map (smallFs.volOf twoDisk).slot))

/-- The files `A` and `B`. -/
def twoFiles : Bool → Fat32File
  | false => ⟨['A'], 2, 0⟩
  | true => ⟨['B'], 2, 32⟩

def twoWrites (i : Bool) : AllocOp := .write (twoFiles i) ⟨0, 0⟩ 0 [7]

theorem twoWrites_on (i : Bool) : (twoWrites i).On smallFs (smallFs.readings twoDisk) := by
  have hdir : Dirs smallFs (smallFs.readings twoDisk) .root 2 := .root
  cases i with
  | false =>
    refine ⟨.root, ⟨2, []⟩, ⟨['A'], DirEntry.newFile ['A'] 0 0, 0⟩, hdir, ?_, by decide⟩
    exact twoDisk_entries ▸ mem_cons_self
  | true =>
    refine ⟨.root, ⟨2, []⟩, ⟨['B'], DirEntry.newFile ['B'] 0 0, 32⟩, hdir, ?_, by decide⟩
    exact twoDisk_entries ▸ mem_cons_of_mem _ mem_cons_self

theorem twoWrites_differ : (twoWrites false).Differs (twoWrites true) := by
  rintro _ _ ⟨⟩ ⟨⟩
  decide

/-- The write to file `i` has ended; the start cluster of the file is `k`, a chain of its own. -/
def Wrote (c : Conf Bool Disk (Running Cmd Resp CallKind Nat AllocEnd)) (i : Bool) (k : Nat) :
    Prop :=
  (c.thread i).result.isSome = true ∧ (c.thread i).got = [k] ∧
    ((twoFiles i).entryOn smallFs c.shared).map DirEntry.cluster = some k ∧
    ((smallFs.readings c.shared).chain k).toOption = some [k]

instance (c : Conf Bool Disk (Running Cmd Resp CallKind Nat AllocEnd)) (i : Bool) (k : Nat) :
    Decidable (Wrote c i k) := inferInstanceAs (Decidable (_ ∧ _))

theorem Wrote.chainOn {c : Conf Bool Disk (Running Cmd Resp CallKind Nat AllocEnd)} {i : Bool}
    {k : Nat} (h : Wrote c i k) : ∃ r, (c.thread i).result = some r ∧
      (twoWrites i).ChainOn smallFs c.shared r [k] := by
  obtain ⟨hend, -, hentry, hchain⟩ := h
  obtain ⟨r, hr⟩ := Option.isSome_iff_exists.1 hend
  obtain ⟨e, he, rfl⟩ := Option.map_eq_some_iff.1 hentry
  refine ⟨r, hr, e, he, ?_⟩
  cases hl : (smallFs.readings c.shared).chain e.cluster with
  | ok l => rw [hl] at hchain; exact congrArg _ (Option.some.inj hchain)
  | error => rw [hl] at hchain; cases hchain

instance (fs : Fat32FileSystem) (kind : CallKind) (d : Disk) :
    Decidable ((localProtocol fs True).cond kind d) :=
  decidable_of_iff (kind = .allocCluster → ∃ c, c < fs.totalClusters + 2 ∧
      2 ≤ c ∧ (fs.volOf d).fat (fatIndex c) = fatFree)
    ⟨fun h _ hk => (h hk).imp fun _ hc => ⟨⟨hc.2.1, hc.1⟩, hc.2.2⟩,
      fun h hk => (h trivial hk).imp fun _ hc => ⟨hc.1.2, hc.1.1, hc.2⟩⟩

theorem allocs_disjoint_two_writes :
    ∃ c r1 r2,
      Reach (Fires (Conf.next (Running.turn Disk.handle)) (localProtocol smallFs True).WholeCalls)
        (atOnce smallFs twoWrites twoDisk) c ∧
      (c.thread false).got = [3] ∧
      (c.thread true).got = [4] ∧
      (c.thread false).result = some r1 ∧
      (c.thread true).result = some r2 ∧
      ∃ l1 l2, (twoWrites false).ChainOn smallFs c.shared r1 l1 ∧
        (twoWrites true).ChainOn smallFs c.shared r2 l2 ∧
        l1.Disjoint l2 := by
  obtain ⟨c, hr, h1, h2⟩ : ∃ c, Reach (Fires (Conf.next (Running.turn Disk.handle))
      (localProtocol smallFs True).WholeCalls) (atOnce smallFs twoWrites twoDisk) c ∧
        Wrote c false 3 ∧ Wrote c true 4 :=
    exists_reach (List.replicate 6 (false, ()) ++ List.replicate 21 (true, ()) ++
      List.replicate 14 (false, ())) (by decide +kernel)
  obtain ⟨r1, hr1, -⟩ := h1.chainOn
  obtain ⟨r2, hr2, -⟩ := h2.chainOn
  exact ⟨c, r1, r2, hr, h1.2.1, h2.2.1, hr1, hr2, (allocs_disjoint smallFs_small
    smallDisk_consistent twoDisk_wellFormed twoWrites_on twoWrites_differ hr).2 r1 r2 hr1 hr2⟩

/-- **Two writers get the same cluster**: the first one has found cluster 3 free and has not marked
it yet when the second one runs. Both files end with cluster 3 as their chain. -/
theorem writers_share_cluster :
    Consistent smallFs twoDisk ∧ smallFs.WellFormed twoDisk ∧
    (∀ i, (twoWrites i).On smallFs (smallFs.readings twoDisk)) ∧
    (twoWrites false).Differs (twoWrites true) ∧
    ∃ c r1 r2, Reach (Fires (Conf.next (Running.turn Disk.handle)) fun _ _ => True)
        (atOnce smallFs twoWrites twoDisk) c ∧
      (c.thread false).got = [3] ∧ (c.thread true).got = [3] ∧
      (c.thread false).result = some r1 ∧ (c.thread true).result = some r2 ∧
      (twoWrites false).ChainOn smallFs c.shared r1 [3] ∧
      (twoWrites true).ChainOn smallFs c.shared r2 [3] := by
  obtain ⟨c, hr, h1, h2⟩ : ∃ c, Reach (Fires (Conf.next (Running.turn Disk.handle)) fun _ _ => True)
      (atOnce smallFs twoWrites twoDisk) c ∧ Wrote c false 3 ∧ Wrote c true 3 :=
    exists_reach (List.replicate 3 (false, ()) ++ List.replicate 20 (true, ()) ++
      List.replicate 17 (false, ())) (by decide +kernel)
  obtain ⟨r1, hr1, hl1⟩ := h1.chainOn
  obtain ⟨r2, hr2, hl2⟩ := h2.chainOn
  exact ⟨smallDisk_consistent, twoDisk_wellFormed, twoWrites_on, twoWrites_differ, c, r1, r2, hr,
    h1.2.1, h2.2.1, hr1, hr2, hl1, hl2⟩

end Kerners.Fat32
