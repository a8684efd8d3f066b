import Kerners.Fat32.Handles

/-!
# The operations that allocate clusters (`src/fs/fat32/mod.rs`)

`Fat32File::write`, `Fat32File::truncate` and `Fat32Dir::create_directory` each make a `FatTable` of
their own. An `AllocOp` is one of them with its vnode and arguments, as a program of calls on the
device. Beside another operation it owns the clusters and the slot of its file
(`fileOwn`), or nothing yet but must leave the other's slot alone (`dirOwn`).
-/

namespace Kerners.Fat32

open Lib Kerners.Block

/-! ## The operations -/

inductive AllocOp where
  | write (f : Fat32File) (s : FileState) (offset : Nat) (buf : Bytes)
  | truncate (f : Fat32File) (s : FileState) (newSize : Nat)
  | createDirectory (dir : Fat32Dir) (name : Str)

inductive AllocEnd where
  | wrote (r : Except (Fault VfsError) Nat)
  | truncated (r : Except (Fault VfsError) Unit)
  | made (r : Except (Fault VfsError) VNode)

namespace AllocOp

/-- The program of the operation, with a `FatTable` of its own. -/
def prog (fs : Fat32FileSystem) : AllocOp → Prog Cmd Resp (Mark CallKind Nat) AllocEnd
  | .write f s offset buf => do
    let r ← f.write fs offset buf ⟨FatTable.new, s.startCluster, s.size⟩
    pure (.wrote r.1)
  | .truncate f s newSize => do
    let r ← f.truncate fs newSize ⟨FatTable.new, s.startCluster, s.size⟩
    pure (.truncated r.1)
  | .createDirectory dir name => do
    let r ← (dir.createDirectory fs name : OpM Unit VNode) ()
    pure (.made r.1)

def On (fs : Fat32FileSystem) (R : Readings) : AllocOp → Prop
  | .write f s _ _ | .truncate f s _ => FileOn fs R f s
  | .createDirectory dir _ => ∃ w, Dirs fs R w dir.cluster

/-- The file that the operation goes to; a new directory has no place yet. -/
def file : AllocOp → Option Fat32File
  | .write f _ _ _ | .truncate f _ _ => some f
  | .createDirectory _ _ => none

def Differs (a b : AllocOp) : Prop :=
  ∀ f f', a.file = some f → b.file = some f' →
    (f.parentCluster, f.entryOffset) ≠ (f'.parentCluster, f'.entryOffset)

def ChainOn (fs : Fat32FileSystem) (d : Disk) : AllocOp → AllocEnd → List Nat → Prop
  | .write f _ _ _, _, l | .truncate f _ _, _, l =>
    ∃ e, f.entryOn fs d = some e ∧ (fs.readings d).chain e.cluster = .ok l
  | .createDirectory _ _, .made (.ok (.dir dir)), l => (fs.readings d).chain dir.cluster = .ok l
  | .createDirectory _ _, _, l => l = []

end AllocOp

/-! ## `create_directory` -/

section

variable {fs : Fat32FileSystem} {shared : Prop} {o : Own} {σ : Type} {t : σ}

/-- The outcome of `create_directory`: the new directory is the cluster that the operation got. -/
def MakeDone (fs : Fat32FileSystem) (name : Str) : Except (Fault VfsError) VNode → Own → Prop
  | .ok node, o' => ∃ c, node = .dir ⟨c, name⟩ ∧ FileIn fs o' c [c]
  | .error _, _ => True

theorem findFreeEntrySlot_safe_small {dir : Fat32Dir} (hdir : dir.cluster < 2)
    {Q : Except (Fault VfsError) Nat → σ → Own → Prop} (hfull : Q (.error (.err .noSpace)) t o) :
    (localProtocol fs shared).SafeM (vfsCall (dir.findFreeEntrySlot fs)) t o Q :=
  safeM_vfsCall (safeM_call fun _ _ hold _ =>
    ⟨_, _, _, o, findFreeEntrySlot_runs (chainOf_small hdir), Keeps.refl o _, hold, hfull⟩)

theorem createDirectory_safe (hs : SmallVolume fs) {dir : Fat32Dir} (hcells : ∀ x, ¬ o.cells x)
    (hslot : o.slot = none) (hdir : dir.cluster = o.dir ∨ dir.cluster < 2) (name : Str) :
    (localProtocol fs shared).SafeM (dir.createDirectory fs name) t o fun r _ o' =>
      MakeDone fs name r o' := by
  unfold Fat32Dir.createDirectory
  refine .bind (.within (.mapErr
    (allocCall_safe hs (hintOk_new fs) ?_ fun _ => trivial)))
  intro c bs es t' hr _ _ _
  have hin : (o.take c bs es).cells c := .inl rfl
  have hdata : (dir.newDirData fs c).length = fs.boot.clusterSize := newDirData_length dir c
  refine .bind (writeCluster_safe hs hin hdata ?_)
  have hchain : Chain fs (o.take c bs es).vol c [c] := chain_take hs hr
  have hfile : FileIn fs ((o.take c bs es).setData c (dir.newDirData fs c)) c [c] := by
    refine ⟨fun _ => hchain.congr fun _ _ => rfl, fun h => absurd hr.1 (by omega), fun x => ?_,
      fun x hx => ?_⟩
    · change x = c ∨ o.cells x ↔ _
      simp [hcells x]
    · obtain rfl := List.mem_singleton.1 hx
      change (((o.take x bs es).vol.setData x _).data x).length = _
      rw [Vol.setData_self, hdata]
  rcases hdir with hdir | hdir
  · have hslot' : ((o.take c bs es).setData c (dir.newDirData fs c)).slot = none := hslot
    refine .bind (findFreeEntrySlot_safe hslot' hdir trivial fun i s hi ht => ?_)
    refine .bind (writeDirEntry_safe hslot' hdir hi ht _ (.pure ?_))
    exact ⟨c, rfl, hfile⟩
  · exact .bind (findFreeEntrySlot_safe_small hdir trivial)

end

/-! ## What the operations own at the start -/

/-- The directory whose slots `create_directory` may write; a vnode without clusters has none, and
any will do. -/
def Fat32Dir.startIn (fs : Fat32FileSystem) (dir : Fat32Dir) : Nat :=
  if 2 ≤ dir.cluster then dir.cluster else fs.root

/-- `create_directory` owns nothing yet, and must not write the slot of the other's file. -/
def dirOwn (fs : Fat32FileSystem) (v : Vol) (dir : Fat32Dir) (other : AllocOp) : Own :=
  ⟨v, fun _ => False, dir.startIn fs, listAt fs v (dir.startIn fs), none, .empty,
    (other.file.map fun f => f.slotIn fs v).toList.filter
      (· ∈ slotsOf fs (listAt fs v (dir.startIn fs))), []⟩

/-- What an operation owns beside `other`. -/
def AllocOp.own (fs : Fat32FileSystem) (v : Vol) : AllocOp → AllocOp → Own
  | .write f s _ _, _ | .truncate f s _, _ => fileOwn fs v f s
  | .createDirectory dir _, other => dirOwn fs v dir other

section

variable {fs : Fat32FileSystem} {v : Vol} {f : Fat32File} {dir : Fat32Dir} {a b : AllocOp}

theorem VolOk.startIn (hok : VolOk fs v) (hdir : ∃ w, Dirs fs (readingsOf fs v) w dir.cluster) :
    (∃ w, Dirs fs (readingsOf fs v) w (dir.startIn fs)) ∧
      Chain fs v (dir.startIn fs) (listAt fs v (dir.startIn fs)) := by
  unfold Fat32Dir.startIn
  split
  · next h2 =>
    obtain ⟨w, hd⟩ := hdir
    exact ⟨⟨w, hd⟩, hok.dirChain hd h2⟩
  · obtain ⟨l, hl⟩ := hok.chain _ _ (.root : Owns fs (readingsOf fs v) .root fs.root)
    exact ⟨⟨.root, .root⟩, by rwa [listAt_of_chain hl]⟩

theorem AllocOp.On.file (h : b.On fs (readingsOf fs v)) (hf : b.file = some f) :
    ∃ s, FileOn fs (readingsOf fs v) f s := by
  cases b with
  | write _ s | truncate _ s =>
    obtain rfl := Option.some.inj hf
    exact ⟨s, h⟩
  | createDirectory => cases hf

theorem dirOwn_holds (hok : VolOk fs v) (hdir : ∃ w, Dirs fs (readingsOf fs v) w dir.cluster)
    (hb : b.On fs (readingsOf fs v)) : Holds fs True (dirOwn fs v dir b) v := by
  constructor
  case dir => exact (hok.startIn hdir).2
  case cells => exact fun _ h => h.elim
  case fat => exact fun _ h => h.elim
  case copies => exact fun _ h => h.elim
  case data => exact fun _ h => h.elim
  case slot => exact fun _ h => by cases h
  case avoid =>
    intro sl hsl
    obtain ⟨hsl, hmem⟩ := List.mem_filter.1 hsl
    obtain ⟨f, hf, rfl⟩ := Option.map_eq_some_iff.1 (Option.mem_toList.1 hsl)
    obtain ⟨s, hon⟩ := hb.file hf
    exact ⟨of_decide_eq_true hmem, (hok.fileOn hon).live⟩
  case got => exact fun _ _ h => by cases h

theorem AllocOp.own_holds (hs : SmallVolume fs) (hok : VolOk fs v) (ha : a.On fs (readingsOf fs v))
    (hb : b.On fs (readingsOf fs v)) : Holds fs True (a.own fs v b) v := by
  cases a with
  | write | truncate => exact fileOwn_holds hs hok ha
  | createDirectory => exact dirOwn_holds hok ha hb

end

/-! ## How the operations end -/

structure FileEnds (fs : Fat32FileSystem) (f : Fat32File) (o : Own) : Prop where
  dir : f.parentCluster = o.dir
  slot : ∃ i s, f.entryOffset = i * 32 ∧ (slotsOf fs o.dirChain)[i]? = some s ∧ o.slot = some s
  chain : ∃ l, ChainIn fs o o.entry.cluster l

def AllocOp.Ends (fs : Fat32FileSystem) : AllocOp → AllocEnd → Own → Prop
  | .write f _ _ _, _, o | .truncate f _ _, _, o => FileEnds fs f o
  | .createDirectory _ _, .made (.ok (.dir dir)), o => ∃ l, ChainIn fs o dir.cluster l
  | .createDirectory _ _, _, _ => True

open Protocol.Safe

variable {fs : Fat32FileSystem} {v : Vol} {d : Disk} {f : Fat32File} {s : FileState} {a b : AllocOp}
  {o o' : Own} {l : List Nat} {c : Nat} {t : FileOp}

theorem ChainIn.extends (hs : SmallVolume fs) (h : ChainIn fs o c l) (he : Extends o o') :
    ChainIn fs o' c l := by
  refine ⟨fun h2 => ?_, h.empty, fun x hx => he.cells x (h.cells x hx)⟩
  have hl := h.chain h2
  refine hl.congr fun x hx => ?_
  rw [hs.fatIndex_eq (hl.inRange hx)]
  exact he.fat x (h.cells x hx)

theorem AllocOp.Ends.chainOn (hs : SmallVolume fs) {r : AllocEnd} (h : a.Ends fs r o)
    (hc : (localProtocol fs True).Compat o d) :
    ∃ l, a.ChainOn fs d r l ∧ ∀ x ∈ l, o.cells x := by
  cases a with
  | write f | truncate f =>
    obtain ⟨l, hl⟩ := FileEnds.chain h
    exact ⟨l, ⟨_, entryOn_eq h.dir h.slot hc, hl.read hs hc⟩, hl.cells⟩
  | createDirectory dir name =>
    unfold AllocOp.Ends at h
    unfold AllocOp.ChainOn
    split at h
    case h_3 dir' =>
      obtain ⟨l, hl⟩ := h
      exact ⟨l, hl.read hs hc, hl.cells⟩
    all_goals simp_all

theorem Stored.fileEnds (h : Stored fs o o' t l) (hat : AtSlot fs f o)
    (hlt : t.startCluster < 2 ^ 32) : FileEnds fs f o' := by
  obtain ⟨i, sl, hoff, hi, hslot⟩ := hat.slot
  refine ⟨hat.dir.trans h.dir.symm, ⟨i, sl, hoff, by rwa [h.dirChain], h.slot.trans hslot⟩, l, ?_⟩
  have hcl : o'.entry.cluster = t.startCluster := by
    rw [h.entry]
    exact DirEntry.cluster_setCluster o.entry hlt
  rw [hcl]
  exact h.file.chainIn

theorem Extends.fileEnds (hs : SmallVolume fs) (h : Extends o o') (hat : AtSlot fs f o)
    (hf : FileIn fs o o.entry.cluster l) : FileEnds fs f o' := by
  obtain ⟨i, sl, hoff, hi, hslot⟩ := hat.slot
  refine ⟨hat.dir.trans h.dir.symm, ⟨i, sl, hoff, by rwa [h.dirChain], h.slot.trans hslot⟩, l, ?_⟩
  rw [h.entry]
  exact hf.chainIn.extends hs h

theorem write_ends (hs : SmallVolume fs) (hat : AtSlot fs f o)
    (hf : FileIn fs o t.startCluster l) (ht : HintOk fs t.fat)
    (hstart : t.startCluster = o.entry.cluster) (offset : Nat) (buf : Bytes) :
    (localProtocol fs True).SafeM (f.write fs offset buf) t o fun _ _ o' => FileEnds fs f o' := by
  by_cases hbuf : buf = []
  · subst hbuf
    exact .pure ((Extends.refl o).fileEnds hs hat (hstart ▸ hf))
  · refine .mono (write_stores hs ht hf hat hbuf) ?_
    rintro (e | n) t' o' hq
    · exact hq.1.fileEnds hs hat (hstart ▸ hf)
    · obtain ⟨-, l', junk, hst, -, hkept, -⟩ := hq
      refine hst.fileEnds hat ?_
      by_cases hl : l' = []
      · rw [hkept (.inr hl), hstart]
        have hhi := o.entry.fstClusHi.toNat_lt
        have hlo := o.entry.fstClusLo.toNat_lt
        unfold DirEntry.cluster
        omega
      · exact Nat.lt_trans (hst.file.start_lt hl) (by decide)

theorem truncate_ends (hs : SmallVolume fs) (hat : AtSlot fs f o)
    (hf : FileIn fs o t.startCluster l) (ht : HintOk fs t.fat)
    (hstart : t.startCluster = o.entry.cluster) (hgot : o.got = [])
    (hsize : t.size ≤ l.length * fs.boot.clusterSize) (newSize : Nat) :
    (localProtocol fs True).SafeM (f.truncate fs newSize) t o fun _ _ o' => FileEnds fs f o' := by
  have hmod : f.truncate fs newSize = f.truncate fs (newSize % 2 ^ 32) := by
    unfold Fat32File.truncate
    rw [Nat.mod_mod]
  rw [hmod]
  have hlt : newSize % 2 ^ 32 < 2 ^ 32 := Nat.mod_lt _ (by decide)
  generalize newSize % 2 ^ 32 = n at hlt
  refine .mono (truncate_safe hs ht hf hat hlt fun _ => hgot) ?_
  rintro (e | u) t' o' hq
  · exact hq.1.fileEnds hs hat (hstart ▸ hf)
  · obtain ⟨-, hzero, l', hst, hkept⟩ := hq
    refine hst.fileEnds hat ?_
    rcases Nat.eq_zero_or_pos n with h0 | hpos
    · exact Nat.lt_trans (hzero h0) (by decide)
    · exact Nat.lt_trans (hst.file.start_lt (ne_nil_of_lt hpos (hkept hsize).1)) (by decide)

theorem AllocOp.safe (hs : SmallVolume fs) (hok : VolOk fs v) (hfull : FullClusters fs v)
    (ha : a.On fs (readingsOf fs v)) :
    (localProtocol fs True).Safe (a.prog fs) (a.own fs v b) (a.Ends fs) := by
  cases a with
  | write f s offset buf =>
    obtain ⟨hat, hstart, hf, -⟩ := fileOwn_start hok hfull ha
    exact bind (mono
      (write_ends (t := ⟨.new, s.startCluster, s.size⟩) hs hat hf (hintOk_new fs) hstart offset buf)
      fun _ _ h => pure h)
  | truncate f s newSize =>
    obtain ⟨hat, hstart, hf, hsize⟩ := fileOwn_start hok hfull ha
    exact bind (mono
      (truncate_ends (t := ⟨.new, s.startCluster, s.size⟩) hs hat hf (hintOk_new fs) hstart rfl
        hsize newSize) fun _ _ h => pure h)
  | createDirectory dir name =>
    have hdir : dir.cluster = (dirOwn fs v dir b).dir ∨ dir.cluster < 2 := by
      by_cases h2 : 2 ≤ dir.cluster
      · exact .inl (if_pos h2).symm
      · exact .inr (Nat.not_le.1 h2)
    refine bind (mono
      (createDirectory_safe (t := ()) hs (fun _ h => h) rfl hdir name) ?_)
    rintro ⟨e | node, _⟩ o' h
    · exact pure trivial
    · obtain ⟨c, rfl, hf⟩ := h
      exact pure ⟨[c], hf.chainIn⟩

end Kerners.Fat32
