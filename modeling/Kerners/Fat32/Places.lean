import Kerners.Fat32.Files
import Kerners.Fat32.WellFormed

/-!
# Files and directories of a well-formed volume

Where the visible files of a volume are: the slot and the entry of a file, its chain, and how these
lie to those of the other files and directories.
-/

namespace Kerners.Fat32

open Lib Kerners.Block

/-- `f` is the vnode, with the state `s`, of a visible file. -/
def FileOn (fs : Fat32FileSystem) (R : Readings) (f : Fat32File) (s : FileState) : Prop :=
  ∃ (w : Owner) (dir : Fat32Dir) (e : Listed), Dirs fs R w dir.cluster ∧
    e ∈ R.entries dir.cluster ∧ dir.vnodeOf e = .file f s

def Fat32File.slotIn (fs : Fat32FileSystem) (f : Fat32File) (v : Vol) : Slot :=
  (slotsOf fs (listAt fs v f.parentCluster)).getD (f.entryOffset / 32) (0, 0)

def Fat32File.entryIn (fs : Fat32FileSystem) (f : Fat32File) (v : Vol) : DirEntry :=
  (DirEntry.fromBytes (v.slot (f.slotIn fs v))).getD .empty

/-- A file's operation owns the clusters of the file and its slot. -/
def fileOwn (fs : Fat32FileSystem) (v : Vol) (f : Fat32File) (s : FileState) : Own :=
  ⟨v, (· ∈ listAt fs v s.startCluster), f.parentCluster, listAt fs v f.parentCluster,
    some (f.slotIn fs v), f.entryIn fs v, [], []⟩

/-- **Where a visible file is**: its slot in its directory, its entry and its chain. -/
structure FilePlace (fs : Fat32FileSystem) (v : Vol) (f : Fat32File) (s : FileState) : Prop where
  dir : Chain fs v f.parentCluster (listAt fs v f.parentCluster)
  slot : ∃ i, f.entryOffset = i * 32 ∧
    (slotsOf fs (listAt fs v f.parentCluster))[i]? = some (f.slotIn fs v)
  bytes : v.slot (f.slotIn fs v) = (f.entryIn fs v).toBytes
  live : liveSlot (v.slot (f.slotIn fs v))
  short : (f.entryIn fs v).attr ≠ attrLongName
  notDir : (f.entryIn fs v).isDir = false
  state : s = ⟨(f.entryIn fs v).cluster, (f.entryIn fs v).fileSize.toNat⟩
  chain : 2 ≤ s.startCluster → Chain fs v s.startCluster (listAt fs v s.startCluster)
  size : s.size ≤ (listAt fs v s.startCluster).length * fs.boot.clusterSize

section

variable {fs : Fat32FileSystem} {v : Vol} {f f' : Fat32File} {s s' : FileState} {w w' : Owner}
  {D D' : Nat}

theorem vnodeOf_file {dir : Fat32Dir} {e : Listed} (h : dir.vnodeOf e = .file f s) :
    e.entry.isDir = false ∧ f = ⟨e.name, dir.cluster, e.offset⟩ ∧
      s = ⟨e.entry.cluster, e.entry.fileSize.toNat⟩ := by
  unfold Fat32Dir.vnodeOf at h
  split at h
  · cases h
  · rename_i hd
    obtain ⟨hf, hs⟩ := VNode.file.inj h
    exact ⟨Bool.eq_false_iff.mpr hd, hf.symm, hs.symm⟩

theorem two_le_of_mem {x : Nat} (hx : x ∈ listAt fs v D) : 2 ≤ D := by
  by_contra hlt
  rw [listAt_small (Nat.not_le.1 hlt)] at hx
  cases hx

theorem two_le_of_entry {e : Listed} (he : e ∈ (readingsOf fs v).entries D) : 2 ≤ D := by
  by_contra hlt
  have hnil : slotsAt fs v D = [] := by simp [slotsAt, listAt_small (Nat.not_le.1 hlt), slotsOf]
  change e ∈ parseSlots [] 0 (slotsAt fs v D) at he
  rw [hnil] at he
  simp [parseSlots] at he

theorem VolOk.dirChain (hok : VolOk fs v) (hd : Dirs fs (readingsOf fs v) w D) (h2 : 2 ≤ D) :
    Chain fs v D (listAt fs v D) := by
  obtain ⟨l, hl⟩ := hok.chain _ _ (hd.owns h2)
  rwa [listAt_of_chain hl]

theorem VolOk.fileOn (hok : VolOk fs v) (hf : FileOn fs (readingsOf fs v) f s) :
    FilePlace fs v f s := by
  obtain ⟨w, dir, e, hd, he, hnode⟩ := hf
  obtain ⟨hnd, rfl, rfl⟩ := vnodeOf_file hnode
  have hchain := hok.dirChain hd (two_le_of_entry he)
  obtain ⟨i, chunk, hoff, hi, p, p', hr⟩ := mem_parseSlots_read he
  obtain ⟨-, hdec, hlive, -, -, -, hshort⟩ := readSlot_some_visible hr
  rw [Nat.zero_add] at hoff
  rw [slotsAt, List.getElem?_map, Option.map_eq_some_iff] at hi
  obtain ⟨sl, hi, rfl⟩ := hi
  have hslot : Fat32File.slotIn fs ⟨e.name, dir.cluster, e.offset⟩ v = sl := by
    unfold Fat32File.slotIn
    rw [hoff, Nat.mul_div_cancel i (by decide : 0 < 32), List.getD_eq_getElem?_getD, hi]
    rfl
  have hentry : Fat32File.entryIn fs ⟨e.name, dir.cluster, e.offset⟩ v = e.entry := by
    unfold Fat32File.entryIn
    rw [hslot, hdec]
    rfl
  have hbytes : v.slot sl = e.entry.toBytes := by
    rw [DirEntry.toBytes_fromBytes hdec, Vol.slot, slice, List.take_take, Nat.min_self]
  rw [hbytes, DirEntry.toBytes_attr] at hshort
  constructor
  case dir => exact hchain
  case slot => exact ⟨i, hoff, by rwa [hslot]⟩
  case bytes => rwa [hslot, hentry]
  case live => rwa [hslot]
  case short => rwa [hentry]
  case notDir => rwa [hentry]
  case state => rw [hentry]
  case chain =>
    intro hstart
    obtain ⟨l, hl⟩ := hok.chain _ _ (.entry hd he hstart)
    rwa [listAt_of_chain hl]
  case size => exact hok.size _ _ hd e he hnd

theorem VolOk.lists_disjoint (hok : VolOk fs v) (hne : w ≠ w')
    (ho : 2 ≤ D → Owns fs (readingsOf fs v) w D) (ho' : 2 ≤ D' → Owns fs (readingsOf fs v) w' D') :
    (listAt fs v D).Disjoint (listAt fs v D') := by
  intro x hx hx'
  have h2 := ho (two_le_of_mem hx)
  have h2' := ho' (two_le_of_mem hx')
  obtain ⟨l, hl⟩ := hok.chain _ _ h2
  obtain ⟨l', hl'⟩ := hok.chain _ _ h2'
  rw [listAt_of_chain hl] at hx
  rw [listAt_of_chain hl'] at hx'
  exact hok.disjoint _ _ _ _ _ _ h2 h2' hne hl hl' hx hx'

theorem VolOk.files_disjoint (hok : VolOk fs v) (hf : FileOn fs (readingsOf fs v) f s)
    (hf' : FileOn fs (readingsOf fs v) f' s')
    (hne : (f.parentCluster, f.entryOffset) ≠ (f'.parentCluster, f'.entryOffset)) :
    (listAt fs v s.startCluster).Disjoint (listAt fs v s'.startCluster) := by
  obtain ⟨w, dir, e, hd, he, hnode⟩ := hf
  obtain ⟨-, rfl, rfl⟩ := vnodeOf_file hnode
  obtain ⟨w', dir', e', hd', he', hnode'⟩ := hf'
  obtain ⟨-, rfl, rfl⟩ := vnodeOf_file hnode'
  exact hok.lists_disjoint (fun h => hne (by simpa using h)) (.entry hd he) (.entry hd' he')

theorem VolOk.file_dir_disjoint (hok : VolOk fs v) (hf : FileOn fs (readingsOf fs v) f s)
    (hd' : Dirs fs (readingsOf fs v) w' D') :
    (listAt fs v s.startCluster).Disjoint (listAt fs v D') := by
  obtain ⟨w, dir, e, hd, he, hnode⟩ := hf
  obtain ⟨hnd, rfl, rfl⟩ := vnodeOf_file hnode
  refine hok.lists_disjoint ?_ (.entry hd he) hd'.owns
  rintro rfl
  -- the entry of a directory is not that of a file
  generalize hw : Owner.entry dir.cluster e.offset = w at hd'
  cases hd' with
  | root => cases hw
  | sub _ he' hdir =>
    obtain ⟨rfl, hoff⟩ := Owner.entry.inj hw
    obtain rfl := offset_inj he he' hoff
    rw [hnd] at hdir
    cases hdir

theorem VolOk.dirs_disjoint (hok : VolOk fs v) (hd : Dirs fs (readingsOf fs v) w D)
    (hd' : Dirs fs (readingsOf fs v) w' D') (h2 : 2 ≤ D) (h2' : 2 ≤ D') :
    D = D' ∨ (listAt fs v D).Disjoint (listAt fs v D') := by
  refine or_iff_not_imp_left.2 fun hD => hok.lists_disjoint ?_ hd.owns hd'.owns
  rintro rfl
  exact hD ((hd.owns h2).start_eq (hd'.owns h2'))

theorem FileOn.dirs (hf : FileOn fs (readingsOf fs v) f s) :
    ∃ w, Dirs fs (readingsOf fs v) w f.parentCluster := by
  obtain ⟨w, dir, e, hd, -, hnode⟩ := hf
  obtain ⟨-, rfl, -⟩ := vnodeOf_file hnode
  exact ⟨w, hd⟩

theorem FileOn.two_le (hf : FileOn fs (readingsOf fs v) f s) : 2 ≤ f.parentCluster := by
  obtain ⟨w, dir, e, -, he, hnode⟩ := hf
  obtain ⟨-, rfl, -⟩ := vnodeOf_file hnode
  exact two_le_of_entry he

theorem VolOk.slotIn_ne (hok : VolOk fs v) (hf : FileOn fs (readingsOf fs v) f s)
    (hf' : FileOn fs (readingsOf fs v) f' s')
    (hne : (f.parentCluster, f.entryOffset) ≠ (f'.parentCluster, f'.entryOffset)) :
    f.slotIn fs v ≠ f'.slotIn fs v := by
  intro heq
  have hdir := (hok.fileOn hf).dir
  obtain ⟨i, hoff, hi⟩ := (hok.fileOn hf).slot
  obtain ⟨i', hoff', hi'⟩ := (hok.fileOn hf').slot
  obtain ⟨w, hd⟩ := hf.dirs
  obtain ⟨w', hd'⟩ := hf'.dirs
  have hx := (mem_slotsOf.mp (List.mem_of_getElem? hi)).1
  have hx' := (mem_slotsOf.mp (List.mem_of_getElem? hi')).1
  rw [← heq] at hx' hi'
  have hsame : f.parentCluster = f'.parentCluster :=
    (hok.dirs_disjoint hd hd' hf.two_le hf'.two_le).resolve_right fun h => h hx hx'
  rw [← hsame] at hi'
  have hlt := (List.getElem?_eq_some_iff.1 hi).1
  have hii := (List.getElem?_inj hlt (slotsOf_nodup hdir.nodup)).1 (hi.trans hi'.symm)
  exact hne (by rw [hsame, hoff, hoff', hii])

end

/-! ## What the operation on a file owns -/

section

variable {fs : Fat32FileSystem} {v : Vol} {f : Fat32File} {s : FileState} {shared : Prop}

theorem fileOwn_holds (hs : SmallVolume fs) (hok : VolOk fs v)
    (hf : FileOn fs (readingsOf fs v) f s) : Holds fs shared (fileOwn fs v f s) v := by
  have hp := hok.fileOn hf
  obtain ⟨i, -, hi⟩ := hp.slot
  obtain ⟨w, hd⟩ := hf.dirs
  constructor
  case dir => exact hp.dir
  case cells =>
    intro x hx
    have hc := hp.chain (two_le_of_mem hx)
    have hr := hc.inRange hx
    have hused := hc.used hx
    rw [hs.fatIndex_eq hr] at hused
    exact ⟨hr, hused, fun hxd => hok.file_dir_disjoint hf hd hx hxd⟩
  case fat => exact fun _ _ => rfl
  case copies => exact fun _ _ => rfl
  case data => exact fun _ _ => rfl
  case slot =>
    rintro _ ⟨⟩
    exact ⟨List.mem_of_getElem? hi, hp.bytes, fun _ => hp.bytes ▸ hp.live⟩
  case avoid => exact fun _ h => by cases h
  case got => exact fun _ _ h => by cases h

theorem fileOwn_start (hok : VolOk fs v) (hfull : FullClusters fs v)
    (hf : FileOn fs (readingsOf fs v) f s) :
    AtSlot fs f (fileOwn fs v f s) ∧
    s.startCluster = (fileOwn fs v f s).entry.cluster ∧
    FileIn fs (fileOwn fs v f s) s.startCluster (listAt fs v s.startCluster) ∧
    s.size ≤ (listAt fs v s.startCluster).length * fs.boot.clusterSize := by
  have hp := hok.fileOn hf
  obtain ⟨i, hoff, hi⟩ := hp.slot
  have hstart : s.startCluster = (f.entryIn fs v).cluster := congrArg FileState.startCluster hp.state
  refine ⟨⟨rfl, rfl, i, _, hoff, hi, rfl⟩, hstart, ⟨hp.chain, fun h => listAt_small h,
    fun _ => Iff.rfl, fun x hx => hfull x ?_⟩, hp.size⟩
  exact (hp.chain (two_le_of_mem hx)).inRange hx

end

/-! ## A volume with a root directory only -/

variable {fs : Fat32FileSystem} {d : Disk} {l : List Nat}

/-- The entries of the root directory, whose chain is `l`, are files with chains of their own. -/
structure FlatFiles (fs : Fat32FileSystem) (d : Disk) (l : List Nat) : Prop where
  root : Chain fs (fs.volOf d) fs.root l
  files : ∀ e ∈ (fs.readings d).entries fs.root, e.entry.isDir = false
  chain : ∀ e ∈ (fs.readings d).entries fs.root, 2 ≤ e.entry.cluster →
    ∃ l', Chain fs (fs.volOf d) e.entry.cluster l' ∧ l'.Disjoint l
  apart : ∀ e ∈ (fs.readings d).entries fs.root, ∀ e' ∈ (fs.readings d).entries fs.root,
    e.offset ≠ e'.offset → 2 ≤ e.entry.cluster → 2 ≤ e'.entry.cluster →
    (listAt fs (fs.volOf d) e.entry.cluster).Disjoint (listAt fs (fs.volOf d) e'.entry.cluster)
  size : ∀ e ∈ (fs.readings d).entries fs.root, e.entry.fileSize.toNat ≤
    (listAt fs (fs.volOf d) e.entry.cluster).length * fs.boot.clusterSize
  tail : ZeroTail ((slotsOf fs l).map (fs.volOf d).slot)

namespace FlatFiles

variable (h : FlatFiles fs d l)
include h

theorem dirs {w : Owner} {c : Nat} (hd : Dirs fs (fs.readings d) w c) : w = .root ∧ c = fs.root := by
  induction hd with
  | root => exact ⟨rfl, rfl⟩
  | sub _ he hdir ih =>
    rw [ih.2] at he
    exact absurd hdir (by simp [h.files _ he])

theorem owns {w : Owner} {c : Nat} (ho : Owns fs (fs.readings d) w c) :
    (w = .root ∧ c = fs.root) ∨ ∃ e ∈ (fs.readings d).entries fs.root,
      w = .entry fs.root e.offset ∧ c = e.entry.cluster ∧ 2 ≤ c := by
  cases ho with
  | root => exact .inl ⟨rfl, rfl⟩
  | @entry _ _ e hd he hstart =>
    rw [(h.dirs hd).2] at he ⊢
    exact .inr ⟨e, he, rfl, rfl, hstart⟩

theorem wellFormed (hc : Consistent fs d) : fs.WellFormed d := by
  refine (wellFormed_iff hc).mpr ⟨fun w c hw => ?_, fun w w' c c' l1 l2 hw hw' hne hl1 hl2 => ?_,
    fun w c hd e he _ => ?_, fun w c hd => ?_⟩
  · rw [← readings_eq hc] at hw
    rcases h.owns hw with ⟨-, rfl⟩ | ⟨e, he, -, rfl, h2⟩
    · exact ⟨l, h.root⟩
    · exact (h.chain e he h2).imp fun _ hl => hl.1
  · rw [← readings_eq hc] at hw hw'
    have hroot : ∀ {c l1}, Chain fs (fs.volOf d) c l1 → c = fs.root → l1 = l := by
      rintro c l1 hl1 rfl
      rw [← listAt_of_chain hl1, listAt_of_chain h.root]
    have hfile : ∀ {e l1}, e ∈ (fs.readings d).entries fs.root → 2 ≤ e.entry.cluster →
        Chain fs (fs.volOf d) e.entry.cluster l1 → l1.Disjoint l := by
      intro e l1 he h2 hl1
      obtain ⟨l', hl', hdis⟩ := h.chain e he h2
      rwa [← listAt_of_chain hl1, listAt_of_chain hl']
    rcases h.owns hw with ⟨rfl, hr⟩ | ⟨e, he, rfl, rfl, h2⟩ <;>
      rcases h.owns hw' with ⟨rfl, hr'⟩ | ⟨e', he', rfl, rfl, h2'⟩
    · exact absurd rfl hne
    · rw [hroot hl1 hr]
      exact fun x hx hx' => hfile he' h2' hl2 hx' hx
    · rw [hroot hl2 hr']
      exact hfile he h2 hl1
    · have hdis := h.apart e he e' he' (fun heq => hne (by rw [heq])) h2 h2'
      rwa [listAt_of_chain hl1, listAt_of_chain hl2] at hdis
  · rw [← readings_eq hc] at hd he
    rw [(h.dirs hd).2] at he
    exact h.size e he
  · rw [← readings_eq hc] at hd
    rw [(h.dirs hd).2, slotsAt, listAt_of_chain h.root]
    exact h.tail

end FlatFiles

/-- The root directory has only empty files. -/
def EmptyFiles (fs : Fat32FileSystem) (d : Disk) : Prop :=
  ∀ e ∈ (fs.readings d).entries fs.root,
    e.entry.isDir = false ∧ e.entry.cluster < 2 ∧ e.entry.fileSize.toNat = 0

theorem EmptyFiles.wellFormed (h : EmptyFiles fs d) (hc : Consistent fs d)
    (hroot : Chain fs (fs.volOf d) fs.root l)
    (htail : ZeroTail ((slotsOf fs l).map (fs.volOf d).slot)) : fs.WellFormed d := by
  have hno : ∀ e ∈ (fs.readings d).entries fs.root, ¬ 2 ≤ e.entry.cluster :=
    fun e he => Nat.not_le.2 (h e he).2.1
  exact FlatFiles.wellFormed ⟨hroot, fun e he => (h e he).1, fun e he h2 => absurd h2 (hno e he),
    fun e he _ _ _ h2 => absurd h2 (hno e he), fun e he => by rw [(h e he).2.2]; exact Nat.zero_le _,
    htail⟩ hc

end Kerners.Fat32
