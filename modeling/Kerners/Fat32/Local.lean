import Kerners.Fat32.Slots
import Kerners.Lib.Guarantee

/-!
# What an operation on a file owns

`Fat32File::write`, `truncate` and `Fat32Dir::create_directory` are sequences of calls. The thread
that runs one of them owns some clusters and one directory slot (`Own`); everything else on the
volume belongs to others. `Holds o v` says that the volume is as the owner knows it, `Keeps o o' v
v'` what one call may change: clusters that are in use and not owned keep their FAT entries and
their bytes, and of the directory only the owner's slot changes.

The calls are specified here on the owner's knowledge alone, so what is built from them holds in
sequential runs and beside another thread.

With `shared`, other threads run on the volume. Then the clusters returned by `alloc_cluster` stay
owned, so that `alloc_cluster` may only be called while a cluster is free, and the slot of the
operation stays in use.
-/

namespace Kerners.Fat32

open Lib Kerners.Block List

/-- Every cluster number is one that `read_chain` follows. -/
def SmallVolume (fs : Fat32FileSystem) : Prop := fs.totalClusters + 2 ≤ fatReservedMin

theorem smallFs_small : SmallVolume smallFs :=
  (by decide : smallFs.totalClusters + 2 ≤ fatReservedMin)

theorem SmallVolume.cell {fs : Fat32FileSystem} (hs : SmallVolume fs) {c : Nat}
    (hr : fs.InRange c) : Cell fs c :=
  ⟨hr, Nat.lt_of_lt_of_le hr.2 hs⟩

theorem SmallVolume.fatIndex_eq {fs : Fat32FileSystem} (hs : SmallVolume fs) {c : Nat}
    (hr : fs.InRange c) : fatIndex c = c := by
  have h := (hs.cell hr).2
  unfold fatReservedMin at h
  exact Kerners.Fat32.fatIndex_eq (by omega)

def liveSlot (bs : Bytes) : Prop := freeByte (bs.getD 0 0) = false

/-- What an operation owns: the clusters `cells`, whose entries and bytes `vol` gives, and the slot
`slot` (with the entry `entry`) of the directory that starts at `dir`; `got` are the clusters that
`alloc_cluster` has returned to it. An operation without a slot of its own may write any slot of
the directory but those in `avoid`. -/
structure Own where
  vol : Vol
  cells : Nat → Prop
  dir : Nat
  dirChain : List Nat
  slot : Option Slot
  entry : DirEntry
  avoid : List Slot
  got : List Nat

namespace Own

variable (o : Own)

def Touches (s : Slot) : Prop :=
  match o.slot with
  | some s' => s = s'
  | none => s ∉ o.avoid

/-- The clusters that everybody but the owner must leave alone, as far as they are in use. -/
def Foreign (v : Vol) (x : Nat) : Prop := ¬ o.cells x ∧ v.fat x ≠ fatFree

/-- Take the cluster `c`, just marked as the end of a chain; its bytes are `bs`, its entries in the
copies of the FAT `es`. -/
def take (c : Nat) (bs : Bytes) (es : List Nat) : Own :=
  { o with
    vol :=
      { fat := (o.vol.setFat c fatEoc).fat
        copies := Function.update o.vol.copies c es
        data := (o.vol.setData c bs).data }
    cells := fun x => x = c ∨ o.cells x
    got := o.got ++ [c] }

def setFat (c x : Nat) : Own := { o with vol := o.vol.setFat c x }

def setData (c : Nat) (bs : Bytes) : Own := { o with vol := o.vol.setData c bs }

/-- Give the cluster `c` back. -/
def drop (c : Nat) : Own := { o with cells := fun x => x ≠ c ∧ o.cells x }

def setEntry (e : DirEntry) : Own := { o with entry := e }

end Own

/-- **The volume is as the owner knows it.** -/
structure Holds (fs : Fat32FileSystem) (shared : Prop) (o : Own) (v : Vol) : Prop where
  dir : Chain fs v o.dir o.dirChain
  cells : ∀ x, o.cells x → fs.InRange x ∧ v.fat x ≠ fatFree ∧ x ∉ o.dirChain
  fat : ∀ x, o.cells x → v.fat x = o.vol.fat x
  copies : ∀ x, o.cells x → v.copies x = o.vol.copies x
  data : ∀ x, o.cells x → v.data x = o.vol.data x
  slot : ∀ s, o.slot = some s →
    s ∈ slotsOf fs o.dirChain ∧ v.slot s = o.entry.toBytes ∧ (shared → liveSlot o.entry.toBytes)
  avoid : ∀ s ∈ o.avoid, s ∈ slotsOf fs o.dirChain ∧ liveSlot (v.slot s)
  got : shared → ∀ x ∈ o.got, o.cells x

/-- **What a call of the owner keeps.** -/
structure Keeps (fs : Fat32FileSystem) (o o' : Own) (evs : List Nat) (v v' : Vol) : Prop where
  dir : o'.dir = o.dir
  dirChain : o'.dirChain = o.dirChain
  slot : o'.slot = o.slot
  avoid : o'.avoid = o.avoid
  got : o'.got = o.got ++ evs
  fresh : ∀ x, o'.cells x → o.cells x ∨ fs.InRange x ∧ v.fat x = fatFree
  gained : ∀ x, o'.cells x → o.cells x ∨ x ∈ evs
  idle : ∀ x, ¬ o.cells x → x ∉ evs →
    v'.fat x = v.fat x ∧ (x ∉ o.dirChain → v'.data x = v.data x)
  fat : ∀ x, fs.InRange x → o.Foreign v x → v'.fat x = v.fat x
  copies : ∀ x, ¬ o.cells x ∧ x ∉ evs ∨ fs.InRange x ∧ o.Foreign v x → v'.copies x = v.copies x
  data : ∀ x, fs.InRange x → o.Foreign v x → x ∉ o.dirChain → v'.data x = v.data x
  slots : ∀ s, s ∈ slotsOf fs o.dirChain → ¬ o.Touches s → v'.slot s = v.slot s

abbrev localProtocol (fs : Fat32FileSystem) (shared : Prop) : Protocol Cmd Resp CallKind Nat where
  State := Disk
  handler := Disk.handle
  allowed := Allows fs
  Own := Own
  Compat o d := Consistent fs d ∧ Holds fs shared o (fs.volOf d)
  Guar o o' evs d d' := Keeps fs o o' evs (fs.volOf d) (fs.volOf d')
  cond kind d := shared → kind = .allocCluster →
    ∃ c, fs.InRange c ∧ (fs.volOf d).fat (fatIndex c) = fatFree

open Vol

variable {fs : Fat32FileSystem} {shared : Prop} {o o' o'' : Own} {v v' v'' : Vol} {σ ε α : Type}
  {t : σ}

theorem Own.touches_congr (hs : o'.slot = o.slot) (ha : o'.avoid = o.avoid) {s : Slot} :
    o'.Touches s ↔ o.Touches s := by
  unfold Own.Touches
  rw [hs, ha]

theorem Keeps.refl (o : Own) (v : Vol) : Keeps fs o o [] v v :=
  ⟨rfl, rfl, rfl, rfl, (append_nil _).symm, fun _ h => .inl h, fun _ h => .inl h,
    fun _ _ _ => ⟨rfl, fun _ => rfl⟩, fun _ _ _ => rfl, fun _ _ => rfl, fun _ _ _ _ => rfl,
    fun _ _ _ => rfl⟩

theorem Keeps.foreign {evs : List Nat} (h : Keeps fs o o' evs v v') {x : Nat}
    (hr : fs.InRange x) (hx : o.Foreign v x) : o'.Foreign v' x := by
  refine ⟨fun hc => ?_, by rw [h.fat x hr hx]; exact hx.2⟩
  rcases h.fresh x hc with hc | hf
  · exact hx.1 hc
  · exact hx.2 hf.2

theorem Keeps.trans {e e' : List Nat} (h : Keeps fs o o' e v v') (h' : Keeps fs o' o'' e' v' v'') :
    Keeps fs o o'' (e ++ e') v v'' where
  dir := h'.dir.trans h.dir
  dirChain := h'.dirChain.trans h.dirChain
  slot := h'.slot.trans h.slot
  avoid := h'.avoid.trans h.avoid
  got := by rw [h'.got, h.got, append_assoc]
  fresh := fun x hx => by
    rcases h'.fresh x hx with hx | ⟨hr, hf⟩
    · exact h.fresh x hx
    · by_contra hcon
      have hfor : o.Foreign v x := ⟨fun hc => hcon (.inl hc), fun hf' => hcon (.inr ⟨hr, hf'⟩)⟩
      exact (h.foreign hr hfor).2 hf
  gained := fun x hx => by
    rcases h'.gained x hx with hx | hx
    · exact (h.gained x hx).imp_right (mem_append_left _)
    · exact .inr (mem_append_right _ hx)
  idle := fun x hx he => by
    rw [mem_append, not_or] at he
    obtain ⟨hfat, hdata⟩ := h.idle x hx he.1
    obtain ⟨hfat', hdata'⟩ := h'.idle x (fun hc => (h.gained x hc).elim hx he.1) he.2
    exact ⟨hfat'.trans hfat, fun hd => (hdata' (by rwa [h.dirChain])).trans (hdata hd)⟩
  fat := fun x hr hx => by rw [h'.fat x hr (h.foreign hr hx), h.fat x hr hx]
  copies := fun x hx => by
    refine (h'.copies x ?_).trans (h.copies x ?_)
    · rcases hx with ⟨hx, he⟩ | ⟨hr, hx⟩
      · rw [mem_append, not_or] at he
        exact .inl ⟨fun hc => (h.gained x hc).elim hx he.1, he.2⟩
      · exact .inr ⟨hr, h.foreign hr hx⟩
    · exact hx.imp_left fun hx => ⟨hx.1, fun he => hx.2 (mem_append_left _ he)⟩
  data := fun x hr hx hd => by
    rw [h'.data x hr (h.foreign hr hx) (by rwa [h.dirChain]), h.data x hr hx hd]
  slots := fun s hs ht => by
    rw [h'.slots s (by rwa [h.dirChain]) (by rwa [Own.touches_congr h.slot h.avoid]),
      h.slots s hs ht]

theorem localProtocol_preorder : (localProtocol fs shared).Preorder :=
  ⟨fun o d => Keeps.refl o (fs.volOf d), fun _ _ h h' => h.trans h'⟩

theorem safeM_call {kind : CallKind} {evs : Except ε α → List Nat} {m : DevM Empty σ ε α}
    {Q : Except ε α → σ → Own → Prop}
    (h : ∀ v, FullClusters fs v → Holds fs shared o v →
        (shared → kind = .allocCluster → ∃ c, fs.InRange c ∧ v.fat (fatIndex c) = fatFree) →
          ∃ r t' v' o', RunsM (volView fs) m t v r t' v' ∧
            Keeps fs o o' (evs r) v v' ∧
            Holds fs shared o' v' ∧
            Q r t' o') : (localProtocol fs shared).SafeM (ProgM.call kind evs m) t o Q := by
  refine Protocol.safe_call fun d ⟨hc, hold⟩ hcond => ?_
  have hp := presents_volOf hc
  obtain ⟨r, t', v', o', hrun, hkeep, hold', hq⟩ := h _ (fun c hr => hp.data_length hr) hold hcond
  obtain ⟨d', heq, hp', hall⟩ := hrun d hp
  obtain rfl := hp'.eq_volOf
  refine ⟨hall, o', ?_⟩
  change Keeps fs o o' (evs ((m t).run Disk.handle d).1.1) _ (fs.volOf ((m t).run Disk.handle d).2) ∧
    (Consistent fs ((m t).run Disk.handle d).2 ∧
      Holds fs shared o' (fs.volOf ((m t).run Disk.handle d).2)) ∧
    Q ((m t).run Disk.handle d).1.1 ((m t).run Disk.handle d).1.2 o'
  have heq' : (m t).run Disk.handle d = ((r, t'), d') := heq
  rw [heq']
  exact ⟨hkeep, ⟨hp'.consistent, hold'⟩, hq⟩

theorem safeM_read {m : DevM Empty σ ε α} {r : Except ε α} {Q : Except ε α → σ → Own → Prop}
    (hrun : ∀ v, Holds fs shared o v → RunsM (volView fs) m t v r t v) (hq : Q r t o) :
    (localProtocol fs shared).SafeM (Fat32FileSystem.plainCall m) t o Q :=
  safeM_call fun v _ hold _ => ⟨r, t, v, o, hrun v hold, Keeps.refl o v, hold, hq⟩

theorem safeM_vfsCall {m : VfsM α} {Q : Except (Fault VfsError) α → σ → Own → Prop}
    (h : (localProtocol fs shared).SafeM (Fat32FileSystem.plainCall m) () o fun r _ o' => Q
        (r.mapError Fault.err) t o') : (localProtocol fs shared).SafeM (vfsCall m) t o Q :=
  Protocol.SafeM.within (Protocol.SafeM.mapErr h)

/-! ## FAT entries and clusters that the operation owns -/

section

variable (hs : SmallVolume fs)
include hs

theorem Holds.dir_setFat (h : Holds fs shared o v) {c x : Nat} (hc : c ∉ o.dirChain) :
    Chain fs (v.setFat c x) o.dir o.dirChain := by
  refine h.dir.congr fun y hy => ?_
  rw [hs.fatIndex_eq (h.dir.inRange hy)]
  exact v.setFat_of_ne x fun heq => hc (heq ▸ hy)

omit hs in
theorem Keeps.setFat {evs : List Nat} {c x : Nat} (hc : o.cells c ∨ v.fat c = fatFree ∧ c ∈ evs)
    (hd : o'.dir = o.dir) (hdc : o'.dirChain = o.dirChain) (hsl : o'.slot = o.slot)
    (ha : o'.avoid = o.avoid) (hg : o'.got = o.got ++ evs)
    (hf : ∀ x, o'.cells x → o.cells x ∨ fs.InRange x ∧ v.fat x = fatFree ∧ x ∈ evs) :
    Keeps fs o o' evs v (v.setFat c x) := by
  have hfor : ∀ y, o.Foreign v y → y ≠ c := by
    rintro y hy rfl
    exact hc.elim hy.1 fun h => hy.2 h.1
  have hidle : ∀ y, ¬ o.cells y → y ∉ evs → y ≠ c := by
    rintro y hy he rfl
    exact hc.elim hy fun h => he h.2
  exact ⟨hd, hdc, hsl, ha, hg, fun y hy => (hf y hy).imp_right fun h => ⟨h.1, h.2.1⟩,
    fun y hy => (hf y hy).imp_right fun h => h.2.2,
    fun y hy he => ⟨v.setFat_of_ne x (hidle y hy he), fun _ => rfl⟩,
    fun y _ hy => v.setFat_of_ne x (hfor y hy),
    fun y hy => v.setFat_copies_of_ne x (hy.elim (fun h => hidle y h.1 h.2) fun h => hfor y h.2),
    fun _ _ _ _ => rfl, fun _ _ _ => rfl⟩

theorem writeEntry_safe {c x : Nat} {t : FatTable} (hc : o.cells c) (hx : x ≠ fatFree)
    (hlt : x < 2 ^ 28) {Q : Except FatError Unit → FatTable → Own → Prop}
    (hq : Q (.ok ()) t (o.setFat c x)) :
    (localProtocol fs shared).SafeM (Fat32FileSystem.plainCall (fs.writeEntry c x)) t o Q := by
  refine safeM_call fun v _ hold _ => ?_
  obtain ⟨hr, hused, hnd⟩ := hold.cells c hc
  have hrun := writeEntry_runs (v := v) (x := x) (t := t) hr
  rw [hs.fatIndex_eq hr, Nat.mod_eq_of_lt hlt] at hrun
  refine ⟨_, _, _, o.setFat c x, hrun, ?_, ?_, hq⟩
  · exact Keeps.setFat (.inl hc) rfl rfl rfl rfl (append_nil _).symm fun _ h => .inl h
  · refine ⟨hold.dir_setFat hs hnd, fun y hy => ?_, fun y hy => ?_, fun y hy => ?_, hold.data,
      hold.slot, hold.avoid, hold.got⟩
    · obtain ⟨h1, h2, h3⟩ := hold.cells y hy
      refine ⟨h1, ?_, h3⟩
      by_cases hyc : y = c
      · rw [hyc, setFat_self]
        exact hx
      · rwa [setFat_of_ne _ _ hyc]
    · by_cases hyc : y = c
      · rw [hyc, setFat_self, Own.setFat, setFat_self]
      · rw [Own.setFat, setFat_of_ne _ _ hyc, setFat_of_ne _ _ hyc]
        exact hold.fat y hy
    · by_cases hyc : y = c
      · rw [hyc, setFat_copies_self, Own.setFat, setFat_copies_self, hold.copies c hc]
      · rw [Own.setFat, setFat_copies_of_ne _ _ hyc, setFat_copies_of_ne _ _ hyc]
        exact hold.copies y hy

theorem freeCluster_safe {c : Nat} {t : FatTable} (ht : HintOk fs t) (hc : o.cells c)
    (hgot : shared → c ∉ o.got) {Q : Except FatError Unit → FatTable → Own → Prop}
    (hq : ∀ t', HintOk fs t' → Q (.ok ()) t' (o.drop c)) :
    (localProtocol fs shared).SafeM (Fat32FileSystem.plainCall (fs.freeCluster c)) t o Q := by
  refine safeM_call fun v _ hold _ => ?_
  obtain ⟨hr, hused, hnd⟩ := hold.cells c hc
  have hrun := freeCluster_runs (v := v) (t := t) hr
  rw [hs.fatIndex_eq hr] at hrun
  refine ⟨_, _, _, o.drop c, hrun, ?_, ?_, hq _ (ht.gave hr)⟩
  · exact Keeps.setFat (.inl hc) rfl rfl rfl rfl (append_nil _).symm fun _ h => .inl h.2
  · refine ⟨hold.dir_setFat hs hnd, fun y hy => ?_, fun y hy => ?_, fun y hy => ?_,
      fun y hy => hold.data y hy.2, hold.slot, hold.avoid,
      fun hsh y hy => ⟨fun heq => hgot hsh (heq ▸ hy), hold.got hsh y hy⟩⟩
    · obtain ⟨h1, h2, h3⟩ := hold.cells y hy.2
      exact ⟨h1, by rwa [setFat_of_ne _ _ hy.1], h3⟩
    · rw [setFat_of_ne _ _ hy.1]
      exact hold.fat y hy.2
    · rw [setFat_copies_of_ne _ _ hy.1]
      exact hold.copies y hy.2

theorem allocCall_safe {t : FatTable} (ht : HintOk fs t)
    {Q : Except FatError Nat → FatTable → Own → Prop}
    (hok :
      ∀ c bs es t', fs.InRange c → ¬ o.cells c → bs.length = fs.boot.clusterSize → HintOk fs t' →
        Q (.ok c) t' (o.take c bs es)) (hfull : ¬ shared → Q (.error .noSpace) t o) :
    (localProtocol fs shared).SafeM fs.allocCall t o Q := by
  refine safeM_call fun v hlen hold hcond => ?_
  have hrun := allocCluster_runs (v := v) ht
  cases hpick : pickFree fs v t.nextFreeHint with
  | none =>
    rw [hpick] at hrun
    have hnt : ¬ shared := fun hsh => by
      obtain ⟨c, hr, hf⟩ := hcond hsh rfl
      exact pickFree_none hpick hr hf
    exact ⟨_, _, _, o, hrun, Keeps.refl o v, hold, hfull hnt⟩
  | some c =>
    rw [hpick] at hrun
    obtain ⟨hr, hfree⟩ := pickFree_some ht hpick
    have hmark : v.markEoc c = v.setFat c fatEoc := by rw [markEoc, hs.fatIndex_eq hr]
    rw [hs.fatIndex_eq hr] at hfree
    have hnc : ¬ o.cells c := fun hc => (hold.cells c hc).2.1 hfree
    have hnd : c ∉ o.dirChain := fun hc => by
      have := hold.dir.used hc
      rw [hs.fatIndex_eq hr] at this
      exact this hfree
    refine ⟨_, _, _, o.take c (v.data c) ((v.setFat c fatEoc).copies c), hrun, ?_, ?_,
      hok c _ _ _ hr hnc (hlen c hr) (.took hr)⟩
    · simp only [allocOutcome, hmark, Option.elim]
      refine Keeps.setFat (.inr ⟨hfree, mem_singleton_self c⟩) rfl rfl rfl rfl rfl fun y hy => ?_
      rcases hy with rfl | hy
      · exact .inr ⟨hr, hfree, mem_singleton_self y⟩
      · exact .inl hy
    · simp only [allocOutcome, hmark]
      have hne : ∀ y, o.cells y → y ≠ c := fun y hy heq => hnc (heq ▸ hy)
      refine ⟨hold.dir_setFat hs hnd, fun y hy => ?_, fun y hy => ?_, fun y hy => ?_,
        fun y hy => ?_, hold.slot, hold.avoid, fun hsh y hy => ?_⟩
      · rcases hy with rfl | hy
        · exact ⟨hr, by rw [setFat_self]; decide, hnd⟩
        · rw [setFat_of_ne _ _ (hne y hy)]
          exact hold.cells y hy
      · simp only [Own.take]
        rcases hy with rfl | hy
        · rw [setFat_self, setFat_self]
        · rw [setFat_of_ne _ _ (hne y hy), setFat_of_ne _ _ (hne y hy)]
          exact hold.fat y hy
      · simp only [Own.take]
        rcases hy with rfl | hy
        · rw [Function.update_self]
        · rw [setFat_copies_of_ne _ _ (hne y hy), Function.update_of_ne (hne y hy)]
          exact hold.copies y hy
      · simp only [Own.take]
        rcases hy with rfl | hy
        · rw [setData_self, setFat_data]
        · rw [setData_of_ne _ _ (hne y hy), setFat_data]
          exact hold.data y hy
      · rcases mem_append.mp hy with hy | hy
        · exact .inr (hold.got hsh y hy)
        · exact .inl (mem_singleton.mp hy)

theorem readChain_safe {c : Nat} {l : List Nat} {t : FatTable} (hl : Chain fs o.vol c l)
    (hsub : ∀ x ∈ l, o.cells x) {Q : Except FatError (List Nat) → FatTable → Own → Prop}
    (hq : Q (.ok l) t o) :
    (localProtocol fs shared).SafeM (Fat32FileSystem.plainCall (fs.readChain c)) t o Q := by
  refine safeM_read (fun v hold => ?_) hq
  have hchain : Chain fs v c l := hl.congr fun x hx => by
    rw [hs.fatIndex_eq (hl.inRange hx)]
    exact hold.fat x (hsub x hx)
  have hrun := @readChain_runs fs v t c
  rwa [chainOf_of_chain hchain] at hrun

omit hs in
theorem readCluster_safe {c : Nat} (hc : o.cells c)
    {Q : Except (Fault VfsError) Bytes → σ → Own → Prop} (hq : Q (.ok (o.vol.data c)) t o) :
    (localProtocol fs shared).SafeM (vfsCall (fs.readCluster c)) t o Q := by
  refine safeM_vfsCall (safeM_read (r := .ok (o.vol.data c)) (fun v hold => ?_) hq)
  have hrun := readCluster_runs (v := v) (hold.cells c hc).1
  rwa [hold.data c hc] at hrun

theorem writeCluster_safe {c : Nat} {bs : Bytes} (hc : o.cells c)
    (hlen : bs.length = fs.boot.clusterSize) {Q : Except (Fault VfsError) Unit → σ → Own → Prop}
    (hq : Q (.ok ()) t (o.setData c bs)) :
    (localProtocol fs shared).SafeM (vfsCall (fs.writeCluster c bs)) t o Q := by
  refine safeM_vfsCall (safeM_call fun v _ hold _ => ?_)
  obtain ⟨hr, hused, hnd⟩ := hold.cells c hc
  have hrun := writeCluster_runs (v := v) hr hlen (by rwa [hs.fatIndex_eq hr])
  have hslot : ∀ s, s.1 ∈ o.dirChain → (v.setData c bs).slot s = v.slot s := fun s hs => by
    unfold slot
    rw [setData_of_ne]
    exact fun heq => hnd (heq ▸ hs)
  refine ⟨_, _, _, o.setData c bs, hrun, ?_, ?_, hq⟩
  · exact ⟨rfl, rfl, rfl, rfl, (append_nil _).symm, fun _ h => .inl h, fun _ h => .inl h,
      fun y hy _ => ⟨rfl, fun _ => v.setData_of_ne bs fun heq => hy (heq ▸ hc)⟩,
      fun _ _ _ => rfl, fun _ _ => rfl, fun y _ hy _ => v.setData_of_ne bs fun heq => hy.1 (heq ▸ hc),
      fun s hs _ => hslot s (mem_slotsOf.mp hs).1⟩
  · refine ⟨hold.dir.congr fun _ _ => rfl, hold.cells, hold.fat, hold.copies, fun y hy => ?_,
      fun s hs => ?_, fun s hs => ?_, hold.got⟩
    · by_cases hyc : y = c
      · rw [hyc, setData_self, Own.setData, setData_self]
      · rw [Own.setData, setData_of_ne _ _ hyc, setData_of_ne _ _ hyc]
        exact hold.data y hy
    · obtain ⟨h1, h2, h3⟩ := hold.slot s hs
      exact ⟨h1, by rw [hslot s (mem_slotsOf.mp h1).1]; exact h2, h3⟩
    · obtain ⟨h1, h2⟩ := hold.avoid s hs
      exact ⟨h1, by rw [hslot s (mem_slotsOf.mp h1).1]; exact h2⟩

end

/-! ## The slot of the operation -/

theorem Holds.slot_fits (hold : Holds fs shared o v) (hv : FullClusters fs v) {s : Slot}
    (hmem : s ∈ slotsOf fs o.dirChain) : s.2 + 32 ≤ (v.data s.1).length := by
  rw [hv s.1 (hold.dir.inRange (mem_slotsOf.mp hmem).1)]
  exact slot_le hmem

theorem Holds.keeps_putSlot (hold : Holds fs shared o v) (hv : FullClusters fs v) {s : Slot}
    {bs : Bytes} (hmem : s ∈ slotsOf fs o.dirChain) (ht : o.Touches s) (hbs : bs.length = 32)
    (e : DirEntry) : Keeps fs o (o.setEntry e) [] v (v.putSlot s bs) := by
  have hlen := hold.slot_fits hv hmem
  have hother : ∀ y, y ∉ o.dirChain → (v.putSlot s bs).data y = v.data y := fun y hy =>
    v.putSlot_data_of_ne bs fun heq => hy (heq ▸ (mem_slotsOf.mp hmem).1)
  refine ⟨rfl, rfl, rfl, rfl, (append_nil _).symm, fun _ h => .inl h, fun _ h => .inl h,
    fun y _ _ => ⟨rfl, hother y⟩, fun _ _ _ => rfl, fun _ _ => rfl, fun y _ _ => hother y,
    fun s' hs' ht' => ?_⟩
  exact slot_putSlot_of_ne hbs hlen (mod_of_mem_slotsOf hmem) (mod_of_mem_slotsOf hs')
    fun heq => ht' (heq ▸ ht)

theorem updateDirEntry_safe {f : Fat32File} {i : Nat} {s : Slot} (hslot : o.slot = some s)
    (havoid : o.avoid = []) (hi : (slotsOf fs o.dirChain)[i]? = some s)
    (hdir : f.parentCluster = o.dir) (hoff : f.entryOffset = i * 32) (newCluster newSize : Nat)
    {Q : Except (Fault VfsError) Unit → σ → Own → Prop}
    (hq : Q (.ok ()) t (o.setEntry (o.entry.relocate newCluster newSize))) :
    (localProtocol fs shared).SafeM (vfsCall (f.updateDirEntry fs newCluster newSize)) t o Q := by
  refine safeM_vfsCall (safeM_call fun v hv hold _ => ?_)
  obtain ⟨hmem, hbytes, hlive⟩ := hold.slot s hslot
  have hrun := updateDirEntry_runs hold.dir hi hdir hoff hbytes newCluster newSize
  have hlen := hold.slot_fits hv hmem
  have htouch : o.Touches s := by
    unfold Own.Touches
    rw [hslot]
  refine ⟨_, _, _, o.setEntry (o.entry.relocate newCluster newSize), hrun,
    hold.keeps_putSlot hv hmem htouch (DirEntry.toBytes_length _) _, ?_, hq⟩
  refine ⟨hold.dir.congr fun _ _ => rfl, hold.cells, hold.fat, hold.copies, fun y hy => ?_,
    fun s' hs' => ?_, fun s' hs' => ?_, hold.got⟩
  · rw [putSlot_data_of_ne]
    · exact hold.data y hy
    · exact fun heq => (hold.cells y hy).2.2 (heq ▸ (mem_slotsOf.mp hmem).1)
  · obtain rfl : s' = s := Option.some.inj (hs'.symm.trans hslot)
    refine ⟨hmem, slot_putSlot_self (DirEntry.toBytes_length _) hlen, fun hsh => ?_⟩
    have hlive' := hlive hsh
    rw [liveSlot, DirEntry.toBytes_head] at hlive' ⊢
    exact hlive'
  · exact absurd (havoid ▸ hs') (by simp)

/-! ## The calls of `create_directory` -/

theorem findFreeEntrySlot_safe {dir : Fat32Dir} (hslot : o.slot = none) (hdir : dir.cluster = o.dir)
    {Q : Except (Fault VfsError) Nat → σ → Own → Prop} (hfull : Q (.error (.err .noSpace)) t o)
    (hq : ∀ i s, (slotsOf fs o.dirChain)[i]? = some s → o.Touches s → Q (.ok (i * 32)) t o) :
    (localProtocol fs shared).SafeM (vfsCall (dir.findFreeEntrySlot fs)) t o Q := by
  refine safeM_vfsCall (safeM_call fun v hv hold _ => ?_)
  have hrun := @findFreeEntrySlot_runs _ _ _ dir (hdir ▸ chainOf_of_chain hold.dir)
  cases hfind : findFree ((slotsOf fs o.dirChain).map v.slot) with
  | none =>
    rw [hfind] at hrun
    exact ⟨_, _, _, o, hrun, Keeps.refl o v, hold, hfull⟩
  | some i =>
    rw [hfind] at hrun
    obtain ⟨s, hs, hfree⟩ := findFree_some hfind
    refine ⟨_, _, _, o, hrun, Keeps.refl o v, hold, hq i s hs ?_⟩
    unfold Own.Touches
    rw [hslot]
    intro hav
    have hlive := (hold.avoid s hav).2
    rw [liveSlot, hfree] at hlive
    exact absurd hlive (by simp)

theorem writeDirEntry_safe {dir : Fat32Dir} {i : Nat} {s : Slot} (hslot : o.slot = none)
    (hdir : dir.cluster = o.dir) (hi : (slotsOf fs o.dirChain)[i]? = some s) (ht : o.Touches s)
    (e : DirEntry) {Q : Except (Fault VfsError) Unit → σ → Own → Prop} (hq : Q (.ok ()) t o) :
    (localProtocol fs shared).SafeM (vfsCall (dir.writeDirEntry fs (i * 32) e)) t o Q := by
  refine safeM_vfsCall (safeM_call fun v hv hold _ => ?_)
  have hmem := mem_of_getElem? hi
  have hlen := hold.slot_fits hv hmem
  refine ⟨_, _, _, o, writeDirEntry_runs hold.dir hi hdir e,
    hold.keeps_putSlot hv hmem ht e.toBytes_length o.entry, ?_, hq⟩
  refine ⟨hold.dir.congr fun _ _ => rfl, hold.cells, hold.fat, hold.copies, fun y hy => ?_,
    fun s' hs' => ?_, fun s' hs' => ?_, hold.got⟩
  · rw [putSlot_data_of_ne]
    · exact hold.data y hy
    · exact fun heq => (hold.cells y hy).2.2 (heq ▸ (mem_slotsOf.mp hmem).1)
  · rw [hslot] at hs'
    exact absurd hs' (by simp)
  · obtain ⟨h1, h2⟩ := hold.avoid s' hs'
    have hne : s' ≠ s := by
      rintro rfl
      unfold Own.Touches at ht
      rw [hslot] at ht
      exact ht hs'
    rw [slot_putSlot_of_ne e.toBytes_length hlen (mod_of_mem_slotsOf hmem)
      (mod_of_mem_slotsOf h1) hne]
    exact ⟨h1, h2⟩

end Kerners.Fat32
