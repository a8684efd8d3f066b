import Kerners.Fat32.Listing

/-!
# Well-formed volumes

A volume is well-formed when the chains of the root directory and of every visible entry, as
`read_chain` returns them, end properly, are used and are pairwise disjoint, when every file has
clusters enough for its size, and when behind the end marker of a directory there is nothing.

An `Owner` of clusters is the root or the slot of a visible entry, named by the start cluster of the
directory and the offset of the entry.
-/

namespace Kerners.Fat32

open Lib Kerners.Block

/-- What the reading calls return: `read_chain`, `parse_entries_with_offsets`, the slots behind
`read_all_cluster_data`, and `read_entry`. -/
structure Readings where
  chain : Nat → Except FatError (List Nat)
  entries : Nat → List Listed
  slots : Nat → List Bytes
  next : Nat → Nat

/-- The value behind the last cluster of a chain that starts at `c`. -/
def Readings.endOf (R : Readings) (c : Nat) (l : List Nat) : Nat :=
  match l.getLast? with
  | none => c
  | some x => R.next x

def Fat32FileSystem.readings (fs : Fat32FileSystem) (d : Disk) : Readings where
  chain c := ((fs.readChain c FatTable.new).run Disk.handle d).1.1
  entries c :=
    ((Fat32Dir.parseEntriesWithOffsets fs ⟨c, []⟩ ()).run Disk.handle d).1.1.toOption.getD []
  slots c :=
    chunks 32 (((Fat32Dir.readAllClusterData fs ⟨c, []⟩ ()).run Disk.handle d).1.1.toOption.getD [])
  next c := ((fs.readEntry c FatTable.new).run Disk.handle d).1.1.toOption.getD fatFree

/-- Who a chain belongs to: the root directory, or the entry at `offset` of a directory. -/
inductive Owner where
  | root
  | entry (dir offset : Nat)
  deriving DecidableEq

section

variable (fs : Fat32FileSystem) (R : Readings)

def Fat32FileSystem.root : Nat := fs.boot.rootCluster.toNat

/-- The directories reachable from the root: the owner and the start cluster. -/
inductive Dirs : Owner → Nat → Prop
  | root : Dirs .root fs.root
  | sub {w : Owner} {c : Nat} {e : Listed} (h : Dirs w c) (he : e ∈ R.entries c)
      (hdir : e.entry.isDir = true) : Dirs (.entry c e.offset) e.entry.cluster

inductive Owns : Owner → Nat → Prop
  | root : Owns .root fs.root
  | entry {w : Owner} {c : Nat} {e : Listed} (h : Dirs fs R w c) (he : e ∈ R.entries c)
      (hstart : 2 ≤ e.entry.cluster) : Owns (.entry c e.offset) e.entry.cluster

/-- **Well-formed**, as the reading calls see it. -/
structure WellFormedReadings : Prop where
  chain : ∀ w c, Owns fs R w c → ∃ l, R.chain c = .ok l ∧ fatEocMin ≤ R.endOf c l ∧
    ∀ x ∈ l, R.next x ≠ fatFree
  disjoint : ∀ w w' c c' l l', Owns fs R w c → Owns fs R w' c' → w ≠ w' → R.chain c = .ok l →
    R.chain c' = .ok l' → l.Disjoint l'
  size : ∀ w c, Dirs fs R w c → ∀ e ∈ R.entries c, e.entry.isDir = false →
    ∀ l, R.chain e.entry.cluster = .ok l → Fat32File.clustersFor fs e.entry.fileSize.toNat ≤ l.length
  tail : ∀ w c, Dirs fs R w c → ZeroTail (R.slots c)

/-- **A well-formed volume** on a disk. -/
def Fat32FileSystem.WellFormed (d : Disk) : Prop := WellFormedReadings fs (fs.readings d)

end

/-! ## Readings of a volume -/

/-- The clusters that `read_chain` returns for `c`, none if it fails. -/
def listAt (fs : Fat32FileSystem) (v : Vol) (c : Nat) : List Nat := (chainOf fs v c).toOption.getD []

/-- The slots of the directory that starts at `c`. -/
def slotsAt (fs : Fat32FileSystem) (v : Vol) (c : Nat) : List Bytes :=
  (slotsOf fs (listAt fs v c)).map v.slot

def readingsOf (fs : Fat32FileSystem) (v : Vol) : Readings where
  chain := chainOf fs v
  entries c := parseSlots [] 0 (slotsAt fs v c)
  slots := slotsAt fs v
  next c := if fs.InRange c then v.fat (fatIndex c) else fatFree

variable {fs : Fat32FileSystem} {v v' : Vol} {c c' : Nat} {l l' : List Nat} {w w' : Owner}
  {ε α : Type} {r : Except ε α} {d : Disk}

theorem runsM_eq {μ σ : Type} {m : DevM μ σ ε α} {s s' : σ} (h : RunsM (volView fs) m s v r s' v')
    (hp : Presents fs d v) : ((m s).run Disk.handle d).1.1 = r := by
  obtain ⟨d', heq, -⟩ := h d hp
  have heq' : (m s).run Disk.handle d = ((r, s'), d') := heq
  rw [heq']

theorem toOption_ok {a b : α} (h : r = .ok a) : r.toOption.getD b = a := by
  subst h
  rfl

theorem toOption_error {e : ε} {b : α} (h : r = .error e) : r.toOption.getD b = b := by
  subst h
  rfl

theorem listAt_ok (h : chainOf fs v c = .ok l) : listAt fs v c = l := toOption_ok h

theorem listAt_error {e : FatError} (h : chainOf fs v c = .error e) : listAt fs v c = [] :=
  toOption_error h

theorem readings_eq (hc : Consistent fs d) : fs.readings d = readingsOf fs (fs.volOf d) := by
  have hp := presents_volOf hc
  have hv : FullClusters fs (fs.volOf d) := fun c hr => hp.data_length hr
  have hchain : ∀ c, ((fs.readChain c FatTable.new).run Disk.handle d).1.1 =
      chainOf fs (fs.volOf d) c := fun c => runsM_eq (readChain_runs c) hp
  have hentries : ∀ c,
      ((Fat32Dir.parseEntriesWithOffsets fs ⟨c, []⟩ ()).run Disk.handle d).1.1.toOption.getD [] =
        parseSlots [] 0 (slotsAt fs (fs.volOf d) c) := fun c => by
    unfold slotsAt
    cases h : chainOf fs (fs.volOf d) c with
    | ok l =>
      rw [toOption_ok (runsM_eq (@parseEntries_runs _ _ _ ⟨c, []⟩ h) hp), listAt_ok h, entriesOf]
    | error e =>
      rw [toOption_error (runsM_eq (@parseEntries_runs_error _ _ ⟨c, []⟩ _ h) hp), listAt_error h]
      rfl
  have hslots : ∀ c, chunks 32 (((Fat32Dir.readAllClusterData fs ⟨c, []⟩ ()).run Disk.handle
      d).1.1.toOption.getD []) = slotsAt fs (fs.volOf d) c := fun c => by
    unfold slotsAt
    cases h : chainOf fs (fs.volOf d) c with
    | ok l =>
      rw [toOption_ok (runsM_eq (@readAllClusterData_runs _ _ _ ⟨c, []⟩ h) hp), listAt_ok h,
        chunks_dirData hv (chainOf_inRange h)]
    | error e =>
      have hrun : RunsM (volView fs) (Fat32Dir.readAllClusterData fs ⟨c, []⟩) () (fs.volOf d)
          (.error .ioError) () (fs.volOf d) := RunsM.bind_error (ownChain_runs_error h)
      rw [toOption_error (runsM_eq hrun hp), listAt_error h]
      rfl
  have hnext : ∀ c, ((fs.readEntry c FatTable.new).run Disk.handle d).1.1.toOption.getD fatFree =
      if fs.InRange c then (fs.volOf d).fat (fatIndex c) else fatFree := fun c => by
    by_cases hr : fs.InRange c
    · rw [toOption_ok (runsM_eq (readEntry_runs hr) hp), if_pos hr]
    · rw [toOption_error (runsM_eq (readEntry_invalid hr) hp), if_neg hr]
  unfold Fat32FileSystem.readings readingsOf
  rw [Readings.mk.injEq]
  exact ⟨funext hchain, funext hentries, funext hslots, funext hnext⟩

theorem listAt_of_chain (h : Chain fs v c l) : listAt fs v c = l := listAt_ok (chainOf_of_chain h)

theorem chainLoop_small (fuel : Nat) (pre : List Nat) (h : c < 2) :
    chainLoop fs v (fuel + 1) pre c = .ok pre := by
  unfold chainLoop
  rw [if_neg]
  omega

theorem chainOf_small (h : c < 2) : chainOf fs v c = .ok [] := chainLoop_small _ _ h

theorem listAt_small (h : c < 2) : listAt fs v c = [] := listAt_ok (chainOf_small h)

theorem two_le_of_slot {l : List Nat} {i : Nat} {s : Slot} (hl : chainOf fs v c = .ok l)
    (hi : (slotsOf fs l)[i]? = some s) : 2 ≤ c := by
  by_contra hlt
  rw [chainOf_small (by omega)] at hl
  obtain rfl := Except.ok.inj hl
  exact absurd (slot_mem_chain hi) List.not_mem_nil

/-! ## Well-formedness with chains -/

structure VolOk (fs : Fat32FileSystem) (v : Vol) : Prop where
  chain : ∀ w c, Owns fs (readingsOf fs v) w c → ∃ l, Chain fs v c l
  disjoint : ∀ w w' c c' l l', Owns fs (readingsOf fs v) w c → Owns fs (readingsOf fs v) w' c' →
    w ≠ w' → Chain fs v c l → Chain fs v c' l' → l.Disjoint l'
  size : ∀ w c, Dirs fs (readingsOf fs v) w c → ∀ e ∈ (readingsOf fs v).entries c,
    e.entry.isDir = false →
    e.entry.fileSize.toNat ≤ (listAt fs v e.entry.cluster).length * fs.boot.clusterSize
  tail : ∀ w c, Dirs fs (readingsOf fs v) w c → ZeroTail (slotsAt fs v c)

theorem endOf_eq (h : ∀ x ∈ l, fs.InRange x) : (readingsOf fs v).endOf c l = endValue v c l := by
  unfold Readings.endOf endValue
  cases hl : l.getLast? with
  | none => rfl
  | some x => exact if_pos (h x (List.mem_of_getLast? hl))

theorem chain_iff : Chain fs v c l ↔ chainOf fs v c = .ok l ∧
    fatEocMin ≤ (readingsOf fs v).endOf c l := by
  constructor
  · intro h
    refine ⟨chainOf_of_chain h, ?_⟩
    rw [endOf_eq fun x hx => h.inRange hx]
    exact h.endValue_ge
  · rintro ⟨h1, h2⟩
    rw [endOf_eq (chainOf_inRange h1)] at h2
    exact chain_of_chainOf h1 h2

theorem chainOf_entry (h : ∀ w c, Owns fs (readingsOf fs v) w c → ∃ l, Chain fs v c l)
    (hd : Dirs fs (readingsOf fs v) w c) {e : Listed} (he : e ∈ (readingsOf fs v).entries c) :
    chainOf fs v e.entry.cluster = .ok (listAt fs v e.entry.cluster) := by
  by_cases hs : 2 ≤ e.entry.cluster
  · obtain ⟨l, hl⟩ := h _ _ (.entry hd he hs)
    rw [listAt_of_chain hl, chainOf_of_chain hl]
  · rw [listAt_small (by omega), chainOf_small (by omega)]

theorem fileSize_lt (e : Listed) : e.entry.fileSize.toNat < 2 ^ 63 :=
  Nat.lt_trans e.entry.fileSize.toNat_lt (by decide)

theorem volOk_iff : WellFormedReadings fs (readingsOf fs v) ↔ VolOk fs v := by
  constructor
  · intro h
    have hchain : ∀ w c, Owns fs (readingsOf fs v) w c → ∃ l, Chain fs v c l := fun w c hw => by
      obtain ⟨l, h1, h2, -⟩ := h.chain w c hw
      exact ⟨l, chain_iff.mpr ⟨h1, h2⟩⟩
    refine ⟨hchain, fun w w' c c' l l' hw hw' hne hl hl' => ?_, fun w c hd e he hf => ?_, h.tail⟩
    · exact h.disjoint w w' c c' l l' hw hw' hne (chainOf_of_chain hl) (chainOf_of_chain hl')
    · exact (clustersFor_le_iff (fileSize_lt e)).mp
        (h.size w c hd e he hf _ (chainOf_entry hchain hd he))
  · intro h
    refine ⟨fun w c hw => ?_, fun w w' c c' l l' hw hw' hne hl hl' => ?_,
      fun w c hd e he hf l hl => ?_, h.tail⟩
    · obtain ⟨l, hl⟩ := h.chain w c hw
      refine ⟨l, (chain_iff.mp hl).1, (chain_iff.mp hl).2, fun x hx => ?_⟩
      exact (if_pos (hl.inRange hx)).trans_ne (hl.used hx)
    · obtain ⟨m, hm⟩ := h.chain w c hw
      obtain ⟨m', hm'⟩ := h.chain w' c' hw'
      obtain rfl : m = l := Except.ok.inj ((chainOf_of_chain hm).symm.trans hl)
      obtain rfl : m' = l' := Except.ok.inj ((chainOf_of_chain hm').symm.trans hl')
      exact h.disjoint w w' c c' m m' hw hw' hne hm hm'
    · refine (clustersFor_le_iff (fileSize_lt e)).mpr ?_
      have hsize := h.size w c hd e he hf
      rwa [listAt_ok hl] at hsize

theorem wellFormed_iff (hc : Consistent fs d) : fs.WellFormed d ↔ VolOk fs (fs.volOf d) := by
  unfold Fat32FileSystem.WellFormed
  rw [readings_eq hc, volOk_iff]

theorem readings_congr {d' : Disk} (hc : Consistent fs d) (hc' : Consistent fs d')
    (h : fs.volOf d' = fs.volOf d) : fs.readings d' = fs.readings d := by
  rw [readings_eq hc', readings_eq hc, h]

/-! ## Owners -/

theorem Dirs.owns {R : Readings} (h : Dirs fs R w c) (hc : 2 ≤ c) : Owns fs R w c := by
  cases h with
  | root => exact .root
  | sub h he _ => exact .entry h he hc

theorem Dirs.other {R : Readings} (h : Dirs fs R w c) (offset : Nat) :
    ∃ w', w' ≠ .entry c offset ∧ Dirs fs R w' c := by
  induction h with
  | root => exact ⟨.root, by simp, .root⟩
  | @sub w c e h he hdir ih =>
    by_cases heq : c = e.entry.cluster
    · rw [← heq]
      exact ih
    · exact ⟨.entry c e.offset, fun h => heq (Owner.entry.inj h).1, .sub h he hdir⟩

theorem Owns.start_eq (h : Owns fs (readingsOf fs v) w c) (h' : Owns fs (readingsOf fs v) w c') :
    c = c' := by
  generalize hw : w = w' at h'
  cases h with
  | root =>
    cases h' with
    | root => rfl
    | entry _ _ _ => cases hw
  | entry _ he _ =>
    cases h' with
    | root => cases hw
    | entry _ he' _ =>
      obtain ⟨rfl, ho⟩ := Owner.entry.inj hw
      rw [offset_inj he he' ho]

end Kerners.Fat32
