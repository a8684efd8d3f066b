import Kerners.Fat32.Chain

/-!
# FAT entries on any disk (fs/fat32/fat.rs)

`Fat32.Volume` reads the FAT of a disk whose geometry is consistent. Here the disk and the boot
sector are arbitrary: `readsEntry` is what the call of `read_entry` returns, `rawEntry` is what one
copy of the FAT stores, and `storeEntry` is the disk after `write_entry`.

* The sector of an entry in copy `k` is computed in `u32` arithmetic (`entrySector`). `FatLayout`
  says what keeps these sectors apart: the byte offset of an entry does not wrap, every copy has
  room for all entries, and the copies share no sector.
* A failed read or write is an error of the call and leaves the disk.
-/

namespace Kerners.Fat32

open Lib Kerners.Block List

/-! ## Calls on a disk -/

def anyView : View Cmd Resp Disk := ⟨Disk, Disk.handle, Eq, fun _ _ => True⟩

theorem allowed_any {μ α : Type} : ∀ (p : Prog Cmd Resp μ α) (d : Disk),
    p.Allowed Disk.handle (fun _ _ => True) d
  | .pure _, _ => trivial
  | .op c k, d => ⟨trivial, allowed_any (k (Disk.handle c d).1) (Disk.handle c d).2⟩
  | .mark _ k, d => allowed_any k d

variable {d d' : Disk} {n c x : Nat} {buf : Bytes}

theorem runsM_any_iff {μ σ ε α : Type} {m : DevM μ σ ε α} {s s' : σ} {r : Except ε α} :
    RunsM anyView m s d r s' d' ↔ (m s).run Disk.handle d = ((r, s'), d') := by
  constructor
  · intro h
    obtain ⟨d1, hrun, rfl, _⟩ := h d rfl
    exact hrun
  · rintro h _ rfl
    exact ⟨d', h, rfl, allowed_any _ _⟩

section

variable {μ σ ε ε' α β : Type} {s s' s1 : σ} {d d' d1 : Disk} {m : DevM μ σ ε α}

theorem runsM_any_det {r r1 : Except ε α} (h : RunsM anyView m s d r s' d')
    (h1 : RunsM anyView m s d r1 s1 d1) : r = r1 ∧ s' = s1 ∧ d' = d1 := by
  have heq := (runsM_any_iff.1 h).symm.trans (runsM_any_iff.1 h1)
  rw [Prod.mk.injEq, Prod.mk.injEq, and_assoc] at heq
  exact heq

theorem runsM_any_bind {f : α → DevM μ σ ε β} {b : β}
    (h : RunsM anyView (m >>= f) s d (.ok b) s' d') :
    ∃ a s1 d1, RunsM anyView m s d (.ok a) s1 d1 ∧ RunsM anyView (f a) s1 d1 (.ok b) s' d' := by
  rcases hm : (m s).run Disk.handle d with ⟨⟨r, s1⟩, d1⟩
  have hrun : RunsM anyView m s d r s1 d1 := runsM_any_iff.2 hm
  cases r with
  | error e => exact nomatch (runsM_any_det h (.bind_error hrun)).1
  | ok a =>
    refine ⟨a, s1, d1, hrun, ?_⟩
    rcases hf : (f a s1).run Disk.handle d1 with ⟨⟨r2, s2⟩, d2⟩
    obtain ⟨rfl, rfl, rfl⟩ := runsM_any_det h (RunsM.bind_ok hrun (runsM_any_iff.2 hf))
    exact runsM_any_iff.2 hf

theorem runsM_any_mapErr {g : ε → ε'} {a : α} (h : RunsM anyView (m.mapErr g) s d (.ok a) s' d') :
    RunsM anyView m s d (.ok a) s' d' := by
  rcases hm : (m s).run Disk.handle d with ⟨⟨r, s1⟩, d1⟩
  have hrun : RunsM anyView m s d r s1 d1 := runsM_any_iff.2 hm
  cases r with
  | error e => exact nomatch (runsM_any_det h (.mapErr_error hrun)).1
  | ok b =>
    obtain ⟨hr, rfl, rfl⟩ := runsM_any_det h (RunsM.mapErr_ok hrun)
    cases hr
    exact hrun

end

def returned {α : Type} (m : FatM α) (d : Disk) : Except FatError α :=
  ((m FatTable.new).run Disk.handle d).1.1

theorem returned_eq {α : Type} {m : FatM α} {t' : FatTable} {r : Except FatError α}
    (h : RunsM anyView m FatTable.new d r t' d') : returned m d = r := by
  unfold returned
  rw [runsM_any_iff.1 h]

section

variable {μ σ : Type} {s : σ} {d : Disk}

theorem readBlock_any (n len : Nat) :
    RunsM anyView (readBlock n len : DevM μ σ BlockError Bytes) s d (d.readBlock n len) s d :=
  runsM_any_iff.2 rfl

theorem writeBlock_any (n : Nat) (buf : Bytes) :
    RunsM anyView (writeBlock n buf : DevM μ σ BlockError Unit) s d (d.writeBlock n buf).1 s
      (d.writeBlock n buf).2 :=
  runsM_any_iff.2 rfl

end

theorem Disk.of_readBlock_ok {len : Nat} (h : d.readBlock n len = .ok buf) :
    len = d.blockSize ∧ n < d.blockCount := by
  unfold Disk.readBlock at h
  split_ifs at h with h1 h2
  exact ⟨not_not.1 h1, Nat.lt_of_not_le h2⟩

theorem Disk.of_writeBlock_ok (h : (d.writeBlock n buf).1 = .ok ()) :
    d.readOnly = false ∧ ∃ hl, (d.writeBlock n buf).2 = d.put n buf hl := by
  unfold Disk.writeBlock at h ⊢
  split_ifs at h ⊢ with h1 hl
  exact ⟨Bool.eq_false_iff.2 h1, by assumption, rfl⟩

namespace Fat32FileSystem

variable (fs : Fat32FileSystem)

/-- What the call of `read_entry` returns. -/
def readsEntry (d : Disk) (c : Nat) : Except FatError Nat :=
  returned (fs.readEntry c) d

/-- The sector of the entry of `c` in copy `k` of the FAT. -/
def entrySector (k c : Nat) : Nat :=
  (fs.fatSector c + k * fs.boot.fatSize32.toNat % 2 ^ 32) % 2 ^ 32

/-- The entry of `c` that copy `k` stores, with its upper four bits. -/
def rawEntry (d : Disk) (k c : Nat) : Nat :=
  entryAt (d.blocks (fs.entrySector k c)) (fs.entryOffset c)

end Fat32FileSystem

variable {fs : Fat32FileSystem} {d d' : Disk} {t t' : FatTable}

open Fat32FileSystem

theorem rawEntry_eq (hc : Consistent fs d) {k i : Nat} (hi : i < fs.totalClusters + 2)
    (hk : k < fs.boot.numFats.toNat) : fs.rawEntry d k i = fs.copyEntry d k (fatIndex i) := by
  unfold rawEntry copyEntry entrySector
  rw [(hc.copySector_eq hi hk).1, entryOffset_eq]

/-! ## `read_entry` -/

theorem entrySector_zero (fs : Fat32FileSystem) (c : Nat) : fs.entrySector 0 c = fs.fatSector c := by
  unfold entrySector fatSector
  simp

theorem readEntry_any_ok (hc : ¬ (c < 2 ∨ c ≥ fs.endCluster))
    (hs : fs.boot.sectorSize = d.blockSize) (hn : fs.entrySector 0 c < d.blockCount) :
    RunsM anyView (fs.readEntry c) t d (.ok (fs.rawEntry d 0 c % 2 ^ 28)) t d := by
  unfold readEntry rawEntry
  rw [if_neg hc, entrySector_zero]
  rw [entrySector_zero] at hn
  have hread := readBlock_any (μ := Empty) (s := t) (d := d) (fs.fatSector c) fs.boot.sectorSize
  rw [Disk.readBlock_ok hs hn] at hread
  exact .bind_ok (.mapErr_ok hread) (.pure _)

theorem readEntry_any_invalid (hc : c < 2 ∨ c ≥ fs.endCluster) :
    RunsM anyView (fs.readEntry c) t d (.error .invalidCluster) t d := by
  unfold readEntry
  rw [if_pos hc]
  exact .throw _

theorem readEntry_any_error (hc : ¬ (c < 2 ∨ c ≥ fs.endCluster))
    (hn : ¬ (fs.boot.sectorSize = d.blockSize ∧ fs.entrySector 0 c < d.blockCount)) :
    RunsM anyView (fs.readEntry c) t d (.error .ioError) t d := by
  have hread := readBlock_any (μ := Empty) (s := t) (d := d) (fs.fatSector c) fs.boot.sectorSize
  have herr : ∃ e, d.readBlock (fs.fatSector c) fs.boot.sectorSize = .error e := by
    rw [entrySector_zero] at hn
    unfold Disk.readBlock
    split_ifs with h1 h2
    · exact ⟨_, rfl⟩
    · exact ⟨_, rfl⟩
    · exact absurd ⟨not_not.1 h1, Nat.lt_of_not_le h2⟩ hn
  obtain ⟨e, he⟩ := herr
  rw [he] at hread
  unfold readEntry
  rw [if_neg hc]
  exact .bind_error (.mapErr_error hread)

theorem readEntry_any (t : FatTable) (c : Nat) :
    RunsM anyView (fs.readEntry c) t d (fs.readsEntry d c) t d := by
  have key : ∃ r, ∀ t, RunsM anyView (fs.readEntry c) t d r t d := by
    by_cases hc : c < 2 ∨ c ≥ fs.endCluster
    · exact ⟨_, fun _ => readEntry_any_invalid hc⟩
    · by_cases hn : fs.boot.sectorSize = d.blockSize ∧ fs.entrySector 0 c < d.blockCount
      · exact ⟨_, fun _ => readEntry_any_ok hc hn.1 hn.2⟩
      · exact ⟨_, fun _ => readEntry_any_error hc hn⟩
  obtain ⟨r, hr⟩ := key
  have hreads : fs.readsEntry d c = r := returned_eq (hr FatTable.new)
  rw [hreads]
  exact hr t

theorem readsEntry_of_runs {r : Except FatError Nat}
    (h : RunsM anyView (fs.readEntry c) t d r t d) : fs.readsEntry d c = r := by
  have h1 := runsM_any_iff.1 h
  rw [runsM_any_iff.1 (readEntry_any t c)] at h1
  simpa using h1

theorem readsEntry_ok_range (h : fs.readsEntry d c = .ok x) : 2 ≤ c ∧ c < fs.endCluster := by
  by_contra hc
  rw [readsEntry_of_runs (t := FatTable.new) (readEntry_any_invalid (by omega))] at h
  cases h

/-! ## `read_chain` -/

/-- `c` is a cluster that `read_chain` follows, and its entry reads as `x`. -/
def Link (fs : Fat32FileSystem) (d : Disk) (c x : Nat) : Prop :=
  2 ≤ c ∧ c < fatReservedMin ∧ fs.readsEntry d c = .ok x

/-- **Following `read_entry`** from `c` meets the clusters `l`, one after the other, and then a value
below 2 or at least `FAT_RESERVED_MIN`. -/
def Follows (fs : Fat32FileSystem) (d : Disk) (c : Nat) (l : List Nat) : Prop :=
  Walk (fun c => (fs.readsEntry d c).toOption.getD 0) (fun c => ∃ x, Link fs d c x)
    (fun c => c < 2 ∨ fatReservedMin ≤ c) c l

namespace Follows

variable {c x : Nat} {l : List Nat}

theorem cell_not_stop (c : Nat) (h : ∃ x, Link fs d c x) : ¬ (c < 2 ∨ fatReservedMin ≤ c) := by
  obtain ⟨x, h1, h2, _⟩ := h
  omega

theorem unique {l' : List Nat} (h : Follows fs d c l) (h' : Follows fs d c l') : l = l' :=
  Walk.unique cell_not_stop h h'

theorem nodup (h : Follows fs d c l) : l.Nodup := Walk.nodup cell_not_stop h

theorem next (h : Follows fs d c l) (hx : Link fs d c x) :
    ∃ l', l = c :: l' ∧ Follows fs d x l' := by
  cases h with
  | done hs => exact absurd hs (cell_not_stop c ⟨x, hx⟩)
  | @step _ l' _ hrest =>
    refine ⟨l', rfl, ?_⟩
    simp only [hx.2.2] at hrest
    exact hrest

theorem cons (hx : Link fs d c x) (h : Follows fs d x l) : Follows fs d c (c :: l) := by
  refine Walk.step ⟨x, hx⟩ ?_
  simp only [hx.2.2]
  exact h

theorem inRange (h : Follows fs d c l) (hx : x ∈ l) : fs.InRange x := by
  obtain ⟨y, _, _, hy⟩ := Walk.cells h x hx
  have hr := readsEntry_ok_range hy
  exact ⟨hr.1, hr.2.trans_le (Nat.mod_le _ _)⟩

theorem length_le (h : Follows fs d c l) : l.length ≤ fs.totalClusters := by
  have hsub : l ⊆ List.range' 2 fs.totalClusters := fun x hx => by
    have := h.inRange hx
    rw [mem_range'_1]
    exact ⟨this.1, by have := this.2; omega⟩
  have := (subperm_of_subset h.nodup hsub).length_le
  rwa [length_range'] at this

theorem of_reach (h : Follows fs d c l) (hx : Relation.ReflTransGen (Link fs d) c x) :
    ∃ l', Follows fs d x l' ∧ l'.length ≤ l.length := by
  induction hx with
  | refl => exact ⟨l, h, Nat.le_refl _⟩
  | tail _ hlink ih =>
    obtain ⟨l1, h1, hle⟩ := ih
    obtain ⟨l2, rfl, h2⟩ := h1.next hlink
    exact ⟨l2, h2, Nat.le_trans (Nat.le_succ _) hle⟩

theorem not_cyclic (h : Follows fs d c l) (hx : Relation.ReflTransGen (Link fs d) c x) :
    ¬ Relation.TransGen (Link fs d) x x := by
  intro hcyc
  obtain ⟨l1, h1, _⟩ := h.of_reach hx
  obtain ⟨y, hxy, hyx⟩ := Relation.TransGen.head'_iff.1 hcyc
  obtain ⟨l2, hl, h2⟩ := h1.next hxy
  obtain ⟨l3, h3, hle⟩ := h2.of_reach hyx
  -- the walk from `x` would be longer than itself
  have hlen := congrArg List.length (hl.symm.trans (h1.unique h3))
  simp only [length_cons] at hlen
  omega

end Follows

theorem readChainLoop_link {fuel : Nat} {chain : List Nat} {r : Except FatError (List Nat)}
    (hx : Link fs d c x) (hlen : (chain ++ [c]).length ≤ fs.totalClusters)
    (h : RunsM anyView (fs.readChainLoop fuel (chain ++ [c]) x) t d r t d) :
    RunsM anyView (fs.readChainLoop (fuel + 1) chain c) t d r t d := by
  have hread : RunsM anyView (fs.readEntry c) t d (fs.readsEntry d c) t d := readEntry_any t c
  rw [hx.2.2] at hread
  unfold readChainLoop
  rw [if_pos ⟨hx.1, hx.2.1⟩]
  refine .bind_ok hread ?_
  rw [if_neg (by omega)]
  exact h

theorem readChainLoop_of_follows : ∀ {l : List Nat} {c : Nat} (fuel : Nat) (chain : List Nat)
    (t : FatTable), Follows fs d c l → l.length < fuel → (chain ++ l).length ≤ fs.totalClusters →
    RunsM anyView (fs.readChainLoop fuel chain c) t d (.ok (chain ++ l)) t d
  | [], c, fuel + 1, chain, t, h, _, _ => by
    have hstop : c < 2 ∨ fatReservedMin ≤ c := by
      cases h with
      | done hs => exact hs
    unfold readChainLoop
    rw [if_neg (by omega), append_nil]
    exact .pure _
  | b :: l, c, fuel + 1, chain, t, h, hfuel, hlen => by
    obtain rfl : c = b := Walk.start_eq h
    have hcell : ∃ x, Link fs d c x := Walk.cells h c mem_cons_self
    obtain ⟨x, hx⟩ := hcell
    obtain ⟨l', hl, hrest⟩ := h.next hx
    obtain rfl : l = l' := (List.cons.inj hl).2
    rw [length_cons] at hfuel
    simp only [length_append, length_cons] at hlen
    refine readChainLoop_link hx (by simp only [length_append, length_singleton]; omega) ?_
    have hih := readChainLoop_of_follows fuel (chain ++ [c]) t hrest (by omega)
      (by simp only [length_append, length_singleton]; omega)
    rwa [append_assoc, singleton_append] at hih

theorem readChainLoop_any : ∀ (fuel c : Nat) (chain : List Nat),
    ∃ r, RunsM anyView (fs.readChainLoop fuel chain c) t d r t d ∧
      ∀ l, r = .ok l → ∃ m, l = chain ++ m ∧ Follows fs d c m
  | 0, _, _ => ⟨_, RunsM.throw _, nofun⟩
  | fuel + 1, c, chain => by
    have hread : RunsM anyView (fs.readEntry c) t d (fs.readsEntry d c) t d := readEntry_any t c
    by_cases hc : 2 ≤ c ∧ c < fatReservedMin
    · cases hx : fs.readsEntry d c with
      | error e =>
        refine ⟨.error e, ?_, nofun⟩
        rw [hx] at hread
        unfold readChainLoop
        rw [if_pos hc]
        exact .bind_error hread
      | ok x =>
        have hlink : Link fs d c x := ⟨hc.1, hc.2, hx⟩
        by_cases hlen : (chain ++ [c]).length ≤ fs.totalClusters
        · obtain ⟨r, hrun, hr⟩ := readChainLoop_any fuel x (chain ++ [c])
          refine ⟨r, readChainLoop_link hlink hlen hrun, fun l hl => ?_⟩
          obtain ⟨m, rfl, hm⟩ := hr l hl
          exact ⟨c :: m, by simp, Follows.cons hlink hm⟩
        · refine ⟨.error .corruptedChain, ?_, nofun⟩
          rw [hx] at hread
          unfold readChainLoop
          rw [if_pos hc]
          refine .bind_ok hread ?_
          rw [if_pos (by omega)]
          exact .throw _
    · refine ⟨.ok chain, ?_, ?_⟩
      · unfold readChainLoop
        rw [if_neg hc]
        exact .pure _
      · rintro l ⟨⟩
        exact ⟨[], by simp, Walk.done (by omega)⟩

/-- What the call of `read_chain` returns. -/
def Fat32FileSystem.readsChain (fs : Fat32FileSystem) (d : Disk) (c : Nat) :
    Except FatError (List Nat) :=
  returned (fs.readChain c) d

theorem readChain_any (c : Nat) : ∃ r, RunsM anyView (fs.readChain c) t d r t d ∧
    ∀ l, r = .ok l ↔ Follows fs d c l := by
  unfold readChain
  obtain ⟨r, hrun, hr⟩ := @readChainLoop_any fs d t (fs.totalClusters + 2) c []
  refine ⟨r, hrun, fun l => ⟨fun h => ?_, fun h => ?_⟩⟩
  · obtain ⟨m, rfl, hm⟩ := hr l h
    exact hm
  · have hle := h.length_le
    have hrun' := readChainLoop_of_follows (fs.totalClusters + 2) [] t h (by omega) hle
    rw [runsM_any_iff] at hrun hrun'
    rw [hrun] at hrun'
    exact (Prod.mk.inj (Prod.mk.inj hrun').1).1

theorem readsChain_ok_iff {l : List Nat} : fs.readsChain d c = .ok l ↔ Follows fs d c l := by
  obtain ⟨r, hrun, hr⟩ := @readChain_any fs d FatTable.new c
  have hreads : fs.readsChain d c = r := returned_eq hrun
  rw [hreads]
  exact hr l

/-- **`read_chain` is exact on every FAT, corrupt or not.** It returns the clusters that following
`read_entry` meets, in order and without repetition, or an error, also for a start that leads into a
cycle. -/
theorem readChain_exact (fs : Fat32FileSystem) (d : Disk) (start : Nat) :
    (∀ chain, fs.readsChain d start = .ok chain ↔ Follows fs d start chain) ∧
    (∀ chain, fs.readsChain d start = .ok chain →
      (∀ c ∈ chain, 2 ≤ c ∧ c < fs.totalClusters + 2) ∧ chain.Nodup) ∧
    (∀ c, Relation.ReflTransGen (Link fs d) start c → Relation.TransGen (Link fs d) c c →
      ∃ e, fs.readsChain d start = .error e) := by
  refine ⟨fun chain => readsChain_ok_iff, fun chain h => ?_, fun c hc hcyc => ?_⟩
  · have hf := readsChain_ok_iff.1 h
    exact ⟨fun c hc => hf.inRange hc, hf.nodup⟩
  · cases h : fs.readsChain d start with
    | error e => exact ⟨e, rfl⟩
    | ok l => exact absurd hcyc ((readsChain_ok_iff.1 h).not_cyclic hc)

/-! ## `write_entry` -/

theorem Disk.eq_of_blocks (hs : d.blockSize = d'.blockSize) (hc : d.blockCount = d'.blockCount)
    (hro : d.readOnly = d'.readOnly) (hb : ∀ n, d.blocks n = d'.blocks n) : d = d' := by
  obtain ⟨_, _, _, b, _⟩ := d
  obtain ⟨_, _, _, b', _⟩ := d'
  obtain rfl : b = b' := funext hb
  cases hs
  cases hc
  cases hro
  rfl

namespace Fat32FileSystem

variable (fs : Fat32FileSystem)

/-- The block with the entry of `c` set, if it has room for it. -/
def setIn (c x : Nat) (buf : Bytes) : Bytes :=
  if fs.entryOffset c + 4 ≤ buf.length then setEntryAt buf (fs.entryOffset c) x else buf

/-- The disk with the entry of `c` set in the copies `ks` of the FAT. -/
def setCopies (d : Disk) (c x : Nat) (ks : List Nat) : Disk where
  blockSize := d.blockSize
  blockCount := d.blockCount
  readOnly := d.readOnly
  blocks n := if ∃ k ∈ ks, n = fs.entrySector k c then fs.setIn c x (d.blocks n) else d.blocks n
  blocks_length n := by
    have h := d.blocks_length n
    split_ifs
    · unfold setIn
      split_ifs with hfit
      · rw [setEntryAt_length hfit, h]
      · exact h
    · exact h

/-- The disk after `write_entry`. -/
def storeEntry (d : Disk) (c x : Nat) : Disk :=
  fs.setCopies d c x (List.range fs.boot.numFats.toNat)

end Fat32FileSystem

theorem entryOffset_fits (fs : Fat32FileSystem) (c : Nat) :
    fs.entryOffset c + 4 ≤ fs.boot.sectorSize := by
  unfold entryOffset
  rcases sectorSize_cases fs with h | h | h | h <;> rw [h] <;> omega

theorem entryOffset_fits_block (hs : fs.boot.sectorSize = d.blockSize) (c n : Nat) :
    fs.entryOffset c + 4 ≤ (d.blocks n).length := by
  rw [d.blocks_length, ← hs]
  exact entryOffset_fits fs c

theorem writeCopies_any {c x : Nat} :
    ∀ {ks : List Nat} {d : Disk}, fs.boot.sectorSize = d.blockSize → d.readOnly = false →
      (∀ k ∈ ks, fs.entrySector k c < d.blockCount) → (ks.map (fs.entrySector · c)).Nodup →
      RunsM anyView (fs.writeCopies c x ks) t d (.ok ()) t (fs.setCopies d c x ks)
  | [], d, _, _, _, _ => by
    have hd : fs.setCopies d c x [] = d :=
      Disk.eq_of_blocks rfl rfl rfl fun n => by simp [setCopies]
    rw [hd]
    exact .pure _
  | k :: ks, d, hs, hro, hn, hnd => by
    have hfit := entryOffset_fits_block hs c (fs.entrySector k c)
    have hlen := (setEntryAt_length (x := x) hfit).trans (d.blocks_length _)
    have hread := readBlock_any (μ := Empty) (s := t) (d := d) (fs.entrySector k c)
      fs.boot.sectorSize
    rw [Disk.readBlock_ok hs (hn k mem_cons_self)] at hread
    have hwrite := writeBlock_any (μ := Empty) (s := t) (d := d) (fs.entrySector k c)
      (setEntryAt (d.blocks (fs.entrySector k c)) (fs.entryOffset c) x)
    rw [Disk.writeBlock_ok hro hlen (hn k mem_cons_self)] at hwrite
    rw [map_cons, nodup_cons] at hnd
    have hrest := writeCopies_any (x := x) (d := d.put (fs.entrySector k c) _ hlen) hs hro
      (fun k' hk' => hn k' (mem_cons_of_mem k hk')) hnd.2
    have hset : fs.setCopies (d.put (fs.entrySector k c) _ hlen) c x ks =
        fs.setCopies d c x (k :: ks) := by
      refine Disk.eq_of_blocks rfl rfl rfl fun n => ?_
      by_cases hk : n = fs.entrySector k c
      · subst hk
        have hout : ¬ ∃ k' ∈ ks, fs.entrySector k c = fs.entrySector k' c := by
          rintro ⟨k', hk', heq⟩
          exact hnd.1 (mem_map.2 ⟨k', hk', heq.symm⟩)
        simp only [setCopies, if_neg hout, Disk.put_blocks_self]
        rw [if_pos ⟨k, mem_cons_self, rfl⟩, setIn, if_pos hfit]
      · simp only [setCopies, Disk.put_blocks_of_ne hk, mem_cons, exists_eq_or_imp, hk, false_or]
    rw [hset] at hrest
    unfold writeCopies
    exact .bind_ok (.mapErr_ok hread) (.bind_ok (.mapErr_ok hwrite) hrest)

theorem writeCopies_ok {c x : Nat} : ∀ {ks : List Nat} {d d' : Disk} {t t' : FatTable},
    RunsM anyView (fs.writeCopies c x ks) t d (.ok ()) t' d' → ∀ k ∈ ks,
    fs.boot.sectorSize = d.blockSize ∧ d.readOnly = false ∧ fs.entrySector k c < d.blockCount
  | [], _, _, _, _, _ => nofun
  | k0 :: ks, d, d', t, t', h => by
    unfold writeCopies at h
    obtain ⟨buf, t1, d1, h1, h2⟩ := runsM_any_bind h
    obtain ⟨_, t2, d2, h3, h4⟩ := runsM_any_bind h2
    have hread := runsM_any_det (runsM_any_mapErr h1) (readBlock_any _ _)
    obtain ⟨hok, rfl, rfl⟩ := hread
    have hwrite := runsM_any_det (runsM_any_mapErr h3) (writeBlock_any _ _)
    obtain ⟨hok', rfl, rfl⟩ := hwrite
    obtain ⟨hs, hn⟩ := Disk.of_readBlock_ok hok.symm
    obtain ⟨hro, hl, hput⟩ := Disk.of_writeBlock_ok hok'.symm
    have hrest := writeCopies_ok h4
    intro k hk
    rcases mem_cons.1 hk with rfl | hk
    · exact ⟨hs, hro, hn⟩
    · have := hrest k hk
      rw [hput] at this
      exact this

/-! ## The layout of the FAT -/

def Fat32FileSystem.copyBlock (fs : Fat32FileSystem) (k i : Nat) : Nat :=
  (fs.boot.fatStartSector + k * fs.boot.fatSize32.toNat + i) % 2 ^ 32

/-- **A FAT whose entries are apart**: the offsets of the entries do not wrap, there is a copy, every
copy has room for all entries, and the copies have no sector in common. -/
structure FatLayout (fs : Fat32FileSystem) : Prop where
  entries : fs.totalClusters + 2 ≤ 2 ^ 30
  fats : 1 ≤ fs.boot.numFats.toNat
  large : (fs.totalClusters + 2) * 4 ≤ fs.boot.fatSize32.toNat * fs.boot.sectorSize
  disjoint : ∀ k < fs.boot.numFats.toNat, ∀ k' < fs.boot.numFats.toNat,
    ∀ i < fs.boot.fatSize32.toNat, ∀ i' < fs.boot.fatSize32.toNat,
    fs.copyBlock k i = fs.copyBlock k' i' → k = k'

namespace FatLayout

variable (hf : FatLayout fs) {c : Nat}
include hf

theorem end_eq : fs.endCluster = fs.totalClusters + 2 := by
  have := hf.entries
  unfold endCluster
  omega

theorem entrySector_eq (k : Nat) (hc : c < fs.totalClusters + 2) :
    fs.entrySector k c = fs.copyBlock k (c * 4 / fs.boot.sectorSize) := by
  have hmod : c * 4 % 2 ^ 32 = c * 4 := by
    have := hf.entries
    omega
  unfold entrySector fatSector copyBlock
  rw [hmod]
  generalize c * 4 / fs.boot.sectorSize = i
  generalize k * fs.boot.fatSize32.toNat = w
  omega

theorem entryOffset_eq' (hc : c < fs.totalClusters + 2) :
    fs.entryOffset c = c * 4 % fs.boot.sectorSize := by
  have hmod : c * 4 % 2 ^ 32 = c * 4 := by
    have := hf.entries
    omega
  unfold entryOffset
  rw [hmod]

theorem index_lt (hc : c < fs.totalClusters + 2) :
    c * 4 / fs.boot.sectorSize < fs.boot.fatSize32.toNat := by
  have := hf.large
  exact Nat.div_lt_of_lt_mul (by rw [Nat.mul_comm fs.boot.sectorSize]; omega)

theorem entrySector_inj {k k' c' : Nat} (hk : k < fs.boot.numFats.toNat)
    (hk' : k' < fs.boot.numFats.toNat) (hc : c < fs.totalClusters + 2)
    (hc' : c' < fs.totalClusters + 2) (h : fs.entrySector k c = fs.entrySector k' c') :
    k = k' ∧ c * 4 / fs.boot.sectorSize = c' * 4 / fs.boot.sectorSize := by
  rw [hf.entrySector_eq k hc, hf.entrySector_eq k' hc'] at h
  have hi := hf.index_lt hc
  have hi' := hf.index_lt hc'
  have hkk := hf.disjoint k hk k' hk' _ hi _ hi' h
  refine ⟨hkk, ?_⟩
  subst hkk
  have hlt := fs.boot.fatSize32.toNat_lt
  unfold copyBlock at h
  generalize c * 4 / fs.boot.sectorSize = i at *
  generalize c' * 4 / fs.boot.sectorSize = i' at *
  generalize fs.boot.fatStartSector + k * fs.boot.fatSize32.toNat = w at h
  omega

theorem entryOffset_apart {c' : Nat} (hc : c < fs.totalClusters + 2)
    (hc' : c' < fs.totalClusters + 2) (hne : c' ≠ c)
    (h : c * 4 / fs.boot.sectorSize = c' * 4 / fs.boot.sectorSize) :
    fs.entryOffset c' + 4 ≤ fs.entryOffset c ∨ fs.entryOffset c + 4 ≤ fs.entryOffset c' := by
  rw [hf.entryOffset_eq' hc, hf.entryOffset_eq' hc']
  rcases sectorSize_cases fs with hs | hs | hs | hs <;> rw [hs] at h ⊢ <;> omega

theorem sectors_nodup (hc : c < fs.totalClusters + 2) :
    ((List.range fs.boot.numFats.toNat).map (fs.entrySector · c)).Nodup := by
  refine List.Nodup.map_on ?_ nodup_range
  intro k hk k' hk' h
  exact (hf.entrySector_inj (mem_range.1 hk) (mem_range.1 hk') hc hc h).1

end FatLayout

theorem rawEntry_storeEntry (hf : FatLayout fs) (hs : fs.boot.sectorSize = d.blockSize)
    {k e : Nat} (x : Nat) (hk : k < fs.boot.numFats.toNat) (hc : c < fs.totalClusters + 2)
    (he : e < fs.totalClusters + 2) :
    fs.rawEntry (fs.storeEntry d c x) k e =
      if e = c then fs.rawEntry d k c - fs.rawEntry d k c % 2 ^ 28 + x % 2 ^ 28
      else fs.rawEntry d k e := by
  have hfit := entryOffset_fits_block hs c (fs.entrySector k e)
  unfold rawEntry storeEntry setCopies setIn
  simp only [mem_range]
  by_cases hec : e = c
  · subst hec
    rw [if_pos ⟨k, hk, rfl⟩, if_pos hfit, if_pos rfl, entryAt_setEntryAt hfit, setLow]
  · rw [if_neg hec]
    by_cases hsec : ∃ k' < fs.boot.numFats.toNat, fs.entrySector k e = fs.entrySector k' c
    · obtain ⟨k', hk', heq⟩ := id hsec
      rw [if_pos hsec, if_pos hfit]
      have hidx := (hf.entrySector_inj hk hk' he hc heq).2
      exact entryAt_setEntryAt_of_ne hfit (hf.entryOffset_apart hc he hec hidx.symm)
    · rw [if_neg hsec]

theorem storeEntry_bytes (hs : fs.boot.sectorSize = d.blockSize) (c x : Nat) {i : Nat}
    (hout : ∀ k < fs.boot.numFats.toNat,
        n = fs.entrySector k c → i < fs.entryOffset c ∨ fs.entryOffset c + 4 ≤ i) :
    ((fs.storeEntry d c x).blocks n)[i]? = (d.blocks n)[i]? := by
  have hfit := entryOffset_fits_block hs c n
  unfold storeEntry setCopies setIn
  simp only [mem_range]
  by_cases hsec : ∃ k < fs.boot.numFats.toNat, n = fs.entrySector k c
  · obtain ⟨k, hk, heq⟩ := id hsec
    rw [if_pos hsec, if_pos hfit]
    exact getElem?_splice_of_out (by rw [leBytes_length]; exact hfit)
      (by rw [leBytes_length]; exact hout k hk heq)
  · rw [if_neg hsec]

theorem writeEntry_any (hf : FatLayout fs) (x : Nat) (hc : fs.InRange c)
    (hs : fs.boot.sectorSize = d.blockSize) (hro : d.readOnly = false)
    (hn : ∀ k < fs.boot.numFats.toNat, fs.entrySector k c < d.blockCount) :
    RunsM anyView (fs.writeEntry c x) t d (.ok ()) t (fs.storeEntry d c x) := by
  unfold writeEntry
  rw [if_neg (by have := hc.1; have := hc.2; have := hf.end_eq; omega)]
  exact writeCopies_any hs hro (fun k hk => hn k (mem_range.1 hk)) (hf.sectors_nodup hc.2)

theorem writeEntry_ok (h : RunsM anyView (fs.writeEntry c x) t d (.ok ()) t' d') :
    ∀ k < fs.boot.numFats.toNat,
      fs.boot.sectorSize = d.blockSize ∧ d.readOnly = false ∧ fs.entrySector k c < d.blockCount := by
  unfold writeEntry at h
  split_ifs at h with hc
  · exact nomatch (runsM_any_det h (.throw _)).1
  · exact fun k hk => writeCopies_ok h k (mem_range.2 hk)

theorem readsEntry_eq (hf : FatLayout fs) (hc : fs.InRange c) :
    fs.readsEntry d c =
      if fs.boot.sectorSize = d.blockSize ∧
      fs.entrySector 0 c < d.blockCount then .ok (fs.rawEntry d 0 c % 2 ^ 28)
      else .error .ioError := by
  have hin : ¬ (c < 2 ∨ c ≥ fs.endCluster) := by
    have := hc.1
    have := hc.2
    have := hf.end_eq
    omega
  split_ifs with hn
  · exact readsEntry_of_runs (t := FatTable.new) (readEntry_any_ok hin hn.1 hn.2)
  · exact readsEntry_of_runs (t := FatTable.new) (readEntry_any_error hin hn)

/-- All copies of the FAT agree on the low 28 bits of every entry. -/
def CopiesAgree (fs : Fat32FileSystem) (d : Disk) : Prop :=
  ∀ k < fs.boot.numFats.toNat, ∀ c < fs.totalClusters + 2,
    fs.rawEntry d k c % 2 ^ 28 = fs.rawEntry d 0 c % 2 ^ 28

theorem CopiesAgree.storeEntry (hf : FatLayout fs) (hs : fs.boot.sectorSize = d.blockSize) (x : Nat)
    (hc : c < fs.totalClusters + 2) (h : CopiesAgree fs d) :
    CopiesAgree fs (fs.storeEntry d c x) := by
  intro k hk e he
  rw [rawEntry_storeEntry hf hs x hk hc he, rawEntry_storeEntry hf hs x hf.fats hc he]
  by_cases hec : e = c
  · rw [if_pos hec, if_pos hec]
    omega
  · rw [if_neg hec, if_neg hec]
    exact h k hk e he

/-- **FAT entry access is a map with faithful mirrors**: after `write_entry(c, v)` only the low 28
bits of the entry of `c` have changed, in every copy. -/
theorem writeEntry_map (fs : Fat32FileSystem) (hf : FatLayout fs) (d d' : Disk) (t t' : FatTable)
    (c v : Nat) (hc : fs.InRange c)
    (hok : (fs.writeEntry c v t).run Disk.handle d = ((.ok (), t'), d')) :
    fs.readsEntry d' c = .ok (v % 2 ^ 28) ∧
    (∀ e, fs.InRange e → e ≠ c → fs.readsEntry d' e = fs.readsEntry d e) ∧
    (∀ k < fs.boot.numFats.toNat, ∀ e < fs.totalClusters + 2,
      fs.rawEntry d' k e / 2 ^ 28 = fs.rawEntry d k e / 2 ^ 28) ∧
    (∀ n i, (∀ k < fs.boot.numFats.toNat, n = fs.entrySector k c →
        i < fs.entryOffset c ∨ fs.entryOffset c + 4 ≤ i) →
      (d'.blocks n)[i]? = (d.blocks n)[i]?) ∧
    (CopiesAgree fs d → CopiesAgree fs d') := by
  have hrun : RunsM anyView (fs.writeEntry c v) t d (.ok ()) t' d' := runsM_any_iff.2 hok
  have hready := writeEntry_ok hrun
  have hs := (hready 0 hf.fats).1
  have hset := writeEntry_any (t := t) hf v hc hs (hready 0 hf.fats).2.1
    fun k hk => (hready k hk).2.2
  obtain ⟨_, rfl, rfl⟩ := runsM_any_det hrun hset
  refine ⟨?_, fun e he hne => ?_, fun k hk e he => ?_, fun n i hout => storeEntry_bytes hs c v hout,
    CopiesAgree.storeEntry hf hs v hc.2⟩
  · rw [readsEntry_eq hf hc, if_pos ⟨hs, (hready 0 hf.fats).2.2⟩,
      rawEntry_storeEntry hf hs v hf.fats hc.2 hc.2, if_pos rfl]
    congr 1
    omega
  · rw [readsEntry_eq hf he, readsEntry_eq hf he, rawEntry_storeEntry hf hs v hf.fats hc.2 he.2,
      if_neg hne]
    rfl
  · rw [rawEntry_storeEntry hf hs v hk hc.2 he]
    split_ifs with hec
    · subst hec
      omega
    · rfl

def twoFats : Fat32FileSystem := ⟨bootRecord 2, by decide⟩

theorem twoFats_layout : FatLayout twoFats := ⟨by decide, by decide, by decide, by decide⟩

theorem writeEntry_map_twoFats : ∃ d',
    (twoFats.writeEntry 3 5 FatTable.new).run Disk.handle (bootDisk 2) =
      ((.ok (), FatTable.new), d') ∧
    twoFats.readsEntry d' 3 = .ok (5 % 2 ^ 28) := by
  have hrun : RunsM anyView (twoFats.writeEntry 3 5) FatTable.new (bootDisk 2) (.ok ())
      FatTable.new (twoFats.storeEntry (bootDisk 2) 3 5) :=
    writeEntry_any twoFats_layout 5 ⟨by decide, by decide⟩ (by decide) rfl (by decide)
  rw [runsM_any_iff] at hrun
  exact ⟨_, hrun, (writeEntry_map twoFats twoFats_layout _ _ _ _ 3 5 ⟨by decide, by decide⟩ hrun).1⟩

end Kerners.Fat32
