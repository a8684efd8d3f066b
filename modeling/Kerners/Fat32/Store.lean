import Kerners.Fat32.Entries
import Kerners.Fat32.Local

/-!
# The cluster allocator over a table of entries (fs/fat32/fat.rs)

`alloc_cluster`, `alloc_clusters` and `free_cluster` touch the disk only through `read_entry` and
`write_entry`. An `EntryStore` is a view of the disk on which these two calls read and update a map
from clusters to entries; everything about the allocator is proved once, over any store.

`volStore`: the contents of a volume (`Fat32.Volume`).
-/

namespace Kerners.Fat32

open Lib Kerners.Block Fat32FileSystem List

/-- A view on which `read_entry` and `write_entry` are a map of entries. -/
structure EntryStore (fs : Fat32FileSystem) (V : Type) where
  view : View Cmd Resp V
  get : V → Nat → Nat
  set : V → Nat → Nat → V
  end_eq : fs.endCluster = fs.totalClusters + 2
  read : ∀ {v : V} {c : Nat} {t : FatTable}, fs.InRange c →
    RunsM view (fs.readEntry c) t v (.ok (get v c)) t v
  invalid : ∀ {v : V} {c : Nat} {t : FatTable}, ¬ fs.InRange c →
    RunsM view (fs.readEntry c) t v (.error .invalidCluster) t v
  write : ∀ {v : V} {c x : Nat} {t : FatTable}, fs.InRange c →
    RunsM view (fs.writeEntry c x) t v (.ok ()) t (set v c x)
  get_set : ∀ {v : V} {c x e : Nat}, fs.InRange c → fs.InRange e →
    get (set v c x) e = if e = c then x % 2 ^ 28 else get v e
  set_set : ∀ {v : V} {c x y : Nat}, set (set v c x) c y = set v c y
  set_comm : ∀ {v : V} {c c' x y : Nat}, fs.InRange c → fs.InRange c' → c ≠ c' →
    set (set v c x) c' y = set (set v c' y) c x

open RunsM

namespace EntryStore

variable {fs : Fat32FileSystem} {V : Type} (S : EntryStore fs V) {t t' : FatTable} {v v0 v' : V}

theorem get_set_self {c : Nat} (x : Nat) (hc : fs.InRange c) : S.get (S.set v c x) c = x % 2 ^ 28 := by
  rw [S.get_set hc hc, if_pos rfl]

theorem get_set_of_ne {c e : Nat} (x : Nat) (hc : fs.InRange c) (he : fs.InRange e) (hne : e ≠ c) :
    S.get (S.set v c x) e = S.get v e := by
  rw [S.get_set hc he, if_neg hne]

/-! ## `alloc_cluster` -/

/-- The outcomes of a search for a free cluster among `cs`. -/
inductive Searched (t : FatTable) (v : V) (cs : List Nat) :
    Except FatError (Option Nat) → FatTable → V → Prop
  | found {c : Nat} (hmem : c ∈ cs) (hr : fs.InRange c) (hfree : S.get v c = fatFree) :
      Searched t v cs (.ok (some c)) (t.took c) (S.set v c fatEoc)
  | none (h : ∀ c ∈ cs, fs.InRange c ∧ S.get v c ≠ fatFree) : Searched t v cs (.ok none) t v
  | outside {c : Nat} (hmem : c ∈ cs) (hr : ¬ fs.InRange c) :
      Searched t v cs (.error .invalidCluster) t v

theorem allocFrom_searched : ∀ cs : List Nat, ∃ r t' v',
    RunsM S.view (fs.allocFrom cs) t v r t' v' ∧ S.Searched t v cs r t' v'
  | [] => ⟨_, _, _, pure _, .none (by simp)⟩
  | c :: cs => by
    unfold allocFrom
    by_cases hr : fs.InRange c
    · by_cases hfree : S.get v c = fatFree
      · refine ⟨_, _, _, bind_ok (S.read hr) ?_, .found mem_cons_self hr hfree⟩
        rw [if_pos hfree]
        refine .bind_ok (S.write hr) ?_
        exact .bind_ok RunsM.get (.bind_ok RunsM.set (.pure _))
      · obtain ⟨r, t', v', hrun, hs⟩ := allocFrom_searched cs
        refine ⟨r, t', v', bind_ok (S.read hr) ?_, ?_⟩
        · rw [if_neg hfree]
          exact hrun
        · cases hs with
          | found hmem hr' hfree' => exact .found (mem_cons_of_mem c hmem) hr' hfree'
          | none h => exact .none (forall_mem_cons.2 ⟨⟨hr, hfree⟩, h⟩)
          | outside hmem hr' => exact .outside (mem_cons_of_mem c hmem) hr'
    · exact ⟨_, _, _, bind_error (S.invalid hr), .outside mem_cons_self hr⟩

/-- The outcomes of `alloc_cluster`. -/
inductive Allocated (t : FatTable) (v : V) : Except FatError Nat → FatTable → V → Prop
  | took {c : Nat} (hr : fs.InRange c) (hfree : S.get v c = fatFree) :
      Allocated t v (.ok c) (t.took c) (S.set v c fatEoc)
  | noSpace (h : ∀ c, fs.InRange c → S.get v c ≠ fatFree) : Allocated t v (.error .noSpace) t v
  | invalid (h : ¬ HintOk fs t) : Allocated t v (.error .invalidCluster) t v

/-- **`alloc_cluster` takes a free cluster if there is one**; it fails in another way only when the
hint is no place between the clusters. -/
theorem allocCluster_allocated : ∃ r t' v',
    RunsM S.view fs.allocCluster t v r t' v' ∧ S.Allocated t v r t' v' := by
  obtain ⟨r1, t1, v1, hrun1, hs1⟩ := S.allocFrom_searched (t := t) (v := v)
    (List.range' t.nextFreeHint (fs.endCluster - t.nextFreeHint))
  obtain ⟨r2, t2, v2, hrun2, hs2⟩ := S.allocFrom_searched (t := t) (v := v)
    (List.range' 2 (t.nextFreeHint - 2))
  have hend := S.end_eq
  unfold allocCluster
  cases hs1 with
  | found hmem hr hfree =>
    exact ⟨_, _, _, bind_ok RunsM.get (.bind_ok hrun1 (.pure _)), .took hr hfree⟩
  | outside hmem hr =>
    refine ⟨_, _, _, bind_ok RunsM.get (.bind_error hrun1), .invalid fun ht => hr ?_⟩
    rw [mem_range'_1] at hmem
    exact ⟨ht.1.trans hmem.1, by omega⟩
  | none hlow =>
    cases hs2 with
    | found hmem hr hfree =>
      exact ⟨_, _, _, bind_ok RunsM.get
        (.bind_ok hrun1 (.bind_ok hrun2 (.pure _))), .took hr hfree⟩
    | outside hmem hr =>
      refine ⟨_, _, _, bind_ok RunsM.get (.bind_ok hrun1 (.bind_error hrun2)),
        .invalid fun ht => hr ?_⟩
      have := ht.2
      rw [mem_range'_1] at hmem
      exact ⟨hmem.1, by omega⟩
    | none hhigh =>
      refine ⟨_, _, _, bind_ok RunsM.get
        (.bind_ok hrun1 (.bind_ok hrun2 (.throw _))), .noSpace fun c hc => ?_⟩
      have h1 := hc.1
      have h2 := hc.2
      by_cases hle : t.nextFreeHint ≤ c
      · exact (hlow c (mem_range'_1.2 ⟨hle, by omega⟩)).2
      · exact (hhigh c (mem_range'_1.2 ⟨h1, by omega⟩)).2

theorem freeCluster_store {c : Nat} (hr : fs.InRange c) :
    RunsM S.view (fs.freeCluster c) t v (.ok ()) (t.gave c) (S.set v c fatFree) := by
  unfold freeCluster
  exact .bind_ok (S.write hr) (.bind_ok RunsM.get RunsM.set)

/-! ## The rollback -/

def clear (v : V) (cs : List Nat) : V := cs.foldl (fun v c => S.set v c fatFree) v

theorem clear_set {c x : Nat} : ∀ {cs : List Nat} {v : V}, (∀ a ∈ cs, fs.InRange a) → c ∈ cs →
    S.clear (S.set v c x) cs = S.clear v cs
  | a :: cs, v, hr, hc => by
    change S.clear (S.set (S.set v c x) a fatFree) cs = S.clear (S.set v a fatFree) cs
    by_cases hca : c = a
    · rw [hca, S.set_set]
    · have hmem : c ∈ cs := (mem_cons.1 hc).resolve_left hca
      rw [S.set_comm (hr c hc) (hr a mem_cons_self) hca]
      exact clear_set (fun b hb => hr b (mem_cons_of_mem a hb)) hmem

theorem clear_eq : ∀ {cs : List Nat}, (∀ c ∈ cs, S.set v c fatFree = v) → S.clear v cs = v
  | [], _ => rfl
  | c :: cs, h => by
    change S.clear (S.set v c fatFree) cs = v
    rw [h c mem_cons_self]
    exact clear_eq fun b hb => h b (mem_cons_of_mem c hb)

theorem clear_append (v : V) (cs : List Nat) (c : Nat) :
    S.clear v (cs ++ [c]) = S.set (S.clear v cs) c fatFree := foldl_append

theorem freeIgnoring_store : ∀ {cs : List Nat} {t : FatTable} {v : V}, (∀ c ∈ cs, fs.InRange c) →
    ∃ t', RunsM S.view (fs.freeIgnoring cs) t v (.ok ()) t' (S.clear v cs)
  | [], t, _, _ => ⟨t, pure _⟩
  | c :: cs, t, v, hr => by
    obtain ⟨t', hrun⟩ := freeIgnoring_store (t := t.gave c) (v := S.set v c fatFree)
      fun b hb => hr b (mem_cons_of_mem c hb)
    unfold freeIgnoring
    exact ⟨t', bind_ok (.attempt (.call (S.freeCluster_store (hr c mem_cons_self)))) hrun⟩

/-! ## `alloc_clusters` -/

/-- `cs` was free in `v0` and is linked in `v`; whatever does not depend on the entries of `cs` is as
before. -/
structure Linked (v0 v : V) (cs : List Nat) : Prop where
  chain : Walk (S.get v) (Cell fs) (fatEocMin ≤ ·) (cs.headD 0) cs
  free : ∀ c ∈ cs, fs.InRange c ∧ S.get v0 c = fatFree
  frame : ∀ {β : Type} (f : V → β), (∀ w, ∀ c ∈ cs, ∀ x, f (S.set w c x) = f w) → f v = f v0
  cleared : S.clear v cs = S.clear v0 cs

theorem fatEoc_low : fatEoc % 2 ^ 28 = fatEoc := by decide

theorem walk_single {c : Nat} (hc : Cell fs c) (h : S.get v c = fatEoc) :
    Walk (S.get v) (Cell fs) (fatEocMin ≤ ·) c [c] := by
  refine Walk.step hc (Walk.done ?_)
  rw [h]
  decide

namespace Linked

variable {S} {cs : List Nat} (hl : S.Linked v0 v cs)
include hl

theorem nodup : cs.Nodup := Walk.nodup Chain.cell_not_stop hl.chain

theorem inRange : ∀ c ∈ cs, fs.InRange c := fun c hc => (hl.free c hc).1

theorem others {e : Nat} (he : fs.InRange e) (hmem : e ∉ cs) : S.get v e = S.get v0 e :=
  hl.frame (fun w => S.get w e) fun _ c hc x =>
    S.get_set_of_ne x (hl.inRange c hc) he fun heq => hmem (heq ▸ hc)

theorem used {c : Nat} (hc : c ∈ cs) : S.get v c ≠ fatFree := by
  obtain ⟨l1, l2, rfl⟩ := append_of_mem hc
  have htail := Walk.tail_of_append hl.chain
  cases htail with
  | step _ hrest =>
    intro hzero
    rw [hzero] at hrest
    cases hrest with
    | done hs => exact absurd hs (by decide)
    | step hcell _ => exact absurd hcell.1.1 (by decide)

theorem extend (hsmall : SmallVolume fs) (hne : cs ≠ []) {c : Nat} (hr : fs.InRange c)
    (hfree : S.get v c = fatFree) :
    S.Linked v0 (S.set (S.set v c fatEoc) (cs.getLast hne) c) (cs ++ [c]) := by
  have hcell : Cell fs c := ⟨hr, hr.2.trans_le hsmall⟩
  have hnew : c ∉ cs := fun hc => hl.used hc hfree
  have hlast := getLast_mem hne
  have hrlast := hl.inRange _ hlast
  have hlc : cs.getLast hne ≠ c := fun h => hnew (h ▸ hlast)
  have hlow : c % 2 ^ 28 = c := by
    have := hcell.2
    unfold fatReservedMin at this
    omega
  have hall : ∀ a ∈ cs ++ [c], fs.InRange a := by
    intro a ha
    rcases mem_append.1 ha with ha | ha
    · exact hl.inRange a ha
    · rwa [mem_singleton.1 ha]
  refine ⟨?_, ?_, fun f hf => ?_, ?_⟩
  · -- the new end is a chain of its own, linked behind the old end
    have hend : Walk (S.get (S.set (S.set v c fatEoc) (cs.getLast hne) c)) (Cell fs)
        (fatEocMin ≤ ·) c [c] := by
      refine S.walk_single hcell ?_
      rw [S.get_set_of_ne c hrlast hr hlc.symm, S.get_set_self _ hr, fatEoc_low]
    have hhead : (cs ++ [c]).headD 0 = cs.headD 0 := by
      cases cs with
      | nil => exact absurd rfl hne
      | cons a l => rfl
    rw [hhead]
    refine hl.chain.append_walk hne (fun x hx => ?_) ?_
    · have hxcs := dropLast_subset cs hx
      have hxr := hl.inRange x hxcs
      have hxlast : x ≠ cs.getLast hne := by
        rintro rfl
        have hnd := hl.nodup
        rw [← dropLast_append_getLast hne, nodup_append] at hnd
        exact hnd.2.2 _ hx _ mem_cons_self rfl
      have hxc : x ≠ c := fun h => hnew (h ▸ hxcs)
      rw [S.get_set_of_ne c hrlast hxr hxlast, S.get_set_of_ne _ hr hxr hxc]
    · rw [S.get_set_self _ hrlast, hlow]
      exact hend
  · intro a ha
    rcases mem_append.1 ha with ha | ha
    · exact hl.free a ha
    · rw [mem_singleton.1 ha, ← hl.others hr hnew]
      exact ⟨hr, hfree⟩
  · rw [hf _ _ (mem_append_left _ hlast), hf _ c (mem_append_right _ mem_cons_self)]
    exact hl.frame f fun w a ha => hf w a (mem_append_left _ ha)
  · rw [S.clear_set hall (mem_append_left _ hlast), S.clear_set hall (mem_append_right _
      mem_cons_self), S.clear_append, hl.cleared, S.clear_append]

end Linked

/-- The outcomes of `alloc_clusters`, from the hint of `t`. -/
inductive AllocatedAll (t : FatTable) (v0 : V) (count : Nat) : Except FatError (List Nat) → V → Prop
  | linked {cs : List Nat} {v' : V} (hlen : cs.length = count) (h : S.Linked v0 v' cs) :
      AllocatedAll t v0 count (.ok cs) v'
  | noSpace {cs : List Nat} (hlen : cs.length < count)
      (hcs : ∀ c ∈ cs, fs.InRange c ∧ S.get v0 c = fatFree) (hnd : cs.Nodup)
      (hall : ∀ c, fs.InRange c → S.get v0 c = fatFree → c ∈ cs) :
      AllocatedAll t v0 count (.error .noSpace) (S.clear v0 cs)
  | invalid (h : ¬ HintOk fs t) : AllocatedAll t v0 count (.error .invalidCluster) v0

theorem allocMore_all (hsmall : SmallVolume fs) {first count : Nat} {t0 : FatTable} :
    ∀ (n : Nat) {clusters : List Nat} {t : FatTable} {v : V}, HintOk fs t →
    S.Linked v0 v (first :: clusters) → (first :: clusters).length + n = count →
    ∃ r t' v', RunsM S.view (fs.allocMore n first clusters) t v r t' v' ∧
      S.AllocatedAll t0 v0 count r v'
  | 0, clusters, t, v, _, hl, hlen => ⟨_, _, _, pure _, .linked hlen hl⟩
  | n + 1, clusters, t, v, ht, hl, hlen => by
    obtain ⟨r, t1, v1, hrun, ha⟩ := S.allocCluster_allocated (t := t) (v := v)
    have hcall : RunsM S.view (fs.allocCall.attempt : FatOp _) t v (.ok r) t1 v1 :=
      attempt (.call hrun)
    unfold allocMore
    cases ha with
    | invalid h => exact absurd ht h
    | @took c hr hfree =>
      have hlink := hl.extend hsmall (by simp) hr hfree
      have hlen' : (first :: (clusters ++ [c])).length + n = count := by
        simp only [length_append, length_cons, length_nil] at hlen ⊢
        omega
      obtain ⟨r', t', v', hrest, hdone⟩ := allocMore_all hsmall n (HintOk.took hr) hlink hlen'
      have hlast := hl.inRange _ (getLast_mem (by simp))
      exact ⟨r', t', v', bind_ok hcall (.bind_ok (.call (S.write hlast)) hrest), hdone⟩
    | noSpace hfull =>
      obtain ⟨t', hfree⟩ := S.freeIgnoring_store (t := t) (v := v) hl.inRange
      refine ⟨_, t', _, bind_ok hcall (.bind_ok hfree (.throw _)), ?_⟩
      rw [hl.cleared]
      refine .noSpace (by omega) hl.free hl.nodup fun c hc hzero => ?_
      by_contra hmem
      exact hfull c hc ((hl.others hc hmem).trans hzero)

theorem allocClusters_all (hsmall : SmallVolume fs) {count : Nat} (hcount : 0 < count) :
    ∃ r t' v', RunsM S.view (fs.allocClusters count) t v r t' v' ∧
      S.AllocatedAll t v count r v' := by
  obtain ⟨r, t1, v1, hrun, ha⟩ := S.allocCluster_allocated (t := t) (v := v)
  have hcall : RunsM S.view fs.allocCall t v r t1 v1 := call hrun
  unfold allocClusters
  rw [if_neg (by omega)]
  cases ha with
  | invalid h => exact ⟨_, _, _, bind_error hcall, .invalid h⟩
  | noSpace hfull =>
    have hnone : S.AllocatedAll t v count (.error .noSpace) (S.clear v []) :=
      .noSpace hcount (by simp) nodup_nil fun c hc hzero => absurd hzero (hfull c hc)
    exact ⟨_, _, _, bind_error hcall, hnone⟩
  | @took c hr hfree =>
    have hlink : S.Linked v (S.set v c fatEoc) [c] := by
      refine ⟨S.walk_single ⟨hr, hr.2.trans_le hsmall⟩ ?_, ?_, fun f hf => ?_, ?_⟩
      · exact (S.get_set_self _ hr).trans fatEoc_low
      · simpa using ⟨hr, hfree⟩
      · exact hf v c mem_cons_self _
      · exact S.clear_set (by simpa using hr) mem_cons_self
    have hlen : [c].length + (count - 1) = count := by
      rw [length_singleton]
      omega
    obtain ⟨r', t', v', hrest, hdone⟩ :=
      S.allocMore_all hsmall (count - 1) (HintOk.took hr) hlink hlen
    exact ⟨r', t', v', bind_ok hcall hrest, hdone⟩

end EntryStore

/-! ## The disk as a store -/

/-- The device reads and writes every sector of the FAT: no call fails with an I/O error. -/
structure FatReady (fs : Fat32FileSystem) (d : Disk) : Prop where
  sector : fs.boot.sectorSize = d.blockSize
  writable : d.readOnly = false
  blocks : ∀ k < fs.boot.numFats.toNat, ∀ c, fs.InRange c → fs.entrySector k c < d.blockCount

variable {fs : Fat32FileSystem} {d d' : Disk} {t t' : FatTable}

theorem FatReady.storeEntry (h : FatReady fs d) (c x : Nat) : FatReady fs (fs.storeEntry d c x) :=
  ⟨h.sector, h.writable, h.blocks⟩

theorem FatReady.readsEntry_ok (h : FatReady fs d) (hf : FatLayout fs) {c : Nat}
    (hc : fs.InRange c) : fs.readsEntry d c = .ok (fs.rawEntry d 0 c % 2 ^ 28) := by
  rw [readsEntry_eq hf hc, if_pos ⟨h.sector, h.blocks 0 hf.fats c hc⟩]

theorem setEntryAt_setEntryAt {buf : Bytes} {o x y : Nat} (h : o + 4 ≤ buf.length) :
    setEntryAt (setEntryAt buf o x) o y = setEntryAt buf o y := by
  have hentry := entryAt_setEntryAt (x := x) h
  have hkeep : entryAt (setEntryAt buf o x) o - entryAt (setEntryAt buf o x) o % 2 ^ 28 =
      entryAt buf o - entryAt buf o % 2 ^ 28 := by
    rw [hentry, setLow]
    omega
  rw [setEntryAt, hkeep, setEntryAt, setEntryAt, splice_splice]
  · rw [leBytes_length, leBytes_length]
  · rwa [leBytes_length]

theorem setEntryAt_comm {buf : Bytes} {o o' x y : Nat} (h : o + 4 ≤ buf.length)
    (h' : o' + 4 ≤ buf.length) (hd : o + 4 ≤ o' ∨ o' + 4 ≤ o) :
    setEntryAt (setEntryAt buf o x) o' y = setEntryAt (setEntryAt buf o' y) o x := by
  rw [setEntryAt, entryAt_setEntryAt_of_ne h (by omega), setEntryAt]
  rw [splice_comm (by rwa [leBytes_length]) (by rwa [leBytes_length])
    (by rw [leBytes_length, leBytes_length]; exact hd)]
  conv => rhs; rw [setEntryAt, entryAt_setEntryAt_of_ne h' (by omega), setEntryAt]

theorem setIn_length (c x : Nat) (buf : Bytes) : (fs.setIn c x buf).length = buf.length := by
  unfold setIn
  split_ifs with h
  · exact setEntryAt_length h
  · rfl

theorem setIn_setIn (c x y : Nat) (buf : Bytes) :
    fs.setIn c y (fs.setIn c x buf) = fs.setIn c y buf := by
  by_cases h : fs.entryOffset c + 4 ≤ buf.length
  · have h' : fs.entryOffset c + 4 ≤ (fs.setIn c x buf).length := by rwa [setIn_length]
    rw [setIn, if_pos h', setIn, if_pos h, setIn, if_pos h, setEntryAt_setEntryAt h]
  · simp only [setIn, if_neg h]

theorem setIn_comm {c c' : Nat} (x y : Nat) (buf : Bytes)
    (hd : fs.entryOffset c + 4 ≤ fs.entryOffset c' ∨ fs.entryOffset c' + 4 ≤ fs.entryOffset c) :
    fs.setIn c' y (fs.setIn c x buf) = fs.setIn c x (fs.setIn c' y buf) := by
  by_cases h : fs.entryOffset c + 4 ≤ buf.length
  · by_cases h' : fs.entryOffset c' + 4 ≤ buf.length
    · have hl : fs.entryOffset c' + 4 ≤ (fs.setIn c x buf).length := by rwa [setIn_length]
      have hl' : fs.entryOffset c + 4 ≤ (fs.setIn c' y buf).length := by rwa [setIn_length]
      rw [setIn, if_pos hl, setIn, if_pos h]
      conv => rhs; rw [setIn, if_pos hl', setIn, if_pos h']
      exact setEntryAt_comm h h' hd
    · have hl : ¬ fs.entryOffset c' + 4 ≤ (fs.setIn c x buf).length := by rwa [setIn_length]
      rw [setIn, if_neg hl]
      conv => rhs; rw [setIn.eq_def fs c', if_neg h']
  · have hl' : ¬ fs.entryOffset c + 4 ≤ (fs.setIn c' y buf).length := by rwa [setIn_length]
    conv => rhs; rw [setIn, if_neg hl']
    rw [setIn.eq_def fs c, if_neg h]

theorem storeEntry_blocks (c x n : Nat) : (fs.storeEntry d c x).blocks n =
    if ∃ k < fs.boot.numFats.toNat, n = fs.entrySector k c then fs.setIn c x (d.blocks n)
    else d.blocks n := by
  unfold storeEntry setCopies
  simp only [mem_range]

open Disk

theorem storeEntry_storeEntry (c x y : Nat) :
    fs.storeEntry (fs.storeEntry d c x) c y = fs.storeEntry d c y := by
  refine eq_of_blocks rfl rfl rfl fun n => ?_
  rw [storeEntry_blocks, storeEntry_blocks, storeEntry_blocks]
  split_ifs
  · exact setIn_setIn c x y _
  · rfl

theorem storeEntry_comm (hf : FatLayout fs) {c c' : Nat} (x y : Nat) (hc : fs.InRange c)
    (hc' : fs.InRange c') (hne : c ≠ c') :
    fs.storeEntry (fs.storeEntry d c x) c' y = fs.storeEntry (fs.storeEntry d c' y) c x := by
  refine eq_of_blocks rfl rfl rfl fun n => ?_
  rw [storeEntry_blocks, storeEntry_blocks, storeEntry_blocks, storeEntry_blocks]
  split_ifs with h' h
  · obtain ⟨k', hk', hn'⟩ := h'
    obtain ⟨k, hk, hn⟩ := h
    have hidx := (hf.entrySector_inj hk hk' hc.2 hc'.2 (hn.symm.trans hn')).2
    exact setIn_comm x y _ (hf.entryOffset_apart hc'.2 hc.2 hne hidx.symm)
  · rfl
  · rfl
  · rfl

theorem storeEntry_self (hs : fs.boot.sectorSize = d.blockSize) {c : Nat} (x : Nat)
    (h : ∀ k < fs.boot.numFats.toNat, fs.rawEntry d k c % 2 ^ 28 = x % 2 ^ 28) :
    fs.storeEntry d c x = d := by
  refine eq_of_blocks rfl rfl rfl fun n => ?_
  rw [storeEntry_blocks]
  split_ifs with hn
  · obtain ⟨k, hk, rfl⟩ := hn
    have hfit := entryOffset_fits_block hs c (fs.entrySector k c)
    have hval : entryAt (d.blocks (fs.entrySector k c)) (fs.entryOffset c) % 2 ^ 28 = x % 2 ^ 28 :=
      h k hk
    rw [setIn, if_pos hfit, setEntryAt]
    rw [← hval, Nat.sub_add_cancel (Nat.mod_le _ _)]
    have hback : leBytes 4 (entryAt (d.blocks (fs.entrySector k c)) (fs.entryOffset c)) =
        slice (d.blocks (fs.entrySector k c)) (fs.entryOffset c) 4 := by
      have hlen := slice_length hfit
      have := leBytes_leNat (slice (d.blocks (fs.entrySector k c)) (fs.entryOffset c) 4)
      rwa [hlen] at this
    rw [hback, splice_slice hfit]
  · rfl

def readyView (fs : Fat32FileSystem) : View Cmd Resp {d : Disk // FatReady fs d} :=
  ⟨Disk, Disk.handle, fun d v => d = v.1, fun _ _ => True⟩

theorem runsM_ready_iff {μ σ ε α : Type} {m : DevM μ σ ε α} {s s' : σ}
    {v v' : {d : Disk // FatReady fs d}} {r : Except ε α} :
    RunsM (readyView fs) m s v r s' v' ↔ (m s).run handle v.1 = ((r, s'), v'.1) := by
  constructor
  · intro h
    obtain ⟨d1, hrun, rfl, _⟩ := h v.1 rfl
    exact hrun
  · rintro h _ rfl
    exact ⟨v'.1, h, rfl, allowed_any _ _⟩

/-- **The FAT of a disk is a map of entries**, whatever its geometry, as long as the entries are
apart. -/
def diskStore (hf : FatLayout fs) : EntryStore fs {d : Disk // FatReady fs d} where
  view := readyView fs
  get v c := fs.rawEntry v.1 0 c % 2 ^ 28
  set v c x := ⟨fs.storeEntry v.1 c x, v.2.storeEntry c x⟩
  end_eq := hf.end_eq
  read {v c t} hc := by
    have hin : ¬ (c < 2 ∨ c ≥ fs.endCluster) := by
      have := hc.1
      have := hc.2
      have := hf.end_eq
      omega
    exact runsM_ready_iff.2 (runsM_any_iff.1
      (readEntry_any_ok hin v.2.sector (v.2.blocks 0 hf.fats c hc)))
  invalid {v c t} hc := by
    have hout : c < 2 ∨ c ≥ fs.endCluster := by
      have := hf.end_eq
      unfold InRange at hc
      omega
    exact runsM_ready_iff.2 (runsM_any_iff.1 (readEntry_any_invalid hout))
  write {v c x t} hc := runsM_ready_iff.2 (runsM_any_iff.1
    (writeEntry_any hf x hc v.2.sector v.2.writable fun k hk => v.2.blocks k hk c hc))
  get_set {v c x e} hc he := by
    rw [rawEntry_storeEntry hf v.2.sector x hf.fats hc.2 he.2]
    split_ifs
    · omega
    · rfl
  set_set {v c x y} := Subtype.ext (storeEntry_storeEntry c x y)
  set_comm {v c c' x y} hc hc' hne := Subtype.ext (storeEntry_comm hf x y hc hc' hne)

theorem diskStore_reads (hf : FatLayout fs) (v : {d : Disk // FatReady fs d}) {c : Nat}
    (hc : fs.InRange c) : fs.readsEntry v.1 c = .ok ((diskStore hf).get v c) :=
  v.2.readsEntry_ok hf hc

theorem freeCluster_any_invalid {c : Nat} (hc : c < 2 ∨ c ≥ fs.endCluster) :
    RunsM anyView (fs.freeCluster c) t d (.error .invalidCluster) t d := by
  unfold freeCluster writeEntry
  rw [if_pos hc]
  exact .bind_error (.throw _)

/-- **The two-part search of `alloc_cluster` is complete for every hint**: it reports `NoSpace`
exactly if no cluster has a free entry. -/
theorem allocCluster_complete (fs : Fat32FileSystem) (hf : FatLayout fs) (d : Disk)
    (hd : FatReady fs d) (t : FatTable) (ht : HintOk fs t) :
    (∃ r t' d', (fs.allocCluster t).run Disk.handle d = ((r, t'), d') ∧
      (r = .error .noSpace ↔ ∀ c, fs.InRange c → fs.readsEntry d c ≠ .ok fatFree) ∧
      (r ≠ .error .noSpace → ∃ c, r = .ok c ∧ fs.InRange c ∧ fs.readsEntry d c = .ok fatFree ∧
        fs.readsEntry d' c = .ok fatEoc ∧
        ∀ e, fs.InRange e → e ≠ c → fs.readsEntry d' e = fs.readsEntry d e) ∧
      HintOk fs t') ∧
    ∀ c, ∃ r t' d', (fs.freeCluster c t).run Disk.handle d = ((r, t'), d') ∧ HintOk fs t' := by
  have hreads : ∀ (v : {d : Disk // FatReady fs d}) {c : Nat}, fs.InRange c →
      fs.readsEntry v.1 c = .ok ((diskStore hf).get v c) := diskStore_reads hf
  refine ⟨?_, fun c => ?_⟩
  · obtain ⟨r, t', v', hrun, ha⟩ := (diskStore hf).allocCluster_allocated (t := t) (v := ⟨d, hd⟩)
    refine ⟨r, t', v'.1, runsM_ready_iff.1 hrun, ?_⟩
    cases ha with
    | invalid h => exact absurd ht h
    | noSpace hfull =>
      refine ⟨⟨fun _ c hc h => hfull c hc ?_, fun _ => rfl⟩, fun h => absurd rfl h, ht⟩
      rw [hreads ⟨d, hd⟩ hc] at h
      exact Except.ok.inj h
    | @took c hr hfree =>
      have hwas : fs.readsEntry d c = .ok fatFree := by rw [hreads ⟨d, hd⟩ hr, hfree]
      refine ⟨⟨nofun, fun h => absurd hwas (h c hr)⟩,
        fun _ => ⟨c, rfl, hr, hwas, ?_, fun e he hne => ?_⟩, HintOk.took hr⟩
      · rw [hreads _ hr, (diskStore hf).get_set_self _ hr, EntryStore.fatEoc_low]
      · rw [hreads _ he, (diskStore hf).get_set_of_ne _ hr he hne]
        exact (hreads ⟨d, hd⟩ he).symm
  · by_cases hc : fs.InRange c
    · have hrun := (diskStore hf).freeCluster_store (t := t) (v := ⟨d, hd⟩) hc
      exact ⟨_, _, _, runsM_ready_iff.1 hrun, ht.gave hc⟩
    · have hout : c < 2 ∨ c ≥ fs.endCluster := by
        have := hf.end_eq
        unfold InRange at hc
        omega
      exact ⟨_, _, _, runsM_any_iff.1 (freeCluster_any_invalid hout), ht⟩

theorem twoFats_ready : FatReady twoFats (bootDisk 2) := by
  refine ⟨by decide, rfl, fun k hk c hc => ?_⟩
  have hlt : ∀ k < 2, ∀ c < 63, twoFats.entrySector k c < 64 := by decide
  exact hlt k hk c hc.2

theorem allocCluster_complete_twoFats :
    (∃ r t' d', (twoFats.allocCluster FatTable.new).run Disk.handle (bootDisk 2) = ((r, t'), d') ∧
      (r = .error .noSpace ↔ ∀ c, twoFats.InRange c →
        twoFats.readsEntry (bootDisk 2) c ≠ .ok fatFree)) := by
  obtain ⟨⟨r, t', d', hrun, hiff, _⟩, _⟩ := allocCluster_complete twoFats twoFats_layout (bootDisk 2)
    twoFats_ready FatTable.new (hintOk_new twoFats)
  exact ⟨r, t', d', hrun, hiff⟩

/-- A volume without any FAT, which `mount_fat32` accepts. -/
def noFats : Fat32FileSystem := ⟨bootRecord 0, by decide⟩

/-- A volume with more than `2 ^ 30` clusters, whose FAT has room for all entries. -/
def wideFs : Fat32FileSystem :=
  ⟨{ bootRecord 1 with totalSectors32 := 0x40800003, fatSize32 := 0x800001 }, by decide⟩

/-- A device of zeros with `blockCount` blocks. -/
def zeroDisk (blockCount : Nat) : Disk :=
  ⟨512, blockCount, false, fun _ => List.replicate 512 0, fun _ => length_replicate⟩

/-- Without a FAT the allocated cluster stays free. With more than `2 ^ 30` clusters the entry of one
cluster is the entry of another. -/
theorem allocCluster_geometry :
    (returned noFats.allocCluster (bootDisk 0) = .ok 2 ∧
     noFats.readsEntry ((noFats.allocCluster FatTable.new).run Disk.handle (bootDisk 0)).2 2 =
       .ok fatFree) ∧
    (((wideFs.allocCluster ⟨0x40000002, none⟩).run Disk.handle (zeroDisk 0x40800003)).1.1 =
       .ok 0x40000002 ∧
     wideFs.readsEntry (zeroDisk 0x40800003) 2 = .ok fatFree ∧
     wideFs.readsEntry
       ((wideFs.allocCluster ⟨0x40000002, none⟩).run Disk.handle (zeroDisk 0x40800003)).2 2 =
       .ok fatEoc) := by
  decide +kernel

theorem follows_of_walk {next : Nat → Nat} {c : Nat} {l : List Nat}
    (hnext : ∀ x ∈ l, fs.readsEntry d x = .ok (next x))
    (h : Walk next (Cell fs) (fatEocMin ≤ ·) c l) : Follows fs d c l := by
  induction h with
  | @done a hs =>
    refine Walk.done (Or.inr (Nat.le_trans ?_ hs))
    decide
  | @step a l hc _ ih =>
    exact Follows.cons ⟨hc.1.1, hc.2, hnext a mem_cons_self⟩
      (ih fun x hx => hnext x (mem_cons_of_mem a hx))

def Fat32FileSystem.freeClusters (fs : Fat32FileSystem) (d : Disk) : List Nat :=
  (List.range' 2 fs.totalClusters).filter fun c => fs.readsEntry d c = .ok fatFree

/-- What is free in the first FAT is free in every copy. -/
def FreeAgree (fs : Fat32FileSystem) (d : Disk) : Prop :=
  ∀ c, fs.InRange c → fs.rawEntry d 0 c % 2 ^ 28 = fatFree →
    ∀ k < fs.boot.numFats.toNat, fs.rawEntry d k c % 2 ^ 28 = fatFree

/-- **`alloc_clusters` is all-or-nothing**, from every hint. -/
theorem allocClusters_atomic (fs : Fat32FileSystem) (hf : FatLayout fs) (hsmall : SmallVolume fs)
    (d : Disk) (hd : FatReady fs d) (t : FatTable) (count : Nat) (hcount : 0 < count) :
    ∃ r t' d', (fs.allocClusters count t).run Disk.handle d = ((r, t'), d') ∧
      (∀ cs, r = .ok cs → cs.length = count ∧ cs.Nodup ∧
        (∀ c ∈ cs, fs.InRange c ∧ fs.readsEntry d c = .ok fatFree) ∧
        fs.readsChain d' (cs.headD 0) = .ok cs ∧
        ∀ k < fs.boot.numFats.toNat, ∀ e < fs.totalClusters + 2, e ∉ cs →
          fs.rawEntry d' k e = fs.rawEntry d k e) ∧
      (r = .error .noSpace → (fs.freeClusters d).length < count ∧ (FreeAgree fs d → d' = d)) := by
  have hreads : ∀ (v : {d : Disk // FatReady fs d}) {c : Nat}, fs.InRange c →
      fs.readsEntry v.1 c = .ok ((diskStore hf).get v c) := diskStore_reads hf
  obtain ⟨r, t', v', hrun, ha⟩ :=
    (diskStore hf).allocClusters_all (t := t) (v := ⟨d, hd⟩) hsmall hcount
  refine ⟨r, t', v'.1, runsM_ready_iff.1 hrun, ?_⟩
  cases ha with
  | invalid => exact ⟨nofun, nofun⟩
  | @linked cs _ hlen hl =>
    refine ⟨?_, nofun⟩
    rintro _ ⟨⟩
    refine ⟨hlen, hl.nodup, fun c hc => ?_, ?_, fun k hk e he hmem => ?_⟩
    · obtain ⟨hr, hfree⟩ := hl.free c hc
      rw [hreads ⟨d, hd⟩ hr, hfree]
      exact ⟨hr, rfl⟩
    · refine readsChain_ok_iff.2 (follows_of_walk (fun c hc => ?_) hl.chain)
      exact hreads v' (hl.inRange c hc)
    · refine hl.frame (fun w => fs.rawEntry w.1 k e) fun w c hc x => ?_
      refine (rawEntry_storeEntry hf w.2.sector x hk (hl.inRange c hc).2 he).trans (if_neg ?_)
      exact fun heq => hmem (heq ▸ hc)
  | @noSpace cs hlen hcs hnd hall =>
    refine ⟨nofun, fun _ => ⟨?_, fun hagree => ?_⟩⟩
    · have hsub : fs.freeClusters d ⊆ cs := by
        intro c hc
        obtain ⟨hmem, hfree⟩ := mem_filter.1 hc
        rw [mem_range'_1] at hmem
        have hr : fs.InRange c := ⟨hmem.1, by omega⟩
        refine hall c hr ?_
        have hread := of_decide_eq_true hfree
        rw [hreads ⟨d, hd⟩ hr] at hread
        exact Except.ok.inj hread
      have hndf : (fs.freeClusters d).Nodup := List.Nodup.filter _ nodup_range'
      exact (subperm_of_subset hndf hsub).length_le.trans_lt hlen
    · refine congrArg Subtype.val ((diskStore hf).clear_eq fun c hc => ?_)
      obtain ⟨hr, hfree⟩ := hcs c hc
      exact Subtype.ext (storeEntry_self hd.sector _ (hagree c hr hfree))

theorem allocClusters_atomic_twoFats : ∃ t' d',
    (twoFats.allocClusters 2 FatTable.new).run Disk.handle (bootDisk 2) =
        ((.ok [2, 3], t'), d') ∧
      twoFats.readsChain d' 2 = .ok [2, 3] ∧
      ∀ k < 2, ∀ e < 63, e ∉ [2, 3] →
        twoFats.rawEntry d' k e = twoFats.rawEntry (bootDisk 2) k e := by
  obtain ⟨r, t', d', hrun, hok, -⟩ := allocClusters_atomic twoFats twoFats_layout
    (by decide : twoFats.totalClusters + 2 ≤ fatReservedMin) (bootDisk 2) twoFats_ready
    FatTable.new 2 (by decide)
  have hres : ((twoFats.allocClusters 2 FatTable.new).run Disk.handle (bootDisk 2)).1.1 =
      .ok [2, 3] := by decide +kernel
  rw [hrun] at hres
  obtain rfl : r = .ok [2, 3] := hres
  obtain ⟨-, -, -, hchain, hothers⟩ := hok _ rfl
  exact ⟨t', d', hrun, hchain, hothers⟩

def oneCluster : Fat32FileSystem := ⟨{ bootRecord 2 with totalSectors32 := 4 }, by decide⟩

def unlikeCopies : Disk :=
  ⟨512, 4, false, fun n => List.replicate 512 (if n = 2 then 1 else 0),
    fun _ => length_replicate⟩

/-- A volume whose last cluster has the number `FAT_RESERVED_MIN`. -/
def reservedFs : Fat32FileSystem :=
  ⟨{ bootRecord 1 with totalSectors32 := 0x101FFFF0, fatSize32 := 0x200000 }, by decide⟩

/-- Without a FAT the clusters are not linked. Where the copies disagree about a free cluster the
rollback changes the second copy. The chain of a cluster with a reserved number reads as empty. -/
theorem allocClusters_geometry :
    (((noFats.allocClusters 2 FatTable.new).run Disk.handle (bootDisk 0)).1.1 = .ok [2, 3] ∧
     noFats.readsChain ((noFats.allocClusters 2 FatTable.new).run Disk.handle (bootDisk 0)).2 2 =
       .ok [2]) ∧
    (((oneCluster.allocClusters 2 FatTable.new).run Disk.handle unlikeCopies).1.1 =
       .error .noSpace ∧
     (((oneCluster.allocClusters 2 FatTable.new).run Disk.handle unlikeCopies).2.blocks 2)[8]? ≠
       (unlikeCopies.blocks 2)[8]?) ∧
    (((reservedFs.allocClusters 1 ⟨0x0FFFFFF0, none⟩).run Disk.handle (zeroDisk 0x101FFFF0)).1.1 =
       .ok [0x0FFFFFF0] ∧
     reservedFs.readsChain
       ((reservedFs.allocClusters 1 ⟨0x0FFFFFF0, none⟩).run Disk.handle (zeroDisk 0x101FFFF0)).2
       0x0FFFFFF0 = .ok []) := by
  decide +kernel

end Kerners.Fat32
