import Kerners.Fat32.WellFormed

/-!
# Operations on directories

What `lookup`, `readdir` and `create` of `Fat32Dir` return and what they leave on the volume, for a
directory with a proper chain.

`lookup_runs`, `readdir_runs`: the visible entries decide.
-/

namespace Kerners.Fat32

open Lib Kerners.Block

variable {fs : Fat32FileSystem} {v v' : Vol} {l : List Nat} {σ α : Type} {t : σ} {dir : Fat32Dir}

theorem vfsCall_ok {m : VfsM α} {a : α} (h : RunsM (volView fs) m () v (.ok a) () v') :
    RunsM (volView fs) (vfsCall m : OpM σ α) t v (.ok a) t v' :=
  RunsM.within (.mapErr_ok (.call h))

theorem vfsCall_error {m : VfsM α} {e : VfsError} (h : RunsM (volView fs) m () v (.error e) () v') :
    RunsM (volView fs) (vfsCall m : OpM σ α) t v (.error (.err e)) t v' :=
  RunsM.within (.mapErr_error (g := Fault.err) (.call h))

/-! ## Reading -/

/-- What `lookup` returns, given the visible entries. -/
def lookupIn (dir : Fat32Dir) (entries : List Listed) (name : Str) :
    Except (Fault VfsError) VNode :=
  (Fat32Dir.findEntry entries name).elim (.error (.err .notFound)) fun e => .ok (dir.vnodeOf e)

theorem lookup_runs (h : chainOf fs v dir.cluster = .ok l) (name : Str) : RunsM (volView fs)
    (dir.lookup fs name : OpM σ VNode) t v (lookupIn dir (entriesOf fs v l) name) t v := by
  refine .bind_ok (vfsCall_ok (parseEntries_runs h)) ?_
  unfold lookupIn
  cases Fat32Dir.findEntry (entriesOf fs v l) name with
  | none => exact .throw _
  | some e => exact .pure _

theorem lookup_runs_error {e : FatError} (h : chainOf fs v dir.cluster = .error e) (name : Str) :
    RunsM (volView fs) (dir.lookup fs name : OpM σ VNode) t v (.error (.err .ioError)) t v :=
  RunsM.bind_error (vfsCall_error (parseEntries_runs_error h))

/-- What `readdir` returns, given the visible entries. -/
def dirListing (entries : List Listed) : List (Str × VNodeType) :=
  entries.map fun e => (e.name, if e.entry.isDir then .directory else .file)

theorem readdir_runs (h : chainOf fs v dir.cluster = .ok l) : RunsM (volView fs) (dir.readdir fs :
    OpM σ (List (Str × VNodeType))) t v (.ok (dirListing (entriesOf fs v l))) t v :=
  RunsM.bind_ok (vfsCall_ok (parseEntries_runs h)) (.pure _)

/-! ## Creating -/

theorem createFile_runs (h : Chain fs v dir.cluster l) (name : Str) {i : Nat} {s : Slot}
    (hfind : findFree ((slotsOf fs l).map v.slot) = some i) (hi : (slotsOf fs l)[i]? = some s) :
    RunsM (volView fs) (dir.createFile fs name : OpM σ VNode) t v
      (.ok (.file ⟨name, dir.cluster, i * 32⟩ ⟨0, 0⟩)) t
      (v.putSlot s (DirEntry.newFile name 0 0).toBytes) := by
  have hrun := @findFreeEntrySlot_runs _ _ _ dir (chainOf_of_chain h)
  rw [hfind] at hrun
  refine .bind_ok (vfsCall_ok hrun) ?_
  exact .bind_ok (vfsCall_ok (writeDirEntry_runs h hi rfl _)) (.pure _)

theorem createFile_runs_full (h : chainOf fs v dir.cluster = .ok l) (name : Str)
    (hfind : findFree ((slotsOf fs l).map v.slot) = none) :
    RunsM (volView fs) (dir.createFile fs name : OpM σ VNode) t v (.error (.err .noSpace)) t v := by
  have hrun := @findFreeEntrySlot_runs _ _ _ dir h
  rw [hfind] at hrun
  exact .bind_error (vfsCall_error hrun)

/-- What follows the checks of `create`, by the kind of node. -/
def Fat32Dir.createKind (fs : Fat32FileSystem) (dir : Fat32Dir) (name : Str) :
    VNodeType → OpM σ VNode
  | .file => dir.createFile fs name
  | .directory => dir.createDirectory fs name
  | .other => ProgM.throw (.err .notSupported)

theorem create_runs (h : chainOf fs v dir.cluster = .ok l) (name : Str) (kind : VNodeType)
    {P : VNode → Vol → Prop}
    (hnew : ∃ r v', RunsM (volView fs) (dir.createKind fs name kind : OpM σ VNode) t v r t v' ∧
        ∀ node, r = .ok node → P node v') :
    ∃ r v', RunsM (volView fs) (dir.create fs name kind : OpM σ VNode) t v r t v' ∧
      ∀ node, r = .ok node → Fat32Dir.findEntry (entriesOf fs v l) name = none ∧ P node v' := by
  unfold Fat32Dir.create
  by_cases hbad : Fat32Dir.badName name = true
  · rw [if_pos hbad]
    exact ⟨_, v, RunsM.throw _, fun node hn => absurd hn (by simp)⟩
  rw [if_neg hbad]
  have hlook : RunsM (volView fs)
      ((dir.lookup fs name : OpM σ VNode).attempt : OpM σ (Except (Fault VfsError) VNode)) t v
      (.ok (lookupIn dir (entriesOf fs v l) name)) t v :=
    RunsM.attempt (lookup_runs h name)
  cases hfind : Fat32Dir.findEntry (entriesOf fs v l) name with
  | some e =>
    rw [lookupIn, hfind] at hlook
    exact ⟨_, v, RunsM.bind_ok hlook (.throw _), fun node hn => absurd hn (by simp)⟩
  | none =>
    rw [lookupIn, hfind] at hlook
    obtain ⟨r, v', hrun, hok⟩ := hnew
    refine ⟨r, v', RunsM.bind_ok hlook ?_, fun node hn => ⟨rfl, hok node hn⟩⟩
    cases kind <;> exact hrun

theorem create_file_runs (h : Chain fs v dir.cluster l) (name : Str) :
    ∃ r v', RunsM (volView fs) (dir.create fs name .file : OpM σ VNode) t v r t v' ∧
      ∀ node, r = .ok node →
          ∃ i s, (slotsOf fs l)[i]? = some s ∧
            node = .file ⟨name, dir.cluster, i * 32⟩ ⟨0, 0⟩ ∧
            v' = v.putSlot s (DirEntry.newFile name 0 0).toBytes := by
  have hl := chainOf_of_chain h
  obtain ⟨r, v', hrun, hok⟩ := create_runs (σ := σ) (t := t) hl name .file
    (P := fun node v' => ∃ i s, (slotsOf fs l)[i]? = some s ∧
      node = .file ⟨name, dir.cluster, i * 32⟩ ⟨0, 0⟩ ∧
      v' = v.putSlot s (DirEntry.newFile name 0 0).toBytes) (by
    cases hfind : findFree ((slotsOf fs l).map v.slot) with
    | none => exact ⟨_, v, createFile_runs_full hl name hfind, fun node hn => absurd hn (by simp)⟩
    | some i =>
      obtain ⟨s, hi, -⟩ := findFree_some hfind
      exact ⟨_, _, createFile_runs h name hfind hi,
        fun node hn => ⟨i, s, hi, (Except.ok.inj hn).symm, rfl⟩⟩)
  exact ⟨r, v', hrun, fun node hn => (hok node hn).2⟩

theorem newDirData_length (dir : Fat32Dir) (c : Nat) :
    (dir.newDirData fs c).length = fs.boot.clusterSize := by
  have h2 := two_le_slotCount fs
  have hcs := clusterSize_eq fs
  unfold Fat32Dir.newDirData
  rw [splice_length, splice_length, List.length_replicate]
  · rw [DirEntry.toBytes_length, List.length_replicate]
    omega
  · rw [splice_length, DirEntry.toBytes_length, List.length_replicate]
    · omega
    · rw [DirEntry.toBytes_length, List.length_replicate]
      omega

/-- The volume with a new directory in the cluster `c`, before it is entered in its parent. -/
def Vol.withDir (fs : Fat32FileSystem) (v : Vol) (dir : Fat32Dir) (c : Nat) : Vol :=
  (v.markEoc c).setData c (dir.newDirData fs c)

theorem Chain.fatIndex_ne {c x start : Nat} (h : Chain fs v start l) (hx : x ∈ l)
    (hfree : v.fat (fatIndex c) = fatFree) : fatIndex x ≠ fatIndex c := fun heq =>
  h.used hx (by rw [heq]; exact hfree)

theorem Chain.withDir {c start : Nat} (h : Chain fs v start l)
    (hfree : v.fat (fatIndex c) = fatFree) :
    Chain fs (v.withDir fs dir c) start l ∧
    c ∉ l ∧
    ∀ s ∈ slotsOf fs l, (v.withDir fs dir c).slot s = v.slot s := by
  have hc : c ∉ l := fun hmem => h.fatIndex_ne hmem hfree rfl
  refine ⟨h.congr fun x hx => Vol.setFat_of_ne _ _ (h.fatIndex_ne hx hfree), hc, fun s hs => ?_⟩
  refine Vol.slot_congr (Vol.setData_of_ne _ _ ?_)
  rintro heq
  exact hc (heq ▸ (mem_slotsOf.mp hs).1)

theorem chainOf_withDir {c : Nat} (hl : chainOf fs v dir.cluster = .ok l)
    (hchain : 2 ≤ dir.cluster → Chain fs v dir.cluster l) (hfree : v.fat (fatIndex c) = fatFree) :
    chainOf fs (v.withDir fs dir c) dir.cluster = .ok l := by
  by_cases h2 : 2 ≤ dir.cluster
  · exact chainOf_of_chain ((hchain h2).withDir hfree).1
  · rw [chainOf_small (by omega)] at hl ⊢
    exact hl

theorem createDirectory_runs {c : Nat} {u : FatTable} {r : Except (Fault VfsError) VNode}
    (halloc : RunsM (volView fs) fs.allocCall FatTable.new v (.ok c) u (v.markEoc c))
    (hr : fs.InRange c) (name : Str)
    (h : RunsM (volView fs) (vfsCall (dir.findFreeEntrySlot fs) >>= fun offset => vfsCall
        (dir.writeDirEntry fs offset (DirEntry.newDir name c)) >>= fun _ =>
        (pure (.dir ⟨c, name⟩) : OpM σ VNode)) t (v.withDir fs dir c) r t v') :
    RunsM (volView fs) (dir.createDirectory fs name : OpM σ VNode) t v r t v' := by
  have hused : (v.markEoc c).fat (fatIndex c) ≠ fatFree := by
    unfold Vol.markEoc
    rw [Vol.setFat_self]
    decide
  exact .bind_ok (.within (.mapErr_ok halloc))
    (.bind_ok (vfsCall_ok (writeCluster_runs hr (newDirData_length dir c) hused)) h)

end Kerners.Fat32
