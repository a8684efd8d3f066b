import Kerners.Fat32.Sizes
import Kerners.Fat32.Store

/-!
# What an operation that runs out of space leaves behind (fs/fat32/mod.rs)

`write` and `truncate` first give an empty file a cluster and then extend its chain;
`create_directory` allocates a cluster, fills it and then looks for a slot in the parent. Each step can
fail with `NoSpace`. The extension of a chain is rolled back by `alloc_clusters`; the first cluster of a
file and the cluster of a new directory are not.
-/

namespace Kerners.Fat32

open Lib Kerners.Block

variable {fs : Fat32FileSystem} {v v' : Vol}

/-! ## Errors that an operation does not return -/

section

variable {μ σ ε ε' α β : Type} {e : ε} {m : DevM μ σ ε α} {f : α → DevM μ σ ε β}

/-- The program never ends with the error `e`, on any disk. -/
def Never (e : ε) (m : DevM μ σ ε α) : Prop :=
  ∀ (s s' : σ) (d d' : Disk), ¬ RunsM anyView m s d (.error e) s' d'

theorem Never.of_runs (h : ∀ s d, ∃ r s' d', RunsM anyView m s d r s' d' ∧ r ≠ .error e) :
    Never e m := by
  intro s s' d d' hrun
  obtain ⟨r, s1, d1, hrun1, hne⟩ := h s d
  exact hne (runsM_any_det hrun1 hrun).1

theorem Never.pure (a : α) : Never e (Pure.pure a : DevM μ σ ε α) :=
  Never.of_runs fun _ _ => ⟨_, _, _, RunsM.pure a, nofun⟩

theorem Never.throw {e' : ε} (h : e' ≠ e) : Never e (ProgM.throw e' : DevM μ σ ε α) :=
  Never.of_runs fun _ _ => ⟨_, _, _, RunsM.throw e', fun heq => h (Except.error.inj heq)⟩

theorem Never.get : Never e (ProgM.get : DevM μ σ ε σ) :=
  Never.of_runs fun _ _ => ⟨_, _, _, RunsM.get, nofun⟩

theorem Never.set (s : σ) : Never e (ProgM.set s : DevM μ σ ε Unit) :=
  Never.of_runs fun _ _ => ⟨_, _, _, RunsM.set, nofun⟩

theorem runsM_any_bind_error {s s' : σ} {d d' : Disk}
    (h : RunsM anyView (m >>= f) s d (.error e) s' d') :
    RunsM anyView m s d (.error e) s' d' ∨
    ∃ a s1 d1, RunsM anyView m s d (.ok a) s1 d1 ∧ RunsM anyView (f a) s1 d1 (.error e) s' d' := by
  obtain ⟨r, s1, d1, hrun⟩ := runsM_any_total m s d
  cases r with
  | error e' =>
    obtain ⟨he, rfl, rfl⟩ := runsM_any_det h (RunsM.bind_error hrun)
    cases he
    exact Or.inl hrun
  | ok a =>
    obtain ⟨r2, s2, d2, hrun2⟩ := runsM_any_total (f a) s1 d1
    obtain ⟨rfl, rfl, rfl⟩ := runsM_any_det h (RunsM.bind_ok hrun hrun2)
    exact Or.inr ⟨a, s1, d1, hrun, hrun2⟩

theorem Never.bind (hm : Never e m) (hf : ∀ a, Never e (f a)) : Never e (m >>= f) := by
  intro s s' d d' hrun
  rcases runsM_any_bind_error hrun with h | ⟨a, s1, d1, -, h⟩
  · exact hm _ _ _ _ h
  · exact hf a _ _ _ _ h

theorem Never.ite {p : Prop} [Decidable p] {m' : DevM μ σ ε α} (hm : Never e m) (hm' : Never e m') :
    Never e (if p then m else m') := by
  by_cases hp : p
  · rw [if_pos hp]
    exact hm
  · rw [if_neg hp]
    exact hm'

theorem Never.mapErr {g : ε → ε'} {e' : ε'} (hg : ∀ x, g x ≠ e') : Never e' (m.mapErr g) := by
  refine .of_runs fun s d => ?_
  obtain ⟨r, s1, d1, hrun⟩ := runsM_any_total m s d
  cases r with
  | ok a => exact ⟨_, _, _, RunsM.mapErr_ok hrun, nofun⟩
  | error x => exact ⟨_, _, _, RunsM.mapErr_error hrun, fun heq => hg x (Except.error.inj heq)⟩

variable {σ' : Type} {m : DevM μ σ' ε α}

theorem Never.within {t : σ'} (hm : Never e m) : Never e (ProgM.within t m : DevM μ σ ε α) := by
  refine .of_runs fun s d => ?_
  obtain ⟨r, s1, d1, hrun⟩ := runsM_any_total m t d
  exact ⟨_, _, _, RunsM.within hrun, fun heq => hm _ _ _ _ (heq ▸ hrun)⟩

theorem Never.zoom {part : σ → σ'} {put : σ' → σ → σ} (hm : Never e m) :
    Never e (ProgM.zoom part put m) := by
  refine .of_runs fun s d => ?_
  obtain ⟨r, s1, d1, hrun⟩ := runsM_any_total m (part s) d
  exact ⟨_, _, _, RunsM.zoom hrun, fun heq => hm _ _ _ _ (heq ▸ hrun)⟩

theorem Never.vfsCall {x : VfsError} {m : VfsM α} (hm : Never x m) :
    Never (.err x) (vfsCall m : OpM σ α) := by
  refine .of_runs fun s d => ?_
  obtain ⟨r, s1, d1, hrun⟩ := runsM_any_total m () d
  cases r with
  | ok a => exact ⟨_, _, _, RunsM.within (.mapErr_ok (.call hrun)), nofun⟩
  | error y =>
    refine ⟨_, _, _, RunsM.within (.mapErr_error (.call hrun)), fun heq => ?_⟩
    cases heq
    exact hm _ _ _ _ hrun

end

theorem never_readSectors (start : Nat) : ∀ is : List Nat, Never .noSpace (fs.readSectors start is)
  | [] => .pure _
  | _ :: is => .bind (.mapErr nofun) fun _ =>
      Never.bind (never_readSectors start is) fun _ => .pure _

theorem never_writeSectors (start : Nat) (data : Bytes) : ∀ is : List Nat,
    Never .noSpace (fs.writeSectors start data is)
  | [] => .pure _
  | _ :: is => .bind (.mapErr nofun) fun _ => never_writeSectors start data is

theorem never_ownChain (c : Nat) : Never .noSpace (fs.ownChain c) := Never.within (.mapErr nofun)

theorem never_updateDirEntry (f : Fat32File) (c n : Nat) :
    Never .noSpace (f.updateDirEntry fs c n) := by
  refine .bind (never_ownChain _) fun chain => ?_
  dsimp only
  cases chain[f.entryOffset / fs.boot.clusterSize]? with
  | none => exact .throw (by decide)
  | some cluster =>
    refine .bind (never_readSectors _ _) fun data => ?_
    cases DirEntry.fromBytes (data.drop (f.entryOffset % fs.boot.clusterSize)) with
    | none => exact .pure _
    | some entry => exact never_writeSectors _ _ _

open Fat32File

theorem never_writeLoop : ∀ (cs : List Nat) (offset : Nat) (buf : Bytes),
    Never (.err .noSpace) (writeLoop fs cs offset buf)
  | [], _, _ => .pure _
  | c :: cs, offset, buf => by
    unfold writeLoop
    exact .ite (.pure _) (.bind (.vfsCall (never_readSectors _ _)) fun _ =>
      Never.bind (.vfsCall (never_writeSectors _ _ _)) fun _ =>
        Never.bind (never_writeLoop cs 0 _) fun _ => .pure _)

theorem never_setSize (n : Nat) : Never (.err .noSpace) (setSize n) :=
  Never.bind Never.get fun _ => .set _

theorem never_setStart (n : Nat) : Never (.err .noSpace) (setStart n) :=
  Never.bind Never.get fun _ => .set _

theorem never_onFat {α : Type} (m : FatOp α) : Never (.err .noSpace) (onFat .ioError m) :=
  Never.zoom (.mapErr nofun)

theorem never_update (f : Fat32File) : Never (.err .noSpace) (ProgM.get >>= fun s : FileOp =>
    (vfsCall (f.updateDirEntry fs s.startCluster s.size) : FileM Unit)) :=
  Never.bind Never.get fun _ => .vfsCall (never_updateDirEntry _ _ _)

/-! ## The allocator on a volume -/

/-- **The FAT of a volume is a map of entries.** -/
def volStore (hs : SmallVolume fs) : EntryStore fs Vol where
  view := volView fs
  get v c := v.fat (fatIndex c)
  set v c x := v.setFat (fatIndex c) (x % 2 ^ 28)
  end_eq := by
    unfold SmallVolume fatReservedMin at hs
    unfold Fat32FileSystem.endCluster
    omega
  read hc := readEntry_runs hc
  invalid hc := readEntry_invalid hc
  write hc := writeEntry_runs hc
  get_set {v c x e} hc he := by
    rw [hs.fatIndex_eq hc, hs.fatIndex_eq he]
    split_ifs with h
    · rw [h, Vol.setFat_self]
    · rw [Vol.setFat_of_ne _ _ h]
  set_set {v c x y} := by
    have hmap : setLow (y % 2 ^ 28) ∘ setLow (x % 2 ^ 28) = setLow (y % 2 ^ 28) :=
      funext fun old => setLow_setLow _ _ old
    unfold Vol.setFat
    simp only [Function.update_idem, Function.update_self, List.map_map, hmap]
  set_comm {v c c' x y} hc hc' hne := by
    have hne' : fatIndex c ≠ fatIndex c' := by rwa [hs.fatIndex_eq hc, hs.fatIndex_eq hc']
    unfold Vol.setFat
    simp only [Function.update_of_ne hne', Function.update_of_ne hne'.symm,
      Function.update_comm hne']

/-- Every copy of the FAT says that the cluster `c` is free. -/
def Vol.Clean (v : Vol) (c : Nat) : Prop := ∀ y ∈ v.copies (fatIndex c), y % 2 ^ 28 = fatFree

/-- What is free in the first FAT is free in every copy. -/
def Vol.FreeAgree (fs : Fat32FileSystem) (v : Vol) : Prop :=
  ∀ c, fs.InRange c → v.fat (fatIndex c) = fatFree → v.Clean c

theorem volStore_set_free (hs : SmallVolume fs) {c : Nat} (h : v.fat (fatIndex c) = fatFree)
    (hclean : v.Clean c) : (volStore hs).set v c fatFree = v := by
  change v.setFat (fatIndex c) (fatFree % 2 ^ 28) = v
  have hfree : fatFree % 2 ^ 28 = v.fat (fatIndex c) := by
    rw [h]
    decide
  have hmap : (v.copies (fatIndex c)).map (setLow (fatFree % 2 ^ 28)) = v.copies (fatIndex c) :=
    (List.map_congr_left fun y hy => setLow_self (hclean y hy)).trans (List.map_id' _)
  unfold Vol.setFat
  rw [hmap, hfree, Function.update_eq_self, Function.update_eq_self]

theorem clear_clean (hs : SmallVolume fs) {c : Nat} (hc : fs.InRange c) : ∀ {cs : List Nat} {v : Vol},
    (∀ a ∈ cs, fs.InRange a) → c ∈ cs ∨ v.Clean c → ((volStore hs).clear v cs).Clean c
  | [], _, _, h => h.resolve_left nofun
  | a :: cs, v, hcs, h => by
    have ih := @clear_clean hs c hc cs ((volStore hs).set v a fatFree)
      fun b hb => hcs b (List.mem_cons_of_mem a hb)
    refine ih ?_
    have hset : ((volStore hs).set v a fatFree).copies = Function.update v.copies (fatIndex a)
        ((v.copies (fatIndex a)).map (setLow (fatFree % 2 ^ 28))) := rfl
    by_cases hca : c = a
    · refine .inr fun y hy => ?_
      rw [hset, hca, Function.update_self] at hy
      obtain ⟨z, -, rfl⟩ := List.mem_map.1 hy
      exact setLow_low ..
    · refine h.imp (fun hmem => (List.mem_cons.1 hmem).resolve_left hca) fun hv y hy => hv y ?_
      have hne : fatIndex c ≠ fatIndex a := by
        rwa [hs.fatIndex_eq hc, hs.fatIndex_eq (hcs a List.mem_cons_self)]
      rwa [hset, Function.update_of_ne hne] at hy

theorem clear_get (hs : SmallVolume fs) {e : Nat} (he : fs.InRange e) : ∀ {cs : List Nat} {v : Vol},
    (∀ c ∈ cs, fs.InRange c ∧ v.fat (fatIndex c) = fatFree) →
    ((volStore hs).clear v cs).fat (fatIndex e) = v.fat (fatIndex e)
  | [], _, _ => rfl
  | a :: cs, v, hcs => by
    have hget : ∀ x, fs.InRange x →
        ((volStore hs).set v a fatFree).fat (fatIndex x) = v.fat (fatIndex x) := by
      intro x hx
      have h : ((volStore hs).set v a fatFree).fat (fatIndex x) =
          if x = a then fatFree % 2 ^ 28 else v.fat (fatIndex x) :=
        (volStore hs).get_set (hcs a List.mem_cons_self).1 hx
      rw [h]
      split_ifs with hxa
      · rw [hxa, (hcs a List.mem_cons_self).2]
        decide
      · rfl
    have ih := @clear_get hs e he cs ((volStore hs).set v a fatFree)
    refine (ih fun c hc => ?_).trans (hget e he)
    obtain ⟨hr, hfree⟩ := hcs c (List.mem_cons_of_mem a hc)
    exact ⟨hr, (hget c hr).trans hfree⟩

/-- The entry of some cluster has changed, in the first FAT or in a copy. -/
def Altered (fs : Fat32FileSystem) (v v' : Vol) : Prop :=
  ∃ c, fs.InRange c ∧ (v'.fat (fatIndex c) ≠ v.fat (fatIndex c) ∨
    v'.copies (fatIndex c) ≠ v.copies (fatIndex c))

/-- **What the rollback of `alloc_clusters` leaves.** It marks every free cluster free, so that it
changes nothing exactly if the copies of the FAT agree about the free clusters. -/
structure Rolled (fs : Fat32FileSystem) (v v' : Vol) : Prop where
  fat : ∀ c, fs.InRange c → v'.fat (fatIndex c) = v.fat (fatIndex c)
  agree : v.FreeAgree fs → v' = v
  differ : ¬ v.FreeAgree fs → Altered fs v v'

theorem clear_rolled (hs : SmallVolume fs) {cs : List Nat}
    (hcs : ∀ c ∈ cs, fs.InRange c ∧ v.fat (fatIndex c) = fatFree)
    (hall : ∀ c, fs.InRange c → v.fat (fatIndex c) = fatFree → c ∈ cs) :
    Rolled fs v ((volStore hs).clear v cs) := by
  refine ⟨fun c hc => clear_get hs hc hcs, fun hagree => ?_, fun hno => ?_⟩
  · refine (volStore hs).clear_eq fun c hc => ?_
    obtain ⟨hr, hfree⟩ := hcs c hc
    exact volStore_set_free hs hfree (hagree c hr hfree)
  · obtain ⟨c, hno⟩ := not_forall.1 hno
    rw [Classical.not_imp, Classical.not_imp] at hno
    obtain ⟨hr, hfree, hdirty⟩ := hno
    refine ⟨c, hr, .inr fun heq => hdirty ?_⟩
    have hclean := @clear_clean _ hs c hr cs v (fun a ha => (hcs a ha).1) (.inl (hall c hr hfree))
    unfold Vol.Clean at hclean ⊢
    rwa [heq] at hclean

section

variable {t t' : FileOp} {l : List Nat} {u : FatTable}

theorem extendChain_vol (hs : SmallVolume fs) {last count : Nat} (hlast : fs.InRange last)
    (hcount : 0 < count) {u : FatTable} (hu : HintOk fs u) : ∃ r u' v',
    RunsM (volView fs) (fs.extendChain last count) u v r u' v' ∧
      ∀ e, r = .error e → Rolled fs v v' := by
  obtain ⟨r, u', v', hrun, ha⟩ := (volStore hs).allocClusters_all (t := u) (v := v) hs hcount
  have hrun' : RunsM (volView fs) (fs.allocClusters count) u v r u' v' := hrun
  cases ha with
  | invalid h => exact absurd hu h
  | @noSpace cs hlen hcs hnd hall =>
    exact ⟨_, _, _, RunsM.bind_error hrun', fun _ _ => clear_rolled hs hcs hall⟩
  | @linked cs _ hlen hl =>
    cases cs with
    | nil =>
      rw [List.length_nil] at hlen
      omega
    | cons c cs =>
      exact ⟨_, _, _, RunsM.bind_ok hrun'
        (.bind_ok (.call (writeEntry_runs hlast)) (.pure _)), nofun⟩

theorem ensureChain_of_chain (hchain : Chain fs v t.startCluster l) {required : Nat}
    {r : Except (Fault VfsError) (List Nat)} (h : RunsM (volView fs) (if required > l.length then
        match l.getLast? with
        | none => ProgM.throw .panic
        | some last => do
          let newClusters ← onFat .noSpace (fs.extendChain last (required - l.length))
          pure (l ++ newClusters)
      else pure l : FileM (List Nat)) t v r t' v') :
    RunsM (volView fs) (ensureChain fs required) t v r t' v' := by
  have hrun : RunsM (volView fs) (fs.readChain t.startCluster) t.fat v (.ok l) t.fat v :=
    chainOf_of_chain hchain ▸ readChain_runs t.startCluster
  exact .bind_ok RunsM.get (.bind_ok (.zoom (.mapErr_ok (.call hrun))) h)

theorem ensureChain_vol (hs : SmallVolume fs) (ht : HintOk fs t.fat)
    (hchain : Chain fs v t.startCluster l) (required : Nat) :
    ∃ r t' v', RunsM (volView fs) (ensureChain fs required) t v r t' v' ∧
      (r = .error (.err .noSpace) → Rolled fs v v') := by
  by_cases hreq : required > l.length
  · cases hlast : l.getLast? with
    | none =>
      refine ⟨.error .panic, t, v, ensureChain_of_chain hchain ?_, nofun⟩
      rw [if_pos hreq, hlast]
      exact .throw _
    | some last =>
      have hr := hchain.inRange (List.mem_of_getLast? hlast)
      obtain ⟨r, u', v', hrun, herr⟩ := extendChain_vol (v := v) hs hr
        (show 0 < required - l.length by omega) ht
      cases r with
      | error e =>
        refine ⟨.error (.err .noSpace), { t with fat := u' }, v', ensureChain_of_chain hchain ?_,
          fun _ => herr e rfl⟩
        rw [if_pos hreq, hlast]
        exact .bind_error (.zoom (.mapErr_error hrun))
      | ok cs =>
        refine ⟨.ok (l ++ cs), { t with fat := u' }, v', ensureChain_of_chain hchain ?_, nofun⟩
        rw [if_pos hreq, hlast]
        exact .bind_ok (.zoom (.mapErr_ok hrun)) (.pure _)
  · refine ⟨.ok l, t, v, ensureChain_of_chain hchain ?_, nofun⟩
    rw [if_neg hreq]
    exact .pure _

theorem runsM_any_of_vol {μ σ ε α : Type} {m : DevM μ σ ε α} {s s' : σ} {r : Except ε α}
    (h : RunsM (volView fs) m s v r s' v') {d : Disk} (hp : Presents fs d v) :
    ∃ d', RunsM anyView m s d r s' d' ∧ Presents fs d' v' := by
  obtain ⟨d', hrun, hp', -⟩ := h d hp
  exact ⟨d', runsM_any_iff.2 hrun, hp'⟩

/-! ### The first cluster of a file -/

theorem ensureStart_kept (h : 2 ≤ t.startCluster) (d : Disk) :
    RunsM anyView (ensureStart fs) t d (.ok ()) t d := by
  unfold ensureStart
  refine .bind_ok RunsM.get ?_
  rw [if_neg (by omega)]
  exact .pure _

theorem ensureStart_error (h : t.startCluster < 2) {e : FatError}
    (halloc : RunsM (volView fs) fs.allocCall t.fat v (.error e) u v') :
    RunsM (volView fs) (ensureStart fs) t v (.error (.err .noSpace)) { t with fat := u }
      v' := by
  unfold ensureStart
  refine .bind_ok RunsM.get ?_
  rw [if_pos h]
  exact .bind_error (.zoom (.mapErr_error halloc))

theorem ensureStart_ok (h : t.startCluster < 2) {c : Nat}
    (halloc : RunsM (volView fs) fs.allocCall t.fat v (.ok c) u v') :
    RunsM (volView fs) (ensureStart fs) t v (.ok ()) ⟨u, c, t.size⟩ v' := by
  unfold ensureStart
  refine .bind_ok RunsM.get ?_
  rw [if_pos h]
  exact .bind_ok (.zoom (.mapErr_ok halloc)) (.bind_ok RunsM.get RunsM.set)

/-- The disk `d'` holds `v` if `P` holds, and otherwise a volume with another FAT. -/
def Ended (fs : Fat32FileSystem) (v : Vol) (d' : Disk) (P : Prop) : Prop :=
  (P ∧ Presents fs d' v) ∨ (¬ P ∧ ∃ v', Presents fs d' v' ∧ Altered fs v v')

section

variable {required : Nat} {β : Type} {rest : List Nat → FileM β} {d d' : Disk}

theorem ensureChain_fails (hs : SmallVolume fs) (ht : HintOk fs t.fat)
    (hrest : ∀ chain, Never (.err .noSpace) (rest chain)) {l : List Nat}
    (hl : Chain fs v t.startCluster l) (hp : Presents fs d v)
    (hrun : RunsM anyView (ensureChain fs required >>= rest) t d (.error (.err .noSpace)) t' d') :
    ∃ v', Presents fs d' v' ∧ Rolled fs v v' := by
  obtain ⟨r, t1, v1, hvol, herr⟩ := ensureChain_vol hs ht hl required
  obtain ⟨d1, hany, hp1⟩ := runsM_any_of_vol hvol hp
  rcases runsM_any_bind_error hrun with h | ⟨chain, _, _, -, h⟩
  · obtain ⟨hr, -, rfl⟩ := runsM_any_det h hany
    exact ⟨v1, hp1, herr hr.symm⟩
  · exact absurd h (hrest chain _ _ _ _)

/-- **What `NoSpace` leaves when a file grows**: the volume as it was, if the file had a cluster or
there was none for it and the copies of the FAT agree about the free clusters. -/
theorem growth_fails (hs : SmallVolume fs) (ht : HintOk fs t.fat)
    (hchain : 2 ≤ t.startCluster → ∃ l, Chain fs v t.startCluster l)
    (hrest : ∀ chain, Never (.err .noSpace) (rest chain)) (hp : Presents fs d v)
    (hrun : RunsM anyView (ensureStart fs >>= fun _ => ensureChain fs required >>= rest) t d
        (.error (.err .noSpace)) t' d') :
    Ended fs v d' ((2 ≤ t.startCluster ∨ ∀ c, fs.InRange c → v.fat (fatIndex c) ≠ fatFree) ∧
      v.FreeAgree fs) := by
  by_cases hstart : 2 ≤ t.startCluster
  · have hkept := @ensureStart_kept fs t hstart d
    obtain ⟨l, hl⟩ := hchain hstart
    rcases runsM_any_bind_error hrun with h | ⟨a, t1, d1, h1, h2⟩
    · exact nomatch (runsM_any_det h hkept).1
    · obtain ⟨-, rfl, rfl⟩ := runsM_any_det h1 hkept
      obtain ⟨v', hp', hroll⟩ := ensureChain_fails hs ht hrest hl hp h2
      by_cases hagree : v.FreeAgree fs
      · rw [hroll.agree hagree] at hp'
        exact .inl ⟨⟨.inl hstart, hagree⟩, hp'⟩
      · exact .inr ⟨fun h => hagree h.2, v', hp', hroll.differ hagree⟩
  · obtain ⟨r, u', v1, halloc, ha⟩ := (volStore hs).allocCluster_allocated (t := t.fat) (v := v)
    have halloc' : RunsM (volView fs) fs.allocCall t.fat v r u' v1 := RunsM.call halloc
    cases ha with
    | invalid h => exact absurd ht h
    | noSpace hfull =>
      obtain ⟨d1, hany, hp1⟩ := runsM_any_of_vol (ensureStart_error (by omega) halloc') hp
      obtain ⟨-, -, rfl⟩ := runsM_any_det hrun (RunsM.bind_error hany)
      exact .inl ⟨⟨.inr hfull, fun c hr hfree => absurd hfree (hfull c hr)⟩, hp1⟩
    | @took c hr hfree =>
      have hget : (volStore hs).get ((volStore hs).set v c fatEoc) c = fatEoc :=
        ((volStore hs).get_set_self fatEoc hr).trans EntryStore.fatEoc_low
      have hl : Chain fs ((volStore hs).set v c fatEoc) c [c] :=
        (volStore hs).walk_single ⟨hr, hr.2.trans_le hs⟩ hget
      obtain ⟨d1, hany, hp1⟩ := runsM_any_of_vol (ensureStart_ok (by omega) halloc') hp
      rcases runsM_any_bind_error hrun with h | ⟨a, t1, d2, h1, h2⟩
      · exact nomatch (runsM_any_det h hany).1
      · obtain ⟨-, rfl, rfl⟩ := runsM_any_det h1 hany
        obtain ⟨v', hp', hroll⟩ := ensureChain_fails hs (HintOk.took hr) hrest hl hp1 h2
        refine .inr ⟨fun h => h.1.elim hstart fun hall => hall c hr hfree, v', hp', c, hr, .inl ?_⟩
        have hnew : ((volStore hs).set v c fatEoc).fat (fatIndex c) = fatEoc := hget
        have hfree' : v.fat (fatIndex c) = fatFree := hfree
        rw [hroll.fat c hr, hnew, hfree']
        decide

end

end

/-! ## The operations -/

theorem never_write_rest (f : Fat32File) (offset : Nat) (buf : Bytes) (chain : List Nat) :
    Never (.err .noSpace) (do
      let bytesWritten ← writeLoop fs (chain.drop (offset / fs.boot.clusterSize))
        (offset % fs.boot.clusterSize) buf
      if (offset + buf.length) % 2 ^ 64 > (← ProgM.get).size then
        setSize ((offset + buf.length) % 2 ^ 64 % 2 ^ 32)
      let s ← ProgM.get
      vfsCall (f.updateDirEntry fs s.startCluster s.size)
      pure bytesWritten : FileM Nat) := by
  refine .bind (never_writeLoop _ _ _) fun n => .bind Never.get fun s => ?_
  have hend : Never (.err .noSpace) (ProgM.get >>= fun s : FileOp =>
      (vfsCall (f.updateDirEntry fs s.startCluster s.size) : FileM Unit) >>= fun _ =>
        (pure n : FileM Nat)) :=
    Never.bind Never.get fun _ => .bind (.vfsCall (never_updateDirEntry _ _ _)) fun _ =>
      Never.pure _
  dsimp only
  exact .ite (.bind (never_setSize _) fun _ => hend) hend

section

variable {d d' : Disk} {f : Fat32File} {s : FileState} {t' : FileOp} {w : Owner} {dir : Fat32Dir}
  {name : Str}

/-- No cluster is free. -/
def NoFree (fs : Fat32FileSystem) (d : Disk) : Prop :=
  ∀ c, fs.InRange c → (fs.volOf d).fat (fatIndex c) ≠ fatFree

theorem freeAgree_iff (hs : SmallVolume fs) (hc : Consistent fs d) :
    (fs.volOf d).FreeAgree fs ↔ FreeAgree fs d := by
  refine forall_congr' fun c => imp_congr_right fun hr => ?_
  unfold Vol.Clean
  rw [hs.fatIndex_eq hr, fat_volOf hs hc hr.2, copies_volOf hs hc hr.2, List.forall_mem_map]
  simp only [List.mem_range]

/-- **The volume is as it was**: every entry of every copy of the FAT, every slot of every directory
and every byte of every visible file. -/
structure Unchanged (fs : Fat32FileSystem) (d d' : Disk) : Prop where
  fat : ∀ k < fs.boot.numFats.toNat, ∀ i < fs.totalClusters + 2,
    fs.rawEntry d' k i = fs.rawEntry d k i
  slots : ∀ w D, Dirs fs (fs.readings d) w D → slotsAt fs (fs.volOf d') D = slotsAt fs (fs.volOf d) D
  bytes : ∀ f s, FileOn fs (fs.readings d) f s → fileBytes fs d' s = fileBytes fs d s

theorem Unchanged.of_presents (hs : SmallVolume fs) (hc : Consistent fs d)
    (h : Presents fs d' (fs.volOf d)) : Unchanged fs d d' := by
  have hvol : fs.volOf d' = fs.volOf d := h.eq_volOf.symm
  refine ⟨fun k hk i hi => ?_, fun _ _ _ => by rw [hvol], fun _ _ _ => ?_⟩
  · exact (copies_volOf_eq_iff hs hc h.consistent hi).1 (by rw [hvol]) k hk
  · unfold fileBytes
    rw [hvol]

theorem Altered.not_unchanged (hs : SmallVolume fs) (hc : Consistent fs d) (hp : Presents fs d' v')
    (h : Altered fs (fs.volOf d) v') : ¬ Unchanged fs d d' := by
  obtain ⟨c, hr, h⟩ := h
  obtain rfl := hp.eq_volOf
  intro hu
  rw [hs.fatIndex_eq hr] at h
  rcases h with h | h
  · apply h
    rw [fat_volOf hs hc hr.2, fat_volOf hs hp.consistent hr.2, hu.fat 0 hc.fats c hr.2]
  · exact h ((copies_volOf_eq_iff hs hc hp.consistent hr.2).2 fun k hk => hu.fat k hk c hr.2)

theorem Ended.unchanged_iff {P : Prop} (hs : SmallVolume fs) (hc : Consistent fs d)
    (h : Ended fs (fs.volOf d) d' P) : Unchanged fs d d' ↔ P := by
  rcases h with ⟨hp, hpres⟩ | ⟨hp, v', hpres, halt⟩
  · exact ⟨fun _ => hp, fun _ => Unchanged.of_presents hs hc hpres⟩
  · exact ⟨fun hu => absurd hu (halt.not_unchanged hs hc hpres), fun h => absurd h hp⟩

variable (hs : SmallVolume fs) (hc : Consistent fs d) (hwf : fs.WellFormed d)
include hs hc hwf

theorem write_noSpace (hf : FileOn fs (fs.readings d) f s) {offset : Nat} {buf : Bytes}
    (hrun : (f.write fs offset buf ⟨.new, s.startCluster, s.size⟩).run Disk.handle d =
      ((.error (.err .noSpace), t'), d')) :
    Unchanged fs d d' ↔ (2 ≤ s.startCluster ∨ NoFree fs d) ∧ FreeAgree fs d := by
  rw [readings_eq hc] at hf
  have hplace := ((wellFormed_iff hc).1 hwf).fileOn hf
  have h := runsM_any_iff.2 hrun
  unfold write at h
  split_ifs at h with hbuf
  · exact nomatch (runsM_any_det h (.pure _)).1
  · rw [← freeAgree_iff hs hc]
    exact (growth_fails hs (hintOk_new fs) (fun h2 => ⟨_, hplace.chain h2⟩)
      (never_write_rest f offset buf) (presents_volOf hc) h).unchanged_iff hs hc

theorem truncate_noSpace (hf : FileOn fs (fs.readings d) f s) {n : Nat}
    (hrun : (f.truncate fs n ⟨.new, s.startCluster, s.size⟩).run Disk.handle d =
      ((.error (.err .noSpace), t'), d')) :
    Unchanged fs d d' ↔ (2 ≤ s.startCluster ∨ NoFree fs d) ∧ FreeAgree fs d := by
  rw [readings_eq hc] at hf
  have hplace := ((wellFormed_iff hc).1 hwf).fileOn hf
  have h := runsM_any_iff.2 hrun
  unfold truncate at h
  generalize n % 2 ^ 32 = k at h
  have hset : ∀ k, Never (.err .noSpace) (setSize k >>= fun _ =>
      ProgM.get >>= fun s : FileOp =>
        (vfsCall (f.updateDirEntry fs s.startCluster s.size) : FileM Unit)) := fun k =>
    Never.bind (never_setSize k) fun _ => never_update f
  rcases runsM_any_bind_error h with h | ⟨u, t1, d1, h1, h2⟩
  · exact absurd h (Never.get _ _ _ _)
  obtain ⟨hu, rfl, rfl⟩ := runsM_any_det h1 RunsM.get
  cases hu
  by_cases hzero : k = 0
  · subst hzero
    simp only [if_true] at h2
    split_ifs at h2
    · exact Never.bind (never_onFat _) (fun _ => Never.bind (never_setStart 0) fun _ => hset 0)
        _ _ _ _ h2 |>.elim
    · exact absurd h2 (hset 0 _ _ _ _)
  · simp only [if_neg hzero] at h2
    split_ifs at h2 with hless hstart hmore
    · exact absurd h2 (Never.bind (never_onFat _) (fun _ => hset k) _ _ _ _)
    · exact absurd h2 (hset k _ _ _ _)
    · rw [← freeAgree_iff hs hc]
      exact (growth_fails hs (hintOk_new fs) (fun h2 => ⟨_, hplace.chain h2⟩) (fun _ => hset k)
        (presents_volOf hc) h2).unchanged_iff hs hc
    · exact absurd h2 (never_update f _ _ _ _)

omit hs in
theorem chainOf_dir {D : Nat} (hd : Dirs fs (fs.readings d) w D) :
    ∃ l, chainOf fs (fs.volOf d) D = .ok l ∧ (2 ≤ D → Chain fs (fs.volOf d) D l) := by
  rw [readings_eq hc] at hd
  have hok := (wellFormed_iff hc).1 hwf
  by_cases h2 : 2 ≤ D
  · have hl := hok.dirChain hd h2
    exact ⟨_, chainOf_of_chain hl, fun _ => hl⟩
  · exact ⟨[], chainOf_small (by omega), fun h => absurd h h2⟩

omit hs in
theorem createFile_noSpace (hd : Dirs fs (fs.readings d) w dir.cluster)
    (hrun :
      RunsM anyView (dir.createFile fs name : OpM Unit VNode) () d (.error (.err .noSpace)) () d') :
    Presents fs d' (fs.volOf d) := by
  obtain ⟨l, hl, hchain⟩ := chainOf_dir hc hwf hd
  have hp := presents_volOf hc
  cases hfind : findFree ((slotsOf fs l).map (fs.volOf d).slot) with
  | none =>
    obtain ⟨d1, hany, hp1⟩ := runsM_any_of_vol (createFile_runs_full (t := ()) hl name hfind) hp
    obtain ⟨-, -, rfl⟩ := runsM_any_det hrun hany
    exact hp1
  | some i =>
    obtain ⟨sl, hi, -⟩ := findFree_some hfind
    have h2 : 2 ≤ dir.cluster := two_le_of_slot hl hi
    obtain ⟨d1, hany, -⟩ := runsM_any_of_vol (createFile_runs (t := ()) (hchain h2) name hfind hi) hp
    exact nomatch (runsM_any_det hrun hany).1

theorem createDirectory_noSpace (hd : Dirs fs (fs.readings d) w dir.cluster)
    (hrun :
      RunsM anyView (dir.createDirectory fs name : OpM Unit VNode) () d (.error (.err .noSpace)) ()
        d') : Ended fs (fs.volOf d) d' (NoFree fs d) := by
  obtain ⟨l, hl, hchain⟩ := chainOf_dir hc hwf hd
  have hp := presents_volOf hc
  obtain ⟨r, u', v1, halloc, ha⟩ :=
    (volStore hs).allocCluster_allocated (t := FatTable.new) (v := fs.volOf d)
  have halloc' : RunsM (volView fs) fs.allocCall FatTable.new (fs.volOf d) r u' v1 :=
    RunsM.call halloc
  cases ha with
  | invalid h => exact absurd (hintOk_new fs) h
  | noSpace hfull =>
    have hvol : RunsM (volView fs) (dir.createDirectory fs name : OpM Unit VNode) () (fs.volOf d)
        (.error (.err .noSpace)) () (fs.volOf d) :=
      RunsM.bind_error (.within (.mapErr_error halloc'))
    obtain ⟨d1, hany, hp1⟩ := runsM_any_of_vol hvol hp
    obtain ⟨-, -, rfl⟩ := runsM_any_det hrun hany
    exact .inl ⟨hfull, hp1⟩
  | @took c hr hfree =>
    have hmark : (volStore hs).set (fs.volOf d) c fatEoc = (fs.volOf d).markEoc c := rfl
    rw [hmark] at halloc'
    have hnew : ((fs.volOf d).withDir fs dir c).fat (fatIndex c) = fatEoc := Vol.setFat_self ..
    have hl' := chainOf_withDir hl hchain hfree
    have hslot := @findFreeEntrySlot_runs _ _ _ dir hl'
    have hnot : ¬ NoFree fs d := fun h => h c hr hfree
    cases hfind : findFree ((slotsOf fs l).map ((fs.volOf d).withDir fs dir c).slot) with
    | none =>
      rw [hfind] at hslot
      obtain ⟨d1, hany, hp1⟩ :=
        runsM_any_of_vol (createDirectory_runs halloc' hr name
          (.bind_error (vfsCall_error hslot))) hp
      obtain ⟨-, -, rfl⟩ := runsM_any_det hrun hany
      refine .inr ⟨hnot, _, hp1, c, hr, .inl ?_⟩
      have hfree' : (fs.volOf d).fat (fatIndex c) = fatFree := hfree
      rw [hnew, hfree']
      decide
    | some i =>
      rw [hfind] at hslot
      obtain ⟨sl, hi, -⟩ := findFree_some hfind
      have h2 : 2 ≤ dir.cluster := two_le_of_slot hl hi
      have hwrite : RunsM (volView fs) (dir.writeDirEntry fs (i * 32) (DirEntry.newDir name c)) ()
          ((fs.volOf d).withDir fs dir c) (.ok ()) ()
          (((fs.volOf d).withDir fs dir c).putSlot sl (DirEntry.newDir name c).toBytes) :=
        writeDirEntry_runs ((hchain h2).withDir hfree).1 hi rfl _
      obtain ⟨d1, hany, -⟩ := runsM_any_of_vol (createDirectory_runs halloc' hr name
        (.bind_ok (vfsCall_ok hslot) (.bind_ok (vfsCall_ok hwrite) (.pure _)))) hp
      exact nomatch (runsM_any_det hrun hany).1

theorem create_noSpace (hd : Dirs fs (fs.readings d) w dir.cluster) {kind : VNodeType} {t' : Unit}
    (hrun : (dir.create fs name kind () : Prog Cmd Resp _ _).run Disk.handle d =
      ((.error (.err .noSpace), t'), d')) : Unchanged fs d d' ↔ kind = .file ∨ NoFree fs d := by
  obtain ⟨l, hl, -⟩ := chainOf_dir hc hwf hd
  have hp := presents_volOf hc
  have h : RunsM anyView (dir.create fs name kind : OpM Unit VNode) () d (.error (.err .noSpace))
      t' d' :=
    runsM_any_iff.2 hrun
  unfold Fat32Dir.create at h
  by_cases hbad : Fat32Dir.badName name = true
  · rw [if_pos hbad] at h
    exact nomatch (runsM_any_det h (.throw _)).1
  rw [if_neg hbad] at h
  have hlookup : RunsM (volView fs) ((dir.lookup fs name : OpM Unit VNode).attempt :
      OpM Unit (Except (Fault VfsError) VNode)) () (fs.volOf d)
      (.ok (lookupIn dir (entriesOf fs (fs.volOf d) l) name)) () (fs.volOf d) :=
    RunsM.attempt (lookup_runs hl name)
  obtain ⟨d1, hlook, hp1⟩ := runsM_any_of_vol hlookup hp
  -- the lookup changes nothing
  have hvol : fs.volOf d1 = fs.volOf d := hp1.eq_volOf.symm
  have hc1 : Consistent fs d1 := hp1.consistent
  have hread : fs.readings d1 = fs.readings d := readings_congr hc hc1 hvol
  have hwf1 : fs.WellFormed d1 := by
    unfold Fat32FileSystem.WellFormed
    rwa [hread]
  have hd1 : Dirs fs (fs.readings d1) w dir.cluster := by rwa [hread]
  rcases runsM_any_bind_error h with h | ⟨a, t1, d2, h1, h⟩
  · exact nomatch (runsM_any_det h hlook).1
  obtain ⟨ha, -, rfl⟩ := runsM_any_det h1 hlook
  cases hres : lookupIn dir (entriesOf fs (fs.volOf d) l) name with
  | ok node =>
    rw [hres] at ha
    cases ha
    exact nomatch (runsM_any_det h (.throw _)).1
  | error e =>
    rw [hres] at ha
    cases ha
    cases kind with
    | file =>
      refine ⟨fun _ => Or.inl rfl, fun _ => Unchanged.of_presents hs hc ?_⟩
      rw [← hvol]
      exact createFile_noSpace hc1 hwf1 hd1 h
    | directory =>
      have hnoFree : NoFree fs d2 ↔ NoFree fs d := by
        unfold NoFree
        rw [hvol]
      have hcases := createDirectory_noSpace hs hc1 hwf1 hd1 h
      rw [hvol, hnoFree] at hcases
      rw [hcases.unchanged_iff hs hc]
      exact ⟨Or.inr, fun h => h.resolve_left nofun⟩
    | other => exact nomatch (runsM_any_det h (.throw _)).1

/-- **An operation that runs out of space leaves the volume as it was exactly if it had not
allocated a cluster before** and, when a chain was to grow, the copies of the FAT agree about the free
clusters. -/
theorem noSpace_unchanged_iff :
    (∀ f s offset buf t' d', FileOn fs (fs.readings d) f s →
      (f.write fs offset buf ⟨.new, s.startCluster, s.size⟩).run Disk.handle d =
        ((.error (.err .noSpace), t'), d') →
      (Unchanged fs d d' ↔ (2 ≤ s.startCluster ∨ NoFree fs d) ∧ FreeAgree fs d)) ∧
    (∀ f s n t' d', FileOn fs (fs.readings d) f s →
      (f.truncate fs n ⟨.new, s.startCluster, s.size⟩).run Disk.handle d =
        ((.error (.err .noSpace), t'), d') →
      (Unchanged fs d d' ↔ (2 ≤ s.startCluster ∨ NoFree fs d) ∧ FreeAgree fs d)) ∧
    (∀ (dir : Fat32Dir) w name kind (t' : Unit) d', Dirs fs (fs.readings d) w dir.cluster →
      (dir.create fs name kind () : Prog Cmd Resp _ _).run Disk.handle d =
        ((.error (.err .noSpace), t'), d') →
      (Unchanged fs d d' ↔ kind = .file ∨ NoFree fs d)) :=
  ⟨fun _ _ _ _ _ _ hf hrun => write_noSpace hs hc hwf hf hrun,
    fun _ _ _ _ _ hf hrun => truncate_noSpace hs hc hwf hf hrun,
    fun _ _ _ _ _ _ hd hrun => create_noSpace hs hc hwf hd hrun⟩

end

/-! ## A full root directory -/

/-- Sixteen empty files, as many as fit into a cluster of `smallFs`. -/
def fullRoot : Bytes :=
  (List.range 16).flatMap fun i => (DirEntry.newFile [Char.ofNat (65 + i)] 0 0).toBytes

/-- The file system of `smallFs` with this root directory. -/
def fullDisk : Disk := smallDisk fullRoot (by decide +kernel) 0

theorem fullDisk_wellFormed : smallFs.WellFormed fullDisk := by
  have hfiles : EmptyFiles smallFs fullDisk := by
    have h : ∀ e ∈ (smallFs.readings fullDisk).entries 2,
        e.entry.isDir = false ∧ e.entry.cluster < 2 ∧ e.entry.fileSize.toNat = 0 := by decide +kernel
    exact h
  exact hfiles.wellFormed smallDisk_consistent
    (.step (smallFs_small.cell (by decide)) (.done (by decide +kernel)))
    (by decide +kernel :
      List.Pairwise (fun a b : Bytes => a.getD 0 0 = 0x00 → b.getD 0 0 = 0x00)
        ((slotsOf smallFs [2]).map (smallFs.volOf fullDisk).slot))

theorem noSpace_unchanged_iff_fullDisk : ∃ (t' : Unit) (d' : Disk),
    (Fat32Dir.create smallFs ⟨2, []⟩ ['Z'] .file () : Prog Cmd Resp _ _).run Disk.handle fullDisk =
      ((.error (.err .noSpace), t'), d') ∧ Unchanged smallFs fullDisk d' := by
  have hres : ((Fat32Dir.create smallFs ⟨2, []⟩ ['Z'] .file () : Prog Cmd Resp _ _).run Disk.handle
      fullDisk).1.1 = .error (.err .noSpace) := by decide +kernel
  cases hrun : (Fat32Dir.create smallFs ⟨2, []⟩ ['Z'] .file () : Prog Cmd Resp _ _).run Disk.handle
      fullDisk with
  | mk q d' =>
    obtain ⟨r, t'⟩ := q
    rw [hrun] at hres
    obtain rfl : r = .error (.err .noSpace) := hres
    exact ⟨t', d', rfl, ((noSpace_unchanged_iff smallFs_small smallDisk_consistent
      fullDisk_wellFormed).2.2 ⟨2, []⟩ .root ['Z'] .file t' d' .root hrun).2 (Or.inl rfl)⟩

/-- **A directory that does not fit into its parent leaves its cluster in use.** -/
theorem createDirectory_leaks :
    smallFs.WellFormed fullDisk ∧
    ((Fat32Dir.create smallFs ⟨2, []⟩ ['Z'] .directory () : Prog Cmd Resp _ _).run Disk.handle
      fullDisk).1.1 = .error (.err .noSpace) ∧
    smallFs.readsEntry fullDisk 3 = .ok fatFree ∧
    smallFs.readsEntry
      ((Fat32Dir.create smallFs ⟨2, []⟩ ['Z'] .directory () : Prog Cmd Resp _ _).run Disk.handle
      fullDisk).2 3 = .ok fatEoc :=
  ⟨fullDisk_wellFormed, by decide +kernel⟩

end Kerners.Fat32
