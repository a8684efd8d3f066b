import Kerners.Fat32.Names

/-!
# Removing a name (`fs/fat32/mod.rs`)

`Fat32Dir::unlink` and `rmdir` free the clusters of an entry and mark its short entry deleted. The
long-name slots in front of it stay, and `parse_entries_with_offsets` does not drop the parts it has
collected when it skips a deleted slot: they go on to the next short entry, or to the entry that is
later created in the slot.

`pendingParts slots i` are the parts in front of slot `i`; `nextShown parts slots` is the name of
the next entry behind them.
-/

namespace Kerners.Fat32

open Lib Kerners.Block List

/-! ## The listing without a slot -/

/-- What `parse_entries` tells of an entry: name, type, start cluster and size. -/
def Listed.info (e : Listed) : Str × Bool × Nat × UInt32 :=
  (e.name, e.entry.isDir, e.entry.cluster, e.entry.fileSize)

/-- The listing `after` is `before` without the entry `e`. -/
def OneRemoved (before after : List Listed) (e : Listed) : Prop :=
  after.map Listed.info = (before.filter fun l => l.offset ≠ e.offset).map Listed.info

open DirEntry

/-- The name of the first entry that is shown, with these parts in front. -/
def nextShown : List LfnEntry → List Bytes → Option Str
  | _, [] => none
  | parts, chunk :: rest =>
    if chunk.getD 0 0 = 0x00 then none
    else if chunk.getD 0 0 = 0xE5 then nextShown parts rest
    else if chunk.getD 11 0 = attrLongName then
      nextShown (parts ++ (LfnEntry.fromBytes chunk).toList) rest
    else
      match DirEntry.fromBytes chunk with
      | none => none
      | some e =>
        if e.isVolumeLabel || isDotName (entryName parts e) then none
        else some (entryName parts e)

/-- The first free slot once slot `i` is deleted. -/
def reused (slots : List Bytes) (i : Nat) : Nat := (findFree (slots.take i)).getD i

section

variable {slots : List Bytes} {parts : List LfnEntry} {i idx : Nat} {e : Listed} {del : Bytes}

theorem map_info_eq_iff : ∀ {slots : List Bytes} {parts parts' : List LfnEntry} {idx : Nat},
    (parseSlots parts idx slots).map Listed.info = (parseSlots parts' idx slots).map Listed.info ↔
      nextShown parts slots = nextShown parts' slots
  | [], _, _, _ => by simp [parseSlots, nextShown]
  | chunk :: rest, parts, parts', idx => by
    rw [parseSlots_cons, parseSlots_cons]
    unfold readSlot nextShown
    split_ifs with h0 h5 hl
    · simp
    · exact map_info_eq_iff
    · exact map_info_eq_iff
    · cases fromBytes chunk with
      | none => simp
      | some e =>
        simp only
        split_ifs with h h' <;> simp [listedAt, Listed.info]

theorem mem_parseSlots_pending : ∀ {parts : List LfnEntry} {idx : Nat} {slots : List Bytes},
    e ∈ parseSlots parts idx slots → ∃ i chunk ps, e.offset = (idx + i) * 32 ∧
      slots[i]? = some chunk ∧ partsAfter parts (slots.take i) = some ps ∧
      readSlot ps chunk = some ([], some (e.name, e.entry))
  | _, _, [], h => by simp [parseSlots] at h
  | parts, idx, chunk :: rest, h => by
    rw [parseSlots_cons] at h
    cases hr : readSlot parts chunk with
    | none =>
      rw [hr] at h
      simp at h
    | some r =>
      rw [hr] at h
      rcases mem_append.mp h with h | h
      · obtain ⟨hv, ho⟩ := mem_listedAt.mp h
        obtain ⟨parts', vis⟩ := r
        obtain rfl : vis = _ := hv
        obtain ⟨rfl, -⟩ := readSlot_some_visible hr
        exact ⟨0, chunk, parts, by simpa using ho, rfl, rfl, hr⟩
      · obtain ⟨i, c, ps, ho, hc, hps, hrest⟩ := mem_parseSlots_pending h
        refine ⟨i + 1, c, ps, by rw [ho]; omega, by simpa using hc, ?_, hrest⟩
        rw [take_succ_cons, partsAfter, hr]
        exact hps

section

variable (hi : slots[i]? = some del) {ps : List LfnEntry}
  (hps : partsAfter [] (slots.take i) = some ps)
include hi hps

theorem listing_visible (he : e.offset = i * 32)
    (hr : readSlot ps del = some ([], some (e.name, e.entry))) :
    parseSlots [] 0 slots =
      parseSlots [] 0 (slots.take i) ++ e :: parseSlots [] (i + 1) (slots.drop (i + 1)) := by
  obtain ⟨heq, -, hlen⟩ := set_eq_append hi del
  conv_lhs => rw [heq]
  rw [parseSlots_append, hps, hlen, Option.elim_some, Nat.zero_add, parseSlots_cons, hr]
  congr 1
  have hat : listedAt i (some (e.name, e.entry)) = [e] := by
    obtain ⟨n, x, o⟩ := e
    obtain rfl : o = i * 32 := he
    rfl
  rw [Option.elim_some, hat]
  rfl

theorem listing_deleted {new : Bytes} (hnew : new.getD 0 0 = 0xE5) :
    parseSlots [] 0 (slots.set i new) =
      parseSlots [] 0 (slots.take i) ++ parseSlots ps (i + 1) (slots.drop (i + 1)) := by
  obtain ⟨-, hset, hlen⟩ := set_eq_append hi new
  have hread : readSlot ps new = some (ps, none) := by
    rw [readSlot, if_neg (by rw [hnew]; decide), if_pos hnew]
  rw [hset, parseSlots_append, hps, hlen, Option.elim_some, Nat.zero_add, parseSlots_cons, hread]
  rfl

theorem oneRemoved_iff {new : Bytes} (he : e.offset = i * 32)
    (hr : readSlot ps del = some ([], some (e.name, e.entry))) (hnew : new.getD 0 0 = 0xE5) :
    OneRemoved (parseSlots [] 0 slots) (parseSlots [] 0 (slots.set i new)) e ↔
      nextShown (pendingParts slots i) (slots.drop (i + 1)) =
        nextShown [] (slots.drop (i + 1)) := by
  have hpend : pendingParts slots i = ps := by rw [pendingParts, hps, Option.getD_some]
  have hlt : i < slots.length := (List.getElem?_eq_some_iff.1 hi).1
  have hfront : (parseSlots [] 0 (slots.take i)).filter (fun l => l.offset ≠ e.offset) =
      parseSlots [] 0 (slots.take i) := by
    refine filter_eq_self.2 fun x hx => decide_eq_true ?_
    have hxlt := (parseSlots_offset_ge hx).2
    rw [length_take] at hxlt
    omega
  have hback : (parseSlots [] (i + 1) (slots.drop (i + 1))).filter (fun l => l.offset ≠ e.offset) =
      parseSlots [] (i + 1) (slots.drop (i + 1)) := by
    refine filter_eq_self.2 fun x hx => decide_eq_true ?_
    have hxge := (parseSlots_offset_ge hx).1
    omega
  unfold OneRemoved
  rw [listing_deleted hi hps hnew, listing_visible hi hps he hr, filter_append, hfront,
    filter_cons_of_neg (by simp), hback, map_append, map_append,
    append_cancel_left_eq, hpend]
  exact map_info_eq_iff

end

theorem findFree_deleted {new : Bytes} (hi : slots[i]? = some del) (hnew : new.getD 0 0 = 0xE5) :
    findFree (slots.set i new) = some (reused slots i) ∧ reused slots i ≤ i := by
  obtain ⟨-, hset, hlen⟩ := set_eq_append hi new
  have hhead : findFree (new :: slots.drop (i + 1)) = some 0 := by
    rw [findFree, findIdx?_cons, hnew]
    rfl
  unfold findFree at hhead
  constructor
  · rw [hset, findFree, findIdx?_append, hhead, hlen, reused, findFree]
    cases findIdx? _ (slots.take i) with
    | none => simp
    | some j => rfl
  · rw [reused]
    cases hf : findFree (slots.take i) with
    | none => exact Nat.le_refl i
    | some j =>
      have hj := (findIdx?_eq_some_iff_getElem.1 hf).1
      rw [hlen] at hj
      exact Nat.le_of_lt hj

theorem pendingParts_set {new : Bytes} {j : Nat} (hj : j ≤ i) :
    pendingParts (slots.set i new) j = pendingParts slots j := by
  rw [pendingParts, pendingParts, take_set_of_le hj]

theorem shown_new_iff {new : DirEntry} {name shown : Str} (hfind : findFree slots = some i)
    (hn : new.name = (shortEntry name).name) (hx : new.ext = (shortEntry name).ext)
    (hlive : freeByte ((shortEntry name).name.getD 0 0) = false) (hattr : new.attr ≠ attrLongName)
    (hvol : new.isVolumeLabel = false) (hdot : isDotName shown = false) :
    (∃ x ∈ parseSlots [] 0 (slots.set i new.toBytes), x.offset = i * 32 ∧ x.name = shown) ↔
      entryName (pendingParts slots i) (shortEntry name) = shown := by
  constructor
  · rintro ⟨x, hx', hoff, rfl⟩
    obtain ⟨-, -, heq, -⟩ := visible_new hfind hn hx hx' hoff
    rw [heq]
  · intro hname
    have hread := @readSlot_toBytes (pendingParts slots i) new (by rw [hn]; exact hlive) hattr
    rw [entryName_congr hn hx, hvol, hname, hdot] at hread
    refine ⟨⟨shown, new, i * 32⟩, ?_, rfl, rfl⟩
    rw [listing_after hfind, hread]
    exact mem_append_right _ (mem_append_left _ (mem_listedAt.2 ⟨rfl, rfl⟩))

end

/-! ## `unlink` and `rmdir` -/

/-- `unlink(name)` or `rmdir(name)` in the directory `dir` of the disk `d` succeeded and left `d'`. -/
def Removes (fs : Fat32FileSystem) (dir : Fat32Dir) (name : Str) (d d' : Disk) : Prop :=
  ((dir.unlink fs name : OpM Unit Unit) ()).run Disk.handle d = ((.ok (), ()), d') ∨
    ((dir.rmdir fs name : OpM Unit Unit) ()).run Disk.handle d = ((.ok (), ()), d')

/-- `v'` is `v` with some entries of the FAT free that no cluster of `l` has. -/
structure Freed (v v' : Vol) (l : List Nat) : Prop where
  data : v'.data = v.data
  fat : ∀ x ∈ l, v'.fat (fatIndex x) = v.fat (fatIndex x)

/-- `v'` is `v` with the entry `e` of the directory deleted. -/
structure Deleted (fs : Fat32FileSystem) (dir : Fat32Dir) (l : List Nat) (v v' : Vol) (e : Listed) :
    Prop where
  chain : Chain fs v' dir.cluster l
  slots : (slotsOf fs l).map v'.slot =
    ((slotsOf fs l).map v.slot).set (e.offset / 32) e.entry.markDeleted.toBytes

open Fat32Dir

section

variable {fs : Fat32FileSystem} {v v' : Vol} {dir : Fat32Dir} {l l' : List Nat} {σ : Type} {t : σ}
  {e : Listed} {name : Str}

theorem freeAll_runs : ∀ {cs : List Nat} {v : Vol} {t : FatTable}, (∀ c ∈ cs, fs.InRange c) →
    (∀ c ∈ cs, ∀ x ∈ l, fatIndex x ≠ fatIndex c) →
    ∃ t' v', RunsM (volView fs) (fs.freeAll cs) t v (.ok ()) t' v' ∧ Freed v v' l
  | [], v, t, _, _ => ⟨t, v, RunsM.pure _, rfl, fun _ _ => rfl⟩
  | c :: cs, v, t, hr, hne => by
    have hfree := freeCluster_runs (v := v) (t := t) (hr c mem_cons_self)
    have hr' : ∀ x ∈ cs, fs.InRange x := fun x hx => hr x (mem_cons_of_mem c hx)
    obtain ⟨t', v', hrun, hdata, hfat⟩ := freeAll_runs
      (v := v.setFat (fatIndex c) fatFree) (t := t.gave c) hr'
      fun x hx => hne x (mem_cons_of_mem c hx)
    refine ⟨t', v', RunsM.bind_ok (.call hfree) hrun, hdata, fun x hx => ?_⟩
    rw [hfat x hx, Vol.setFat_of_ne _ _ (hne c mem_cons_self x hx)]

theorem freeOwnChain_runs {c : Nat} (hc : chainOf fs v c = .ok l') (hr : ∀ x ∈ l', fs.InRange x)
    (hne : ∀ c ∈ l', ∀ x ∈ l, fatIndex x ≠ fatIndex c) : ∃ v', RunsM (volView fs)
    (freeOwnChain fs c : OpM σ Unit) t v (.ok ()) t v' ∧ Freed v v' l := by
  obtain ⟨t', v', hrun, hfreed⟩ := freeAll_runs (v := v) (t := FatTable.new) hr hne
  have hread := @readChain_runs fs v FatTable.new c
  rw [hc] at hread
  exact ⟨v', RunsM.within (.mapErr_ok (.bind_ok (.call hread) hrun)), hfreed⟩

theorem markDeleted_runs (hv : FullClusters fs v) (h : Chain fs v dir.cluster l)
    (hfreed : Freed v v' l) (he : e ∈ entriesOf fs v l) :
    ∃ v'',
      RunsM (volView fs) (vfsCall (dir.writeDirEntry fs e.offset e.entry.markDeleted) : OpM σ Unit)
        t v' (.ok ()) t v'' ∧
      Deleted fs dir l v v'' e := by
  obtain ⟨i, chunk, hoff, hi, -⟩ := mem_parseSlots he
  rw [Nat.zero_add] at hoff
  rw [getElem?_map, Option.map_eq_some_iff] at hi
  obtain ⟨s, hi, -⟩ := hi
  have h' : Chain fs v' dir.cluster l := h.congr hfreed.fat
  have hv' : FullClusters fs v' := fun x hx => by
    rw [hfreed.data]
    exact hv x hx
  have hwrite := writeDirEntry_runs h' hi rfl e.entry.markDeleted
  rw [← hoff] at hwrite
  refine ⟨_, vfsCall_ok hwrite, h'.congr fun _ _ => rfl, ?_⟩
  have hsame : (slotsOf fs l).map v'.slot = (slotsOf fs l).map v.slot :=
    map_congr_left fun s _ => Vol.slot_congr (congrFun hfreed.data s.1)
  rw [map_slot_putSlot hv' (fun _ hc => h'.inRange hc) h'.nodup hi (toBytes_length _), hsame,
    hoff, Nat.mul_div_cancel i (by decide : 0 < 32)]

def FreesApart (fs : Fat32FileSystem) (v : Vol) (l : List Nat) (e : Listed) : Prop :=
  ∃ l', chainOf fs v e.entry.cluster = .ok l' ∧ (∀ x ∈ l', fs.InRange x) ∧
    ∀ c ∈ l', ∀ x ∈ l, fatIndex x ≠ fatIndex c

theorem found_deletes (h : Chain fs v dir.cluster l) (name : Str) {m : Listed → OpM σ Unit}
    (hm : ∀ e ∈ entriesOf fs v l, ∃ r v', RunsM (volView fs) (m e) t v r t v' ∧
      (r = .ok () → Deleted fs dir l v v' e)) :
    ∃ r v', RunsM (volView fs) (do
        let entries ← vfsCall (dir.parseEntriesWithOffsets fs)
        match findEntry entries name with
        | none => ProgM.throw (.err .notFound)
        | some e => m e) t v r t v' ∧ (r = .ok () →
      ∃ e, findEntry (entriesOf fs v l) name = some e ∧ Deleted fs dir l v v' e) := by
  have hparse : RunsM (volView fs) (vfsCall (dir.parseEntriesWithOffsets fs) : OpM σ (List Listed))
      t v (.ok (entriesOf fs v l)) t v := vfsCall_ok (parseEntries_runs (chainOf_of_chain h))
  cases hfind : findEntry (entriesOf fs v l) name with
  | none =>
    refine ⟨.error (.err .notFound), v, .bind_ok hparse ?_, nofun⟩
    rw [hfind]
    exact .throw _
  | some e =>
    obtain ⟨r, v', hrun, hdel⟩ := hm e (mem_of_find?_eq_some hfind)
    refine ⟨r, v', .bind_ok hparse ?_, fun hr => ⟨e, rfl, hdel hr⟩⟩
    rw [hfind]
    exact hrun

theorem unlink_deletes (hv : FullClusters fs v) (h : Chain fs v dir.cluster l)
    (hap : ∀ e ∈ entriesOf fs v l, FreesApart fs v l e) (name : Str) :
    ∃ r v', RunsM (volView fs) (dir.unlink fs name : OpM σ Unit) t v r t v' ∧ (r = .ok () →
      ∃ e, findEntry (entriesOf fs v l) name = some e ∧ Deleted fs dir l v v' e) := by
  refine found_deletes h name fun e he => ?_
  by_cases hdir : e.entry.isDir = true
  · rw [if_pos hdir]
    exact ⟨.error (.err .isADirectory), v, .throw _, nofun⟩
  rw [if_neg hdir]
  by_cases h2 : e.entry.cluster ≥ 2
  · obtain ⟨l', hl', hr, hne⟩ := hap e he
    obtain ⟨v1, hrun, hfreed⟩ := freeOwnChain_runs (σ := σ) (t := t) hl' hr hne
    obtain ⟨v2, hrun', hdel⟩ := markDeleted_runs hv h hfreed he
    simp only [if_pos h2]
    exact ⟨.ok (), v2, .bind_ok hrun hrun', fun _ => hdel⟩
  · obtain ⟨v2, hrun', hdel⟩ := markDeleted_runs hv h ⟨rfl, fun _ _ => rfl⟩ he
    simp only [if_neg h2]
    exact ⟨.ok (), v2, hrun', fun _ => hdel⟩

theorem rmdir_deletes (hv : FullClusters fs v) (h : Chain fs v dir.cluster l)
    (hap : ∀ e ∈ entriesOf fs v l, FreesApart fs v l e) (name : Str) :
    ∃ r v', RunsM (volView fs) (dir.rmdir fs name : OpM σ Unit) t v r t v' ∧ (r = .ok () →
      ∃ e, findEntry (entriesOf fs v l) name = some e ∧ Deleted fs dir l v v' e) := by
  refine found_deletes h name fun e he => ?_
  by_cases hdir : (!e.entry.isDir) = true
  · rw [if_pos hdir]
    exact ⟨.error (.err .notADirectory), v, .throw _, nofun⟩
  rw [if_neg hdir]
  obtain ⟨l', hl', hr, hne⟩ := hap e he
  have hsub := @readdir_runs fs v l' σ t ⟨e.entry.cluster, name⟩ hl'
  by_cases hempty : (!(dirListing (entriesOf fs v l')).isEmpty) = true
  · refine ⟨.error (.err .directoryNotEmpty), v, .bind_ok hsub ?_, nofun⟩
    rw [if_pos hempty]
    exact .throw _
  · obtain ⟨v1, hrun, hfreed⟩ := freeOwnChain_runs (σ := σ) (t := t) hl' hr hne
    obtain ⟨v2, hrun', hdel⟩ := markDeleted_runs hv h hfreed he
    refine ⟨.ok (), v2, .bind_ok hsub ?_, fun _ => hdel⟩
    rw [if_neg hempty]
    exact .bind_ok hrun hrun'

end

section

variable {fs : Fat32FileSystem} {dir : Fat32Dir} {name m : Str} {node : VNode} {d d' d'' : Disk}
  {w : Owner} {l : List Nat} {v : Vol} {e : Listed}

theorem VolOk.apart (hok : VolOk fs v) (hdir : Dirs fs (readingsOf fs v) w dir.cluster)
    (h : Chain fs v dir.cluster l) (he : e ∈ entriesOf fs v l) : FreesApart fs v l e := by
  have hlist := listAt_of_chain h
  have he' : e ∈ (readingsOf fs v).entries dir.cluster := by
    change e ∈ parseSlots [] 0 (slotsAt fs v dir.cluster)
    rwa [slotsAt, hlist]
  by_cases h2 : 2 ≤ e.entry.cluster
  · obtain ⟨l', hl'⟩ := hok.chain _ _ (.entry hdir he' h2)
    refine ⟨l', chainOf_of_chain hl', fun x hx => hl'.inRange hx, fun c hc x hx heq => ?_⟩
    obtain ⟨w', hne, hdir'⟩ := hdir.other e.offset
    have hdisj := hok.lists_disjoint hne hdir'.owns (.entry hdir he')
    rw [hlist, listAt_of_chain hl'] at hdisj
    have hlt : ∀ y, y < fatReservedMin → fatIndex y = y := fun y hy =>
      fatIndex_eq (Nat.lt_trans hy (by decide))
    rw [hlt x (h.cell hx).2, hlt c (hl'.cell hc).2] at heq
    exact hdisj hx (heq ▸ hc)
  · exact ⟨[], chainOf_small (Nat.not_le.1 h2), fun _ hx => absurd hx not_mem_nil,
      fun _ hc => absurd hc not_mem_nil⟩

theorem Removes.deleted (h : Removes fs dir name d d') (hc : Consistent fs d)
    (hwf : fs.WellFormed d) (hdir : Dirs fs (fs.readings d) w dir.cluster) :
    ∃ l e, Consistent fs d' ∧
      Chain fs (fs.volOf d) dir.cluster l ∧
      findEntry (entriesOf fs (fs.volOf d) l) name = some e ∧
      Deleted fs dir l (fs.volOf d) (fs.volOf d') e := by
  have hok := (wellFormed_iff hc).mp hwf
  have hp := presents_volOf hc
  have hv : FullClusters fs (fs.volOf d) := fun c hr => hp.data_length hr
  rw [readings_eq hc] at hdir
  by_cases h2 : 2 ≤ dir.cluster
  · have hl := hok.dirChain hdir h2
    have hap := fun e he => hok.apart hdir hl (e := e) he
    -- both operations are read off in the same way
    have hfin : ∀ {m : OpM Unit Unit} {r : Except (Fault VfsError) Unit} {v' : Vol},
        RunsM (volView fs) m () (fs.volOf d) r () v' → (m ()).run Disk.handle d = ((.ok (), ()), d') →
        Consistent fs d' ∧ r = .ok () ∧ v' = fs.volOf d' := by
      intro m r v' hrun heq
      obtain ⟨d1, hd1, hp', -⟩ := hrun d hp
      have hsame : ((r, ()), d1) = ((.ok (), ()), d') := hd1.symm.trans heq
      obtain rfl : d1 = d' := congrArg Prod.snd hsame
      exact ⟨hp'.consistent, congrArg (fun q => q.1.1) hsame, hp'.eq_volOf⟩
    rcases h with h | h
    · obtain ⟨r, v', hrun, hres⟩ := unlink_deletes (σ := Unit) (t := ()) hv hl hap name
      obtain ⟨hc', hr, rfl⟩ := hfin hrun h
      obtain ⟨e, hfind, hdel⟩ := hres hr
      exact ⟨_, e, hc', hl, hfind, hdel⟩
    · obtain ⟨r, v', hrun, hres⟩ := rmdir_deletes (σ := Unit) (t := ()) hv hl hap name
      obtain ⟨hc', hr, rfl⟩ := hfin hrun h
      obtain ⟨e, hfind, hdel⟩ := hres hr
      exact ⟨_, e, hc', hl, hfind, hdel⟩
  · -- a directory without clusters has no entries
    exfalso
    have hnil : chainOf fs (fs.volOf d) dir.cluster = .ok [] := chainOf_small (Nat.not_le.1 h2)
    have hparse : RunsM (volView fs) (vfsCall (dir.parseEntriesWithOffsets fs) :
        OpM Unit (List Listed)) () (fs.volOf d) (.ok []) () (fs.volOf d) :=
      vfsCall_ok (parseEntries_runs hnil)
    have hno : ∀ {m : OpM Unit Unit} {x : Fault VfsError},
        RunsM (volView fs) m () (fs.volOf d) (.error x) () (fs.volOf d) →
        (m ()).run Disk.handle d ≠ ((.ok (), ()), d') := by
      intro m x hrun heq
      have hres := runsM_eq hrun hp
      rw [heq] at hres
      cases hres
    rcases h with h | h
    · exact hno (.bind_ok hparse (.throw _)) h
    · exact hno (.bind_ok hparse (.throw _)) h

/-- The file `node` that `create` made is shown in the directory as `shown`. -/
def ShownAs (fs : Fat32FileSystem) (dir : Fat32Dir) (d : Disk) (node : VNode) (shown : Str) : Prop :=
  ∃ f s, node = .file f s ∧
    ∃ x ∈ (fs.readings d).entries dir.cluster, x.offset = f.entryOffset ∧ x.name = shown

theorem Creates.stores_file (h : Creates fs dir m .file d node d') (hc : Consistent fs d)
    (hl : Chain fs (fs.volOf d) dir.cluster l) :
    ∃ i new, Consistent fs d' ∧
      (∃ f s, node = .file f s) ∧
      Stores fs dir m l (fs.volOf d) node (fs.volOf d') i new := by
  have hp := presents_volOf hc
  have hnode : ∃ f s, node = .file f s := by
    obtain ⟨r, v', hrun, hres⟩ := create_file_runs (σ := Unit) (t := ()) hl m
    have hr : r = .ok node := (runsM_eq hrun hp).symm.trans (congrArg (fun q => q.1.1) h)
    obtain ⟨i, s, -, heq, -⟩ := hres node hr
    exact ⟨_, _, heq⟩
  obtain ⟨r, v', hrun, hres⟩ := create_runs (σ := Unit) (t := ()) (chainOf_of_chain hl) m .file
    (createFile_stores (fun c hr => hp.data_length hr) (chainOf_of_chain hl) (fun _ => hl) m)
  obtain ⟨d1, heq, hp', -⟩ := hrun d hp
  have hsame : ((r, ()), d1) = ((.ok node, ()), d') := heq.symm.trans h
  obtain rfl : d1 = d' := congrArg Prod.snd hsame
  obtain rfl := hp'.eq_volOf
  obtain ⟨-, i, new, hst⟩ := hres node (congrArg (fun q => q.1.1) hsame)
  exact ⟨i, new, hp'.consistent, hnode, hst⟩

theorem Stores.shownAs_iff {v v' : Vol} {i : Nat} {new : DirEntry} {shown : Str}
    (hst : Stores fs dir m l v node v' i new) (hnode : ∃ f s, node = .file f s)
    (hents : (fs.readings d).entries dir.cluster =
        parseSlots [] 0 (((slotsOf fs l).map v.slot).set i new.toBytes)) :
    ShownAs fs dir d node shown ↔
      ∃ x ∈ parseSlots [] 0 (((slotsOf fs l).map v.slot).set i new.toBytes),
        x.offset = i * 32 ∧ x.name = shown := by
  obtain ⟨f, s, rfl⟩ := hnode
  have hoff : f.entryOffset = i * 32 := by
    have hobj := hst.object []
    unfold vnodeOf at hobj
    split_ifs at hobj
    · exact hobj.elim
    · exact hobj.2.1.symm
  unfold ShownAs
  rw [hents, ← hoff]
  constructor
  · rintro ⟨f', s', heq, x, hx⟩
    cases heq
    exact ⟨x, hx⟩
  · exact fun hx => ⟨f, s, rfl, hx⟩

/-- **What a removal does to the names.** The listing loses just the entry exactly if the long-name
parts in front of its slot leave the next entry its name. -/
theorem unlink_one_name_iff (hc : Consistent fs d) (hwf : fs.WellFormed d)
    (hdir : Dirs fs (fs.readings d) w dir.cluster) (h : Removes fs dir name d d') :
    ∃ e, Fat32Dir.findEntry ((fs.readings d).entries dir.cluster) name = some e ∧
      let slots := (fs.readings d).slots dir.cluster
      let i := e.offset / 32
      (OneRemoved ((fs.readings d).entries dir.cluster) ((fs.readings d').entries dir.cluster) e ↔
        nextShown (pendingParts slots i) (slots.drop (i + 1)) = nextShown [] (slots.drop (i + 1))) ∧
      ∀ m node d'', ShortForm m → Creates fs dir m .file d' node d'' →
        (ShownAs fs dir d'' node (m.map asciiUpper) ↔
          pendingParts slots (reused slots i) = [] ∨
            extractLfnName (pendingParts slots (reused slots i)) = m.map asciiUpper) := by
  obtain ⟨l, e, hc', hl, hfind, hdel⟩ := h.deleted hc hwf hdir
  obtain ⟨hslots, hents, -, -⟩ := @readings_dir fs dir [] d l hc (chainOf_of_chain hl)
  obtain ⟨-, hents', -, -⟩ := @readings_dir fs dir [] d' l hc' (chainOf_of_chain hdel.chain)
  have he := mem_of_find?_eq_some hfind
  obtain ⟨i, chunk, ps, hoff, hi, hps, hr⟩ := mem_parseSlots_pending he
  rw [Nat.zero_add] at hoff
  have hidx : e.offset / 32 = i := by rw [hoff, Nat.mul_div_cancel i (by decide : 0 < 32)]
  have hdead : e.entry.markDeleted.toBytes.getD 0 0 = 0xE5 := by
    rw [DirEntry.toBytes_head]
    change (e.entry.name.set 0 0xE5).getD 0 0 = 0xE5
    have hlen := e.entry.name_length
    cases hn : e.entry.name with
    | nil =>
      rw [hn] at hlen
      cases hlen
    | cons b bs => rfl
  have hset := hdel.slots
  rw [hidx] at hset
  refine ⟨e, by rw [hents]; exact hfind, ?_⟩
  rw [hidx]
  intro slots i'
  have hs : slots = (slotsOf fs l).map (fs.volOf d).slot := hslots
  change (_ ↔ nextShown (pendingParts slots i) (slots.drop (i + 1)) = _) ∧ ∀ m node d'', _ → _ →
    (_ ↔ pendingParts slots (reused slots i) = [] ∨ extractLfnName _ = _)
  rw [hents, hents', hs, entriesOf, entriesOf, hset]
  refine ⟨oneRemoved_iff hi hps hoff hr hdead, fun m node d'' hm hcreate => ?_⟩
  obtain ⟨j, new, hc'', hnode, hst⟩ := hcreate.stores_file hc' hdel.chain
  obtain ⟨-, hents'', -, -⟩ := @readings_dir fs dir [] d'' l hc'' (chainOf_of_chain hst.chain)
  rw [entriesOf, hst.slots] at hents''
  obtain ⟨hfree, hle⟩ := findFree_deleted hi hdead
  have hj : j = reused ((slotsOf fs l).map (fs.volOf d).slot) i := by
    have hf := hst.free
    rw [hset, hfree] at hf
    exact (Option.some.inj hf).symm
  rw [hst.shownAs_iff hnode hents'', shown_new_iff hst.free hst.base hst.ext hm.live hst.attr hst.label
    hm.notDot, hset, hj, pendingParts_set hle, entryName]
  split_ifs with hnil
  · rw [hm.shortName_eq]
    exact iff_of_true rfl (.inl (List.isEmpty_iff.1 hnil))
  · rw [List.isEmpty_iff] at hnil
    exact (or_iff_right hnil).symm

end

/-! ## A directory with a long name -/

def longSlot : Bytes :=
  [0x41, 0x6F, 0, 0x6C, 0, 0x64, 0, 0x6E, 0, 0x61, 0, 0x0F, 0, 0, 0x6D, 0, 0x65, 0, 0, 0] ++
    List.replicate 6 0xFF ++ [0, 0] ++ List.replicate 4 0xFF

/-- A root directory with the empty files `oldname` and `B`. -/
def longRoot : Bytes :=
  longSlot ++ (DirEntry.newFile ['A'] 0 0).toBytes ++ (DirEntry.newFile ['B'] 0 0).toBytes ++
    List.replicate 416 0

/-- The file system of `smallFs` with these files. -/
def longDisk : Disk := smallDisk longRoot (by
  simp only [longRoot, longSlot, length_append, DirEntry.toBytes_length, length_replicate,
    length_cons, length_nil]) 0xAA

theorem longDisk_entries : (smallFs.readings longDisk).entries 2 =
    [⟨"oldname".toList, newFile ['A'] 0 0, 32⟩, ⟨['B'], newFile ['B'] 0 0, 64⟩] := by
  decide +kernel

theorem longDisk_wellFormed : smallFs.WellFormed longDisk := by
  refine EmptyFiles.wellFormed (fun e he => ?_) smallDisk_consistent
    (.step (smallFs_small.cell (by decide)) (.done (by decide +kernel)))
    (by decide +kernel :
      List.Pairwise (fun a b : Bytes => a.getD 0 0 = 0x00 → b.getD 0 0 = 0x00)
        ((slotsOf smallFs [2]).map (smallFs.volOf longDisk).slot))
  change e ∈ (smallFs.readings longDisk).entries 2 at he
  rw [longDisk_entries] at he
  rcases mem_cons.1 he with rfl | he
  · decide
  · rw [mem_singleton.1 he]
    decide

/-- The disk after `unlink` in the root directory. -/
def afterUnlink (d : Disk) (name : Str) : Disk :=
  (((Fat32Dir.unlink smallFs ⟨2, []⟩ name : OpM Unit Unit) ()).run Disk.handle d).2

theorem removes_afterUnlink {d : Disk} {name : Str}
    (h : resultOn (Fat32Dir.unlink smallFs ⟨2, []⟩ name) d = .ok ()) :
    Removes smallFs ⟨2, []⟩ name d (afterUnlink d name) := .inl (Prod.ext (Prod.ext h rfl) rfl)

theorem creates_of_result {dir : Fat32Dir} {name : Str} {kind : VNodeType} {d : Disk} {node : VNode}
    (h : resultOn (dir.create fs name kind) d = .ok node) :
    ∃ d', Creates fs dir name kind d node d' :=
  ⟨_, Prod.ext (Prod.ext h rfl) rfl⟩

/-- Of `oldname` and `B` the second is removed; the file that takes its slot is shown as `C`. -/
theorem unlink_one_name_iff_second :
    ∃ d' e, Removes smallFs ⟨2, []⟩ ['b'] longDisk d' ∧
      OneRemoved ((smallFs.readings longDisk).entries 2) ((smallFs.readings d').entries 2) e ∧
      ∃ node d'', Creates smallFs ⟨2, []⟩ ['c'] .file d' node d'' ∧
        ShownAs smallFs ⟨2, []⟩ d'' node ['C'] := by
  have hrem : Removes smallFs ⟨2, []⟩ ['b'] longDisk (afterUnlink longDisk ['b']) :=
    removes_afterUnlink (by decide +kernel)
  have hres : resultOn (Fat32Dir.create smallFs ⟨2, []⟩ ['c'] .file) (afterUnlink longDisk ['b']) =
      .ok (.file ⟨['c'], 2, 64⟩ ⟨0, 0⟩) := by decide +kernel
  generalize afterUnlink longDisk ['b'] = d' at hrem hres
  obtain ⟨d'', hnew⟩ := creates_of_result hres
  have hdir : Dirs smallFs (smallFs.readings longDisk) .root (Fat32Dir.mk 2 []).cluster := .root
  obtain ⟨e, hfind, hone, hshown⟩ :=
    unlink_one_name_iff smallDisk_consistent longDisk_wellFormed hdir hrem
  have he : e = ⟨['B'], newFile ['B'] 0 0, 64⟩ := by
    change Fat32Dir.findEntry ((smallFs.readings longDisk).entries 2) ['b'] = some e at hfind
    rw [longDisk_entries] at hfind
    exact (Option.some.inj hfind).symm
  subst he
  have hshort : ShortForm ['c'] := .base (by simp) (by decide) (forall_mem_singleton.2 rfl)
  exact ⟨d', _, hrem, hone.2 (by decide +kernel), _, d'', hnew,
    (hshown ['c'] _ d'' hshort hnew).2 (.inl (by decide +kernel))⟩

/-- **The file behind a removed long name takes over the name**: of `oldname` and `B`, `unlink` of
the first leaves the second, shown as `oldname`. -/
theorem unlink_renames_next :
    smallFs.WellFormed longDisk ∧
    ∃ d', Removes smallFs ⟨2, []⟩ "oldname".toList longDisk d' ∧
      (smallFs.readings longDisk).entries 2 =
        [⟨"oldname".toList, DirEntry.newFile ['A'] 0 0, 32⟩,
          ⟨['B'], DirEntry.newFile ['B'] 0 0, 64⟩] ∧
      (smallFs.readings d').entries 2 =
        [⟨"oldname".toList, DirEntry.newFile ['B'] 0 0, 64⟩] ∧
      ∀ e, Fat32Dir.findEntry ((smallFs.readings longDisk).entries 2) "oldname".toList = some e →
        ¬ OneRemoved ((smallFs.readings longDisk).entries 2) ((smallFs.readings d').entries 2) e := by
  have hrem : Removes smallFs ⟨2, []⟩ "oldname".toList longDisk
      (afterUnlink longDisk "oldname".toList) := removes_afterUnlink (by decide +kernel)
  have hafter : (smallFs.readings (afterUnlink longDisk "oldname".toList)).entries 2 =
      [⟨"oldname".toList, DirEntry.newFile ['B'] 0 0, 64⟩] := by decide +kernel
  generalize afterUnlink longDisk "oldname".toList = d' at hrem hafter
  refine ⟨longDisk_wellFormed, d', hrem, longDisk_entries, hafter, fun e hfind hone => ?_⟩
  rw [longDisk_entries] at hfind hone
  obtain rfl := Option.some.inj hfind
  rw [OneRemoved, hafter] at hone
  exact absurd hone (by decide +kernel)

end Kerners.Fat32
