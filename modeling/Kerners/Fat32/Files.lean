import Kerners.Fat32.Local

/-!
# `write` and `truncate`

What the operations on a file do to what they own, from the specifications of their calls. The
clusters of a file form a chain from its start cluster (`FileIn`), its bytes are those of the
clusters in order (`content`).
-/

namespace Kerners.Fat32

open Lib Kerners.Block List

structure SamePlace (o o' : Own) : Prop where
  dir : o'.dir = o.dir
  dirChain : o'.dirChain = o.dirChain
  slot : o'.slot = o.slot
  avoid : o'.avoid = o.avoid
  entry : o'.entry = o.entry

/-- Of the clusters of `o`, only the entries that ended a chain have changed. -/
def Links (o o' : Own) : Prop :=
  ∀ x, o.cells x → o'.vol.fat x = o.vol.fat x ∧ o'.vol.copies x = o.vol.copies x ∨
    fatEocMin ≤ o.vol.fat x

/-- `o'` has the clusters of `o` with their bytes, linked as they were. -/
structure Carries (o o' : Own) : Prop extends SamePlace o o' where
  cells : ∀ x, o.cells x → o'.cells x
  data : ∀ x, o.cells x → o'.vol.data x = o.vol.data x
  links : Links o o'

/-- Also the FAT entries carry over: at most more clusters are owned. -/
structure Extends (o o' : Own) : Prop extends Carries o o' where
  fat : ∀ x, o.cells x → o'.vol.fat x = o.vol.fat x

/-- The operation still owns what `alloc_cluster` has returned to it in the meantime. -/
def Gained (o o' : Own) : Prop := ∀ x ∈ o'.got, x ∈ o.got ∨ o'.cells x

/-- The fresh clusters `acc` came in addition to what `o0` owned. -/
structure Grown (fs : Fat32FileSystem) (o0 o : Own) (acc : List Nat) : Prop extends
    Extends o0 o where
  cells_iff : ∀ x, o.cells x ↔ x ∈ acc ∨ o0.cells x
  fresh : ∀ x ∈ acc, ¬ o0.cells x
  inRange : ∀ x ∈ acc, fs.InRange x
  lengths : ∀ x ∈ acc, (o.vol.data x).length = fs.boot.clusterSize
  gained : Gained o0 o

def Own.dropAll (o : Own) (l : List Nat) : Own := { o with cells := fun x => x ∉ l ∧ o.cells x }

open Vol

open Fat32File

variable {fs : Fat32FileSystem} {shared : Prop} {o o0 o1 o2 : Own} {l : List Nat}

theorem Own.drop_dropAll (o : Own) (c : Nat) (l : List Nat) :
    (o.drop c).dropAll l = o.dropAll (c :: l) := by
  unfold Own.drop Own.dropAll
  congr 1
  funext x
  simp only [mem_cons, not_or, eq_iff_iff]
  tauto

theorem Own.dropAll_nil (o : Own) : o.dropAll [] = o := by
  simp [Own.dropAll]

theorem Carries.refl (o : Own) : Carries o o :=
  ⟨⟨rfl, rfl, rfl, rfl, rfl⟩, fun _ h => h, fun _ _ => rfl, fun _ _ => .inl ⟨rfl, rfl⟩⟩

theorem Extends.refl (o : Own) : Extends o o := ⟨Carries.refl o, fun _ _ => rfl⟩

theorem Carries.trans (h : Carries o o1) (h' : Carries o1 o2) : Carries o o2 := by
  refine ⟨⟨h'.dir.trans h.dir, h'.dirChain.trans h.dirChain, h'.slot.trans h.slot,
    h'.avoid.trans h.avoid, h'.entry.trans h.entry⟩, fun x hx => h'.cells x (h.cells x hx),
    fun x hx => (h'.data x (h.cells x hx)).trans (h.data x hx), fun x hx => ?_⟩
  rcases h.links x hx with ⟨hfat, hcopies⟩ | hend
  · have hnext := h'.links x (h.cells x hx)
    rw [hfat, hcopies] at hnext
    exact hnext
  · exact .inr hend

theorem Extends.trans (h : Extends o o1) (h' : Extends o1 o2) : Extends o o2 :=
  ⟨h.toCarries.trans h'.toCarries, fun x hx => (h'.fat x (h.cells x hx)).trans (h.fat x hx)⟩

theorem Gained.trans (h : Gained o o1) (hc : Carries o1 o2) (h' : Gained o1 o2) : Gained o o2 := by
  intro x hx
  rcases h' x hx with hx | hx
  · exact (h x hx).imp_right (hc.cells x)
  · exact .inr hx

theorem Grown.refl (o : Own) : Grown fs o o [] :=
  ⟨Extends.refl o, by simp, by simp, by simp, by simp, fun _ h => .inl h⟩

theorem Grown.take (h : Grown fs o0 o l) {c : Nat} {bs : Bytes} {es : List Nat}
    (hr : fs.InRange c) (hc : ¬ o.cells c) (hlen : bs.length = fs.boot.clusterSize) :
    Grown fs o0 (o.take c bs es) (l ++ [c]) := by
  have hne : ∀ x, o.cells x → x ≠ c := fun x hx heq => hc (heq ▸ hx)
  have hdata : ∀ x, o.cells x → (o.take c bs es).vol.data x = o.vol.data x := fun x hx =>
    setData_of_ne _ _ (hne x hx)
  have hfat : ∀ x, o.cells x → (o.take c bs es).vol.fat x = o.vol.fat x := fun x hx =>
    setFat_of_ne _ _ (hne x hx)
  refine ⟨⟨⟨⟨h.dir, h.dirChain, h.slot, h.avoid, h.entry⟩, fun x hx => .inr (h.cells x hx),
    fun x hx => ?_, fun x hx => ?_⟩, fun x hx => ?_⟩, fun x => ?_, fun x hx => ?_, fun x hx => ?_,
    fun x hx => ?_, fun x hx => ?_⟩
  · rw [hdata x (h.cells x hx), h.data x hx]
  · have hx' := h.cells x hx
    rw [hfat x hx', show (o.take c bs es).vol.copies x = _ from Function.update_of_ne (hne x hx') ..]
    exact h.links x hx
  · rw [hfat x (h.cells x hx), h.fat x hx]
  · change x = c ∨ o.cells x ↔ _
    rw [h.cells_iff x, mem_append, mem_singleton]
    tauto
  · rcases mem_append.mp hx with hx | hx
    · exact h.fresh x hx
    · rw [mem_singleton.mp hx]
      exact fun h0 => hc (h.cells c h0)
  · rcases mem_append.mp hx with hx | hx
    · exact h.inRange x hx
    · rwa [mem_singleton.mp hx]
  · rcases mem_append.mp hx with hx | hx
    · rw [hdata x ((h.cells_iff x).mpr (.inl hx))]
      exact h.lengths x hx
    · rw [mem_singleton.mp hx]
      have hself : (o.take c bs es).vol.data c = bs := setData_self ..
      rwa [hself]
  · rcases mem_append.mp hx with hx | hx
    · exact (h.gained x hx).imp_right .inr
    · exact .inr (.inl (mem_singleton.mp hx))

theorem Grown.dropAll (h : Grown fs o0 o l) :
    Extends o0 (o.dropAll l) ∧ ∀ x, (o.dropAll l).cells x → o0.cells x := by
  refine ⟨⟨⟨⟨h.dir, h.dirChain, h.slot, h.avoid, h.entry⟩, fun x hx => ⟨fun hl => h.fresh x hl hx,
    h.cells x hx⟩, h.data, h.links⟩, h.fat⟩, fun x hx => ?_⟩
  exact ((h.cells_iff x).mp hx.2).resolve_left hx.1

theorem Grown.setFat (h : Grown fs o0 o l) {c x : Nat} (hc : c ∈ l) :
    Grown fs o0 (o.setFat c x) l := by
  have hne : ∀ y, o0.cells y → y ≠ c := fun y hy heq => h.fresh c hc (heq ▸ hy)
  refine ⟨⟨⟨⟨h.dir, h.dirChain, h.slot, h.avoid, h.entry⟩, h.cells, h.data, fun y hy => ?_⟩,
    fun y hy => ?_⟩, h.cells_iff, h.fresh, h.inRange, h.lengths, h.gained⟩
  · simp only [Own.setFat]
    rw [setFat_of_ne _ _ (hne y hy), setFat_copies_of_ne _ _ (hne y hy)]
    exact h.links y hy
  · change (o.vol.setFat c x).fat y = _
    rw [setFat_of_ne _ _ (hne y hy)]
    exact h.fat y hy

section

variable (hs : SmallVolume fs) {c : Nat}
include hs

theorem freeAll_safe : ∀ {l : List Nat} {t : FatTable} {o : Own}, HintOk fs t → l.Nodup →
    (∀ c ∈ l, o.cells c) → (shared → ∀ c ∈ l, c ∉ o.got) →
    (localProtocol fs shared).SafeM (fs.freeAll l) t o fun r t' o' =>
      r = .ok () ∧ HintOk fs t' ∧ o' = o.dropAll l
  | [], _, o, ht, _, _, _ => .pure ⟨rfl, ht, o.dropAll_nil.symm⟩
  | c :: l, t, o, ht, hnd, hl, hgot => by
    obtain ⟨hc, hnd⟩ := nodup_cons.mp hnd
    refine .bind (freeCluster_safe hs ht (hl c mem_cons_self)
      (fun hsh => hgot hsh c mem_cons_self) fun t' ht' => ?_)
    have ih := freeAll_safe (l := l) (o := o.drop c) ht' hnd
      (fun x hx => ⟨fun heq => hc (heq ▸ hx), hl x (mem_cons_of_mem c hx)⟩)
      (fun hsh x hx => hgot hsh x (mem_cons_of_mem c hx))
    rw [Own.drop_dropAll] at ih
    exact ih

theorem freeIgnoring_safe : ∀ {l : List Nat} {t : FatTable} {o : Own}, HintOk fs t → l.Nodup →
    (∀ c ∈ l, o.cells c) → (shared → ∀ c ∈ l, c ∉ o.got) →
    (localProtocol fs shared).SafeM (fs.freeIgnoring l) t o fun r t' o' =>
      r = .ok () ∧ HintOk fs t' ∧ o' = o.dropAll l
  | [], _, o, ht, _, _, _ => .pure ⟨rfl, ht, o.dropAll_nil.symm⟩
  | c :: l, t, o, ht, hnd, hl, hgot => by
    obtain ⟨hc, hnd⟩ := nodup_cons.mp hnd
    refine .bind (.attempt (freeCluster_safe hs ht
      (hl c mem_cons_self) (fun hsh => hgot hsh c mem_cons_self) fun t' ht' => ?_))
    have ih := freeIgnoring_safe (l := l) (o := o.drop c) ht' hnd
      (fun x hx => ⟨fun heq => hc (heq ▸ hx), hl x (mem_cons_of_mem c hx)⟩)
      (fun hsh x hx => hgot hsh x (mem_cons_of_mem c hx))
    rw [Own.drop_dropAll] at ih
    exact ih

theorem Chain.snoc_take {first last : Nat} {pre es : List Nat} {bs : Bytes}
    (h : Chain fs o.vol first (pre ++ [last])) (hr : fs.InRange c) (hc : c ∉ pre ++ [last]) :
    Chain fs ((o.take c bs es).setFat last c).vol first ((pre ++ [last]) ++ [c]) := by
  have hnd := h.nodup
  rw [append_assoc]
  refine h.splice (fun x hx => ?_) ?_
  · have hx' : x ∈ pre ++ [last] := mem_append_left _ hx
    have hxl : x ≠ last := by
      rintro rfl
      exact (disjoint_of_nodup_append hnd) hx (by simp)
    have hxc : x ≠ c := by
      rintro rfl
      exact hc hx'
    rw [hs.fatIndex_eq (h.inRange hx')]
    simp only [Own.setFat, Own.take]
    rw [setFat_of_ne _ _ hxl, setFat_of_ne _ _ hxc]
  · have hlast := h.inRange (x := last) (by simp)
    have hcl : c ≠ last := by
      rintro rfl
      exact hc (by simp)
    rw [hs.fatIndex_eq hlast]
    simp only [Own.setFat, Own.take]
    rw [setFat_self]
    refine .step (hs.cell hr) (.done ?_)
    rw [hs.fatIndex_eq hr, setFat_of_ne _ _ hcl, setFat_self]
    decide

theorem chain_take {bs : Bytes} {es : List Nat} (hr : fs.InRange c) :
    Chain fs (o.take c bs es).vol c [c] := by
  refine .step (hs.cell hr) (.done ?_)
  rw [hs.fatIndex_eq hr]
  simp only [Own.take]
  rw [setFat_self]
  decide

theorem ne_free_of_inRange (hr : fs.InRange c) : c ≠ fatFree ∧ c < 2 ^ 28 := by
  have h1 := hr.1
  have h2 := (hs.cell hr).2
  unfold fatReservedMin at h2
  unfold fatFree
  omega

theorem allocMore_safe : ∀ {n first : Nat} {clusters : List Nat} {t : FatTable} {o : Own},
    Grown fs o0 o (first :: clusters) → Chain fs o.vol first (first :: clusters) → HintOk fs t →
    (localProtocol fs shared).SafeM (fs.allocMore n first clusters) t o fun r t' o' =>
      HintOk fs t' ∧ match r with
        | .ok ns => ns.length = clusters.length + 1 + n ∧ ns.head? = some first ∧
            Grown fs o0 o' ns ∧ Chain fs o'.vol first ns
        | .error _ => Extends o0 o' ∧ ∀ x, o'.cells x → o0.cells x
  | 0, first, clusters, t, o, hg, hc, ht =>
    Protocol.SafeM.pure ⟨ht, by simp, rfl, hg, hc⟩
  | n + 1, first, clusters, t, o, hg, hc, ht => by
    refine .bind (.attempt (allocCall_safe hs ht ?_ ?_))
    · intro c bs es t' hr hnc hlen ht'
      obtain ⟨pre, last, heq⟩ : ∃ pre last, first :: clusters = pre ++ [last] :=
        ⟨_, _, (dropLast_append_getLast (cons_ne_nil _ _)).symm⟩
      have hlast : (first :: clusters).getLast (by simp) = last := by
        simp only [heq, getLast_append_singleton]
      have hlm : last ∈ first :: clusters := by
        rw [heq]
        simp
      have hnew : c ∉ first :: clusters := fun hmem => hnc ((hg.cells_iff c).mpr (.inl hmem))
      have hchain : Chain fs ((o.take c bs es).setFat last c).vol first
          (first :: (clusters ++ [c])) := by
        rw [← cons_append]
        rw [heq] at hc hnew ⊢
        exact hc.snoc_take hs hr hnew
      have hgrown : Grown fs o0 ((o.take c bs es).setFat last c) (first :: (clusters ++ [c])) :=
        (hg.take hr hnc hlen).setFat (mem_append_left _ hlm)
      have ih := allocMore_safe (n := n) hgrown hchain ht'
      have hlc : (o.take c bs es).cells last := .inr ((hg.cells_iff last).mpr (.inl hlm))
      simp only [hlast]
      refine .bind (writeEntry_safe hs hlc
        (ne_free_of_inRange hs hr).1 (ne_free_of_inRange hs hr).2 (ih.mono ?_))
      rintro (e | ns) t'' o' ⟨h1, h2⟩
      · exact ⟨h1, h2⟩
      · refine ⟨h1, ?_, h2.2⟩
        rw [h2.1, length_append, length_singleton]
        omega
    · intro hnt
      refine .bind_of (freeIgnoring_safe hs ht hc.nodup
        (fun x hx => (hg.cells_iff x).mpr (.inl hx)) (fun hsh => absurd hsh hnt)) ?_ ?_
      · rintro _ t' o' ⟨-, ht', rfl⟩
        exact .throw ⟨ht', hg.dropAll⟩
      · rintro e t' o' ⟨h, -⟩
        cases h

theorem allocClusters_safe {n : Nat} {t : FatTable} {o : Own} (hn : 0 < n) (ht : HintOk fs t) :
    (localProtocol fs shared).SafeM (fs.allocClusters n) t o fun r t' o' =>
      HintOk fs t' ∧ match r with
        | .ok ns => ns.length = n ∧ Grown fs o o' ns ∧
            ∃ first, ns.head? = some first ∧ Chain fs o'.vol first ns
        | .error _ => Extends o o' ∧ ∀ x, o'.cells x → o.cells x := by
  unfold Fat32FileSystem.allocClusters
  rw [if_neg (by omega)]
  refine .bind (allocCall_safe hs ht ?_ fun _ => ⟨ht, Extends.refl o, fun _ h => h⟩)
  intro c bs es t' hr hnc hlen ht'
  have hchain : Chain fs (o.take c bs es).vol c [c] := chain_take hs hr
  have hgrown : Grown fs o (o.take c bs es) [c] := (Grown.refl o).take hr hnc hlen
  have hmore := @allocMore_safe _ shared _ hs (n - 1) _ _ _ _ hgrown hchain ht'
  refine hmore.mono ?_
  rintro (e | ns) t'' o' ⟨h1, h2⟩
  · exact ⟨h1, h2⟩
  · refine ⟨h1, ?_, h2.2.2.1, c, h2.2.1, h2.2.2.2⟩
    rw [h2.1, length_nil]
    omega

theorem extendChain_safe {n start last : Nat} {pre : List Nat} {t : FatTable} {o : Own}
    (hn : 0 < n) (ht : HintOk fs t) (hc : Chain fs o.vol start (pre ++ [last]))
    (hsub : ∀ x ∈ pre ++ [last], o.cells x) :
    (localProtocol fs shared).SafeM (fs.extendChain last n) t o fun r t' o' =>
      HintOk fs t' ∧ match r with
        | .ok ns => ns.length = n ∧ Carries o o' ∧ Chain fs o'.vol start (pre ++ [last] ++ ns) ∧
            (∀ x, o'.cells x ↔ x ∈ ns ∨ o.cells x) ∧
            (∀ x ∈ ns, (o'.vol.data x).length = fs.boot.clusterSize) ∧ Gained o o'
        | .error _ => Extends o o' := by
  refine .bind_of (allocClusters_safe hs hn ht) ?_ ?_
  · rintro ns t' o1 ⟨ht', hlen, hg, first, hhead, hnew⟩
    have hfirst : fs.InRange first := hg.inRange first (mem_of_head? hhead)
    have hlast : o.cells last := hsub last (by simp)
    -- the entry of `last` is not one of the fresh chain
    have hkeep : ∀ x, x ≠ last → (o1.setFat last first).vol.fat x = o1.vol.fat x := fun x hx =>
      setFat_of_ne _ _ hx
    have hnew' : Chain fs (o1.setFat last first).vol first ns := hnew.congr fun x hx => by
      rw [hs.fatIndex_eq (hnew.inRange hx)]
      exact hkeep x fun heq => hg.fresh x hx (heq ▸ hlast)
    have hchain : Chain fs (o1.setFat last first).vol start (pre ++ [last] ++ ns) := by
      rw [append_assoc]
      refine hc.splice (fun x hx => ?_) ?_
      · have hx' : x ∈ pre ++ [last] := mem_append_left _ hx
        rw [hs.fatIndex_eq (hc.inRange hx'), hkeep, hg.fat x (hsub x hx')]
        rintro rfl
        exact (disjoint_of_nodup_append hc.nodup) hx (by simp)
      · rw [hs.fatIndex_eq (hc.inRange (x := last) (by simp))]
        change Chain fs _ ((o1.vol.setFat last first).fat last) ns
        rw [setFat_self]
        exact hnew'
    obtain ⟨rest, rfl⟩ : ∃ rest, ns = first :: rest := by
      cases ns with
      | nil => cases hhead
      | cons x rest =>
        cases hhead
        exact ⟨rest, rfl⟩
    refine .bind (writeEntry_safe hs (hg.cells last hlast)
      (ne_free_of_inRange hs hfirst).1 (ne_free_of_inRange hs hfirst).2 ?_)
    refine .pure ⟨ht', hlen, ?_, hchain, hg.cells_iff, hg.lengths, hg.gained⟩
    refine ⟨⟨hg.dir, hg.dirChain, hg.slot, hg.avoid, hg.entry⟩, hg.cells, hg.data, fun x hx => ?_⟩
    by_cases hxl : x = last
    · -- the chain ended at `last`
      subst hxl
      cases Walk.tail_of_append hc with
      | step _ hnil =>
        cases hnil with
        | done hend =>
          rw [hs.fatIndex_eq (hc.inRange (x := x) (by simp))] at hend
          exact .inr hend
    · simp only [Own.setFat]
      rw [setFat_of_ne _ _ hxl, setFat_copies_of_ne _ _ hxl]
      exact hg.links x hx
  · rintro e t' o' ⟨ht', he, -⟩
    exact ⟨ht', he⟩

theorem freeChain_safe {start : Nat} {t : FatTable} {o : Own} (ht : HintOk fs t)
    (hc : Chain fs o.vol start l) (hsub : ∀ x ∈ l, o.cells x) (hgot : shared → ∀ c ∈ l, c ∉ o.got) :
    (localProtocol fs shared).SafeM (fs.freeChain start) t o fun r t' o' =>
      r = .ok () ∧ HintOk fs t' ∧ o' = o.dropAll l :=
  Protocol.SafeM.bind (readChain_safe hs hc hsub (freeAll_safe hs ht hc.nodup hsub hgot))

theorem truncateChain_safe {start keep : Nat} {t : FatTable} {o : Own} (hk : 0 < keep)
    (ht : HintOk fs t) (hc : Chain fs o.vol start l) (hsub : ∀ x ∈ l, o.cells x)
    (hgot : shared → ∀ c ∈ l, c ∉ o.got) :
    (localProtocol fs shared).SafeM (fs.truncateChain start keep) t o fun r t' o' =>
      r = .ok () ∧ HintOk fs t' ∧ Chain fs o'.vol start (l.take keep) ∧
        o' = { o.dropAll (l.drop keep) with vol := o'.vol } ∧ o'.vol.data = o.vol.data := by
  refine .bind (readChain_safe hs hc hsub ?_)
  by_cases hkeep : keep ≥ l.length
  · simp only [if_pos hkeep]
    refine .pure ⟨rfl, ht, ?_, ?_, rfl⟩
    · rwa [take_of_length_le hkeep]
    · rw [drop_of_length_le hkeep, Own.dropAll_nil]
  · simp only [if_neg hkeep, if_neg (Nat.ne_of_gt hk)]
    obtain ⟨k, rfl⟩ : ∃ k, keep = k + 1 := ⟨keep - 1, by omega⟩
    have hlt : k < l.length := by omega
    have hsplit : l = l.take k ++ l[k] :: l.drop (k + 1) := by
      rw [← drop_eq_getElem_cons hlt, take_append_drop]
    have htake : l.take (k + 1) = l.take k ++ [l[k]] := by
      rw [take_add_one, getElem?_eq_getElem hlt]
      rfl
    have hz : l[k] ∈ l := getElem_mem hlt
    have hgetD : l.getD (k + 1 - 1) 0 = l[k] := by
      rw [Nat.add_sub_cancel, List.getD, getElem?_eq_getElem hlt]
      rfl
    rw [hgetD]
    refine .bind (writeEntry_safe hs (hsub _ hz) (by decide) (by decide) ?_)
    have hfree := @freeAll_safe _ shared hs (l.drop (k + 1)) _ (o.setFat l[k] fatEoc)
      ht (hc.nodup.sublist (drop_sublist _ _))
      (fun x hx => hsub x (mem_of_mem_drop hx))
      (fun hsh x hx => hgot hsh x (mem_of_mem_drop hx))
    refine hfree.mono ?_
    rintro r t' o' ⟨rfl, ht', rfl⟩
    refine ⟨rfl, ht', ?_, rfl, rfl⟩
    rw [htake]
    rw [hsplit] at hc
    refine hc.splice (fun x hx => ?_) ?_
    · have hne : x ≠ l[k] := by
        rintro rfl
        exact (disjoint_of_nodup_append hc.nodup) hx mem_cons_self
      rw [hs.fatIndex_eq (hc.inRange (mem_append_left _ hx))]
      exact setFat_of_ne _ _ hne
    · refine .done ?_
      rw [hs.fatIndex_eq (hc.inRange (x := l[k]) (by simp))]
      change fatEocMin ≤ (o.vol.setFat l[k] fatEoc).fat l[k]
      rw [setFat_self]
      decide

end

/-! ## Files -/

/-- The operation owns exactly the clusters of the file, which form a chain from `start`; a file
with a start cluster below 2 has none. -/
structure FileIn (fs : Fat32FileSystem) (o : Own) (start : Nat) (l : List Nat) : Prop where
  chain : 2 ≤ start → Chain fs o.vol start l
  empty : start < 2 → l = []
  cells : ∀ x, o.cells x ↔ x ∈ l
  lengths : ∀ x ∈ l, (o.vol.data x).length = fs.boot.clusterSize

/-- The bytes of the clusters `l`. -/
def Vol.content (v : Vol) (l : List Nat) : Bytes := l.flatMap v.data

theorem Vol.content_append (v : Vol) (l l' : List Nat) :
    v.content (l ++ l') = v.content l ++ v.content l' := flatMap_append

variable {v : Vol}

theorem Vol.content_congr {v' : Vol} (h : ∀ x ∈ l, v'.data x = v.data x) :
    v'.content l = v.content l := flatMap_congr h

theorem Vol.content_length : ∀ {l : List Nat}, (∀ x ∈ l, (v.data x).length = fs.boot.clusterSize) →
    (v.content l).length = l.length * fs.boot.clusterSize
  | [], _ => by simp [content]
  | c :: l, h => by
    have ih := content_length fun x hx => h x (mem_cons_of_mem c hx)
    unfold content at ih ⊢
    rw [flatMap_cons, length_append, ih, h c mem_cons_self, length_cons, Nat.succ_mul, Nat.add_comm]

theorem onFat_safe {α : Type} {e : VfsError} {m : FatOp α} {t : FileOp}
    {Q : Except (Fault VfsError) α → FileOp → Own → Prop}
    (h : (localProtocol fs shared).SafeM m t.fat o fun r fat o' => Q (r.mapError fun _ => .err e)
        { t with fat := fat } o') : (localProtocol fs shared).SafeM (onFat e m) t o Q :=
  Protocol.SafeM.zoom (.mapErr h)

section

variable (hs : SmallVolume fs) {t : FileOp} {o : Own}
include hs

theorem writeLoop_safe {t : FileOp} : ∀ {cs : List Nat} {offset : Nat} {buf : Bytes} {o : Own},
    (∀ c ∈ cs, o.cells c) → cs.Nodup → (∀ c ∈ cs, (o.vol.data c).length = fs.boot.clusterSize) →
    offset ≤ fs.boot.clusterSize →
    (localProtocol fs shared).SafeM (writeLoop fs cs offset buf) t o fun r t' o' =>
      (∃ n, r = .ok n) ∧ t' = t ∧ o' = { o with vol := o'.vol } ∧
        (o'.vol.fat = o.vol.fat ∧ o'.vol.copies = o.vol.copies) ∧
        (∀ x, x ∉ cs → o'.vol.data x = o.vol.data x) ∧
        (∀ c ∈ cs, (o'.vol.data c).length = fs.boot.clusterSize) ∧
        (offset + buf.length ≤ cs.length * fs.boot.clusterSize →
          r = .ok buf.length ∧ o'.vol.content cs = splice (o.vol.content cs) offset buf)
  | [], offset, buf, o, _, _, _, _ => by
    refine .pure ⟨⟨0, rfl⟩, rfl, rfl, ⟨rfl, rfl⟩, fun _ _ => rfl, by simp, fun hle => ?_⟩
    obtain rfl : buf = [] := eq_nil_of_length_eq_zero (by
      rw [length_nil, Nat.zero_mul] at hle
      omega)
    exact ⟨rfl, by simp⟩
  | c :: cs, offset, buf, o, hcells, hnd, hlen, hoff => by
    obtain ⟨hc, hnd⟩ := nodup_cons.mp hnd
    have hclen := hlen c mem_cons_self
    unfold writeLoop
    by_cases hb : buf = []
    · subst hb
      rw [if_pos rfl]
      exact .pure ⟨⟨0, rfl⟩, rfl, rfl, ⟨rfl, rfl⟩, fun _ _ => rfl, hlen,
        fun _ => ⟨rfl, by rw [splice_nil]⟩⟩
    rw [if_neg hb]
    have htake : buf.take (min (fs.boot.clusterSize - offset) buf.length) =
        buf.take (fs.boot.clusterSize - offset) := by
      rw [← take_take, take_length]
    have hdrop : buf.drop (min (fs.boot.clusterSize - offset) buf.length) =
        buf.drop (fs.boot.clusterSize - offset) := by
      rcases Nat.le_total (fs.boot.clusterSize - offset) buf.length with h | h
      · rw [Nat.min_eq_left h]
      · rw [Nat.min_eq_right h, drop_length, drop_of_length_le h]
    simp only [htake, hdrop]
    have hfit : offset + (buf.take (fs.boot.clusterSize - offset)).length ≤
        (o.vol.data c).length := by
      rw [length_take, hclen]
      omega
    have hslen : (splice (o.vol.data c) offset (buf.take (fs.boot.clusterSize - offset))).length =
        fs.boot.clusterSize := by
      rw [splice_length hfit, hclen]
    have hne : ∀ x ∈ cs, x ≠ c := fun x hx heq => hc (heq ▸ hx)
    refine .bind (readCluster_safe (hcells c mem_cons_self) ?_)
    refine .bind (writeCluster_safe hs (hcells c mem_cons_self) hslen ?_)
    have ih := @writeLoop_safe t cs 0 (buf.drop (fs.boot.clusterSize - offset))
      (o.setData c (splice (o.vol.data c) offset (buf.take (fs.boot.clusterSize - offset))))
      (fun x hx => hcells x (mem_cons_of_mem c hx)) hnd
      (fun x hx => by
        change ((o.vol.setData c _).data x).length = _
        rw [setData_of_ne _ _ (hne x hx)]
        exact hlen x (mem_cons_of_mem c hx))
      (Nat.zero_le _)
    refine .bind_of ih ?_ (fun e t' o' h => by obtain ⟨_, h⟩ := h.1; cases h)
    rintro n t' o' ⟨-, rfl, ho', hfat, hother, hlen', hdone⟩
    have hself : o'.vol.data c = splice (o.vol.data c) offset
        (buf.take (fs.boot.clusterSize - offset)) := (hother c hc).trans (setData_self ..)
    have hrest : (o.vol.setData c (splice (o.vol.data c) offset
        (buf.take (fs.boot.clusterSize - offset)))).content cs = o.vol.content cs :=
      content_congr fun x hx => setData_of_ne _ _ (hne x hx)
    refine .pure ⟨⟨_, rfl⟩, rfl, ho', hfat, fun x hx => ?_, fun x hx => ?_, fun hle => ?_⟩
    · rw [mem_cons, not_or] at hx
      exact (hother x hx.2).trans (setData_of_ne _ _ hx.1)
    · rcases mem_cons.mp hx with rfl | hx
      · rw [hself, hslen]
      · exact hlen' x hx
    · obtain ⟨hn, hcont⟩ := hdone (by
        rw [length_cons, Nat.succ_mul] at hle
        rw [length_drop]
        omega)
      cases hn
      refine ⟨by congr 1; rw [length_drop]; omega, ?_⟩
      change o'.vol.content ([c] ++ cs) = splice (o.vol.content ([c] ++ cs)) offset buf
      rw [content_append, content_append, hcont]
      simp only [content, flatMap_singleton] at hrest ⊢
      rw [hself, splice_append (by omega), hclen]
      congr 2

theorem ensureStart_safe (ht : HintOk fs t.fat) (hf : FileIn fs o t.startCluster l) :
    (localProtocol fs shared).SafeM (ensureStart fs) t o fun r t' o' =>
      Extends o o' ∧ HintOk fs t'.fat ∧ t'.size = t.size ∧ match r with
        | .ok _ => ∃ l', FileIn fs o' t'.startCluster l' ∧ 2 ≤ t'.startCluster ∧ l <+: l' ∧
            (2 ≤ t.startCluster → t'.startCluster = t.startCluster) ∧
            (l' = [] → 2 ≤ t.startCluster) ∧ Gained o o'
        | .error e => e = .err .noSpace := by
  unfold ensureStart
  refine .bind (.get ?_)
  by_cases hstart : t.startCluster < 2
  · simp only [if_pos hstart]
    obtain rfl := hf.empty hstart
    refine .bind (onFat_safe (allocCall_safe hs ht ?_ ?_))
    · intro c bs es fat' hr hnc hlen ht'
      have hgrown : Grown fs o (o.take c bs es) ([] ++ [c]) := (Grown.refl o).take hr hnc hlen
      have hchain : Chain fs (o.take c bs es).vol c [c] := chain_take hs hr
      refine .bind (.get (.set ?_))
      refine ⟨hgrown.toExtends, ht', rfl, [c], ⟨fun _ => hchain, fun h => ?_, fun x => ?_, ?_⟩,
        hr.1, nil_prefix, fun h => ?_, nofun, hgrown.gained⟩
      · exact absurd hr.1 (by simpa using h)
      · rw [hgrown.cells_iff x, hf.cells x]
        simp
      · exact hgrown.lengths
      · omega
    · intro _
      exact ⟨Extends.refl o, ht, rfl, rfl⟩
  · simp only [if_neg hstart]
    exact .pure ⟨Extends.refl o, ht, rfl, l, hf, by omega, prefix_refl l,
      fun _ => rfl, fun _ => by omega, fun _ h => .inl h⟩

theorem ensureChain_safe {required : Nat} (ht : HintOk fs t.fat) (hf : FileIn fs o t.startCluster l)
    (hstart : 2 ≤ t.startCluster) :
    (localProtocol fs shared).SafeM (ensureChain fs required) t o fun r t' o' =>
      HintOk fs t'.fat ∧ t'.size = t.size ∧ t'.startCluster = t.startCluster ∧ match r with
        | .ok l' => Carries o o' ∧ FileIn fs o' t.startCluster l' ∧ l <+: l' ∧
            required ≤ l'.length ∧ Gained o o'
        | .error e => Extends o o' ∧ (e = .err .noSpace ∨ e = .panic ∧ l = []) := by
  have hc := hf.chain hstart
  have hsub : ∀ x ∈ l, o.cells x := fun x hx => (hf.cells x).mpr hx
  unfold ensureChain
  refine .bind (.get ?_)
  refine .bind (onFat_safe (readChain_safe hs hc hsub ?_))
  by_cases hreq : required > l.length
  · simp only [Except.mapError, if_pos hreq]
    rcases eq_nil_or_concat l with rfl | ⟨pre, last, rfl⟩
    · exact .throw ⟨ht, rfl, rfl, Extends.refl o, .inr ⟨rfl, rfl⟩⟩
    · simp only [concat_eq_append] at hc hsub hreq hf ⊢
      rw [getLast?_concat]
      have hext := @extendChain_safe _ shared hs (required - (pre ++ [last]).length) _ _ _ _ _
        (by omega) ht hc hsub
      refine .bind (onFat_safe (hext.mono ?_))
      rintro (e | ns) t' o' ⟨ht', h⟩
      · exact ⟨ht', rfl, rfl, h, .inl rfl⟩
      · obtain ⟨hlen, hcar, hchain, hcells, hlens, hgot⟩ := h
        refine .pure ⟨ht', rfl, rfl, hcar, ⟨fun _ => hchain, fun h => by omega,
          fun x => ?_, fun x hx => ?_⟩, prefix_append _ _, ?_, hgot⟩
        · rw [hcells x, hf.cells x, mem_append (t := ns)]
          tauto
        · rcases mem_append.mp hx with hx | hx
          · rw [hcar.data x (hsub x hx)]
            exact hf.lengths x hx
          · exact hlens x hx
        · rw [length_append, hlen]
          omega
  · simp only [Except.mapError, if_neg hreq]
    exact .pure ⟨ht, rfl, rfl, Carries.refl o, hf, prefix_refl l, by omega,
      fun _ h => .inl h⟩

theorem grow_safe {α : Type} {required : Nat} {k : List Nat → FileM α}
    {Q : Except (Fault VfsError) α → FileOp → Own → Prop} (ht : HintOk fs t.fat)
    (hf : FileIn fs o t.startCluster l)
    (hok : ∀ l' t' o',
        HintOk fs t'.fat → t'.size = t.size → Carries o o' → FileIn fs o' t'.startCluster l' →
        2 ≤ t'.startCluster → l <+: l' → required ≤ l'.length →
        (2 ≤ t.startCluster ∨ l' = [] → t'.startCluster = t.startCluster) → Gained o o' →
        (localProtocol fs shared).SafeM (k l') t' o' Q)
    (herr :
      ∀ e t' o', Extends o o' → (e = .err .noSpace ∨ e = .panic ∧ fatEocMin ≤ t.startCluster) →
        Q (.error e) t' o') :
    (localProtocol fs shared).SafeM (ensureStart fs >>= fun _ => ensureChain fs required >>= k) t o
      Q := by
  refine .bind_of (ensureStart_safe hs ht hf) ?_ ?_
  · rintro _ t1 o1 ⟨hext, ht1, hsize, l1, hf1, hstart, hpre, hsame, hnil, hgot⟩
    refine .bind_of (ensureChain_safe hs ht1 hf1 hstart) ?_ ?_
    · rintro l' t' o' ⟨ht', hsize', hstart', hcar, hf', hpre', hreq, hgot'⟩
      refine hok l' t' o' ht' (hsize'.trans hsize) (hext.toCarries.trans hcar) ?_ ?_
        (hpre.trans hpre') hreq (fun h => hstart'.trans (hsame (h.elim id fun hl => hnil ?_)))
        (hgot.trans hcar hgot')
      · rwa [hstart']
      · rwa [hstart']
      · rw [hl] at hpre'
        exact prefix_nil.1 hpre'
    · rintro e t' o' ⟨-, -, -, hext', he⟩
      refine herr e t' o' (hext.trans hext') (he.imp id fun ⟨h1, h2⟩ => ⟨h1, ?_⟩)
      subst h2
      have h2 := hnil rfl
      have hchain := hf1.chain hstart
      rw [hsame h2] at hchain
      cases hchain with
      | done h => exact h
  · rintro e t' o' ⟨hext, -, -, he⟩
    exact herr e t' o' hext (.inl he)

end

structure AtSlot (fs : Fat32FileSystem) (f : Fat32File) (o : Own) : Prop where
  dir : f.parentCluster = o.dir
  avoid : o.avoid = []
  slot : ∃ i s, f.entryOffset = i * 32 ∧ (slotsOf fs o.dirChain)[i]? = some s ∧ o.slot = some s

variable {f : Fat32File}

theorem AtSlot.same (h : AtSlot fs f o) (hc : SamePlace o o1) : AtSlot fs f o1 := by
  obtain ⟨i, s, h1, h2, h3⟩ := h.slot
  exact ⟨h.dir.trans hc.dir.symm, hc.avoid.trans h.avoid, i, s, h1, by rwa [hc.dirChain],
    hc.slot.trans h3⟩

theorem AtSlot.update_safe (h : AtSlot fs f o) {σ : Type} {t : σ} (newCluster newSize : Nat)
    {Q : Except (Fault VfsError) Unit → σ → Own → Prop}
    (hq : Q (.ok ()) t (o.setEntry (o.entry.relocate newCluster newSize))) :
    (localProtocol fs shared).SafeM (vfsCall (f.updateDirEntry fs newCluster newSize)) t o Q := by
  obtain ⟨i, s, h1, h2, h3⟩ := h.slot
  exact updateDirEntry_safe h3 h.avoid h2 h.dir h1 newCluster newSize hq

/-- What an operation on a file that succeeds leaves: the clusters `l'` of the file, and an entry
with its start cluster and size. -/
structure Stored (fs : Fat32FileSystem) (o o' : Own) (t' : FileOp) (l' : List Nat) : Prop where
  dir : o'.dir = o.dir
  dirChain : o'.dirChain = o.dirChain
  slot : o'.slot = o.slot
  entry : o'.entry = o.entry.relocate t'.startCluster t'.size
  file : FileIn fs o' t'.startCluster l'
  gained : Gained o o'

/-- What an operation on a file that fails leaves, and why it fails. -/
def Untouched (o : Own) (t : FileOp) (e : Fault VfsError) (o' : Own) : Prop :=
  Extends o o' ∧ (e = .err .noSpace ∨ e = .panic ∧ fatEocMin ≤ t.startCluster)

/-- The size, of 32 bits, after a write that ends at `endOffset`. -/
def sizeAfter (size endOffset : Nat) : Nat :=
  if endOffset > size then endOffset % 2 ^ 32 else size

/-- The outcome of `write` on a file with the clusters `l`, wherever the write ends. -/
def WriteStored (fs : Fat32FileSystem) (o : Own) (t : FileOp) (l : List Nat) (offset : Nat)
    (buf : Bytes) : Except (Fault VfsError) Nat → FileOp → Own → Prop
  | .ok n, t', o' => t'.size = sizeAfter t.size ((offset + buf.length) % 2 ^ 64) ∧
      ∃ l' junk, Stored fs o o' t' l' ∧ l <+: l' ∧
        (2 ≤ t.startCluster ∨ l' = [] → t'.startCluster = t.startCluster) ∧ Links o o' ∧
        (offset + buf.length < 2 ^ 63 → n = buf.length ∧
          offset + buf.length ≤ l'.length * fs.boot.clusterSize ∧
          o'.vol.content l' = splice (o.vol.content l ++ junk) offset buf)
  | .error e, _, o' => Untouched o t e o'

/-- The outcome of `write` on a file with the clusters `l`. -/
def WriteDone (fs : Fat32FileSystem) (o : Own) (t : FileOp) (l : List Nat) (offset : Nat)
    (buf : Bytes) : Except (Fault VfsError) Nat → FileOp → Own → Prop
  | .ok n, t', o' => n = buf.length ∧ t'.size = max t.size (offset + buf.length) ∧
      ∃ l' junk, Stored fs o o' t' l' ∧ l <+: l' ∧ Links o o' ∧
        offset + buf.length ≤ l'.length * fs.boot.clusterSize ∧
        o'.vol.content l' = splice (o.vol.content l ++ junk) offset buf
  | .error e, _, o' => Untouched o t e o'

/-- The outcome of `truncate` on a file with the clusters `l`. -/
def TruncateDone (fs : Fat32FileSystem) (o : Own) (t : FileOp) (l : List Nat) (newSize : Nat) :
    Except (Fault VfsError) Unit → FileOp → Own → Prop
  | .ok _, t', o' => t'.size = newSize ∧ (newSize = 0 → t'.startCluster < 2) ∧
      ∃ l', Stored fs o o' t' l' ∧
      (t.size ≤ l.length * fs.boot.clusterSize → newSize ≤ l'.length * fs.boot.clusterSize ∧
        (o'.vol.content l').take (min t.size newSize) = (o.vol.content l).take (min t.size newSize))
  | .error e, _, o' => Untouched o t e o'

theorem Carries.content_eq {ns : List Nat} (h : Carries o o1) (hl : ∀ x ∈ l, o.cells x) :
    o1.vol.content (l ++ ns) = o.vol.content l ++ o1.vol.content ns := by
  rw [content_append, content_congr fun x hx => h.data x (hl x hx)]

theorem content_of_loop {offset : Nat} {buf : Bytes}
    (hlen : ∀ x ∈ l, (o.vol.data x).length = fs.boot.clusterSize) (hnd : l.Nodup)
    (hk : offset / fs.boot.clusterSize ≤ l.length)
    (hother : ∀ x, x ∉ l.drop (offset / fs.boot.clusterSize) → o1.vol.data x = o.vol.data x)
    (hloop : o1.vol.content (l.drop (offset / fs.boot.clusterSize)) =
        splice (o.vol.content (l.drop (offset / fs.boot.clusterSize)))
          (offset % fs.boot.clusterSize) buf) :
    o1.vol.content l = splice (o.vol.content l) offset buf := by
  generalize hkdef : offset / fs.boot.clusterSize = k at *
  have hcat : ∀ v : Vol, v.content l = v.content (l.take k) ++ v.content (l.drop k) := fun v => by
    rw [← content_append, take_append_drop]
  have hdisj : ∀ x ∈ l.take k, x ∉ l.drop k := by
    intro x hx hx'
    rw [← take_append_drop k l] at hnd
    exact disjoint_of_nodup_append hnd hx hx'
  have hfront : (o.vol.content (l.take k)).length = k * fs.boot.clusterSize := by
    rw [content_length fun x hx => hlen x (mem_of_mem_take hx), length_take,
      Nat.min_eq_left hk]
  have hoff : offset = k * fs.boot.clusterSize + offset % fs.boot.clusterSize := by
    rw [← hkdef, Nat.mul_comm, Nat.div_add_mod]
  rw [hcat, hcat o.vol, hloop, content_congr fun x hx => hother x (hdisj x hx),
    splice_append_right (by omega), hfront]
  congr 2
  omega

theorem content_take {keep n : Nat} (hlen : ∀ x ∈ l, (v.data x).length = fs.boot.clusterSize)
    (hn : n ≤ keep * fs.boot.clusterSize) :
    (v.content (l.take keep)).take n = (v.content l).take n := by
  rcases Nat.le_total keep l.length with h | h
  · have hcat : v.content l = v.content (l.take keep) ++ v.content (l.drop keep) := by
      rw [← content_append, take_append_drop]
    have hfront : (v.content (l.take keep)).length = keep * fs.boot.clusterSize := by
      rw [content_length fun x hx => hlen x (mem_of_mem_take hx), length_take,
        Nat.min_eq_left h]
    rw [hcat, take_append_of_le_length (by omega)]
  · rw [take_of_length_le h]

theorem FileIn.take {start keep : Nat} (hf : FileIn fs o start l) (hstart : 2 ≤ start)
    (hchain : Chain fs o1.vol start (l.take keep))
    (ho1 : o1 = { o.dropAll (l.drop keep) with vol := o1.vol }) (hdata : o1.vol.data = o.vol.data) :
    FileIn fs o1 start (l.take keep) := by
  have hnd := (hf.chain hstart).nodup
  rw [← take_append_drop keep l] at hnd
  refine ⟨fun _ => hchain, fun h => absurd h (Nat.not_lt.2 hstart), fun x => ?_, fun x hx => ?_⟩
  · rw [ho1]
    change x ∉ l.drop keep ∧ o.cells x ↔ _
    rw [hf.cells x]
    constructor
    · rintro ⟨h1, h2⟩
      rw [← take_append_drop keep l, mem_append] at h2
      exact h2.resolve_right h1
    · exact fun h => ⟨fun h' => disjoint_of_nodup_append hnd h h', mem_of_mem_take h⟩
  · rw [hdata]
    exact hf.lengths x (mem_of_mem_take hx)

theorem truncate_finish {t t1 : FileOp} {newSize : Nat} (l1 : List Nat) (hat : AtSlot fs f o)
    (hsame : SamePlace o o1) (hgot : Gained o o1) (hf : FileIn fs o1 t1.startCluster l1)
    (hsize : t1.size = newSize) (hzero : newSize = 0 → t1.startCluster < 2)
    (hfit : t.size ≤ l.length * fs.boot.clusterSize → newSize ≤ l1.length * fs.boot.clusterSize ∧
      (o1.vol.content l1).take (min t.size newSize) =
        (o.vol.content l).take (min t.size newSize)) :
    (localProtocol fs shared).SafeM (do
      let s ← ProgM.get
      vfsCall (f.updateDirEntry fs s.startCluster s.size) : FileM Unit) t1 o1
      (TruncateDone fs o t l newSize) := by
  refine .bind (.get ((hat.same hsame).update_safe _ _ ?_))
  refine ⟨hsize, hzero, l1, ⟨hsame.dir, hsame.dirChain, hsame.slot, ?_, ?_, hgot⟩, hfit⟩
  · rw [← hsame.entry]
    rfl
  · exact ⟨hf.chain, hf.empty, hf.cells, hf.lengths⟩

section

variable (hs : SmallVolume fs) {f : Fat32File} {t : FileOp}
include hs

theorem write_stores {offset : Nat} {buf : Bytes} (ht : HintOk fs t.fat)
    (hf : FileIn fs o t.startCluster l) (hat : AtSlot fs f o) (hbuf : buf ≠ []) :
    (localProtocol fs shared).SafeM (f.write fs offset buf) t o
      (WriteStored fs o t l offset buf) := by
  have hpos := clusterSize_pos fs
  unfold write
  rw [if_neg (by simpa using hbuf)]
  refine grow_safe hs ht hf ?_ fun e t' o' h1 h2 => ⟨h1, h2⟩
  rintro l' t1 o1 ht1 hsize hcar hf1 hstart ⟨ns, rfl⟩ hreq hkept hgot
  have hc := hf1.chain hstart
  have hfit : offset + buf.length < 2 ^ 63 →
      offset + buf.length ≤ (l ++ ns).length * fs.boot.clusterSize := fun hlt => by
    rw [Nat.mod_eq_of_lt (a := offset + buf.length) (by omega)] at hreq
    exact (clustersFor_le_iff hlt).mp hreq
  have hloop := @writeLoop_safe _ shared hs t1 ((l ++ ns).drop (offset / fs.boot.clusterSize))
    (offset % fs.boot.clusterSize) buf o1
    (fun x hx => (hf1.cells x).mpr (mem_of_mem_drop hx))
    (hc.nodup.sublist (drop_sublist _ _))
    (fun x hx => hf1.lengths x (mem_of_mem_drop hx)) (Nat.le_of_lt (Nat.mod_lt _ hpos))
  refine .bind_of hloop ?_ fun e t' o' h => by obtain ⟨_, h⟩ := h.1; cases h
  rintro n t2 o2 ⟨-, rfl, ho2, hfat, hother, hlens, hdone⟩
  have hjunk := @Carries.content_eq _ _ _ ns hcar fun x hx => (hf.cells x).mpr hx
  have hcont' : offset + buf.length < 2 ^ 63 → n = buf.length ∧
      offset + buf.length ≤ (l ++ ns).length * fs.boot.clusterSize ∧
      o2.vol.content (l ++ ns) = splice (o.vol.content l ++ o1.vol.content ns) offset buf := by
    intro hlt
    have hle := hfit hlt
    have hk : offset / fs.boot.clusterSize < (l ++ ns).length := by
      have hbl : 0 < buf.length := length_pos_of_ne_nil hbuf
      rw [Nat.div_lt_iff_lt_mul hpos]
      omega
    obtain ⟨hn, hcont⟩ := hdone (by
      have hdm := Nat.div_add_mod offset fs.boot.clusterSize
      rw [Nat.mul_comm] at hdm
      rw [length_drop, Nat.sub_mul]
      omega)
    rw [← hjunk]
    exact ⟨Except.ok.inj hn, hle,
      content_of_loop hf1.lengths hc.nodup (Nat.le_of_lt hk) hother hcont⟩
  have hsame : SamePlace o o2 := by
    rw [ho2]
    exact ⟨hcar.dir, hcar.dirChain, hcar.slot, hcar.avoid, hcar.entry⟩
  have hlinks : Links o o2 := fun x hx => by
    rw [hfat.1, hfat.2]
    exact hcar.links x hx
  have hf2 : FileIn fs o2 t2.startCluster (l ++ ns) := by
    refine ⟨fun _ => hc.congr fun x _ => by rw [hfat.1], fun h => by omega, fun x => ?_, fun x hx => ?_⟩
    · rw [ho2]
      exact hf1.cells x
    · by_cases hx' : x ∈ (l ++ ns).drop (offset / fs.boot.clusterSize)
      · exact hlens x hx'
      · rw [hother x hx']
        exact hf1.lengths x hx
  have hfinish : ∀ t3 : FileOp, t3.startCluster = t2.startCluster →
      t3.size = sizeAfter t.size ((offset + buf.length) % 2 ^ 64) →
      (localProtocol fs shared).SafeM (do
        let s ← ProgM.get
        vfsCall (f.updateDirEntry fs s.startCluster s.size)
        pure n : FileM Nat) t3 o2 (WriteStored fs o t l offset buf) := by
    intro t3 h1 h2
    refine .bind (.get ?_)
    refine .bind ((hat.same hsame).update_safe _ _ (.pure ?_))
    refine ⟨h2, l ++ ns, o1.vol.content ns, ⟨hsame.dir, hsame.dirChain, hsame.slot,
      ?_, ?_, ?_⟩, prefix_append _ _, fun h => h1.trans (hkept h), hlinks, hcont'⟩
    · rw [← hsame.entry]
      rfl
    · rw [h1]
      exact ⟨hf2.chain, hf2.empty, hf2.cells, hf2.lengths⟩
    · rw [ho2]
      exact hgot
  refine .bind (.get ?_)
  by_cases hgt : (offset + buf.length) % 2 ^ 64 > t2.size
  · simp only [if_pos hgt]
    refine .bind (.bind (.get (.set ?_)))
    refine hfinish _ rfl ?_
    rw [sizeAfter, ← hsize, if_pos hgt]
  · simp only [if_neg hgt]
    refine hfinish t2 rfl ?_
    rw [sizeAfter, ← hsize, if_neg hgt]

/-- **`write`.** It writes all of the buffer and stores the new size and start cluster, or it fails
for want of space and leaves the file alone. A start cluster in the end-of-chain range panics. -/
theorem write_safe {offset : Nat} {buf : Bytes} (ht : HintOk fs t.fat)
    (hf : FileIn fs o t.startCluster l) (hat : AtSlot fs f o) (hbuf : buf ≠ [])
    (hend : offset + buf.length < 2 ^ 32) :
    (localProtocol fs shared).SafeM (f.write fs offset buf) t o (WriteDone fs o t l offset buf) := by
  refine .mono (write_stores hs ht hf hat hbuf) ?_
  rintro (e | n) t' o' hq
  · exact hq
  · obtain ⟨hsize, l', junk, hst, hpre, -, hlinks, hrest⟩ := hq
    obtain ⟨hn, hfit, hcont⟩ := hrest (by omega)
    refine ⟨hn, ?_, l', junk, hst, hpre, hlinks, hfit, hcont⟩
    rw [hsize, sizeAfter, Nat.mod_eq_of_lt (a := offset + buf.length) (by omega),
      Nat.mod_eq_of_lt hend]
    split <;> omega

/-- **`truncate`.** It sets the size, keeps the bytes below both sizes and stores the new size and
start cluster, or it fails for want of space and leaves the file alone. -/
theorem truncate_safe {newSize : Nat} (ht : HintOk fs t.fat) (hf : FileIn fs o t.startCluster l)
    (hat : AtSlot fs f o) (hnew : newSize < 2 ^ 32) (hgot : shared → o.got = []) :
    (localProtocol fs shared).SafeM (f.truncate fs newSize) t o
      (TruncateDone fs o t l newSize) := by
  have hsub : ∀ x ∈ l, o.cells x := fun x hx => (hf.cells x).mpr hx
  have hng : shared → ∀ c ∈ l, c ∉ o.got := fun hsh c _ => by simp [hgot hsh]
  unfold truncate
  simp only [Nat.mod_eq_of_lt hnew]
  refine .bind (.get ?_)
  by_cases hzero : newSize = 0
  · simp only [if_pos hzero]
    subst hzero
    by_cases hstart : t.startCluster ≥ 2
    · -- all clusters are given back
      simp only [if_pos hstart]
      have hfree := @freeChain_safe _ shared _ hs _ _ _ ht (hf.chain hstart) hsub hng
      refine .bind (onFat_safe (hfree.mono ?_))
      rintro r fat o1 ⟨rfl, ht', rfl⟩
      refine .bind (.bind (.get (.set ?_)))
      refine .bind (.bind (.get (.set ?_)))
      refine truncate_finish [] hat ⟨rfl, rfl, rfl, rfl, rfl⟩ (fun _ h => .inl h)
        ⟨fun h => ?_, fun _ => rfl, fun x => ?_, by simp⟩ rfl (fun _ => Nat.zero_lt_two)
        (fun _ => ⟨Nat.zero_le _, by simp⟩)
      · exact absurd h (by simp)
      · simp only [Own.dropAll, hf.cells x, not_mem_nil, iff_false]
        tauto
    · simp only [if_neg hstart]
      refine .bind (.bind (.get (.set ?_)))
      exact truncate_finish _ hat ⟨rfl, rfl, rfl, rfl, rfl⟩ (fun _ h => .inl h) hf rfl
        (fun _ => Nat.not_le.1 hstart) (fun _ => ⟨Nat.zero_le _, by simp⟩)
  simp only [if_neg hzero]
  by_cases hlt : newSize < t.size
  · simp only [if_pos hlt]
    have hmin : min t.size newSize = newSize := by omega
    by_cases hstart : t.startCluster ≥ 2
    · -- the clusters behind the new size are given back
      simp only [if_pos hstart]
      have hc := hf.chain hstart
      have hle : newSize ≤ clustersFor fs newSize * fs.boot.clusterSize :=
        (clustersFor_le_iff (by omega)).mp (Nat.le_refl _)
      have hkeep : 0 < clustersFor fs newSize := by
        by_contra h
        rw [Nat.eq_zero_of_not_pos h] at hle
        omega
      have htrunc := @truncateChain_safe _ shared _ hs _ _ _ _ hkeep ht hc hsub hng
      refine .bind (onFat_safe (htrunc.mono ?_))
      generalize clustersFor fs newSize = keep at hle
      rintro r fat o1 ⟨rfl, ht', hchain, ho1, hdata⟩
      have hcont : o1.vol.content (l.take keep) = o.vol.content (l.take keep) := by
        unfold content
        rw [hdata]
      refine .bind (.bind (.get (.set ?_)))
      refine truncate_finish (l.take keep) hat ?_ ?_ (hf.take hstart hchain ho1 hdata) rfl
        (fun h => absurd h hzero) fun hfit => ⟨?_, ?_⟩
      · rw [ho1]
        exact ⟨rfl, rfl, rfl, rfl, rfl⟩
      · rw [ho1]
        exact fun _ h => .inl h
      · rw [length_take]
        rcases Nat.le_total keep l.length with h | h
        · rw [Nat.min_eq_left h]
          exact hle
        · rw [Nat.min_eq_right h]
          omega
      · rw [hmin, hcont, content_take hf.lengths hle]
    · simp only [if_neg hstart]
      have hnil := hf.empty (by omega)
      subst hnil
      refine .bind (.bind (.get (.set ?_)))
      exact truncate_finish _ hat ⟨rfl, rfl, rfl, rfl, rfl⟩ (fun _ h => .inl h) hf rfl
        (fun h => absurd h hzero) fun h => ⟨by omega, rfl⟩
  simp only [if_neg hlt]
  by_cases hgt : newSize > t.size
  · simp only [if_pos hgt]
    have hmin : min t.size newSize = t.size := by omega
    refine grow_safe hs ht hf ?_ fun e t' o' h1 h2 => ⟨h1, h2⟩
    rintro l' t1 o1 ht1 hsize hcar hf1 hstart ⟨ns, rfl⟩ hreq - hgot
    have hfit := (clustersFor_le_iff (by omega)).mp hreq
    refine .bind (.bind (.get (.set ?_)))
    refine truncate_finish _ hat hcar.toSamePlace hgot hf1 rfl (fun h => absurd h hzero)
      fun hold => ⟨hfit, ?_⟩
    rw [hmin, hcar.content_eq hsub, take_append_of_le_length]
    rwa [content_length hf.lengths]
  · simp only [if_neg hgt]
    have heq : t.size = newSize := by omega
    exact truncate_finish _ hat ⟨rfl, rfl, rfl, rfl, rfl⟩ (fun _ h => .inl h) hf heq
      (fun h => absurd h hzero) fun h => ⟨by omega, rfl⟩

end

end Kerners.Fat32
