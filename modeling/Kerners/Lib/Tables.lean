import Mathlib.Algebra.Group.Nat.Defs
import Mathlib.Data.Set.Lattice
import Mathlib.Order.CompletePartialOrder

/-!
# Translation tables of several levels in memory

Memory is a family of pages, each a function from indices to words. A table is a page; `decode`
says what a word means at a level, counted by the number of levels below it: nothing, the address of
a table of the next level, or the end of the walk. `walk` follows a list of indices.

`Tree mem n t A`: the table at `t` is the root of a tree of at most `n` levels whose tables lie in
the pages `A` and are not shared. `Tree.sub` takes out one subtree and puts another one in its
place, `Tree.set` writes an entry, and `mapAt` goes down a list of indices and writes an entry there,
with a function of the program's own for a level. `mapAt_exact` says what that does to all walks.
-/

namespace Kerners.Lib

open Function

inductive Slot (L : Type*) where
  | invalid
  | table (t : Nat)
  | leaf (l : L)

/-- The words of the pages, by the address of the page and the index in it. -/
abbrev Pages (W : Type*) := Nat → Nat → W

/-- The pages `D` are those of the table behind an entry, and none if there is no table. -/
def Slot.Owns {L : Type*} (P : Nat → Set Nat → Prop) (D : Set Nat) : Slot L → Prop
  | .table t => P t D
  | _ => D = ∅

section

variable {W L : Type*} (decode : Nat → W → Slot L)

def walk (mem : Pages W) : Nat → List Nat → Option (L × List Nat)
  | _, [] => none
  | t, i :: is =>
    match decode is.length (mem t i) with
    | .invalid => none
    | .table t' => walk mem t' is
    | .leaf l => some (l, is)

def setEntry (mem : Pages W) (t i : Nat) (w : W) : Pages W :=
  update mem t (update (mem t) i w)

/-- The tables under `t`, of at most `n` levels, lie in the pages `A`, each in a page of its own;
their words are `ok`. -/
def Tree (ok : Nat → W → Prop) (mem : Pages W) : Nat → Nat → Set Nat → Prop
  | 0, _, _ => False
  | n + 1, t, A => ∃ B : Nat → Set Nat, A = insert t (⋃ i, B i) ∧ (∀ i, t ∉ B i) ∧
      (∀ i j, i ≠ j → Disjoint (B i) (B j)) ∧
      ∀ i, ok n (mem t i) ∧ (decode n (mem t i)).Owns (Tree ok mem n) (B i)

variable {decode} {ok : Nat → W → Prop} {mem mem' : Pages W} {n t i : Nat} {A : Set Nat} {w : W}

theorem setEntry_of_ne {a : Nat} (h : a ≠ t) : setEntry mem t i w a = mem a :=
  update_of_ne h _ _

theorem setEntry_self : setEntry mem t i w t = update (mem t) i w :=
  update_self _ _ _

theorem Tree.congr (h : Tree decode ok mem n t A) (hmem : ∀ a ∈ A, mem' a = mem a) :
    Tree decode ok mem' n t A := by
  induction n generalizing t A with
  | zero => exact h
  | succ n ih =>
    obtain ⟨B, rfl, ht, hd, hi⟩ := h
    refine ⟨B, rfl, ht, hd, fun i => ?_⟩
    obtain ⟨hok, howns⟩ := hi i
    rw [hmem t (Set.mem_insert _ _)]
    refine ⟨hok, ?_⟩
    cases hdec : decode n (mem t i) with
    | table t' =>
      rw [hdec] at howns
      exact ih howns fun a ha =>
        hmem a (Set.mem_insert_of_mem _ (Set.mem_iUnion.mpr ⟨i, ha⟩))
    | invalid => rwa [hdec] at howns
    | leaf l => rwa [hdec] at howns

variable {q : List Nat}

theorem Tree.walk_congr (h : Tree decode ok mem n t A) (hmem : ∀ a ∈ A, mem' a = mem a)
    (hq : q.length = n) : walk decode mem' t q = walk decode mem t q := by
  induction q generalizing n t A with
  | nil => rfl
  | cons i q ih =>
    obtain rfl : n = q.length + 1 := hq.symm
    obtain ⟨B, rfl, -, -, hi⟩ := h
    rw [walk, walk, hmem t (Set.mem_insert _ _)]
    have howns := (hi i).2
    cases hdec : decode q.length (mem t i) with
    | table t' =>
      rw [hdec] at howns
      exact ih howns (fun a ha =>
        hmem a (Set.mem_insert_of_mem _ (Set.mem_iUnion.mpr ⟨i, ha⟩))) rfl
    | invalid => rfl
    | leaf l => rfl

theorem walk_cons_table {t' : Nat} (h : decode q.length (mem t i) = .table t') :
    walk decode mem t (i :: q) = walk decode mem t' q := by
  rw [walk, h]

theorem walk_cons_invalid (h : decode q.length (mem t i) = .invalid) :
    walk decode mem t (i :: q) = none := by
  rw [walk, h]

/-- What replacing the subtree behind entry `i` of the table `t` by one with the pages `C` leaves. -/
structure Replaced (decode : Nat → W → Slot L) (ok : Nat → W → Prop) (mem mem' : Pages W)
    (n t i : Nat) (A : Set Nat) : Prop where
  tree : Tree decode ok mem' (n + 1) t A
  walk_eq : ∀ j q, j ≠ i → q.length = n →
    walk decode mem' t (j :: q) = walk decode mem t (j :: q)

/-- **One entry of a table.** It owns pages `D`, and whatever is put in its place within these and
pages `N` that are not used leaves the rest of the tree as it is. -/
theorem Tree.focus (h : Tree decode ok mem (n + 1) t A) (i : Nat) :
    ∃ D, t ∈ A ∧
      D ⊆ A ∧
      t ∉ D ∧
      ok n (mem t i) ∧
      (decode n (mem t i)).Owns (Tree decode ok mem n) D ∧
      ∀ {mem' : Pages W} {w : W} {C N : Set Nat},
        Disjoint N A → mem' t = update (mem t) i w → (∀ a, a ≠ t → a ∉ D → a ∉ N → mem' a = mem a) →
        ok n w → (decode n w).Owns (Tree decode ok mem' n) C → C ⊆ D ∪ N →
        Replaced decode ok mem mem' n t i (A \ D ∪ C) := by
  obtain ⟨B, rfl, ht, hd, hi⟩ := h
  refine ⟨B i, Set.mem_insert _ _, fun a ha => Set.mem_insert_of_mem _ (Set.mem_iUnion.mpr ⟨i, ha⟩),
    ht i, (hi i).1, (hi i).2, ?_⟩
  intro mem' w C N hN hroot hmem hok howns hC
  have hNt : t ∉ N := fun hm => Set.disjoint_left.mp hN hm (Set.mem_insert _ _)
  have hNB : ∀ {j a}, a ∈ B j → a ∉ N := fun ha hm =>
    Set.disjoint_left.mp hN hm (Set.mem_insert_of_mem _ (Set.mem_iUnion.mpr ⟨_, ha⟩))
  -- the pages behind the other entries are not touched
  have hsame : ∀ j, j ≠ i → ∀ a ∈ B j, mem' a = mem a := fun j hj a ha =>
    hmem a (fun he => ht j (he ▸ ha)) (Set.disjoint_left.mp (hd j i hj) ha) (hNB ha)
  have hword : ∀ j, j ≠ i → mem' t j = mem t j := fun j hj => by
    rw [hroot, update_of_ne hj]
  refine ⟨⟨update B i C, ?_, ?_, ?_, ?_⟩, ?_⟩
  · ext a
    simp only [Set.mem_union, Set.mem_sdiff, Set.mem_insert_iff, Set.mem_iUnion]
    constructor
    · rintro (⟨rfl | ⟨j, hj⟩, hD⟩ | hc)
      · exact .inl rfl
      · refine .inr ⟨j, ?_⟩
        rwa [update_of_ne (fun he : j = i => hD (he ▸ hj))]
      · exact .inr ⟨i, by rwa [update_self]⟩
    · rintro (rfl | ⟨j, hj⟩)
      · exact .inl ⟨.inl rfl, ht i⟩
      · by_cases hji : j = i
        · subst hji
          rw [update_self] at hj
          exact .inr hj
        · rw [update_of_ne hji] at hj
          exact .inl ⟨.inr ⟨j, hj⟩, Set.disjoint_left.mp (hd j i hji) hj⟩
  · intro j
    by_cases hji : j = i
    · subst hji
      rw [update_self]
      exact fun hm => (hC hm).elim (ht j) hNt
    · rw [update_of_ne hji]
      exact ht j
  · have hCB : ∀ j, j ≠ i → Disjoint C (B j) := fun j hj =>
      Set.disjoint_left.mpr fun a ha hb => (hC ha).elim
        (fun hD => Set.disjoint_left.mp (hd j i hj) hb hD) (hNB hb)
    intro j k hjk
    by_cases hji : j = i
    · subst hji
      rw [update_self, update_of_ne (Ne.symm hjk)]
      exact hCB k (Ne.symm hjk)
    · by_cases hki : k = i
      · subst hki
        rw [update_self, update_of_ne hji]
        exact (hCB j hji).symm
      · rw [update_of_ne hji, update_of_ne hki]
        exact hd j k hjk
  · intro j
    by_cases hji : j = i
    · subst hji
      rw [update_self, hroot, update_self]
      exact ⟨hok, howns⟩
    · rw [update_of_ne hji, hword j hji]
      refine ⟨(hi j).1, ?_⟩
      have hsub := (hi j).2
      cases hdec : decode n (mem t j) with
      | table t' =>
        rw [hdec] at hsub
        exact Tree.congr hsub (hsame j hji)
      | invalid => rwa [hdec] at hsub
      | leaf l => rwa [hdec] at hsub
  · rintro j q hji rfl
    rw [walk, walk, hword j hji]
    have hsub := (hi j).2
    cases hdec : decode q.length (mem t j) with
    | table t' =>
      rw [hdec] at hsub
      exact Tree.walk_congr hsub (hsame j hji) rfl
    | invalid => rfl
    | leaf l => rfl

end

/-! ## Going down and writing -/

structure Tables (W : Type*) where
  mem : Pages W
  allocs : Nat

open List

variable {W L ε : Type*} (alloc : Nat → Option Nat)

/-- The frames that the requests from `m` on and before `k` gave. -/
def framesOf (m k : Nat) : Set Nat := { f | ∃ r, m ≤ r ∧ r < k ∧ alloc r = some f }

/-- Go down along the indices with `step`, which finds the next table, and write the entry at the
last of them. -/
def mapAt (step : Nat → Nat → Tables W → Except ε Nat × Tables W) (w : W) :
    List Nat → Nat → Tables W → Except ε Unit × Tables W
  | [], _, s => (.ok (), s)
  | [i], t, s => (.ok (), { s with mem := setEntry s.mem t i w })
  | i :: j :: is, t, s =>
    match step t i s with
    | (.ok t', s') => mapAt step w (j :: is) t' s'
    | (.error e, s') => (.error e, s')

variable (decode : Nat → W → Slot L) (ok : Nat → W → Prop) (zero : W)

/-- What finding the next table behind entry `i` of `t` may do: follow the entry, put a new table of
zeros behind an entry that is not in use, or fail. -/
inductive Went (n t i : Nat) (s : Tables W) : Except ε Nat → Tables W → Prop
  | follow {t' : Nat} (h : decode n (s.mem t i) = .table t') : Went n t i s (.ok t') s
  | create {f : Nat} {w : W} (hent : decode n (s.mem t i) = .invalid)
      (hf : alloc s.allocs = some f) (hw : decode n w = .table f) (hok : ok n w) :
      Went n t i s (.ok f)
        ⟨setEntry (update s.mem f fun _ => zero) t i w, s.allocs + 1⟩
  | fail {e : ε} {k : Nat} (hk : s.allocs ≤ k) : Went n t i s (.error e) ⟨s.mem, k⟩

/-- The entries on the way, the last one apart, have the property `P`. -/
def OnWay (P : Nat → W → Prop) (mem : Pages W) : Nat → Nat → List Nat → Prop
  | n + 1, t, i :: j :: is => P n (mem t i) ∧
      ∀ t', decode n (mem t i) = .table t' → OnWay P mem n t' (j :: is)
  | _, _, _ => True

/-- What a mapping of `l` behind the indices `is` did to the tables under `t`. -/
structure Mapped (s : Tables W) (n t : Nat) (A : Set Nat) (is : List Nat) (l : L)
    (r : Except ε Unit × Tables W) : Prop where
  grows : s.allocs ≤ r.2.allocs
  tree : ∃ A', Tree decode ok r.2.mem n t A' ∧ A' ⊆ A ∪ framesOf alloc s.allocs r.2.allocs
  frame : ∀ a, a ∉ A → a ∉ framesOf alloc s.allocs r.2.allocs → r.2.mem a = s.mem a
  walk_ok : r.1 = .ok () → ∀ q, q.length = n → walk decode r.2.mem t q =
    if is <+: q then some (l, q.drop is.length) else walk decode s.mem t q
  walk_error : ∀ e, r.1 = .error e → ∀ q, q.length = n →
    walk decode r.2.mem t q = walk decode s.mem t q

variable {alloc decode ok zero} {s : Tables W} {n t i : Nat} {A : Set Nat} {w : W} {l : L}

variable {k : Nat}

theorem framesOf_mono {m m' k' : Nat} (hm : m' ≤ m) (hk : k ≤ k') :
    framesOf alloc m k ⊆ framesOf alloc m' k' := by
  rintro f ⟨r, h1, h2, h3⟩
  exact ⟨r, hm.trans h1, h2.trans_le hk, h3⟩

theorem disjoint_framesOf (hinj : ∀ r r' f, alloc r = some f → alloc r' = some f → r = r')
    {m k' : Nat} (hA : A ⊆ framesOf alloc m k) : Disjoint (framesOf alloc k k') A := by
  refine Set.disjoint_left.mpr ?_
  rintro f ⟨r, h1, _, h3⟩ hf
  obtain ⟨r', _, h2', h3'⟩ := hA hf
  have := hinj r r' f h3 h3'
  omega

theorem mapped_last {step : Nat → Nat → Tables W → Except ε Nat × Tables W}
    (htree : Tree decode ok s.mem (n + 1) t A) (hleaf : decode n w = .leaf l) (hok : ok n w) :
    Mapped alloc decode ok s (n + 1) t A [i] l (mapAt step w [i] t s) := by
  obtain ⟨D, htA, hDA, htD, -, -, hput⟩ := htree.focus i
  have hroot : setEntry s.mem t i w t = update (s.mem t) i w := setEntry_self
  have hrep := hput (C := ∅) (N := ∅) (Set.empty_disjoint _) hroot
    (fun a ha _ _ => setEntry_of_ne ha) hok (by rw [hleaf]; rfl) (Set.empty_subset _)
  refine ⟨Nat.le_refl _, ⟨_, hrep.tree, ?_⟩, ?_, ?_, ?_⟩
  · rw [Set.union_empty]
    exact fun a ha => .inl ha.1
  · intro a ha _
    exact setEntry_of_ne fun he => ha (he ▸ htA)
  · intro _ q hq
    obtain ⟨j, q, rfl⟩ := exists_cons_of_length_eq_add_one hq
    obtain rfl : q.length = n := by simpa using hq
    by_cases hji : j = i
    · subst hji
      rw [if_pos (by simp)]
      show walk decode (setEntry s.mem t j w) t (j :: q) = _
      rw [walk, setEntry_self, update_self, hleaf]
      rfl
    · rw [if_neg (by simpa using fun he => hji he.symm)]
      exact hrep.walk_eq j q hji rfl
  · intro e he
    cases he

variable {is : List Nat} {r : Except ε Unit × Tables W}

theorem Mapped.under (hinj : ∀ r r' f, alloc r = some f → alloc r' = some f → r = r')
    (hA : A ⊆ framesOf alloc 0 s.allocs) (htree : Tree decode ok s.mem (n + 1) t A) {t' : Nat}
    (hdec : decode n (s.mem t i) = .table t')
    (hsub : ∀ D, D ⊆ A → Tree decode ok s.mem n t' D → Mapped alloc decode ok s n t' D is l r) :
    Mapped alloc decode ok s (n + 1) t A (i :: is) l r := by
  obtain ⟨D, htA, hDA, htD, hok, howns, hput⟩ := htree.focus i
  have hm := hsub D hDA (by rwa [hdec] at howns)
  obtain ⟨A', htree', hA'⟩ := hm.tree
  have hN : Disjoint (framesOf alloc s.allocs r.2.allocs) A := disjoint_framesOf hinj hA
  have hroot : r.2.mem t = s.mem t :=
    hm.frame t htD fun hmem => Set.disjoint_left.mp hN hmem htA
  have hroot' : r.2.mem t = update (s.mem t) i (s.mem t i) := by
    rw [hroot, update_eq_self]
  have hdec' : decode n (r.2.mem t i) = .table t' := by rw [hroot, hdec]
  have hrep := hput hN hroot' (fun a _ hD hNa => hm.frame a hD hNa) hok
    (by rw [hdec]; exact htree') hA'
  refine ⟨hm.grows, ⟨_, hrep.tree, ?_⟩, ?_, ?_, ?_⟩
  · rintro a (ha | ha)
    · exact .inl ha.1
    · exact (hA' ha).imp (fun h => hDA h) id
  · exact fun a ha hNa => hm.frame a (fun hD => ha (hDA hD)) hNa
  · intro hr q hq
    obtain ⟨j, q, rfl⟩ := exists_cons_of_length_eq_add_one hq
    obtain rfl : q.length = n := by simpa using hq
    by_cases hji : j = i
    · subst hji
      rw [walk_cons_table hdec', walk_cons_table hdec, hm.walk_ok hr q rfl]
      simp only [cons_prefix_cons, true_and, length_cons, drop_succ_cons]
    · rw [hrep.walk_eq j q hji rfl, if_neg]
      simpa using fun he => absurd he.symm hji
  · intro e hr q hq
    obtain ⟨j, q, rfl⟩ := exists_cons_of_length_eq_add_one hq
    obtain rfl : q.length = n := by simpa using hq
    by_cases hji : j = i
    · subst hji
      rw [walk_cons_table hdec', walk_cons_table hdec, hm.walk_error e hr q rfl]
    · exact hrep.walk_eq j q hji rfl

variable {mem : Pages W} {f : Nat}

theorem tree_zero (hzero : ∀ n, decode n zero = .invalid) (hok : ∀ n, ok n zero)
    (hf : mem f = fun _ => zero) : Tree decode ok mem (n + 1) f {f} := by
  refine ⟨fun _ => ∅, by simp, fun _ => Set.notMem_empty _, fun _ _ _ => Set.disjoint_empty _, ?_⟩
  intro i
  rw [hf, hzero]
  exact ⟨hok n, rfl⟩

theorem walk_zero (hzero : ∀ n, decode n zero = .invalid) (hf : mem f = fun _ => zero)
    (q : List Nat) : walk decode mem f q = none := by
  cases q with
  | nil => rfl
  | cons i q => rw [walk, hf, hzero]

theorem onWay_of_forall {P : Nat → W → Prop} (hP : ∀ n w, P n w) (mem : Pages W) :
    ∀ (n t : Nat) (is : List Nat), OnWay decode P mem n t is
  | n + 1, t, i :: j :: is => ⟨hP n _, fun t' _ => onWay_of_forall hP mem n t' (j :: is)⟩
  | 0, _, _ => by simp [OnWay]
  | _ + 1, _, [] => by simp [OnWay]
  | _ + 1, _, [_] => by simp [OnWay]

theorem onWay_zero {P : Nat → W → Prop} (hzero : ∀ n, decode n zero = .invalid)
    (hPz : ∀ n, P n zero) (hf : mem f = fun _ => zero) (is : List Nat) :
    OnWay decode P mem n f is := by
  match n, is with
  | n + 1, i :: j :: is =>
    rw [OnWay, hf, hzero]
    exact ⟨hPz n, nofun⟩
  | 0, _ => simp [OnWay]
  | _ + 1, [] => simp [OnWay]
  | _ + 1, [_] => simp [OnWay]

theorem Tree.create (hzero : ∀ n, decode n zero = .invalid) (hokz : ∀ n, ok n zero)
    (htree : Tree decode ok s.mem (n + 1 + 1) t A) {f : Nat} (hf : f ∉ A)
    (hent : decode (n + 1) (s.mem t i) = .invalid) (hw : decode (n + 1) w = .table f)
    (hok : ok (n + 1) w) {mem' : Pages W}
    (hmem' : mem' = setEntry (update s.mem f fun _ => zero) t i w) :
    mem' f = (fun _ => zero) ∧ decode (n + 1) (mem' t i) = .table f ∧
      (∃ A', Tree decode ok mem' (n + 1 + 1) t A' ∧ A' ⊆ A ∪ {f}) ∧
      (∀ a, a ∉ A → a ≠ f → mem' a = s.mem a) ∧
      ∀ q, q.length = n + 1 + 1 → walk decode mem' t q = walk decode s.mem t q := by
  obtain ⟨D, htA, hDA, htD, -, howns, hput⟩ := htree.focus i
  have hft : f ≠ t := fun he => hf (he ▸ htA)
  have hnew : mem' f = fun _ => zero := by
    rw [hmem', setEntry_of_ne hft, update_self]
  have hroot : mem' t = update (s.mem t) i w := by
    rw [hmem', setEntry_self, update_of_ne (Ne.symm hft)]
  have hother : ∀ a, a ≠ t → a ≠ f → mem' a = s.mem a := fun a hat haf => by
    rw [hmem', setEntry_of_ne hat, update_of_ne haf]
  have hdec : decode (n + 1) (mem' t i) = .table f := by rw [hroot, update_self, hw]
  have hrep := hput (C := {f}) (N := {f}) (Set.disjoint_singleton_left.mpr hf) hroot
    (fun a hat _ haf => hother a hat haf) hok (by rw [hw]; exact tree_zero hzero hokz hnew)
    (fun _ ha => .inr ha)
  refine ⟨hnew, hdec, ⟨_, hrep.tree, ?_⟩, ?_, ?_⟩
  · exact Set.union_subset_union_left _ Set.sdiff_subset
  · exact fun a ha haf => hother a (fun he => ha (he ▸ htA)) haf
  · intro q hq
    obtain ⟨j, q, rfl⟩ := exists_cons_of_length_eq_add_one hq
    have hq' : q.length = n + 1 := by simpa using hq
    by_cases hji : j = i
    · subst hji
      rw [walk_cons_table (by rw [hq', hdec]), walk_zero hzero hnew,
        walk_cons_invalid (by rw [hq', hent])]
    · exact hrep.walk_eq j q hji hq'

theorem Mapped.after {s1 : Tables W} {A1 : Set Nat} (hm : Mapped alloc decode ok s1 n t A1 is l r)
    (hle : s.allocs ≤ s1.allocs) (hA : A1 ⊆ A ∪ framesOf alloc s.allocs s1.allocs)
    (hframe : ∀ a, a ∉ A → a ∉ framesOf alloc s.allocs s1.allocs → s1.mem a = s.mem a)
    (hwalk : ∀ q, q.length = n → walk decode s1.mem t q = walk decode s.mem t q) :
    Mapped alloc decode ok s n t A is l r := by
  have hold : framesOf alloc s.allocs s1.allocs ⊆ framesOf alloc s.allocs r.2.allocs :=
    framesOf_mono (Nat.le_refl _) hm.grows
  have hnew : framesOf alloc s1.allocs r.2.allocs ⊆ framesOf alloc s.allocs r.2.allocs :=
    framesOf_mono hle (Nat.le_refl _)
  obtain ⟨A', htree, hA'⟩ := hm.tree
  refine ⟨hle.trans hm.grows, ⟨A', htree, ?_⟩, ?_, ?_, ?_⟩
  · exact fun a ha => (hA' ha).elim (fun h1 => (hA h1).imp id (@hold a)) fun h2 => .inr (hnew h2)
  · intro a ha hN
    have h1 : a ∉ A1 := fun h => (hA h).elim ha fun h' => hN (hold h')
    rw [hm.frame a h1 fun h => hN (hnew h), hframe a ha fun h => hN (hold h)]
  · intro hr q hq
    rw [hm.walk_ok hr q hq, hwalk q hq]
  · intro e hr q hq
    rw [hm.walk_error e hr q hq, hwalk q hq]

theorem mapped_fail (hk : s.allocs ≤ k) (htree : Tree decode ok s.mem n t A) (is : List Nat)
    (e : ε) : Mapped alloc decode ok s n t A is l (.error e, ⟨s.mem, k⟩) :=
  ⟨hk, ⟨A, htree, Set.subset_union_left⟩, fun _ _ _ => rfl, nofun, fun _ _ _ _ => rfl⟩

/-- **Going down and writing an entry changes the walks through it and no others**, when every step
follows an entry, puts a table behind an unused one or fails. The induction is on the indices; a
table that is new on the way is one that the walk could not see before. -/
theorem mapAt_mapped {P : Nat → W → Prop} {step : Nat → Nat → Tables W → Except ε Nat × Tables W}
    (hzero : ∀ n, decode n zero = .invalid) (hokz : ∀ n, ok n zero) (hPz : ∀ n, P n zero)
    (hinj : ∀ r r' f, alloc r = some f → alloc r' = some f → r = r')
    (hstep : ∀ n t i s, ok (n + 1) (s.mem t i) → P (n + 1) (s.mem t i) →
        Went alloc decode ok zero (n + 1) t i s (step t i s).1 (step t i s).2) :
    ∀ {is : List Nat} {n t : Nat} {A : Set Nat} {s : Tables W},
      is ≠ [] → is.length ≤ n → Tree decode ok s.mem n t A → A ⊆ framesOf alloc 0 s.allocs →
      OnWay decode P s.mem n t is → decode (n - is.length) w = .leaf l → ok (n - is.length) w →
      Mapped alloc decode ok s n t A is l (mapAt step w is t s)
  | [i], n + 1, t, A, s, _, _, htree, _, _, hleaf, hok => mapped_last htree hleaf hok
  | i :: j :: is, n + 1 + 1, t, A, s, _, hlen, htree, hA, hway, hleaf, hok => by
    have hlen' : (j :: is).length ≤ n + 1 := by simpa using hlen
    have hlevel : n + 1 + 1 - (i :: j :: is).length = n + 1 - (j :: is).length := by simp
    rw [hlevel] at hleaf hok
    obtain ⟨D, -, -, -, hoki, -, -⟩ := htree.focus i
    have hwent := hstep n t i s hoki hway.1
    rw [mapAt]
    generalize step t i s = r at hwent
    obtain ⟨res, s1⟩ := r
    cases hwent with
    | follow hdec =>
      exact Mapped.under hinj hA htree hdec fun D hDA hD =>
        mapAt_mapped hzero hokz hPz hinj hstep (by simp) hlen' hD (hDA.trans hA) (hway.2 _ hdec)
          hleaf hok
    | @create f w' hent hf hw hokw =>
      have hfresh : Disjoint (framesOf alloc s.allocs (s.allocs + 1)) A := disjoint_framesOf hinj hA
      have hfA : f ∉ A := Set.disjoint_left.mp hfresh
        ⟨s.allocs, Nat.le_refl _, Nat.lt_succ_self _, hf⟩
      have hsub : ({f} : Set Nat) ⊆ framesOf alloc s.allocs (s.allocs + 1) := by
        rintro _ rfl
        exact ⟨s.allocs, Nat.le_refl _, Nat.lt_succ_self _, hf⟩
      obtain ⟨hnew, hdec, ⟨A1, htree₁, hA1⟩, hframe, hwalk⟩ :=
        htree.create hzero hokz hfA hent hw hokw rfl
      have hA₁' : A1 ⊆ A ∪ framesOf alloc s.allocs (s.allocs + 1) :=
        hA1.trans (Set.union_subset_union_right _ hsub)
      have hgiven : A1 ⊆ framesOf alloc 0 (s.allocs + 1) := fun a ha => (hA₁' ha).elim
        (fun h => framesOf_mono (Nat.le_refl _) (Nat.le_succ _) (hA h))
        fun h => framesOf_mono (Nat.zero_le _) (Nat.le_refl _) h
      have hunder : Mapped alloc decode ok
          ⟨setEntry (update s.mem f fun _ => zero) t i w', s.allocs + 1⟩ (n + 1 + 1) t A1
          (i :: j :: is) l _ :=
        Mapped.under hinj hgiven htree₁ hdec fun D hDA hD =>
          mapAt_mapped hzero hokz hPz hinj hstep (by simp) hlen' hD (hDA.trans hgiven)
            (onWay_zero hzero hPz hnew _) hleaf hok
      exact hunder.after (Nat.le_succ _) hA₁' (fun a ha hN => hframe a ha fun he => hN (hsub he))
        hwalk
    | fail hk => exact mapped_fail hk htree _ _
  | [], _, _, _, _, hne, _, _, _, _, _, _ => absurd rfl hne
  | i :: j :: is, 1, _, _, _, _, hlen, _, _, _, _, _ => by simp at hlen
  | i :: is, 0, _, _, _, _, hlen, _, _, _, _, _ => by simp at hlen

/-- The source gives pages of memory below `bound`, and none of them twice. -/
structure FrameSource (alloc : Nat → Option Nat) (bound : Nat) : Prop where
  aligned : ∀ r f, alloc r = some f → f % 4096 = 0
  lt : ∀ r f, alloc r = some f → f < bound
  inj : ∀ r r' f, alloc r = some f → alloc r' = some f → r = r'

def someFrames (r : Nat) : Option Nat := if r < 1024 then some (0x1000000 + 4096 * r) else none

theorem someFrames_source {b : Nat} (hb : 0x1400000 ≤ b) : FrameSource someFrames b := by
  refine ⟨fun r f h => ?_, fun r f h => ?_, fun r r' f h h' => ?_⟩
  · unfold someFrames at h
    split_ifs at h
    obtain rfl := Option.some.inj h
    omega
  · unfold someFrames at h
    split_ifs at h
    obtain rfl := Option.some.inj h
    omega
  · unfold someFrames at h h'
    split_ifs at h h'
    have h1 := Option.some.inj h
    have h2 := Option.some.inj h'
    omega

/-- The tables under `root` are a tree in frames that were asked for, and since the memory was `mem0`
nothing else was written. -/
structure Rooted (alloc : Nat → Option Nat) (decode : Nat → W → Slot L) (ok : Nat → W → Prop)
    (mem0 : Pages W) (n root : Nat) (s : Tables W) : Prop where
  tree : ∃ A, Tree decode ok s.mem n root A ∧ A ⊆ framesOf alloc 0 s.allocs
  frame : ∀ a, a ∉ framesOf alloc 0 s.allocs → s.mem a = mem0 a

theorem rooted_zero (hzero : ∀ n, decode n zero = .invalid) (hok : ∀ n, ok n zero) {mem0 : Pages W}
    (hf : alloc 0 = some f) :
    Rooted alloc decode ok mem0 (n + 1) f ⟨update mem0 f fun _ => zero, 1⟩ := by
  have hgiven : f ∈ framesOf alloc 0 1 := ⟨0, Nat.le_refl _, Nat.one_pos, hf⟩
  refine ⟨⟨{f}, tree_zero hzero hok (update_self _ _ _), ?_⟩, ?_⟩
  · rintro _ rfl
    exact hgiven
  · intro a ha
    exact update_of_ne (fun he : a = f => ha (he ▸ hgiven)) _ _

theorem Rooted.mapped {mem0 : Pages W} {root : Nat} (h : Rooted alloc decode ok mem0 n root s)
    (hm : ∀ A, Tree decode ok s.mem n root A → A ⊆ framesOf alloc 0 s.allocs →
      Mapped alloc decode ok s n root A is l r) : Rooted alloc decode ok mem0 n root r.2 := by
  obtain ⟨A, htree, hA⟩ := h.tree
  have hmap := hm A htree hA
  have hold : framesOf alloc 0 s.allocs ⊆ framesOf alloc 0 r.2.allocs :=
    framesOf_mono (Nat.le_refl _) hmap.grows
  have hnew : framesOf alloc s.allocs r.2.allocs ⊆ framesOf alloc 0 r.2.allocs :=
    framesOf_mono (Nat.zero_le _) (Nat.le_refl _)
  obtain ⟨A', htree', hA'⟩ := hmap.tree
  refine ⟨⟨A', htree', fun a ha => (hA' ha).elim (fun h1 => hold (hA h1)) fun h2 => hnew h2⟩, ?_⟩
  intro a ha
  rw [hmap.frame a (fun h1 => ha (hold (hA h1))) fun h2 => ha (hnew h2), h.frame a fun h3 =>
    ha (hold h3)]

/-! ## Calls one after the other -/

section

variable {C : Type*} (exec : C → Tables W → Except ε Unit × Tables W)

def tryAll : List C → Tables W → Except ε (Tables W)
  | [], s => .ok s
  | c :: cs, s =>
    match exec c s with
    | (.ok (), s') => tryAll cs s'
    | (.error e, _) => .error e

variable {exec}

theorem tryAll_append : ∀ {cs cs' : List C} {s s' : Tables W}, tryAll exec (cs ++ cs') s = .ok s' →
    ∃ s1, tryAll exec cs s = .ok s1 ∧ tryAll exec cs' s1 = .ok s'
  | [], _, s, _, h => ⟨s, rfl, h⟩
  | c :: cs, cs', s, s', h => by
    rw [cons_append, tryAll] at h
    rw [tryAll]
    split at h
    · exact tryAll_append h
    · cases h

theorem tryAll_cons {c : C} {cs : List C} {s s' : Tables W} (h : tryAll exec (c :: cs) s = .ok s') :
    (exec c s).1 = .ok () ∧ tryAll exec cs (exec c s).2 = .ok s' := by
  rw [tryAll] at h
  split at h
  case h_1 heq => rw [heq]; exact ⟨rfl, h⟩
  case h_2 => cases h

def Follows (decode : Nat → W → Slot L) (path : C → List Nat) (leaf : C → L) (calls : List C)
    (n root : Nat) (mem : Pages W) : Prop :=
  ∀ q, q.length = n → (∃ c ∈ calls, path c <+: q ∧
      walk decode mem root q = some (leaf c, q.drop (path c).length)) ∨
    (∀ c ∈ calls, ¬ path c <+: q) ∧ walk decode mem root q = none

theorem follows_nil {path : C → List Nat} {leaf : C → L} (hzero : ∀ n, decode n zero = .invalid)
    {mem : Pages W} {f : Nat} (hf : mem f = fun _ => zero) :
    Follows decode path leaf [] n f mem := fun q _ => .inr ⟨nofun, walk_zero hzero hf q⟩

theorem tryAll_follows {path : C → List Nat} {leaf : C → L} {mem0 : Pages W} {root : Nat}
    {calls : List C}
    (hexec :
      ∀ pre c s, c ∈ calls → (∀ d ∈ pre, d ∈ calls) → Follows decode path leaf pre n root s.mem →
          ∀ A, Tree decode ok s.mem n root A → A ⊆ framesOf alloc 0 s.allocs →
            Mapped alloc decode ok s n root A (path c) (leaf c) (exec c s)) :
    ∀ {cs pre : List C} {s s' : Tables W},
      (∀ c ∈ pre ++ cs, c ∈ calls) → Rooted alloc decode ok mem0 n root s →
      Follows decode path leaf pre n root s.mem → tryAll exec cs s = .ok s' →
      Rooted alloc decode ok mem0 n root s' ∧ Follows decode path leaf (pre ++ cs) n root s'.mem
  | [], pre, s, s', _, hroot, hfollows, h => by
    obtain rfl : s = s' := Except.ok.inj h
    rw [append_nil]
    exact ⟨hroot, hfollows⟩
  | c :: cs, pre, s, s', hmem, hroot, hfollows, h => by
    obtain ⟨hok, hrest⟩ := tryAll_cons h
    have hmapped := hexec pre c s (hmem c (by simp)) (fun d hd => hmem d (by simp [hd])) hfollows
    obtain ⟨A, htree, hA⟩ := hroot.tree
    have hwalk := (hmapped A htree hA).walk_ok hok
    have hfollows' : Follows decode path leaf (pre ++ [c]) n root (exec c s).2.mem := by
      intro q hq
      rw [hwalk q hq]
      by_cases hc : path c <+: q
      · rw [if_pos hc]
        exact .inl ⟨c, by simp, hc, rfl⟩
      · rw [if_neg hc]
        rcases hfollows q hq with ⟨d, hd, hpd, hw⟩ | ⟨hno, hw⟩
        · exact .inl ⟨d, by simp [hd], hpd, hw⟩
        · refine .inr ⟨fun d hd => ?_, hw⟩
          rcases mem_append.mp hd with hd | hd
          · exact hno d hd
          · rwa [mem_singleton.mp hd]
    have hsplit : pre ++ c :: cs = (pre ++ [c]) ++ cs := by simp
    rw [hsplit] at hmem ⊢
    exact tryAll_follows hexec hmem (hroot.mapped hmapped) hfollows' hrest

theorem follows_of_tryAll {path : C → List Nat} {leaf : C → L} {mem0 : Pages W} {root : Nat}
    {calls : List C} {s' : Tables W}
    (hexec :
      ∀ pre c s, c ∈ calls → (∀ d ∈ pre, d ∈ calls) → Follows decode path leaf pre n root s.mem →
          ∀ A, Tree decode ok s.mem n root A → A ⊆ framesOf alloc 0 s.allocs →
            Mapped alloc decode ok s n root A (path c) (leaf c) (exec c s))
    (hroot : Rooted alloc decode ok mem0 n root s)
    (hnil : Follows decode path leaf [] n root s.mem) (h : tryAll exec calls s = .ok s') :
    Rooted alloc decode ok mem0 n root s' ∧ Follows decode path leaf calls n root s'.mem := by
  have hall := tryAll_follows hexec (by simp) hroot hnil h
  rwa [nil_append] at hall

end

theorem walk_of_mapAt_ok {step : Nat → Nat → Tables W → Except ε Nat × Tables W}
    (hstep : ∀ n t i s, ok (n + 1) (s.mem t i) →
      Went alloc decode ok zero (n + 1) t i s (step t i s).1 (step t i s).2) {rest : List Nat} :
    ∀ {is : List Nat} {t : Nat} {A : Set Nat} {s : Tables W}, Tree decode ok s.mem is.length t A →
      (mapAt step w is t s).1 = .ok () → walk decode s.mem t is = some (l, rest) → rest = []
  | [], _, _, _, _, _, h => by cases h
  | [i], t, _, _, _, _, h => by
    rw [walk] at h
    split at h
    · cases h
    · cases h
    · exact (Prod.mk.inj (Option.some.inj h)).2.symm
  | i :: j :: is, t, A, s, htree, hok, h => by
    obtain ⟨D, -, -, -, hoki, howns, -⟩ := htree.focus i
    have hwent := hstep is.length t i s hoki
    rw [mapAt] at hok
    rw [walk] at h
    generalize step t i s = r at hwent hok
    obtain ⟨res, s1⟩ := r
    cases hwent with
    | follow hdec =>
      simp only [length_cons, hdec] at h howns
      have hsub : Tree decode ok _ (j :: is).length _ D := howns
      exact walk_of_mapAt_ok hstep hsub hok h
    | create hent =>
      simp only [length_cons, hent] at h
      cases h
    | fail => cases hok

end Kerners.Lib
