import Kerners.Lib.Threads

/-!
# Concurrent updates of an RCU cell (`sync/rcu.rs`, `RcuCell::update`)

`update` loads the pointer and clones the data, applies its function to the clone, and swaps in a
box with the result, **whatever the pointer is by then**. The model has one process for each call
and these three steps. A published box is never written again, and here no memory is reused, so a
pointer stands for the data published with it.

An interleaving is a list of calls in which each call occurs three times.
-/

namespace Kerners.Sync

open Lib Function

inductive UpdatePc (T : Type*) where
  | begun
  | cloned (newData : T)
  | applied (newData : T)
  | swapped

structure RcuUpdates (ι T : Type*) where
  data : T
  pc : ι → UpdatePc T

open List

namespace RcuUpdates

variable {ι T : Type*} [DecidableEq ι] {f : ι → T → T} {x : T} {s : RcuUpdates ι T} {i : ι}

/-- The next step of call `i`, whose function is `f i`. -/
def step (f : ι → T → T) (s : RcuUpdates ι T) (i : ι) : RcuUpdates ι T :=
  match s.pc i with
  | .begun => { s with pc := update s.pc i (.cloned s.data) }
  | .cloned newData => { s with pc := update s.pc i (.applied (f i newData)) }
  | .applied newData => ⟨newData, update s.pc i .swapped⟩
  | .swapped => s

/-- The state after the steps of the calls in `sched`. -/
def run (f : ι → T → T) (x : T) (sched : List ι) : RcuUpdates ι T :=
  sched.foldl (step f) ⟨x, fun _ => .begun⟩

theorem run_concat (f : ι → T → T) (x : T) (p : List ι) (i : ι) :
    run f x (p ++ [i]) = step f (run f x p) i := by
  rw [run, foldl_append]
  rfl

/-! ## How far the calls are -/

def stage : UpdatePc T → Nat
  | .begun => 0
  | .cloned _ => 1
  | .applied _ => 2
  | .swapped => 3

theorem stage_run {p : List ι} (h : ∀ i, p.count i ≤ 3) (i : ι) :
    stage ((run f x p).pc i) = p.count i := by
  induction p using reverseRecOn generalizing i with
  | nil => rfl
  | append_singleton p j ih =>
    have hle : ∀ i, p.count i ≤ 3 := fun i => by
      have hi := h i
      rw [count_append] at hi
      omega
    have hj := h j
    rw [count_append, count_singleton_self, ← ih hle j] at hj
    rw [run_concat, count_append, ← ih hle i, count_singleton]
    unfold step
    cases hp : (run f x p).pc j <;> by_cases hij : i = j
    all_goals grind [stage]

/-- No call is between its load and its swap when another one swaps. -/
def Apart (sched : List ι) : Prop :=
  ∀ p j, p ++ [j] <+: sched → p.count j = 2 → ∀ i, i ≠ j → p.count i = 0 ∨ p.count i = 3

/-! ## Calls that are apart -/

/-- The functions of the calls in `order` have been applied, and every clone is up to date. -/
structure Serial (f : ι → T → T) (x : T) (s : RcuUpdates ι T) (order : List ι) : Prop where
  data : s.data = order.foldl (fun y i => f i y) x
  nodup : order.Nodup
  mem : ∀ i, i ∈ order ↔ s.pc i = .swapped
  cloned : ∀ i y, s.pc i = .cloned y → y = s.data
  applied : ∀ i y, s.pc i = .applied y → y = f i s.data

theorem Serial.step {order : List ι} (h : Serial f x s order)
    (hclean : stage (s.pc i) = 2 → ∀ j, j ≠ i → stage (s.pc j) = 0 ∨ stage (s.pc j) = 3) :
    ∃ order', Serial f x (step f s i) order' := by
  obtain ⟨hdata, hnodup, hmem, hcloned, happlied⟩ := h
  cases hp : s.pc i with
  | begun => exact ⟨order, by simp only [RcuUpdates.step, hp]; constructor <;> grind⟩
  | cloned y => exact ⟨order, by simp only [RcuUpdates.step, hp]; constructor <;> grind⟩
  | swapped => exact ⟨order, by simp only [RcuUpdates.step, hp]; constructor <;> grind⟩
  | applied y =>
    -- the others have not loaded yet or are done
    have hother := hclean (by rw [hp]; rfl)
    refine ⟨order ++ [i], ?_⟩
    simp only [RcuUpdates.step, hp]
    constructor
    · rw [foldl_append, ← hdata]
      exact happlied i y hp
    all_goals grind [stage]

theorem serial_run {sched : List ι} (hall : ∀ i, sched.count i = 3) (h : Apart sched)
    (f : ι → T → T) (x : T) {p : List ι} (hp : p <+: sched) :
    ∃ order, Serial f x (run f x p) order := by
  induction p using reverseRecOn with
  | nil => exact ⟨[], rfl, .nil, by simp [run], nofun, nofun⟩
  | append_singleton p i ih =>
    have hp' : p <+: sched := (prefix_append p [i]).trans hp
    have hle : ∀ j, p.count j ≤ 3 := fun j => hall j ▸ hp'.sublist.count_le j
    obtain ⟨order, hserial⟩ := ih hp'
    rw [run_concat]
    refine hserial.step ?_
    simp only [stage_run hle]
    exact h p i hp

/-! ## Calls that overtake each other

The data are a number here, and each call adds one. -/

section

variable {s : RcuUpdates ι Nat} {n : Nat}

/-- What a call will publish is at most `n + 1`. -/
def Within (n : Nat) : UpdatePc Nat → Prop
  | .cloned y => y ≤ n
  | .applied y => y ≤ n + 1
  | _ => True

/-- The data, and what they are made of, are at most `n`. -/
def Lags (s : RcuUpdates ι Nat) (n : Nat) : Prop := s.data ≤ n ∧ ∀ i, Within n (s.pc i)

theorem Within.mono {m : Nat} {p : UpdatePc Nat} (h : Within n p) (hm : n ≤ m) : Within m p := by
  cases p <;> simp only [Within] at h ⊢ <;> omega

def inc (s : RcuUpdates ι Nat) (i : ι) : RcuUpdates ι Nat := step (fun _ y => y + 1) s i

/-- The calls of `p`, each adding one. -/
abbrev counted (p : List ι) : RcuUpdates ι Nat := run (fun _ y => y + 1) 0 p

theorem counted_concat (p : List ι) (i : ι) : counted (p ++ [i]) = inc (counted p) i :=
  run_concat _ _ p i

theorem inc_pc_of_ne (s : RcuUpdates ι Nat) {i j : ι} (h : i ≠ j) : (inc s j).pc i = s.pc i := by
  unfold inc step
  cases s.pc j <;> simp [h]

theorem Lags.inc (h : Lags s n) (i : ι) :
    Lags (inc s i) (n + if stage (s.pc i) = 2 then 1 else 0) := by
  obtain ⟨hdata, hpc⟩ := h
  have hi := hpc i
  have hmono : ∀ j, Within (n + 1) (s.pc j) := fun j => (hpc j).mono (Nat.le_succ n)
  unfold RcuUpdates.inc step Lags
  cases hp : s.pc i <;> rw [hp] at hi <;> grind [stage, Within]

variable [Fintype ι]

def swaps (s : RcuUpdates ι Nat) : Nat := tally (fun p => stage p / 3) s.pc

/-- An update is lost already, or will be once a call that has loaded swaps. -/
def Late (s : RcuUpdates ι Nat) : Prop :=
  ∃ n, swaps s = n + 1 ∧ (Lags s n ∨ Lags s (n + 1) ∧
    ∃ i, (stage (s.pc i) = 1 ∨ stage (s.pc i) = 2) ∧ Within n (s.pc i))

theorem swaps_inc (s : RcuUpdates ι Nat) (i : ι) :
    swaps (inc s i) = swaps s + if stage (s.pc i) = 2 then 1 else 0 := by
  unfold swaps inc step
  cases hp : s.pc i with
  | begun => simpa [stage, hp] using tally_update (fun p => stage p / 3) s.pc i (.cloned s.data)
  | cloned y => simpa [stage, hp] using tally_update (fun p => stage p / 3) s.pc i (.applied (y + 1))
  | applied y => simpa [stage, hp] using tally_update (fun p => stage p / 3) s.pc i .swapped
  | swapped => simp [stage]

theorem Late.inc (h : Late s) (i : ι) : Late (inc s i) := by
  obtain ⟨n, hn, hlag | ⟨hlag, j, hj, hw⟩⟩ := h
  · refine ⟨_, ?_, .inl (hlag.inc i)⟩
    rw [swaps_inc, hn]
    omega
  · by_cases hij : i = j
    · subst hij
      have hswaps := swaps_inc s i
      cases hp : s.pc i with
      | begun => grind [stage]
      | swapped => grind [stage]
      | cloned y =>
        refine ⟨n, by rw [hswaps, hn, hp]; rfl, .inr ⟨by simpa [hp, stage] using hlag.inc i, i, ?_⟩⟩
        rw [hp] at hw
        simp only [RcuUpdates.inc, step, hp, update_self]
        exact ⟨.inr rfl, Nat.succ_le_succ hw⟩
      | applied y =>
        -- the swap publishes a number that leaves another call out
        refine ⟨n + 1, by rw [hswaps, hn, hp]; rfl, .inl ?_⟩
        rw [hp] at hw
        simp only [RcuUpdates.inc, step, hp]
        refine ⟨hw, fun k => ?_⟩
        by_cases hk : k = i
        · subst hk
          simp [Within]
        · simpa [hk] using hlag.2 k
    · have hpc := inc_pc_of_ne s (Ne.symm hij)
      have hlag' := hlag.inc i
      rw [Nat.add_right_comm] at hlag'
      refine ⟨_, ?_, .inr ⟨hlag', j, hpc ▸ hj, hpc ▸ hw.mono (Nat.le_add_right n _)⟩⟩
      rw [swaps_inc, hn]
      omega

theorem lags_counted (p : List ι) : Lags (counted p) (swaps (counted p)) := by
  induction p using reverseRecOn with
  | nil => exact ⟨Nat.zero_le _, fun _ => trivial⟩
  | append_singleton p i ih =>
    rw [counted_concat, swaps_inc]
    exact ih.inc i

theorem late_counted {sched : List ι} (hall : ∀ i, sched.count i = 3) (h : ¬ Apart sched) :
    Late (counted sched) := by
  unfold Apart at h
  push Not at h
  obtain ⟨p, j, ⟨q, hq⟩, hj, i, hij, hi0, hi3⟩ := h
  have hle : ∀ k, p.count k ≤ 3 := fun k => by
    have hk := hall k
    rw [← hq, count_append, count_append] at hk
    omega
  have hstage : ∀ k, stage ((counted p).pc k) = p.count k := stage_run hle
  have hlate : Late (counted (p ++ [j])) := by
    have hswap : stage ((counted p).pc j) = 2 := (hstage j).trans hj
    have hlag := (lags_counted p).inc j
    have hswaps := swaps_inc (counted p) j
    rw [if_pos hswap] at hlag hswaps
    have hpc := inc_pc_of_ne (counted p) hij
    have hi := hle i
    rw [← hstage i] at hi0 hi3 hi
    rw [counted_concat]
    exact ⟨_, hswaps, .inr ⟨hlag, i, by rw [hpc]; omega, hpc ▸ (lags_counted p).2 i⟩⟩
  clear hj hall
  subst hq
  induction q using reverseRecOn with
  | nil => rwa [append_nil]
  | append_singleton q k ih =>
    rw [← append_assoc, counted_concat]
    exact ih.inc k

theorem counted_of_order {sched order : List ι} (hdone : ∀ i, stage ((counted sched).pc i) = 3)
    (hmem : ∀ i, i ∈ order)
    (hdata : (counted sched).data = order.foldl (fun y _ => y + 1) 0) :
    swaps (counted sched) ≤ (counted sched).data := by
  have hfold : ∀ (l : List ι) (y : Nat), l.foldl (fun y _ => y + 1) y = y + l.length := by
    intro l
    induction l with
    | nil => exact fun y => rfl
    | cons i l ih =>
      intro y
      rw [foldl_cons, ih, length_cons]
      omega
  have hcard : Fintype.card ι ≤ order.length := by
    have hsub : Finset.univ ⊆ order.toFinset := fun i _ => mem_toFinset.mpr (hmem i)
    exact (Finset.card_le_card hsub).trans order.toFinset_card_le
  rw [hdata, hfold, swaps, tally]
  simpa [hdone] using hcard

end

/-- **An interleaving applies all functions, whatever they are**, exactly if no call is between its
load and its swap when another one swaps. -/
theorem update_applies_all_iff {ι : Type} [DecidableEq ι] [Fintype ι] {sched : List ι}
    (hall : ∀ i, sched.count i = 3) :
    (∀ (T : Type) (x : T) (f : ι → T → T), ∃ order : List ι, order.Nodup ∧ (∀ i, i ∈ order) ∧
      (run f x sched).data = order.foldl (fun y i => f i y) x) ↔ Apart sched := by
  have hdone : ∀ {T : Type} (f : ι → T → T) (x : T) (i : ι), stage ((run f x sched).pc i) = 3 :=
    fun f x i => (stage_run (fun i => (hall i).le) i).trans (hall i)
  constructor
  · intro happly
    by_contra hnot
    obtain ⟨order, hnodup, hmem, hdata⟩ := happly Nat 0 fun _ y => y + 1
    obtain ⟨n, hn, hlag | ⟨-, i, hi, -⟩⟩ := late_counted hall hnot
    · have hle := counted_of_order (hdone _ _) hmem hdata
      have hdata' := hlag.1
      omega
    · rw [hdone] at hi
      omega
  · intro hapart T x f
    obtain ⟨order, hserial⟩ := serial_run hall hapart f x (List.prefix_refl sched)
    refine ⟨order, hserial.nodup, fun i => (hserial.mem i).mpr ?_, hserial.data⟩
    have hi := hdone f x i
    revert hi
    cases (run f x sched).pc i <;> simp [stage]

theorem update_applies_all_sequential :
    ∃ order : List Bool, order.Nodup ∧ (∀ i, i ∈ order) ∧
      (run (fun i y => if i then y + 1 else y * 2) 3 [true, true, true, false, false, false]).data =
        order.foldl (fun y i => if i then y + 1 else y * 2) 3 := by
  refine (update_applies_all_iff (by decide)).mpr (fun p j hp hj i hij => ?_) Nat 3 _
  have hall : ∀ k < 6, ∀ j, ([true, true, true, false, false, false].take k).count j = 2 →
      ∀ i, i ≠ j → ([true, true, true, false, false, false].take k).count i = 0 ∨
        ([true, true, true, false, false, false].take k).count i = 3 := by decide
  have hlen := hp.length_le
  rw [List.length_append] at hlen
  have hp' := List.prefix_iff_eq_take.mp ((List.prefix_append p [j]).trans hp)
  rw [hp'] at hj ⊢
  exact hall p.length (Nat.lt_of_succ_le hlen) j hj i hij

/-- Two calls each add one. Both load before either swaps, and one addition is lost. -/
theorem update_discards :
    (∀ i, [false, true, false, true, false, true].count i = 3) ∧
      (run (fun (_ : Bool) y => y + 1) 0 [false, true, false, true, false, true]).data = 1 ∧
      ¬ ∃ order : List Bool, order.Nodup ∧ (∀ i, i ∈ order) ∧
        (run (fun (_ : Bool) y => y + 1) 0 [false, true, false, true, false, true]).data =
          order.foldl (fun y _ => y + 1) 0 := by
  have hdata : (run (fun (_ : Bool) y => y + 1) 0 [false, true, false, true, false, true]).data =
      1 := by decide
  refine ⟨by decide, hdata, ?_⟩
  rintro ⟨order, -, hmem, hfold⟩
  have hlen : order.foldl (fun y _ => y + 1) 0 = order.length := by
    rw [List.foldl_add_const, Nat.zero_add, Nat.one_mul]
  have hsub : [false, true] ⊆ order := fun i _ => hmem i
  have htwo : 2 ≤ order.length := (List.subperm_of_subset (by decide) hsub).length_le
  omega

end RcuUpdates

end Kerners.Sync
