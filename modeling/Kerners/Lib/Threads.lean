import Mathlib.Algebra.Order.BigOperators.Group.Finset
import Kerners.Lib.Machine

/-!
# Programs with any number of threads

The threads are a family of places of a program over a finite type, whose size is arbitrary.
`tally w t` adds up a weight for each place; `tally_update` says what a step of one thread does to
it, in the form that linear arithmetic can use.

`Fires next ok` is the step relation of a partial function `next` on states and actions, where `ok`
says in which states which actions are considered; `play` runs a list of actions, and
`exists_reach` reads off what it reaches. `Conf.next turn`
interleaves the turns of all threads: a turn is a function of what is shared and of the thread's own
place.
-/

namespace Kerners.Lib

open Function

/-! ## Tallies -/

section

variable {ι P : Type*} [Fintype ι] {w : P → Nat} {t : ι → P} {i j : ι}

def tally (w : P → Nat) (t : ι → P) : Nat := ∑ i, w (t i)

theorem le_tally (w : P → Nat) (t : ι → P) (i : ι) : w (t i) ≤ tally w t :=
  Finset.single_le_sum (f := fun i => w (t i)) (fun _ _ => Nat.zero_le _) (Finset.mem_univ i)

theorem tally_eq_zero : tally w t = 0 ↔ ∀ i, w (t i) = 0 := by
  unfold tally
  rw [Finset.sum_eq_zero_iff]
  simp

theorem exists_of_tally_pos (h : 0 < tally w t) : ∃ i, 0 < w (t i) := by
  by_contra hall
  have hzero : tally w t = 0 := tally_eq_zero.mpr fun i =>
    Nat.eq_zero_of_not_pos fun hi => hall ⟨i, hi⟩
  omega

theorem tally_mono {w w' : P → Nat} (h : ∀ p, w p ≤ w' p) (t : ι → P) : tally w t ≤ tally w' t :=
  Finset.sum_le_sum fun i _ => h (t i)

theorem tally_le_card (h : ∀ p, w p ≤ 1) (t : ι → P) : tally w t ≤ Fintype.card ι := by
  have hsum := Finset.sum_le_card_nsmul Finset.univ (fun i => w (t i)) 1 fun i _ => h (t i)
  simpa [tally] using hsum

theorem tally_of_alone {u : P → Nat} (hu : tally u t ≤ 1) (hi : u (t i) = 1)
    (hw : ∀ p, u p = 0 → w p = 0) : tally w t = w (t i) := by
  classical
  refine Finset.sum_eq_single i (fun j _ hj => hw _ ?_) fun h => absurd (Finset.mem_univ i) h
  have herase := Finset.add_sum_erase Finset.univ (fun k => u (t k)) (Finset.mem_univ i)
  have hle : u (t j) ≤ ∑ k ∈ Finset.univ.erase i, u (t k) :=
    Finset.single_le_sum (f := fun k => u (t k)) (fun _ _ => Nat.zero_le _)
      (Finset.mem_erase.mpr ⟨hj, Finset.mem_univ j⟩)
  unfold tally at hu
  omega

variable [DecidableEq ι]

theorem tally_update (w : P → Nat) (t : ι → P) (i : ι) (p : P) :
    tally w (update t i p) + w (t i) = tally w t + w p := by
  have h1 := Finset.add_sum_erase Finset.univ (fun j => w (update t i p j))
    (Finset.mem_univ i)
  have h2 := Finset.add_sum_erase Finset.univ (fun j => w (t j)) (Finset.mem_univ i)
  have h3 : ∑ j ∈ Finset.univ.erase i, w (update t i p j) =
      ∑ j ∈ Finset.univ.erase i, w (t j) :=
    Finset.sum_congr rfl fun j hj => by rw [update_of_ne (Finset.ne_of_mem_erase hj)]
  simp only [update_self] at h1
  unfold tally
  omega

section

variable {p : P} (hp : t i = p) (p' : P)

include hp

theorem tally_moves (h : w p' = w p) : tally w (update t i p') = tally w t := by
  have hup := tally_update w t i p'
  rw [hp] at hup
  omega

theorem tally_gains (h : w p' = w p + 1) : tally w (update t i p') = tally w t + 1 := by
  have hup := tally_update w t i p'
  rw [hp] at hup
  omega

theorem tally_loses (h : w p = w p' + 1) : tally w t = tally w (update t i p') + 1 := by
  have hup := tally_update w t i p'
  rw [hp] at hup
  omega

end

theorem add_le_tally (w : P → Nat) (t : ι → P) (hij : i ≠ j) : w (t i) + w (t j) ≤ tally w t := by
  have h1 := Finset.add_sum_erase Finset.univ (fun k => w (t k)) (Finset.mem_univ i)
  have h2 : w (t j) ≤ ∑ k ∈ Finset.univ.erase i, w (t k) :=
    Finset.single_le_sum (f := fun k => w (t k)) (fun _ _ => Nat.zero_le _)
      (Finset.mem_erase.mpr ⟨hij.symm, Finset.mem_univ j⟩)
  unfold tally
  omega

end

/-! ## Actions -/

section

variable {σ α : Type*} {next : σ → α → Option σ} {ok : σ → α → Prop} {s s' : σ}

/-- A step by an action that `ok` admits. -/
def Fires (next : σ → α → Option σ) (ok : σ → α → Prop) (s s' : σ) : Prop :=
  ∃ a, ok s a ∧ next s a = some s'

/-- A list of actions, one after the other, as long as `ok` admits them. -/
def play (next : σ → α → Option σ) (ok : σ → α → Prop) [∀ s a, Decidable (ok s a)] (s : σ) :
    List α → Option σ
  | [] => some s
  | a :: as => if ok s a then (next s a).bind fun s' => play next ok s' as else none

variable [∀ s a, Decidable (ok s a)]

theorem play_reach : ∀ {as : List α} {s : σ}, play next ok s as = some s' →
    Reach (Fires next ok) s s'
  | [], s, h => by
    obtain rfl : s = s' := Option.some.inj h
    exact Reach.refl
  | a :: as, s, h => by
    rw [play] at h
    split at h
    case isTrue hok =>
      obtain ⟨s1, h1, h2⟩ := Option.bind_eq_some_iff.mp h
      exact Relation.ReflTransGen.head ⟨a, hok, h1⟩ (play_reach h2)
    case isFalse => cases h

theorem exists_reach {Q : σ → Prop} [DecidablePred Q] (as : List α)
    (h : (play next ok s as).any (fun s' => decide (Q s')) = true) :
    ∃ s', Reach (Fires next ok) s s' ∧ Q s' := by
  obtain ⟨s', hs, hq⟩ := (Option.any_eq_true _ _).mp h
  exact ⟨s', play_reach hs, of_decide_eq_true hq⟩

end

/-! ## Interleavings -/

variable {ι σ P α : Type*} [DecidableEq ι]

@[ext]
structure Conf (ι σ P : Type*) where
  shared : σ
  thread : ι → P

namespace Conf

variable {turn : σ → P → α → Option (σ × P)} {c c' : Conf ι σ P} {i : ι} {a : α}

/-- Thread `i` takes one turn of its program, which sees what is shared and its own place. -/
def next (turn : σ → P → α → Option (σ × P)) (c : Conf ι σ P) (ia : ι × α) : Option (Conf ι σ P) :=
  (turn c.shared (c.thread ia.1) ia.2).map fun r => ⟨r.1, update c.thread ia.1 r.2⟩

theorem exists_turn (h : next turn c (i, a) = some c') :
    ∃ sh p, turn c.shared (c.thread i) a = some (sh, p) ∧ c' = ⟨sh, update c.thread i p⟩ := by
  obtain ⟨⟨sh, p⟩, hr, rfl⟩ := Option.map_eq_some_iff.mp h
  exact ⟨sh, p, hr, rfl⟩

/-- A property of every thread is kept when the thread that moves gets it and the change to what
is shared takes it from no other. -/
theorem forall_thread {Q : σ → ι → P → Prop} (h : ∀ j, Q c.shared j (c.thread j))
    (hn : next turn c (i, a) = some c')
    (hi : ∀ {sh p}, turn c.shared (c.thread i) a = some (sh, p) → Q sh i p)
    (hj : ∀ {sh p}, turn c.shared (c.thread i) a = some (sh, p) →
        ∀ j, j ≠ i → Q c.shared j (c.thread j) → Q sh j (c.thread j)) (j : ι) :
    Q c'.shared j (c'.thread j) := by
  obtain ⟨sh, p, ht, rfl⟩ := exists_turn hn
  by_cases hji : j = i
  · subst hji
    simpa only [update_self] using hi ht
  · simpa only [update_of_ne hji] using hj ht j hji (h j)

/-- Some thread is `busy`, and no turn `a` of a busy thread changes anything. -/
def Stuck (turn : σ → P → α → Option (σ × P)) (busy : P → Bool) (a : α) (c : Conf ι σ P) : Prop :=
  (∃ i, busy (c.thread i) = true) ∧
    ∀ i, busy (c.thread i) = true → ∀ c', next turn c (i, a) = some c' → c' = c

theorem Stuck.turn_eq {busy : P → Bool} (h : Stuck turn busy a c) (hi : busy (c.thread i) = true)
    {sh : σ} {p : P} (ht : turn c.shared (c.thread i) a = some (sh, p)) :
    sh = c.shared ∧ p = c.thread i := by
  have hn : next turn c (i, a) = some ⟨sh, update c.thread i p⟩ := by
    rw [next, ht]
    rfl
  have heq := h.2 i hi _ hn
  refine ⟨congrArg Conf.shared heq, ?_⟩
  have hp := congrFun (congrArg Conf.thread heq) i
  simpa only [update_self] using hp

theorem stuck_of_turn_eq {busy : P → Bool} (hb : ∃ i, busy (c.thread i) = true)
    (h : ∀ i, busy (c.thread i) = true → turn c.shared (c.thread i) a = some (c.shared, c.thread i)) :
    Stuck turn busy a c := by
  refine ⟨hb, fun i hi c' hn => ?_⟩
  obtain ⟨sh, p, ht, rfl⟩ := exists_turn hn
  rw [h i hi] at ht
  obtain ⟨rfl, rfl⟩ := Prod.mk.inj (Option.some.inj ht)
  rw [update_eq_self]

end Conf

end Kerners.Lib
