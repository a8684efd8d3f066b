import Mathlib.Algebra.Group.Nat.Defs
import Mathlib.Data.List.Basic

/-!
# Computations with a trace

`Traced ρ ε α` is a computation that leaves a trace of accesses (type `ρ`) and ends in a value, in
an error of type `ε`, or in a panic. `Safe P` says that every access satisfies `P` and that the
computation does not panic; `safe_bind` splits it over sequencing, so a statement about a whole
computation reduces to one about each of its accesses.
-/

namespace Kerners.Lib

inductive Fault (ε : Type) where
  | err (e : ε)
  | panic
  deriving DecidableEq

structure Traced (ρ ε α : Type) where
  trace : List ρ
  out : Except (Fault ε) α

namespace Traced

variable {ρ ε α β γ : Type} {P : ρ → Prop} {x : Traced ρ ε α} {f : α → Traced ρ ε β}

def pure (a : α) : Traced ρ ε α := ⟨[], .ok a⟩

/-- Run `f` on the value of `x`; a failure of `x` ends the computation. -/
def bind (x : Traced ρ ε α) (f : α → Traced ρ ε β) : Traced ρ ε β :=
  match x.out with
  | .ok a => ⟨x.trace ++ (f a).trace, (f a).out⟩
  | .error e => ⟨x.trace, .error e⟩

instance : Monad (Traced ρ ε) where
  pure := Traced.pure
  bind := Traced.bind

def fail (e : ε) : Traced ρ ε α := ⟨[], .error (.err e)⟩

def panic : Traced ρ ε α := ⟨[], .error .panic⟩

def access (r : ρ) : Traced ρ ε Unit := ⟨[r], .ok ()⟩

/-- Every access satisfies `P` and nothing panics. -/
def Safe (P : ρ → Prop) (x : Traced ρ ε α) : Prop :=
  (∀ r ∈ x.trace, P r) ∧ x.out ≠ .error .panic

@[simp] theorem safe_pure (a : α) : Safe P (Pure.pure a : Traced ρ ε α) := by
  refine ⟨fun r hr => absurd hr (List.not_mem_nil), ?_⟩
  simp [Pure.pure, Traced.pure]

@[simp] theorem safe_panic : ¬ Safe P (panic : Traced ρ ε α) := fun h => h.2 rfl

@[simp] theorem safe_access (r : ρ) : Safe P (access r : Traced ρ ε Unit) ↔ P r := by
  simp [Safe, access]

theorem safe_bind : Safe P (x >>= f) ↔ Safe P x ∧ ∀ a, x.out = .ok a → Safe P (f a) := by
  obtain ⟨t, out⟩ := x
  cases out with
  | error e =>
    simp [Safe, Bind.bind, Traced.bind]
  | ok a =>
    simp only [Safe, Bind.bind, Traced.bind, List.mem_append, Except.ok.injEq, ne_eq,
      reduceCtorEq, not_false_eq_true, and_true, forall_eq']
    constructor
    · rintro ⟨h1, h2⟩
      exact ⟨fun r hr => h1 r (Or.inl hr), fun r hr => h1 r (Or.inr hr), h2⟩
    · rintro ⟨h1, h2, h3⟩
      exact ⟨fun r hr => hr.elim (h1 r) (h2 r), h3⟩

theorem bind_ok {b : β} : (x >>= f).out = .ok b ↔ ∃ a, x.out = .ok a ∧ (f a).out = .ok b := by
  obtain ⟨t, out⟩ := x
  cases out with
  | error e => simp [Bind.bind, Traced.bind]
  | ok a => simp [Bind.bind, Traced.bind]

@[simp] theorem pure_ok {a b : α} : (Pure.pure a : Traced ρ ε α).out = .ok b ↔ a = b := by
  simp [Pure.pure, Traced.pure]

@[simp] theorem access_ok (r : ρ) (u : Unit) : (access r : Traced ρ ε Unit).out = .ok u := rfl

def collect (f : α → Traced ρ ε β) : List α → Traced ρ ε (List β)
  | [] => Pure.pure []
  | a :: as => do
    let b ← f a
    let bs ← collect f as
    return b :: bs

theorem safe_collect {f : α → Traced ρ ε β} : ∀ {l : List α}, (∀ a ∈ l, Safe P (f a)) →
    Safe P (collect f l)
  | [], _ => safe_pure _
  | a :: l, h => by
    refine safe_bind.mpr ⟨h a List.mem_cons_self, fun b _ => safe_bind.mpr ⟨?_, fun _ _ => ?_⟩⟩
    · exact safe_collect fun c hc => h c (List.mem_cons_of_mem a hc)
    · exact safe_pure _

theorem collect_ok {f : α → Traced ρ ε β} : ∀ {l : List α} {bs : List β},
    (collect f l).out = .ok bs → ∀ b ∈ bs, ∃ a ∈ l, (f a).out = .ok b
  | [], bs, h, b, hb => by
    obtain rfl := pure_ok.mp h
    exact absurd hb List.not_mem_nil
  | a :: l, bs, h, b, hb => by
    obtain ⟨b', hb', h⟩ := bind_ok.mp h
    obtain ⟨bs', hbs', h⟩ := bind_ok.mp h
    obtain rfl := pure_ok.mp h
    rcases List.mem_cons.mp hb with rfl | hb
    · exact ⟨a, List.mem_cons_self, hb'⟩
    · obtain ⟨c, hc, hfc⟩ := collect_ok hbs' b hb
      exact ⟨c, List.mem_cons_of_mem a hc, hfc⟩

end Traced

end Kerners.Lib
