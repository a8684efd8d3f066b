import Mathlib.Algebra.Group.Nat.Defs
import Mathlib.Logic.Relation

/-!
# Runs of a step relation

A system is a start state and a step relation on an arbitrary state type. `Reach` is what its runs
can reach; `Reach.invariant` is the induction every safety proof uses, and `Reach.later` carries a
property from a reached state along the rest of the run.
-/

namespace Kerners.Lib

variable {σ : Type*} {step : σ → σ → Prop} {start s : σ}

/-- The states a run from `start` reaches. -/
def Reach (step : σ → σ → Prop) (start : σ) : σ → Prop := Relation.ReflTransGen step start

namespace Reach

theorem refl : Reach step start start := Relation.ReflTransGen.refl

theorem tail {s' : σ} (h : Reach step start s) (hs : step s s') : Reach step start s' :=
  Relation.ReflTransGen.tail h hs

theorem invariant {P : σ → Prop} (h0 : P start) (hstep : ∀ {s s'}, P s → step s s' → P s')
    (h : Reach step start s) : P s := by
  induction h with
  | refl => exact h0
  | tail _ hs ih => exact hstep ih hs

theorem later {P Q : σ → Prop} (hstep : ∀ {s s'}, P s → step s s' → P s')
    (hkeep : ∀ {s s'}, P s → Q s → step s s' → Q s') {s' : σ} (hP : P s) (hQ : Q s)
    (h : Reach step s s') : Q s' := by
  have both : P s' ∧ Q s' :=
    invariant (P := fun s => P s ∧ Q s) ⟨hP, hQ⟩ (fun h hs => ⟨hstep h.1 hs, hkeep h.1 h.2 hs⟩) h
  exact both.2

end Reach

end Kerners.Lib
