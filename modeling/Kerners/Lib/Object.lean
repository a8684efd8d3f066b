import Mathlib.Algebra.Group.Nat.Defs
import Mathlib.Tactic.Common

/-!
# Objects and their specifications

An object answers commands: `exec s c` is the result of the command `c` in the state `s` and the
state after it, `runAll` does so for a sequence. A specification relates an abstract state, a
command, a result and the next abstract state; `SpecRuns` does so for a sequence.

`specRuns_iff` is the refinement rule: if each command of the object is one the specification
allows, and the specification leaves no choice, then on every sequence the specification allows the
results and the final state of the object, and no others.
-/

namespace Kerners.Lib

variable {S M C R : Type*} {exec : S → C → R × S} {P : S → Prop}

/-- The results of a sequence of commands, and the state after it. -/
def runAll (exec : S → C → R × S) : S → List C → List R × S
  | s, [] => ([], s)
  | s, c :: cs => ((exec s c).1 :: (runAll exec (exec s c).2 cs).1, (runAll exec (exec s c).2 cs).2)

inductive SpecRuns (spec : M → C → R → M → Prop) : M → List C → List R → M → Prop
  | nil {m} : SpecRuns spec m [] [] m
  | cons {m m' m'' c cs r rs} : spec m c r m' → SpecRuns spec m' cs rs m'' →
    SpecRuns spec m (c :: cs) (r :: rs) m''

theorem runAll_invariant (hkeep : ∀ {s} c, P s → P (exec s c).2) :
    ∀ {s : S} (cs : List C), P s → P (runAll exec s cs).2
  | _, [], hs => hs
  | _, c :: cs, hs => runAll_invariant hkeep cs (hkeep c hs)

/-- **Simulation**: two objects that agree on every command in related states agree on every
sequence. -/
theorem runAll_simulates {T : Type*} {exec' : T → C → R × T} (Rel : S → T → Prop)
    (h : ∀ {s t} c, Rel s t → (exec s c).1 = (exec' t c).1 ∧ Rel (exec s c).2 (exec' t c).2) :
    ∀ {s : S} {t : T} (cs : List C), Rel s t →
      (runAll exec s cs).1 = (runAll exec' t cs).1 ∧
        Rel (runAll exec s cs).2 (runAll exec' t cs).2
  | _, _, [], hst => ⟨rfl, hst⟩
  | _, _, c :: cs, hst => by
    obtain ⟨hres, hst'⟩ := h c hst
    obtain ⟨hrest, hend⟩ := runAll_simulates Rel h cs hst'
    exact ⟨by rw [runAll, hres, hrest]; rfl, hend⟩

/-- **Refinement of a deterministic specification**, over whole sequences of commands. -/
theorem specRuns_iff (spec : M → C → R → M → Prop) (abs : S → M)
    (hkeep : ∀ {s} c, P s → P (exec s c).2)
    (hexec : ∀ {s} c, P s → spec (abs s) c (exec s c).1 (abs (exec s c).2))
    (hdet : ∀ {m c r m' r1 m1}, spec m c r m' → spec m c r1 m1 → r = r1 ∧ m' = m1) {s : S}
    (hs : P s) {cs : List C} {rs : List R} {m' : M} :
    SpecRuns spec (abs s) cs rs m' ↔ rs = (runAll exec s cs).1 ∧ m' = abs (runAll exec s cs).2 := by
  induction cs generalizing s rs with
  | nil =>
    constructor
    · rintro ⟨⟩
      exact ⟨rfl, rfl⟩
    · rintro ⟨rfl, rfl⟩
      exact .nil
  | cons c cs ih =>
    constructor
    · rintro (_ | ⟨hc, hrest⟩)
      obtain ⟨rfl, rfl⟩ := hdet hc (hexec c hs)
      obtain ⟨rfl, rfl⟩ := (ih (hkeep c hs)).1 hrest
      exact ⟨rfl, rfl⟩
    · rintro ⟨rfl, rfl⟩
      exact .cons (hexec c hs) ((ih (hkeep c hs)).2 ⟨rfl, rfl⟩)

end Kerners.Lib
