import Mathlib.Algebra.Group.Nat.Defs
import Mathlib.Data.List.Nodup

/-!
# Linked chains in a table of successors

`Walk next cell stop a l`: starting at `a` and following `next`, the cells `l` are visited one
after the other until a value that satisfies `stop`. A walk is determined by its start, visits no
cell twice and depends only on the successors of the cells it visits.

`Walk.congr`: the frame rule.
-/

namespace Kerners.Lib

open List

variable {α : Type} {next next' : α → α} {cell stop : α → Prop}

/-- The walk from `a` visits the cells `l` and ends in a value that satisfies `stop`. -/
inductive Walk (next : α → α) (cell stop : α → Prop) : α → List α → Prop
  | done {a : α} (h : stop a) : Walk next cell stop a []
  | step {a : α} {l : List α} (h : cell a) (rest : Walk next cell stop (next a) l) :
      Walk next cell stop a (a :: l)

namespace Walk

variable {a : α} {l : List α}

theorem cells (h : Walk next cell stop a l) : ∀ x ∈ l, cell x := by
  induction h with
  | done _ => simp
  | step hc _ ih =>
    intro x hx
    rcases mem_cons.mp hx with rfl | hx
    · exact hc
    · exact ih x hx

theorem transfer {cell' : α → Prop} (h : Walk next cell stop a l)
    (hnext : ∀ x ∈ l, next' x = next x) (hcell : ∀ x ∈ l, cell x → cell' x) :
    Walk next' cell' stop a l := by
  induction h with
  | done hs => exact .done hs
  | @step a l hc _ ih =>
    refine .step (hcell a mem_cons_self hc) ?_
    rw [hnext a mem_cons_self]
    exact ih (fun x hx => hnext x (mem_cons_of_mem a hx)) fun x hx =>
      hcell x (mem_cons_of_mem a hx)

theorem congr (h : Walk next cell stop a l) (hnext : ∀ x ∈ l, next' x = next x) :
    Walk next' cell stop a l :=
  h.transfer hnext fun _ _ hc => hc

theorem tail_of_append {z : α} {rest : List α} : ∀ {a : α} {l : List α},
    Walk next cell stop a (l ++ z :: rest) → Walk next cell stop z (z :: rest)
  | _, [], h => by
    cases h with
    | step hc hr => exact .step hc hr
  | _, _ :: _, .step _ hr => tail_of_append hr

/-- **The walk behind a changed successor.** The cells in front of `z` keep their successors, and
from the new successor of `z` on the walk visits `rest'`. -/
theorem splice {z : α} {rest rest' : List α} : ∀ {a : α} {l : List α},
    Walk next cell stop a (l ++ z :: rest) → (∀ x ∈ l, next' x = next x) →
    Walk next' cell stop (next' z) rest' → Walk next' cell stop a (l ++ z :: rest')
  | _, [], h, _, hr => by
    cases h with
    | step hc _ => exact .step hc hr
  | _, b :: l, .step hc h, hnext, hr => by
    refine .step hc ?_
    rw [hnext b mem_cons_self]
    exact splice h (fun x hx => hnext x (mem_cons_of_mem b hx)) hr

theorem append_walk {rest : List α} (hne : l ≠ []) (h : Walk next cell stop a l)
    (hkeep : ∀ x ∈ l.dropLast, next' x = next x)
    (hrest : Walk next' cell stop (next' (l.getLast hne)) rest) :
    Walk next' cell stop a (l ++ rest) := by
  have hsplit : l.dropLast ++ [l.getLast hne] = l := dropLast_append_getLast hne
  rw [← hsplit] at h
  have hsplice := h.splice hkeep hrest
  rwa [append_cons, hsplit] at hsplice

theorem start_eq {b : α} (h : Walk next cell stop a (b :: l)) : a = b := by
  cases h
  rfl

/-- The successor of a cell that is not the last is a cell. -/
theorem next_cell (h : Walk next cell stop a l) :
    ∀ x ∈ l, l.getLast? ≠ some x → cell (next x) := by
  induction h with
  | done _ => nofun
  | @step a l _ hr ih =>
    intro x hx hlast
    cases hr with
    | done _ => exact absurd (congrArg some (mem_singleton.1 hx).symm) hlast
    | step hc hr =>
      rcases mem_cons.1 hx with rfl | hx
      · exact hc
      · exact ih x hx (by rwa [getLast?_cons_cons] at hlast)

section

variable (hdisj : ∀ a, cell a → ¬ stop a)
include hdisj

theorem unique {a : α} {l l' : List α} (h : Walk next cell stop a l)
    (h' : Walk next cell stop a l') : l = l' := by
  induction h generalizing l' with
  | done hs =>
    cases h' with
    | done _ => rfl
    | step hc _ => exact absurd hs (hdisj _ hc)
  | step hc _ ih =>
    cases h' with
    | done hs => exact absurd hs (hdisj _ hc)
    | step _ hr => rw [ih hr]

theorem nodup {a : α} {l : List α} (h : Walk next cell stop a l) : l.Nodup := by
  induction h with
  | done _ => exact nodup_nil
  | @step a l hc hr ih =>
    refine nodup_cons.mpr ⟨fun hmem => ?_, ih⟩
    -- a second visit of `a` would start the same walk again, one cell shorter
    obtain ⟨l1, l2, hl⟩ := append_of_mem hmem
    have htail := tail_of_append (hl ▸ hr)
    have heq := unique hdisj (.step hc hr) htail
    rw [hl] at heq
    have hlen := congrArg List.length heq
    simp only [length_cons, length_append] at hlen
    omega

end

end Walk

end Kerners.Lib
