import Mathlib.Algebra.Group.Nat.Defs
import Mathlib.Data.List.Basic

/-!
# Lists of components behind separators

A list of components is written by putting the separator in front of each one. `joined` writes it,
`List.splitOn` reads it back (`splitOn_joined`), and a text that starts with another one, at a
component boundary, has that one's components in front (`joined_append_eq`).
-/

namespace Kerners.Lib

open List

variable {α : Type*} {sep : α}

def joined (sep : α) (cs : List (List α)) : List α := cs.flatMap (sep :: ·)

def SepFree (sep : α) (cs : List (List α)) : Prop := ∀ c ∈ cs, sep ∉ c

@[simp] theorem joined_nil : joined sep [] = [] := rfl

@[simp] theorem joined_cons (c : List α) (cs : List (List α)) :
    joined sep (c :: cs) = sep :: (c ++ joined sep cs) := by
  simp [joined]

theorem joined_append (cs ds : List (List α)) :
    joined sep (cs ++ ds) = joined sep cs ++ joined sep ds := by
  simp [joined]

theorem joined_eq_nil {cs : List (List α)} : joined sep cs = [] ↔ cs = [] := by
  cases cs <;> simp

/-- What follows a component: nothing, or a text that starts with the separator. -/
def AtBoundary (sep : α) (t : List α) : Prop := t = [] ∨ ∃ t', t = sep :: t'

theorem atBoundary_joined (cs : List (List α)) : AtBoundary sep (joined sep cs) := by
  cases cs with
  | nil => exact .inl rfl
  | cons c cs => exact .inr ⟨_, joined_cons c cs⟩

theorem component_inj {c d t u : List α} (hc : sep ∉ c) (hd : sep ∉ d) (ht : AtBoundary sep t)
    (hu : AtBoundary sep u) (h : c ++ t = d ++ u) : c = d ∧ t = u := by
  induction c generalizing d with
  | nil =>
    cases d with
    | nil => exact ⟨rfl, h⟩
    | cons y d =>
      rcases ht with rfl | ⟨t', rfl⟩
      · simp at h
      · simp only [nil_append, cons_append, cons.injEq] at h
        exact absurd (h.1 ▸ mem_cons_self) hd
  | cons x c ih =>
    cases d with
    | nil =>
      rcases hu with rfl | ⟨u', rfl⟩
      · simp at h
      · simp only [nil_append, cons_append, cons.injEq] at h
        exact absurd (h.1 ▸ mem_cons_self) hc
    | cons y d =>
      simp only [cons_append, cons.injEq] at h
      obtain ⟨rfl, h⟩ := h
      obtain ⟨rfl, rfl⟩ := ih (fun hm => hc (mem_cons_of_mem _ hm))
        (fun hm => hd (mem_cons_of_mem _ hm)) h
      exact ⟨rfl, rfl⟩

/-- A written list that starts with another one at a boundary starts with its components, and the
rest is the remaining components, written. -/
theorem joined_append_eq {ds cs : List (List α)} {t : List α} (hd : SepFree sep ds)
    (hc : SepFree sep cs) (ht : AtBoundary sep t) (h : joined sep ds ++ t = joined sep cs) :
    ∃ es, cs = ds ++ es ∧ t = joined sep es := by
  induction ds generalizing cs with
  | nil => exact ⟨cs, rfl, h⟩
  | cons d ds ih =>
    cases cs with
    | nil => simp at h
    | cons c cs =>
      simp only [joined_cons, cons_append, append_assoc, cons.injEq, true_and] at h
      have hbd : AtBoundary sep (joined sep ds ++ t) := by
        have hds : AtBoundary sep (joined sep ds) := atBoundary_joined ds
        rcases hds with hnil | ⟨t', ht'⟩
        · rwa [hnil, nil_append]
        · exact .inr ⟨t' ++ t, by rw [ht', cons_append]⟩
      obtain ⟨rfl, hrest⟩ := component_inj (hd d mem_cons_self) (hc c mem_cons_self) hbd
        (atBoundary_joined cs) h
      obtain ⟨es, rfl, rfl⟩ := ih (fun c hm => hd c (mem_cons_of_mem _ hm))
        (fun c hm => hc c (mem_cons_of_mem _ hm)) hrest
      exact ⟨es, rfl, rfl⟩

theorem joined_eq_append_sep {cs : List (List α)} {m t : List α} (hc : SepFree sep cs)
    (h : m ++ sep :: t = joined sep cs) :
    ∃ ds es, cs = ds ++ es ∧ m = joined sep ds ∧ sep :: t = joined sep es := by
  induction cs generalizing m with
  | nil => simp at h
  | cons c cs ih =>
    cases m with
    | nil => exact ⟨[], c :: cs, rfl, rfl, h⟩
    | cons x m =>
      rw [joined_cons, cons_append, cons.injEq] at h
      obtain ⟨rfl, h⟩ := h
      rcases append_eq_append_iff.1 h with ⟨a, ha, ht⟩ | ⟨a, ha, ht⟩
      · cases a with
        | nil => exact ⟨[c], cs, rfl, by simp [ha], ht⟩
        | cons y a =>
          obtain ⟨rfl, -⟩ := cons.inj ht
          exact absurd (by simp [ha]) (hc c mem_cons_self)
      · obtain ⟨ds, es, rfl, rfl, he⟩ := ih (fun d hd => hc d (mem_cons_of_mem _ hd)) ht.symm
        exact ⟨c :: ds, es, rfl, by simp [ha], he⟩

theorem length_joined_lt {ds es : List (List α)} (h : es ≠ []) :
    (joined sep ds).length < (joined sep (ds ++ es)).length := by
  have hpos := length_pos_iff.2 (mt joined_eq_nil.1 h : joined sep es ≠ [])
  rw [joined_append, length_append]
  omega

variable [BEq α] [LawfulBEq α]

theorem splitOn_joined {cs : List (List α)} (h : SepFree sep cs) :
    (joined sep cs).splitOn sep = [] :: cs := by
  induction cs with
  | nil => rfl
  | cons c cs ih =>
    have hc : ∀ x ∈ c, (x == sep) = false := fun x hx =>
      beq_eq_false_iff_ne.2 fun he => h c mem_cons_self (he ▸ hx)
    have hcs := ih fun d hd => h d (mem_cons_of_mem _ hd)
    unfold splitOn at hcs ⊢
    rw [joined_cons, splitOnP_cons_eq_if_modifyHead, if_pos (by simp)]
    congr 1
    cases cs with
    | nil => simpa using splitOnP_eq_singleton hc
    | cons d ds =>
      rw [joined_cons, splitOnP_cons_eq_if_modifyHead, if_pos (by simp)] at hcs
      rw [joined_cons, splitOnP_append_cons_of_forall_mem hc sep (by simp)]
      rw [cons.injEq] at hcs
      rw [hcs.2]

theorem sepFree_splitOn (l : List α) : SepFree sep (l.splitOn sep) := by
  unfold splitOn
  induction l with
  | nil => simp [SepFree]
  | cons x l ih =>
    rw [splitOnP_cons_eq_if_modifyHead]
    split
    · intro c hc
      rcases mem_cons.1 hc with rfl | hc
      · simp
      · exact ih c hc
    · rename_i hx
      have hne : sep ≠ x := fun h => hx (by simp [h])
      cases hl : l.splitOnP (· == sep) with
      | nil => simp [SepFree]
      | cons d ds =>
        rw [hl] at ih
        intro c hc
        rcases mem_cons.1 hc with rfl | hc
        · have := ih d mem_cons_self
          simp [hne, this]
        · exact ih c (mem_cons_of_mem _ hc)

end Kerners.Lib
