import Kerners.Lib.Machine
import Kerners.Lib.Object

/-!
# Linearizable objects

Calls of an object overlap: a history is the list of their invocations and returns. `Linearizes` says
that a list of calls with results explains a history. The list is a run of the sequential
specification, it has each call at most once and every call that has returned, with the result it
returned, and a call that returned before another one was invoked comes first.

`LogStep` is the machine behind such an explanation: an invoked call takes effect once, in one step of
the specification, and returns the result of that step. `linearizes_of_reach` is the rule that
whatever this machine records is linearizable, by the order in which the calls took effect.
-/

namespace Kerners.Lib

open List

variable {ι R A : Type*} {spec : A → ι → R → A → Prop}

inductive CallEvent (ι R : Type*) where
  | inv (i : ι)
  | ret (i : ι) (r : R)
  deriving DecidableEq

/-- A sequential run of the specification through these calls, with these results. -/
def Legal (spec : A → ι → R → A → Prop) (a : A) (order : List (ι × R)) (a' : A) : Prop :=
  SpecRuns spec a (order.map Prod.fst) (order.map Prod.snd) a'

theorem legal_nil (a : A) : Legal spec a [] a := .nil

theorem legal_cons_iff {a c : A} {i : ι} {r : R} {l : List (ι × R)} :
    Legal spec a ((i, r) :: l) c ↔ ∃ b, spec a i r b ∧ Legal spec b l c := by
  constructor
  · rintro (_ | ⟨hstep, hrest⟩)
    exact ⟨_, hstep, hrest⟩
  · rintro ⟨b, hstep, hrest⟩
    exact .cons hstep hrest

theorem legal_append_iff {a c : A} {l l' : List (ι × R)} :
    Legal spec a (l ++ l') c ↔ ∃ b, Legal spec a l b ∧ Legal spec b l' c := by
  induction l generalizing a with
  | nil =>
    constructor
    · exact fun h => ⟨a, legal_nil a, h⟩
    · rintro ⟨b, ⟨⟩, h⟩
      exact h
  | cons p l ih =>
    rw [cons_append, legal_cons_iff]
    constructor
    · rintro ⟨b, hstep, hrest⟩
      obtain ⟨b', hl, hl'⟩ := ih.mp hrest
      exact ⟨b', legal_cons_iff.mpr ⟨b, hstep, hl⟩, hl'⟩
    · rintro ⟨b', hl, hl'⟩
      obtain ⟨b, hstep, hrest⟩ := legal_cons_iff.mp hl
      exact ⟨b, hstep, ih.mpr ⟨b', hrest, hl'⟩⟩

/-- The calls in this order, with these results, explain the history. -/
structure Linearizes (spec : A → ι → R → A → Prop) (start : A) (hist : List (CallEvent ι R))
    (order : List (ι × R)) : Prop where
  legal : ∃ a, Legal spec start order a
  once : (order.map Prod.fst).Nodup
  invoked : ∀ {i r}, (i, r) ∈ order → CallEvent.inv i ∈ hist
  answered : ∀ {i r}, CallEvent.ret i r ∈ hist → (i, r) ∈ order
  realTime : ∀ {i r j r'}, [CallEvent.ret i r, CallEvent.inv j].Sublist hist → (j, r') ∈ order →
    [(i, r), (j, r')].Sublist order

structure CallLog (ι R : Type*) where
  hist : List (CallEvent ι R)
  order : List (ι × R)

/-- A call is invoked, takes effect once, and returns the result it had then. -/
inductive LogStep (spec : A → ι → R → A → Prop) : CallLog ι R × A → CallLog ι R × A → Prop
  | invoke {l a i} (hnew : CallEvent.inv i ∉ l.hist) :
    LogStep spec (l, a) (⟨l.hist ++ [.inv i], l.order⟩, a)
  | effect {l a i r a'} (hinv : CallEvent.inv i ∈ l.hist) (hnew : i ∉ l.order.map Prod.fst)
    (hspec : spec a i r a') : LogStep spec (l, a) (⟨l.hist, l.order ++ [(i, r)]⟩, a')
  | answer {l a i r} (hdone : (i, r) ∈ l.order) :
    LogStep spec (l, a) (⟨l.hist ++ [.ret i r], l.order⟩, a)

variable {l : CallLog ι R} {start a : A} {i : ι} {r : R}

theorem pair_sublist_concat {α : Type*} {x y z : α} {t : List α} (h : [x, y].Sublist (t ++ [z])) :
    [x, y].Sublist t ∨ (y = z ∧ x ∈ t) := by
  obtain ⟨l1, l2, hsplit, h1, h2⟩ := sublist_append_iff.mp h
  rcases sublist_cons_iff.mp h2 with hnil | ⟨t', rfl, hnil⟩
  · rw [sublist_nil.mp hnil, append_nil] at hsplit
    exact .inl (hsplit ▸ h1)
  · obtain rfl := sublist_nil.mp hnil
    obtain ⟨rfl, hyz⟩ : [x] = l1 ∧ y = z := by
      have := append_inj' (show [x] ++ [y] = l1 ++ [z] from hsplit) rfl
      exact ⟨this.1, singleton_inj.mp this.2⟩
    exact .inr ⟨hyz, singleton_sublist.mp h1⟩

theorem Linearizes.invoke (h : Linearizes spec start l.hist l.order)
    (hnew : CallEvent.inv i ∉ l.hist) : Linearizes spec start (l.hist ++ [.inv i]) l.order where
  legal := h.legal
  once := h.once
  invoked hm := mem_append_left _ (h.invoked hm)
  answered hm := by
    rcases mem_append.mp hm with hm | hm
    · exact h.answered hm
    · cases mem_singleton.mp hm
  realTime hs hm := by
    rcases pair_sublist_concat hs with hs | ⟨hj, _⟩
    · exact h.realTime hs hm
    · cases hj
      exact absurd (h.invoked hm) hnew

theorem Linearizes.effect (h : Linearizes spec start l.hist l.order) (hrun : Legal spec start l.order a)
    (hinv : CallEvent.inv i ∈ l.hist) (hnew : i ∉ l.order.map Prod.fst) {a' : A}
    (hspec : spec a i r a') : Linearizes spec start l.hist (l.order ++ [(i, r)]) where
  legal := ⟨a', legal_append_iff.mpr ⟨a, hrun, legal_cons_iff.mpr ⟨a', hspec, legal_nil a'⟩⟩⟩
  once := by
    rw [map_append, map_singleton]
    refine nodup_append.mpr ⟨h.once, by simp, ?_⟩
    intro x hx y hy hxy
    obtain rfl := mem_singleton.mp hy
    exact hnew (hxy ▸ hx)
  invoked hm := by
    rcases mem_append.mp hm with hm | hm
    · exact h.invoked hm
    · cases mem_singleton.mp hm
      exact hinv
  answered hm := mem_append_left _ (h.answered hm)
  realTime hs hm := by
    rcases mem_append.mp hm with hm | hm
    · exact (h.realTime hs hm).trans (sublist_append_left _ _)
    · cases mem_singleton.mp hm
      -- the earlier call has returned, so it has taken effect before
      have hret := h.answered (hs.subset mem_cons_self)
      exact (singleton_sublist.mpr hret).append (List.Sublist.refl _)

theorem Linearizes.answer (h : Linearizes spec start l.hist l.order) (hdone : (i, r) ∈ l.order) :
    Linearizes spec start (l.hist ++ [.ret i r]) l.order where
  legal := h.legal
  once := h.once
  invoked hm := mem_append_left _ (h.invoked hm)
  answered hm := by
    rcases mem_append.mp hm with hm | hm
    · exact h.answered hm
    · cases mem_singleton.mp hm
      exact hdone
  realTime hs hm := by
    rcases pair_sublist_concat hs with hs | ⟨hj, _⟩
    · exact h.realTime hs hm
    · cases hj

theorem linearizes_of_reach {p : CallLog ι R × A} (h : Reach (LogStep spec) (⟨[], []⟩, start) p) :
    Linearizes spec start p.1.hist p.1.order := by
  have hboth : Linearizes spec start p.1.hist p.1.order ∧ Legal spec start p.1.order p.2 := by
    refine h.invariant (P := fun p => Linearizes spec start p.1.hist p.1.order ∧
      Legal spec start p.1.order p.2) ?_ ?_
    · exact ⟨⟨⟨start, legal_nil start⟩, nodup_nil, fun hm => absurd hm not_mem_nil,
        fun hm => absurd hm not_mem_nil, fun _ hm => absurd hm not_mem_nil⟩,
        legal_nil start⟩
    · rintro s s' ⟨hlin, hrun⟩ hstep
      cases hstep with
      | invoke hnew => exact ⟨hlin.invoke hnew, hrun⟩
      | effect hinv hnew hspec =>
        exact ⟨hlin.effect hrun hinv hnew hspec,
          legal_append_iff.mpr ⟨_, hrun, legal_cons_iff.mpr ⟨_, hspec, legal_nil _⟩⟩⟩
      | answer hdone => exact ⟨hlin.answer hdone, hrun⟩
  exact hboth.1

end Kerners.Lib
