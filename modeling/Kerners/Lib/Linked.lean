import Mathlib.Algebra.Group.Nat.Defs
import Mathlib.Data.List.Nodup

/-!
# Lists threaded through a table of successors

Two kinds of list can share one `next` field. A counted list is the first `n` elements from a head
(`follow`); a flagged list goes on while a flag says so (`Chained`, computed by `chain`). Both
depend only on the fields of their own elements (`follow_congr`, `Chained.congr`), and the front of a
counted list becomes a flagged one by setting its flags (`chained_follow`).
-/

namespace Kerners.Lib

open List

variable {α : Type*} {next next' : α → α} {more more' : α → Bool} {n : Nat} {a : α} {l : List α}

/-- The first `n` elements from `a`. -/
def follow (next : α → α) : Nat → α → List α
  | 0, _ => []
  | n + 1, a => a :: follow next n (next a)

@[simp] theorem length_follow (n : Nat) (a : α) : (follow next n a).length = n := by
  induction n generalizing a with
  | zero => rfl
  | succ n ih => simp [follow, ih]

theorem follow_congr (h : ∀ x ∈ follow next n a, next' x = next x) :
    follow next' n a = follow next n a := by
  induction n generalizing a with
  | zero => rfl
  | succ n ih =>
    unfold follow
    rw [h a mem_cons_self, ih fun x hx => h x (mem_cons_of_mem a hx)]

/-- The list goes on from each element but the last, to the successor. -/
def Chained (more : α → Bool) (next : α → α) : List α → Prop
  | [] => False
  | [x] => more x = false
  | x :: y :: l => more x = true ∧ next x = y ∧ Chained more next (y :: l)

theorem Chained.congr : ∀ {l : List α}, Chained more next l →
    (∀ x ∈ l, more' x = more x ∧ next' x = next x) → Chained more' next' l
  | [], h, _ => h
  | [x], h, hsame => (hsame x mem_cons_self).1.trans h
  | x :: y :: l, ⟨hm, hn, hrest⟩, hsame => by
    obtain ⟨hm', hn'⟩ := hsame x mem_cons_self
    exact ⟨hm'.trans hm, hn'.trans hn,
      Chained.congr hrest fun z hz => hsame z (mem_cons_of_mem x hz)⟩

/-- The flagged list from `a`, `none` if it has more than `n` elements. -/
def chain (more : α → Bool) (next : α → α) : Nat → α → Option (List α)
  | 0, _ => none
  | n + 1, a => if more a = true then (chain more next n (next a)).map (a :: ·) else some [a]

theorem Chained.chain_eq (h : Chained more next (a :: l)) (hn : (a :: l).length ≤ n) :
    chain more next n a = some (a :: l) := by
  induction l generalizing a n with
  | nil =>
    obtain ⟨n, rfl⟩ := Nat.exists_eq_add_of_le' (show 1 ≤ n from hn)
    have hm : ¬ more a = true := Bool.not_eq_true _ ▸ (h : more a = false)
    rw [chain, if_neg hm]
  | cons y l ih =>
    obtain ⟨n, rfl⟩ := Nat.exists_eq_add_of_le' (show 1 ≤ n by simp at hn; omega)
    obtain ⟨hm, rfl, hrest⟩ := h
    rw [chain, if_pos hm, ih hrest (by simp at hn ⊢; omega)]
    rfl

theorem chained_of_chain (h : chain more next n a = some l) :
    ∃ t, l = a :: t ∧ Chained more next (a :: t) := by
  induction n generalizing a l with
  | zero => cases h
  | succ n ih =>
    unfold chain at h
    split at h
    · rename_i hm
      obtain ⟨l', hl', rfl⟩ := Option.map_eq_some_iff.1 h
      obtain ⟨t, rfl, hc⟩ := ih hl'
      exact ⟨_, rfl, hm, rfl, hc⟩
    · rename_i hm
      obtain rfl := Option.some.inj h
      exact ⟨[], rfl, Bool.eq_false_iff.2 hm⟩

theorem Chained.eq_follow (h : Chained more next (a :: l)) :
    a :: l = follow next (l.length + 1) a := by
  induction l generalizing a with
  | nil => rfl
  | cons y l ih =>
    obtain ⟨_, rfl, hrest⟩ := h
    exact congrArg (a :: ·) (ih hrest)

theorem Chained.exists_not_more (h : Chained more next l) : ∃ x ∈ l, more x = false := by
  induction l with
  | nil => exact h.elim
  | cons x l ih =>
    cases l with
    | nil => exact ⟨x, mem_cons_self, h⟩
    | cons y l =>
      obtain ⟨z, hz, hmore⟩ := ih h.2.2
      exact ⟨z, mem_cons_of_mem x hz, hmore⟩

theorem chained_follow (h : (follow next (n + 1) a).map more = List.replicate n true ++ [false]) :
    Chained more next (follow next (n + 1) a) := by
  induction n generalizing a with
  | zero => simpa [follow, Chained] using h
  | succ n ih =>
    rw [follow, map_cons, replicate_succ, cons_append, List.cons.injEq] at h
    have hrest := ih h.2
    rw [follow] at hrest ⊢
    exact ⟨h.1, rfl, hrest⟩

end Kerners.Lib
