import Mathlib.Algebra.Group.Nat.Defs
import Mathlib.Data.List.Rotate

/-!
# Rounds over the numbers below a bound

`cyclic n x` are the numbers below `n` in increasing order, started behind `x` and wrapped around, so
that `x` comes last. `turn R n x` is the next number behind `x` with the property `R`. From `x` on, the
turns go once through the numbers with the property, in cyclic order, and come back to `x`.
-/

namespace Kerners.Lib

open List

/-- The numbers below `n` behind `x`, wrapped around. -/
def cyclic (n x : Nat) : List Nat := (List.range n).rotate (x + 1)

/-- The candidates behind `x`. -/
def candidates (R : Nat → Bool) (n x : Nat) : List Nat := (cyclic n x).filter R

/-- The next number behind `x` with the property, `x` itself when there is none. -/
def turn (R : Nat → Bool) (n x : Nat) : Nat := ((cyclic n x).find? R).getD x

variable {R : Nat → Bool} {n x : Nat}

theorem mem_candidates {i : Nat} : i ∈ candidates R n x ↔ i < n ∧ R i = true := by
  rw [candidates, mem_filter, cyclic, mem_rotate, mem_range]

theorem nodup_candidates : (candidates R n x).Nodup :=
  (nodup_rotate.mpr nodup_range).filter _

theorem cyclic_of_split {a b : List Nat} {y : Nat} (h : cyclic n x = a ++ y :: b) :
    cyclic n y = b ++ (a ++ [y]) := by
  have hlen : a.length + 1 + b.length = n := by
    have := congrArg List.length h
    rw [cyclic, length_rotate, length_range, length_append, length_cons] at this
    omega
  have hy : y = (a.length + (x + 1)) % n := by
    have hlt : a.length < (cyclic n x).length := by rw [h]; simp
    have hget : (cyclic n x)[a.length]? = some y := by rw [h]; simp
    rw [cyclic, getElem?_rotate (by simp; omega), length_range,
      getElem?_range (Nat.mod_lt _ (by omega))] at hget
    exact (Option.some.inj hget).symm
  have hrot : cyclic n y = (cyclic n x).rotate (a.length + 1) := by
    rw [cyclic, cyclic, rotate_rotate, hy, ← rotate_mod, ← rotate_mod _ (x + 1 + _),
      length_range, Nat.mod_add_mod]
    congr 2
    omega
  have happ : a ++ y :: b = (a ++ [y]) ++ b := by rw [append_assoc]; rfl
  rw [hrot, h, happ]
  have hl : a.length + 1 = (a ++ [y]).length := by simp
  rw [hl, rotate_append_length_eq]

theorem filter_cyclic_turn {y : Nat} {rest : List Nat} (h : candidates R n x = y :: rest) :
    turn R n x = y ∧ candidates R n y = rest ++ [y] := by
  obtain ⟨a, b, hsplit, hbefore, hy, hrest⟩ := filter_eq_cons_iff.mp h
  have hfind : (cyclic n x).find? R = some y := by
    rw [← head?_filter]
    have hc : (cyclic n x).filter R = y :: rest := h
    rw [hc]
    rfl
  refine ⟨by rw [turn, hfind]; rfl, ?_⟩
  have hnone : a.filter R = [] := filter_eq_nil_iff.mpr hbefore
  rw [candidates, cyclic_of_split hsplit, filter_append, filter_append, hrest, hnone,
    nil_append, filter_cons_of_pos hy, filter_nil]

theorem candidates_ne_nil (hx : x < n) (hR : R x = true) : candidates R n x ≠ [] :=
  ne_nil_of_mem (mem_candidates.mpr ⟨hx, hR⟩)

theorem candidates_turn (h : candidates R n x ≠ []) :
    candidates R n (turn R n x) = (candidates R n x).rotate 1 := by
  obtain ⟨y, rest, hl⟩ := exists_cons_of_ne_nil h
  obtain ⟨hturn, hcand⟩ := filter_cyclic_turn hl
  rw [hturn, hcand, hl, rotate_cons_succ, rotate_zero]

theorem candidates_turns (hx : x < n) (hR : R x = true) (j : Nat) :
    candidates R n ((turn R n)^[j] x) = (candidates R n x).rotate j := by
  induction j with
  | zero => exact (rotate_zero _).symm
  | succ j ih =>
    have hne : candidates R n ((turn R n)^[j] x) ≠ [] := by
      rw [ih]
      exact fun h => candidates_ne_nil hx hR (rotate_eq_nil_iff.mp h)
    rw [Function.iterate_succ_apply', candidates_turn hne, ih, rotate_rotate]

theorem turns_succ (hx : x < n) (hR : R x = true) (j : Nat) :
    ∃ y rest, (candidates R n x).rotate j = y :: rest ∧ (turn R n)^[j + 1] x = y := by
  have hcand := candidates_turns hx hR j
  have hne : (candidates R n x).rotate j ≠ [] := fun h =>
    candidates_ne_nil hx hR (rotate_eq_nil_iff.mp h)
  obtain ⟨y, rest, hl⟩ := exists_cons_of_ne_nil hne
  rw [hl] at hcand
  exact ⟨y, rest, hl, by rw [Function.iterate_succ_apply', (filter_cyclic_turn hcand).1]⟩

theorem turns_eq (hx : x < n) (hR : R x = true) {j : Nat} (hj : j < (candidates R n x).length) :
    (turn R n)^[j + 1] x = (candidates R n x)[j] := by
  obtain ⟨y, rest, hl, hturn⟩ := turns_succ hx hR j
  have hhead : ((candidates R n x).rotate j)[0]? = some (candidates R n x)[j] := by
    rw [getElem?_rotate (by omega), Nat.zero_add, Nat.mod_eq_of_lt hj,
      getElem?_eq_getElem hj]
  rw [hl] at hhead
  rw [hturn]
  exact Option.some.inj hhead

theorem length_candidates : (candidates R n x).length = ((List.range n).filter R).length :=
  ((rotate_perm _ _).filter _).length_eq

theorem getLast?_candidates (hx : x < n) (hR : R x = true) :
    (candidates R n x).getLast? = some x := by
  have hlast : cyclic n x = (List.range n).drop (x + 1) ++ List.range x ++ [x] := by
    rw [cyclic, rotate_eq_drop_append_take (by rw [length_range]; omega),
      take_range, Nat.min_eq_left (by omega), range_succ, append_assoc]
  rw [candidates, hlast, filter_append, filter_cons_of_pos hR, filter_nil, getLast?_append]
  rfl

theorem turns_round (hx : x < n) (hR : R x = true) :
    (turn R n)^[(candidates R n x).length] x = x := by
  have hpos : 0 < (candidates R n x).length :=
    length_pos_of_mem (mem_candidates.mpr ⟨hx, hR⟩)
  have hlast := getLast?_candidates hx hR
  rw [getLast?_eq_getElem?, getElem?_eq_getElem (by omega)] at hlast
  have hturn := turns_eq (j := (candidates R n x).length - 1) hx hR (by omega)
  rw [Nat.sub_add_cancel hpos] at hturn
  rw [hturn, Option.some.inj hlast]

theorem turns_candidate (hx : x < n) (hR : R x = true) (j : Nat) :
    (turn R n)^[j] x < n ∧ R ((turn R n)^[j] x) = true := by
  cases j with
  | zero => exact ⟨hx, hR⟩
  | succ j =>
    obtain ⟨y, rest, hl, hturn⟩ := turns_succ hx hR j
    have hmem : y ∈ (candidates R n x).rotate j := by
      rw [hl]
      exact mem_cons_self
    rw [hturn]
    exact mem_candidates.mp (mem_rotate.mp hmem)

end Kerners.Lib
