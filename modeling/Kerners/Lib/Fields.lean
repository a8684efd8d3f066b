import Mathlib.Algebra.Group.Int.Defs
import Mathlib.Algebra.Group.Nat.Defs
import Mathlib.Tactic.Common

/-!
# Bit fields and immediates

A field of a word is `w.extractLsb' lo len`. The first part says what the operations an encoder uses
leave in a field: masks, shifts and their union. The rules have literal side conditions, so
`simp (disch := decide) only [..]` computes a field of a patched word.

The second part is about the numbers in the fields: signed ones, and a distance split into an upper
and a lower part.
-/

namespace Kerners.Lib

open BitVec

/-! ## Fields of a patched word -/

section

variable {w lo len k : Nat} {x mask : BitVec w}

theorem field_keep (x : BitVec w) (h : mask.extractLsb' lo len = BitVec.allOnes len) :
    (x &&& mask).extractLsb' lo len = x.extractLsb' lo len := by
  rw [extractLsb'_and, h, and_allOnes]

theorem field_clear (x : BitVec w) (h : mask.extractLsb' lo len = BitVec.ofNat len 0) :
    (x &&& mask).extractLsb' lo len = BitVec.ofNat len 0 := by
  rw [extractLsb'_and, h, and_zero]

theorem field_shiftLeft (x : BitVec w) (h : k ≤ lo) (hw : lo + len ≤ w) :
    (x <<< k).extractLsb' lo len = x.extractLsb' (lo - k) len := by
  apply eq_of_getLsbD_eq
  intro i hi
  have h1 : lo + i < w := by omega
  have h2 : ¬ lo + i < k := by omega
  simp only [getLsbD_extractLsb', getLsbD_shiftLeft, hi, h1, h2, decide_true,
    decide_false, Bool.not_false, Bool.true_and]
  congr 1
  omega

theorem field_shiftLeft_below (x : BitVec w) (h : lo + len ≤ k) :
    (x <<< k).extractLsb' lo len = BitVec.ofNat len 0 := by
  apply eq_of_getLsbD_eq
  intro i hi
  have h1 : lo + i < k := by omega
  simp [getLsbD_extractLsb', getLsbD_shiftLeft, h1]

theorem field_sshiftRight (x : BitVec w) (h : lo + k + len ≤ w) :
    (x.sshiftRight k).extractLsb' lo len = x.extractLsb' (lo + k) len := by
  apply eq_of_getLsbD_eq
  intro i hi
  have h1 : ¬ w ≤ lo + i := by omega
  have h2 : k + (lo + i) < w := by omega
  simp only [getLsbD_extractLsb', getLsbD_sshiftRight, hi, h1, h2, decide_true,
    decide_false, Bool.not_false, Bool.true_and, if_true]
  congr 1
  omega

theorem field_setWidth {v : Nat} (x : BitVec w) (h : lo + len ≤ v) :
    (x.setWidth v).extractLsb' lo len = x.extractLsb' lo len := by
  apply eq_of_getLsbD_eq
  intro i hi
  have h1 : lo + i < v := by omega
  simp [hi, h1]

theorem field_field {lo' len' : Nat} (x : BitVec w) (h : lo + len ≤ len') :
    (x.extractLsb' lo' len').extractLsb' lo len = x.extractLsb' (lo' + lo) len := by
  apply eq_of_getLsbD_eq
  intro i hi
  have h1 : lo + i < len' := by omega
  simp [hi, h1, Nat.add_assoc]

end

/-! ## Signed immediates -/

/-- The word `d`, read as a signed number, has `n` bits. -/
def FitsSigned (n : Nat) {w : Nat} (d : BitVec w) : Prop :=
  -(2 ^ (n - 1) : Int) ≤ d.toInt ∧ d.toInt < 2 ^ (n - 1)

instance {n w : Nat} (d : BitVec w) : Decidable (FitsSigned n d) := inferInstanceAs (Decidable (_ ∧ _))

theorem signExtend_low_iff {n w : Nat} {d : BitVec w} (hn : 0 < n) (hw : n ≤ w) :
    (d.extractLsb' 0 n).signExtend w = d ↔ FitsSigned n d := by
  have hpow : (2 ^ n : Nat) = 2 * 2 ^ (n - 1) := by
    rw [← Nat.pow_succ', Nat.succ_eq_add_one, Nat.sub_add_cancel hn]
  have hI : ((2 ^ n : Nat) : Int) = 2 * 2 ^ (n - 1) := by rw [hpow]; push_cast; rfl
  have hlow : (d.extractLsb' 0 n).toInt = d.toInt.bmod (2 ^ n) := by
    rw [← setWidth_eq_extractLsb' hw, toInt_setWidth, toInt_eq_toNat_bmod,
      Int.bmod_bmod_of_dvd (Nat.pow_dvd_pow 2 hw)]
  rw [← toInt_inj, toInt_signExtend_of_le hw, hlow, FitsSigned]
  constructor
  · intro h
    have h1 := Int.le_bmod (x := d.toInt) (m := 2 ^ n) (Nat.two_pow_pos n)
    have h2 := Int.bmod_lt (x := d.toInt) (m := 2 ^ n) (Nat.two_pow_pos n)
    omega
  · intro h
    exact Int.bmod_eq_of_le (by omega) (by omega)

theorem signExtend_low {n w : Nat} {d : BitVec w} (h : FitsSigned n d) (hn : 0 < n) (hw : n ≤ w) :
    (d.extractLsb' 0 n).signExtend w = d := (signExtend_low_iff hn hw).mpr h

theorem field_append_zero {w lo len k : Nat} {x : BitVec w}
    (h : x.extractLsb' lo k = BitVec.ofNat k 0) :
    x.extractLsb' (lo + k) len ++ BitVec.ofNat k 0 = x.extractLsb' lo (len + k) := by
  rw [← h, extractLsb'_append_extractLsb'_eq_extractLsb' rfl]

/-! ## Distances in two parts -/

def hi20 (d : BitVec 64) : BitVec 20 := (d + 0x800#64).extractLsb' 12 20

def hiLo (hi : BitVec 20) (lo : BitVec 12) : BitVec 64 :=
  (hi ++ 0#12).signExtend 64 + lo.signExtend 64

theorem toInt_hi (d : BitVec 64) :
    ((hi20 d ++ 0#12).signExtend 64).toInt =
      ((d.toInt + 2048) / 2 ^ 12 % 2 ^ 20 * 2 ^ 12).bmod (2 ^ 32) := by
  have hd := d.isLt
  have hn : (hi20 d ++ 0#12).toNat = (d.toNat + 2048) % 2 ^ 64 / 2 ^ 12 % 2 ^ 20 * 2 ^ 12 := by
    rw [toNat_append, hi20, extractLsb'_toNat, toNat_add,
      Nat.shiftRight_eq_div_pow, Nat.shiftLeft_eq]
    simp
  have hi : d.toInt = (d.toNat : Int) ∨ d.toInt = (d.toNat : Int) - 2 ^ 64 := by
    rw [toInt_eq_toNat_cond]
    split
    · exact .inl rfl
    · exact .inr rfl
  rw [toInt_signExtend_of_le (by decide), toInt_eq_toNat_bmod, hn]
  congr 1
  omega

theorem toInt_lo (d : BitVec 64) :
    ((d.extractLsb' 0 12).signExtend 64).toInt = (d.toInt % 2 ^ 12).bmod (2 ^ 12) := by
  rw [toInt_signExtend_of_le (by decide), ← setWidth_eq_extractLsb' (by decide),
    toInt_setWidth, toInt_eq_toNat_bmod]
  simp only [Int.bmod]
  omega

/-- **The reach of a split distance.** The rounded upper part and the signed lower part add up to
the distance exactly for distances from `-2^31 - 2^11` up to `2^31 - 2^11`. -/
theorem hiLo_eq_iff (d : BitVec 64) : hiLo (hi20 d) (d.extractLsb' 0 12) = d ↔ -2 ^ 31 - 2 ^ 11 ≤
    d.toInt ∧ d.toInt < 2 ^ 31 - 2 ^ 11 := by
  rw [hiLo, ← toInt_inj, toInt_add, toInt_hi, toInt_lo]
  generalize d.toInt = v
  have h1 := Int.le_bmod (x := (v + 2048) / 2 ^ 12 % 2 ^ 20 * 2 ^ 12) (m := 2 ^ 32) (by decide)
  have h2 := Int.bmod_lt (x := (v + 2048) / 2 ^ 12 % 2 ^ 20 * 2 ^ 12) (m := 2 ^ 32) (by decide)
  have h3 := Int.le_bmod (x := v % 2 ^ 12) (m := 2 ^ 12) (by decide)
  have h4 := Int.bmod_lt (x := v % 2 ^ 12) (m := 2 ^ 12) (by decide)
  rw [Int.bmod_eq_of_le (by omega) (by omega)]
  simp only [Int.bmod]
  omega

def InReach (d : BitVec 64) : Prop := -2 ^ 31 - 2 ^ 11 ≤ d.toInt ∧ d.toInt < 2 ^ 31 - 2 ^ 11

instance (d : BitVec 64) : Decidable (InReach d) := inferInstanceAs (Decidable (_ ∧ _))

end Kerners.Lib
