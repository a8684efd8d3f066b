import Mathlib.Algebra.Group.Int.Defs
import Mathlib.Algebra.Group.Nat.Defs
import Mathlib.Tactic.Common

/-!
# Machine integers

Results of operations on fixed-width integers, as integers and naturals: `wrapInt w` is what a
signed integer of `w` bits keeps of a result, `incWord` and `decWord` are the atomic increment and
decrement of an unsigned word of 64 bits. Each comes with the lemma for operands that do not wrap.
-/

namespace Kerners.Lib

/-- A signed result of `w` bits. -/
def wrapInt (w : Nat) (x : Int) : Int := x.bmod (2 ^ w)

/-- An `i32` result. -/
def wrapI32 (x : Int) : Int := wrapInt 32 x

/-- An `isize` result. -/
def wrapIsize (x : Int) : Int := wrapInt 64 x

theorem wrapI32_of_lt {x : Int} (h0 : -2 ^ 31 ≤ x) (h1 : x < 2 ^ 31) : wrapI32 x = x :=
  Int.bmod_eq_of_le (by omega) (by omega)

theorem wrapIsize_of_lt {x : Int} (h0 : -2 ^ 63 ≤ x) (h1 : x < 2 ^ 63) : wrapIsize x = x :=
  Int.bmod_eq_of_le (by omega) (by omega)

theorem wrapInt_add_wrapInt (w : Nat) (x y : Int) :
    wrapInt w (wrapInt w x + y) = wrapInt w (x + y) :=
  Int.bmod_add_bmod ..

/-- `fetch_add(1)` on a word of 64 bits. -/
def incWord (n : Nat) : Nat := (n + 1) % 2 ^ 64

/-- `fetch_sub(1)` on a word of 64 bits. -/
def decWord : Nat → Nat
  | 0 => 2 ^ 64 - 1
  | n + 1 => n

theorem incWord_of_lt {n : Nat} (h : n + 1 < 2 ^ 64) : incWord n = n + 1 := Nat.mod_eq_of_lt h

theorem decWord_of_pos {n : Nat} (h : 0 < n) : decWord n = n - 1 := by
  cases n with
  | zero => cases h
  | succ n => rfl

end Kerners.Lib
