import Kerners.Lib.Fields
import Mathlib.Data.List.Pairwise

/-!
# Memory of bytes

Memory with addresses of 64 bits, read and written in little-endian words. Addresses wrap, so
`Apart a n b k`, which says that the `n` bytes from `a` and the `k` bytes from `b` are disjoint, is
about the distance of the two addresses.
-/

namespace Kerners.Lib

open BitVec

abbrev ByteMem := BitVec 64 → BitVec 8

/-- The bytes of `v`, the least significant one first, from `a` on. -/
def ByteMem.store {w : Nat} (m : ByteMem) (a : BitVec 64) (v : BitVec w) : ByteMem := fun x =>
  if (x - a).toNat < w / 8 then v.extractLsb' (8 * (x - a).toNat) 8 else m x

def ByteMem.load16 (m : ByteMem) (a : BitVec 64) : BitVec 16 := m (a + 1#64) ++ m a

def ByteMem.load32 (m : ByteMem) (a : BitVec 64) : BitVec 32 := m.load16 (a + 2#64) ++ m.load16 a

def ByteMem.load64 (m : ByteMem) (a : BitVec 64) : BitVec 64 := m.load32 (a + 4#64) ++ m.load32 a

/-- The `n` bytes from `a` and the `k` bytes from `b` are disjoint. -/
def Apart (a : BitVec 64) (n : Nat) (b : BitVec 64) (k : Nat) : Prop :=
  n ≤ (b - a).toNat ∧ (b - a).toNat + k ≤ 2 ^ 64

instance (a b : BitVec 64) (n k : Nat) : Decidable (Apart a n b k) :=
  inferInstanceAs (Decidable (_ ∧ _))

theorem Apart.sub {a b : BitVec 64} {n k i j n' k' : Nat} (h : Apart a n b k) (hi : i + n' ≤ n)
    (hj : j + k' ≤ k) (hk : 0 < k') : Apart (a + BitVec.ofNat 64 i) n' (b + BitVec.ofNat 64 j) k' := by
  obtain ⟨h1, h2⟩ := h
  have hd := (b - a).isLt
  have e : b + BitVec.ofNat 64 j - (a + BitVec.ofNat 64 i)
      = (b - a) + BitVec.ofNat 64 j - BitVec.ofNat 64 i := by grind
  rw [Apart, e, toNat_sub, toNat_add, BitVec.toNat_ofNat, BitVec.toNat_ofNat]
  omega

theorem Apart.symm {a b : BitVec 64} {n k : Nat} (h : Apart a n b k) (hn : 0 < n) :
    Apart b k a n := by
  obtain ⟨h1, h2⟩ := h
  have e : (a - b).toNat = 2 ^ 64 - (b - a).toNat := by bv_omega
  exact ⟨by omega, by omega⟩

namespace ByteMem

variable {w : Nat} (m : ByteMem) (a b : BitVec 64) (v : BitVec w)

/-! ## Loads inside a store -/

theorem store_add {j : Nat} (hj : j < w / 8) (h : j < 2 ^ 64) :
    m.store a v (a + BitVec.ofNat 64 j) = v.extractLsb' (8 * j) 8 := by
  have h1 : (a + BitVec.ofNat 64 j - a).toNat = j := by
    rw [BitVec.add_comm, BitVec.add_sub_cancel, BitVec.toNat_ofNat, Nat.mod_eq_of_lt h]
  rw [store, if_pos (by rw [h1]; exact hj), h1]

theorem load16_store {j : Nat} (hj : j + 2 ≤ w / 8) (h : j + 2 ≤ 2 ^ 64) :
    (m.store a v).load16 (a + BitVec.ofNat 64 j) = v.extractLsb' (8 * j) 16 := by
  have h1 : a + BitVec.ofNat 64 j + 1#64 = a + BitVec.ofNat 64 (j + 1) := by
    rw [BitVec.add_assoc, ← BitVec.ofNat_add]
  rw [load16, h1, store_add m a v (by omega) (by omega), store_add m a v (by omega) (by omega)]
  exact extractLsb'_append_extractLsb'_eq_extractLsb' (by omega)

theorem load32_store {j : Nat} (hj : j + 4 ≤ w / 8) (h : j + 4 ≤ 2 ^ 64) :
    (m.store a v).load32 (a + BitVec.ofNat 64 j) = v.extractLsb' (8 * j) 32 := by
  have h1 : a + BitVec.ofNat 64 j + 2#64 = a + BitVec.ofNat 64 (j + 2) := by
    rw [BitVec.add_assoc, ← BitVec.ofNat_add]
  rw [load32, h1, load16_store m a v (by omega) (by omega),
    load16_store m a v (by omega) (by omega)]
  exact extractLsb'_append_extractLsb'_eq_extractLsb' (by omega)

theorem load32_store_start (h : 4 ≤ w / 8) : (m.store a v).load32 a = v.extractLsb' 0 32 := by
  have := load32_store m a v (j := 0) (by omega) (by decide)
  rwa [BitVec.add_zero] at this

theorem load32_store_self (v : BitVec 32) : (m.store a v).load32 a = v := by
  rw [load32_store_start m a v (by decide), extractLsb'_eq_self]

theorem load64_store_self (v : BitVec 64) : (m.store a v).load64 a = v := by
  have h4 := load32_store m a v (j := 4) (by decide) (by decide)
  rw [load64, load32_store_start m a v (by decide), h4,
    extractLsb'_append_extractLsb'_eq_extractLsb' (by decide)]
  exact extractLsb'_eq_self

/-! ## Loads apart from a store -/

variable {a b}

theorem store_apart {n j : Nat} (h : Apart a (w / 8) b n) (hj : j < n) :
    m.store a v (b + BitVec.ofNat 64 j) = m (b + BitVec.ofNat 64 j) := by
  have h1 : (b + BitVec.ofNat 64 j - a).toNat = (b - a).toNat + j := by
    have h2 := h.2
    have h3 : b + BitVec.ofNat 64 j - a = b - a + BitVec.ofNat 64 j := by
      rw [BitVec.sub_eq_add_neg, BitVec.sub_eq_add_neg, BitVec.add_assoc, BitVec.add_assoc,
        BitVec.add_comm (BitVec.ofNat 64 j)]
    have h4 := (b - a).isLt
    rw [h3, toNat_add, BitVec.toNat_ofNat, Nat.add_mod_mod, Nat.mod_eq_of_lt (by omega)]
  have h2 := h.1
  rw [store, if_neg (by omega)]

theorem load32_store_apart (h : Apart a (w / 8) b 4) : (m.store a v).load32 b = m.load32 b := by
  have hb : ∀ j < 4, m.store a v (b + BitVec.ofNat 64 j) = m (b + BitVec.ofNat 64 j) :=
    fun j hj => store_apart m v h hj
  have h0 := hb 0 (by decide)
  have h1 := hb 1 (by decide)
  have h2 := hb 2 (by decide)
  have h3 := hb 3 (by decide)
  have e : b + 2#64 + 1#64 = b + 3#64 := by rw [BitVec.add_assoc]; rfl
  rw [BitVec.add_zero] at h0
  simp only [load32, load16, e, h0, h1, h2, h3]

end ByteMem

end Kerners.Lib
