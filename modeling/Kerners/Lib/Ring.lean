import Mathlib.Data.Nat.ModEq

/-!
# A ring between two parties with free-running indices

A writer stores values at its index modulo the size of the ring and then advances the index; a reader
reads at its own index and advances it. Both indices wrap at a modulus the size divides. `Ring` says
that the ring holds a queue, and the lemmas are the operations on it: a store and the advance of the
writer's index are two of them, so that the reader may run in between.
-/

namespace Kerners.Lib

open Function List

variable {α : Type*} {slot : Nat → α} {size modulus rd wr n : Nat} {l stored : List α} {a : α}

/-- From position `n` on the ring holds `l`. -/
def Holds (slot : Nat → α) (size n : Nat) (l : List α) : Prop :=
  ∀ i (h : i < l.length), slot ((n + i) % size) = l[i]

theorem Holds.head (h : Holds slot size n (a :: l)) : slot (n % size) = a := h 0 (by simp)

theorem Holds.pop (h : Holds slot size n (a :: l)) : Holds slot size (n + 1) l := by
  intro i hi
  have hslot := h (i + 1) (by simpa using hi)
  rwa [getElem_cons_succ, ← Nat.add_assoc, Nat.add_right_comm] at hslot

theorem slot_ne {i j : Nat} (hij : i < j) (hj : j < size) : (n + i) % size ≠ (n + j) % size := by
  intro he
  have hmod : i ≡ j [MOD size] := Nat.ModEq.add_left_cancel' n he
  have := hmod.eq_of_lt_of_lt (by omega) hj
  omega

theorem Holds.store (h : Holds slot size n l) (hlen : l.length < size) (a : α) :
    Holds (update slot ((n + l.length) % size) a) size n (l ++ [a]) := by
  intro i hi
  rw [length_append, length_singleton] at hi
  by_cases hlast : i = l.length
  · subst hlast
    rw [update_self, getElem_concat_length rfl]
  · have hi' : i < l.length := by omega
    rw [update_of_ne (slot_ne hi' hlen), getElem_append_left hi']
    exact h i hi'

theorem Holds.congr {m : Nat} (h : Holds slot size n l) (hm : n % size = m % size) :
    Holds slot size m l := by
  intro i hi
  rw [← h i hi, Nat.add_mod m, ← hm, ← Nat.add_mod]

theorem Holds.drop (h : Holds slot size n l) (k : Nat) : Holds slot size (n + k) (l.drop k) := by
  intro i hi
  rw [length_drop] at hi
  rw [getElem_drop, Nat.add_assoc]
  exact h (k + i) (by omega)

theorem Holds.read (h : Holds slot size n l) {offset k : Nat} (hk : offset + k ≤ l.length) :
    (List.range k).map (fun i => slot ((n + offset + i) % size)) = (l.drop offset).take k := by
  have hlen : ((l.drop offset).take k).length = k := by
    rw [length_take, length_drop]
    omega
  refine ext_getElem (by rw [length_map, length_range, hlen]) fun i hi _ => ?_
  rw [length_map, length_range] at hi
  rw [getElem_map, getElem_range, getElem_take]
  exact h.drop offset i (by rw [length_drop]; omega)

/-- The ring holds the last `size` of the values `l` that were written to it one after the other,
from slot `0` on. -/
def Recent (slot : Nat → α) (size : Nat) (l : List α) : Prop :=
  Holds slot size (l.length - size) (l.drop (l.length - size))

theorem Recent.nil (slot : Nat → α) (size : Nat) : Recent slot size [] :=
  fun _ hi => absurd hi (by simp)

theorem Recent.write (h : Recent slot size l) (hsize : 0 < size) (a : α) :
    Recent (update slot (l.length % size) a) size (l ++ [a]) := by
  unfold Recent at h ⊢
  rw [length_append, length_singleton]
  by_cases hlt : l.length < size
  · have h0 : l.length - size = 0 := by omega
    have h1 : l.length + 1 - size = 0 := by omega
    rw [h0, drop_zero] at h
    rw [h1, drop_zero]
    simpa using h.store hlt a
  · have hlen : (l.drop (l.length - size + 1)).length = size - 1 := by
      rw [length_drop]
      omega
    have hpop := h.drop 1
    rw [drop_drop] at hpop
    have hstore := hpop.store (by rw [hlen]; omega) a
    have hslot : (l.length - size + 1 + (size - 1)) = l.length := by omega
    have hnext : l.length + 1 - size = l.length - size + 1 := by omega
    rw [hlen, hslot] at hstore
    rwa [hnext, drop_append_of_le_length (by omega)]

theorem Recent.holds (h : Recent slot size l) {k : Nat} (hk : l.length - size ≤ k) :
    Holds slot size k (l.drop k) := by
  have hdrop := Holds.drop h (k - (l.length - size))
  rwa [drop_drop, Nat.add_sub_cancel' hk] at hdrop

/-- The ring holds the queue `l`, and after it the values `stored` that the writer has not announced
yet. The reader stands at `rd`, the writer at `wr`. -/
structure Ring (slot : Nat → α) (size modulus rd wr : Nat) (l stored : List α) : Prop where
  fits : (l ++ stored).length ≤ size
  holds : ∃ n, rd = n % modulus ∧ wr = (n + l.length) % modulus ∧
    Holds slot size n (l ++ stored)

namespace Ring

theorem empty (slot : Nat → α) : Ring slot size modulus 0 0 [] [] :=
  ⟨Nat.zero_le _, 0, by simp, by simp, fun _ hi => absurd hi (by simp)⟩

section

variable (hdvd : size ∣ modulus) (hlt : size < modulus)

include hdvd in
theorem store (h : Ring slot size modulus rd wr l []) (hlen : l.length < size) (a : α) :
    Ring (update slot (wr % size) a) size modulus rd wr l [a] := by
  obtain ⟨_, n, hrd, hwr, hholds⟩ := h
  rw [append_nil] at hholds
  refine ⟨by simpa [Nat.succ_le_iff] using hlen, n, hrd, hwr, ?_⟩
  rw [hwr, Nat.mod_mod_of_dvd _ hdvd]
  exact hholds.store hlen a

theorem announce (h : Ring slot size modulus rd wr l [a]) :
    Ring slot size modulus rd ((wr + 1) % modulus) (l ++ [a]) [] := by
  obtain ⟨hfits, n, hrd, hwr, hholds⟩ := h
  refine ⟨by simpa using hfits, n, hrd, ?_, by simpa using hholds⟩
  rw [hwr, Nat.mod_add_mod, length_append, length_singleton, Nat.add_assoc]

include hdvd in
theorem get (h : Ring slot size modulus rd wr l stored) {i : Nat} (hi : i < l.length) :
    slot ((rd + i) % modulus % size) = l[i] := by
  obtain ⟨_, n, hrd, _, hholds⟩ := h
  rw [hrd, Nat.mod_add_mod, Nat.mod_mod_of_dvd _ hdvd]
  have hslot := hholds i (by rw [length_append]; omega)
  rwa [getElem_append_left hi] at hslot

include hdvd in
theorem read (h : Ring slot size modulus rd wr (a :: l) stored) : slot (rd % size) = a := by
  obtain ⟨_, n, hrd, _, hholds⟩ := h
  rw [hrd, Nat.mod_mod_of_dvd _ hdvd]
  exact hholds.head

theorem pop (h : Ring slot size modulus rd wr (a :: l) stored) :
    Ring slot size modulus ((rd + 1) % modulus) wr l stored := by
  obtain ⟨hfits, n, hrd, hwr, hholds⟩ := h
  refine ⟨by simp at hfits ⊢; omega, n + 1, ?_, ?_, hholds.pop⟩
  · rw [hrd, Nat.mod_add_mod]
  · rw [hwr, length_cons, Nat.add_right_comm, Nat.add_assoc]

include hlt in
theorem distance (h : Ring slot size modulus rd wr l stored) :
    (wr + modulus - rd) % modulus = l.length := by
  obtain ⟨hfits, n, hrd, hwr, _⟩ := h
  have hlen : l.length < modulus := by
    rw [length_append] at hfits
    omega
  have hpos : 0 < modulus := by omega
  have hrdlt := Nat.mod_lt n hpos
  have hmod : l.length ≡ wr + modulus - rd [MOD modulus] := by
    refine Nat.ModEq.add_left_cancel' n ?_
    calc n + l.length ≡ wr [MOD modulus] := hwr ▸ (Nat.mod_modEq _ _).symm
      _ ≡ wr + modulus [MOD modulus] := (Nat.add_modEq_right).symm
      _ = rd + (wr + modulus - rd) := by omega
      _ ≡ n + (wr + modulus - rd) [MOD modulus] :=
        Nat.ModEq.add_right _ (hrd ▸ Nat.mod_modEq _ _)
  rw [← hmod, Nat.mod_eq_of_lt hlen]

include hlt in
theorem eq_iff (h : Ring slot size modulus rd wr l stored) : rd = wr ↔ l = [] := by
  have hdist := h.distance hlt
  obtain ⟨_, n, hrd, hwr, _⟩ := h
  constructor
  · rintro rfl
    rw [Nat.add_sub_cancel_left, Nat.mod_self] at hdist
    exact length_eq_zero_iff.1 hdist.symm
  · rintro rfl
    rw [hrd, hwr]
    rfl

end

end Ring

end Kerners.Lib
