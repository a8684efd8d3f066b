import Kerners.Lib.ByteMem

/-!
# Moving bytes (`module/symbol.rs`)

Model of `memmove`, one of the symbols that the kernel exports to modules. It copies byte by byte,
upwards if the destination is not above the source and downwards otherwise.

A loop is a list of indices, and each turn reads what the turns before it have left. What has to hold
for either direction is one condition on the list: no turn writes where a later one reads or writes
(`foldl_copyByte`).
-/

namespace Kerners.Module

open Lib Function

variable {dest src : BitVec 64} {m : ByteMem}

/-- `write_volatile(dest.add(i), read_volatile(src.add(i)))`. -/
def copyByte (dest src : BitVec 64) (m : ByteMem) (i : Nat) : ByteMem :=
  update m (dest + .ofNat 64 i) (m (src + .ofNat 64 i))

open List

/-- `memmove`: the memory and the result. -/
def memmove (m : ByteMem) (dest src : BitVec 64) (count : Nat) : ByteMem × BitVec 64 :=
  if dest ≤ src then ((List.range count).foldl (copyByte dest src) m, dest)
  else ((List.range count).reverse.foldl (copyByte dest src) m, dest)

/-- The turn `i` leaves alone what the later turn `j` reads and writes. -/
def Spares (dest src : BitVec 64) (i j : Nat) : Prop :=
  dest + .ofNat 64 i ≠ src + .ofNat 64 j ∧ dest + .ofNat 64 i ≠ dest + .ofNat 64 j

/-- **A loop that spares what is to come** copies what was there before it. -/
theorem foldl_copyByte {l : List Nat} (h : l.Pairwise (Spares dest src)) :
    (∀ i ∈ l, l.foldl (copyByte dest src) m (dest + .ofNat 64 i) = m (src + .ofNat 64 i)) ∧
      ∀ a, (∀ i ∈ l, a ≠ dest + .ofNat 64 i) → l.foldl (copyByte dest src) m a = m a := by
  induction l generalizing m with
  | nil => exact ⟨nofun, fun _ _ => rfl⟩
  | cons i l ih =>
    obtain ⟨hi, hl⟩ := pairwise_cons.mp h
    obtain ⟨hcopied, hframe⟩ := @ih (copyByte dest src m i) hl
    rw [foldl_cons]
    refine ⟨fun j hj => ?_, fun a ha => ?_⟩
    · rcases mem_cons.mp hj with rfl | hj
      · rw [hframe _ fun k hk => (hi k hk).2]
        exact update_self ..
      · rw [hcopied j hj]
        exact update_of_ne (hi j hj).1.symm ..
    · rw [hframe a fun j hj => ha j (mem_cons_of_mem i hj)]
      exact update_of_ne (ha i mem_cons_self) ..

section

variable {count i j : Nat}

theorem spares_up (hs : src.toNat + count ≤ 2 ^ 64) (hle : dest ≤ src) (hij : i < j)
    (hj : j < count) : Spares dest src i j := by
  constructor <;> bv_omega

theorem spares_down (hd : dest.toNat + count ≤ 2 ^ 64) (hlt : ¬ dest ≤ src) (hij : i < j)
    (hj : j < count) : Spares dest src j i := by
  constructor <;> bv_omega

/-- **`memmove` moves the bytes**, for every overlap. -/
theorem memmove_moves (m : ByteMem) (hd : dest.toNat + count ≤ 2 ^ 64)
    (hs : src.toNat + count ≤ 2 ^ 64) :
    (∀ i < count, (memmove m dest src count).1 (dest + .ofNat 64 i) = m (src + .ofNat 64 i)) ∧
      ∀ a : BitVec 64, ¬ (dest.toNat ≤ a.toNat ∧ a.toNat < dest.toNat + count) →
        (memmove m dest src count).1 a = m a := by
  have houtside : ∀ a : BitVec 64, ¬ (dest.toNat ≤ a.toNat ∧ a.toNat < dest.toNat + count) →
      ∀ i < count, a ≠ dest + .ofNat 64 i := fun a ha i hi => by bv_omega
  unfold memmove
  split
  case isTrue hle =>
    have hl : (List.range count).Pairwise (Spares dest src) :=
      List.pairwise_lt_range.imp_of_mem fun _ hj hij =>
        spares_up hs hle hij (List.mem_range.mp hj)
    obtain ⟨hcopied, hframe⟩ := @foldl_copyByte dest src m _ hl
    exact ⟨fun i hi => hcopied i (List.mem_range.mpr hi),
      fun a ha => hframe a fun i hi => houtside a ha i (List.mem_range.mp hi)⟩
  case isFalse hlt =>
    have hl : (List.range count).reverse.Pairwise (Spares dest src) :=
      List.pairwise_reverse.mpr (List.pairwise_lt_range.imp_of_mem fun _ hj hij =>
        spares_down hd hlt hij (List.mem_range.mp hj))
    obtain ⟨hcopied, hframe⟩ := @foldl_copyByte dest src m _ hl
    exact ⟨fun i hi => hcopied i (List.mem_reverse.mpr (List.mem_range.mpr hi)),
      fun a ha => hframe a fun i hi => houtside a ha i
        (List.mem_range.mp (List.mem_reverse.mp hi))⟩

end

theorem memmove_moves_up :
    (memmove (fun a => a.truncate 8) 0x1003 0x1000 8).1 0x100A = 0x07 := by
  exact (@memmove_moves 0x1003 0x1000 8 (fun a => a.truncate 8) (by decide) (by decide)).1 7
    (by decide)

end Kerners.Module
