import Kerners.Module.Plt

/-!
# Relocations: what the two architectures share (`src/module/loader.rs`)

A relocation reads and writes memory, may take a stub from the PLT, and on RISC-V remembers the
distances of the `PCREL_HI20` entries for the `PCREL_LO12` entries. `RelocState` is that state; the
functions return it also where they fail, so that it can be said what a failed relocation has done.

`usize`, `u64` and `i64` are words of 64 bits, `u32` and `i32` words of 32 bits, and `as` between
them is `setWidth`; a comparison of an `i32` or `i64` is one of `toInt`. Sums wrap, as in the
release build.
-/

namespace Kerners.Module

open Lib

/-- `ModuleError`, as far as loading a module returns it. -/
inductive ModuleError where
  | elfError (e : Elf64Error)
  | outOfMemory
  | symbolNotFound
  | unsupportedRelocation (relType : Nat)
  | initFailed (code : Int)
  | invalidFormat
deriving DecidableEq

/-- Memory, the PLT and `hi20_results`. -/
structure RelocState where
  mem : ByteMem
  plt : Option PltTable
  hi20Results : List (BitVec 64 × BitVec 64)

abbrev RelocResult := Except ModuleError Unit × RelocState

/-- `*(addr as *mut _) = value`. -/
def RelocState.write {w : Nat} (st : RelocState) (addr : BitVec 64) (value : BitVec w) :
    RelocState :=
  { st with mem := st.mem.store addr value }

/-- Reading an instruction word and writing it back, changed by `f`. -/
def RelocState.patch (st : RelocState) (addr : BitVec 64) (f : BitVec 32 → BitVec 32) :
    RelocState :=
  st.write addr (f (st.mem.load32 addr))

def RelocState.throughPlt (st : RelocState) (arch : Arch) (relType : Nat) (target : BitVec 64) :
    Except ModuleError (BitVec 64) × RelocState :=
  match st.plt with
  | none => (.error (.unsupportedRelocation relType), st)
  | some plt =>
    match plt.getOrCreate arch st.mem target with
    | (none, plt', mem') => (.error (.unsupportedRelocation relType),
        { st with plt := some plt', mem := mem' })
    | (some pltAddr, plt', mem') => (.ok pltAddr, { st with plt := some plt', mem := mem' })

theorem RelocState.throughPlt_ok {st st' : RelocState} {arch : Arch} {relType : Nat}
    {target a : BitVec 64} (h : st.throughPlt arch relType target = (.ok a, st')) :
    ∃ t, st.plt = some t ∧
      (t.getOrCreate arch st.mem target).1 = some a ∧
      st'.plt = some (t.getOrCreate arch st.mem target).2.1 ∧
      st'.mem = (t.getOrCreate arch st.mem target).2.2 := by
  unfold throughPlt at h
  split at h
  · cases h
  · rename_i t ht
    split at h
    · cases h
    · rename_i hg
      cases h
      exact ⟨t, ht, by rw [hg], by rw [hg], by rw [hg]⟩

theorem RelocState.throughPlt_of_some {st : RelocState} {arch : Arch} (relType : Nat)
    {target a : BitVec 64} {t : PltTable} (ht : st.plt = some t)
    (ha : (t.getOrCreate arch st.mem target).1 = some a) :
    st.throughPlt arch relType target = (.ok a,
      { st with plt := some (t.getOrCreate arch st.mem target).2.1,
                mem := (t.getOrCreate arch st.mem target).2.2 }) := by
  simp only [throughPlt, ht]
  generalize t.getOrCreate arch st.mem target = g at ha ⊢
  obtain ⟨r, t', m'⟩ := g
  obtain rfl : r = some a := ha
  rfl

theorem RelocState.load32_patch (st : RelocState) (addr : BitVec 64) (f : BitVec 32 → BitVec 32) :
    (st.patch addr f).mem.load32 addr = f (st.mem.load32 addr) :=
  ByteMem.load32_store_self ..

theorem RelocState.load32_patch_apart (st : RelocState) {addr b : BitVec 64}
    (f : BitVec 32 → BitVec 32) (h : Apart addr 4 b 4) :
    (st.patch addr f).mem.load32 b = st.mem.load32 b :=
  ByteMem.load32_store_apart _ _ h

end Kerners.Module
