import Kerners.Module.Reloc

/-!
# RISC-V relocations (`src/module/loader.rs`)

`apply_relocation_riscv` with the instruction words it builds, and what the immediates of the patched
words say according to the instruction formats.
-/

namespace Kerners.Module

open Lib BitVec

/-! ## The relocation -/

inductive RelocRiscv where
  | none | abs32 | abs64 | branch | jal | call | callPlt | pcrelHi20 | pcrelLo12I | pcrelLo12S | hi20
  | lo12I | lo12S | relax
deriving DecidableEq

/-- The constants of `reloc_riscv`. -/
def RelocRiscv.ofU32 : Nat → Option RelocRiscv
  | 0 => some .none
  | 1 => some .abs32
  | 2 => some .abs64
  | 16 => some .branch
  | 17 => some .jal
  | 18 => some .call
  | 19 => some .callPlt
  | 23 => some .pcrelHi20
  | 24 => some .pcrelLo12I
  | 25 => some .pcrelLo12S
  | 26 => some .hi20
  | 27 => some .lo12I
  | 28 => some .lo12S
  | 51 => some .relax
  | _ => Option.none

def insnB (offset insn : BitVec 32) : BitVec 32 :=
  let imm12 := (offset.sshiftRight 12) &&& 0x1#32
  let imm10_5 := (offset.sshiftRight 5) &&& 0x3f#32
  let imm4_1 := (offset.sshiftRight 1) &&& 0xf#32
  let imm11 := (offset.sshiftRight 11) &&& 0x1#32
  (insn &&& 0x01fff07f#32) ||| (imm12 <<< 31) ||| (imm10_5 <<< 25) ||| (imm4_1 <<< 8)
    ||| (imm11 <<< 7)

def insnJ (offset insn : BitVec 32) : BitVec 32 :=
  let imm20 := (offset.sshiftRight 20) &&& 0x1#32
  let imm10_1 := (offset.sshiftRight 1) &&& 0x3ff#32
  let imm11 := (offset.sshiftRight 11) &&& 0x1#32
  let imm19_12 := (offset.sshiftRight 12) &&& 0xff#32
  (insn &&& 0xfff#32) ||| (imm20 <<< 31) ||| (imm10_1 <<< 21) ||| (imm11 <<< 20)
    ||| (imm19_12 <<< 12)

def insnU (value insn : BitVec 32) : BitVec 32 := (insn &&& 0xfff#32) ||| (value <<< 12)

def insnI (value insn : BitVec 32) : BitVec 32 := (insn &&& 0xfffff#32) ||| (value <<< 20)

def insnS (value insn : BitVec 32) : BitVec 32 :=
  let imm11_5 := (value.sshiftRight 5) &&& 0x7f#32
  let imm4_0 := value &&& 0x1f#32
  (insn &&& 0x01fff07f#32) ||| (imm11_5 <<< 25) ||| (imm4_0 <<< 7)

/-- `((offset + 0x800) >> 12) as i32`. -/
def upper (offset : BitVec 64) : BitVec 32 := ((offset + 0x800#64).sshiftRight 12).setWidth 32

/-- `(offset & 0xfff) as i32`. -/
def lower (offset : BitVec 64) : BitVec 32 := (offset &&& 0xfff#64).setWidth 32

/-- An immediate of a branch or jump, refused when the offset is outside `lo` to `hi`. -/
def relocOffset (relType : Nat) (lo hi : Int) (f : BitVec 32 → BitVec 32 → BitVec 32)
    (relocAddr offset64 : BitVec 64) (st : RelocState) : RelocResult :=
  let offset : BitVec 32 := offset64.setWidth 32
  if offset.toInt > hi ∨ offset.toInt < lo then (.error (.unsupportedRelocation relType), st)
  else (.ok (), st.patch relocAddr (f offset))

/-- The distance a `PCREL_LO12` entry uses: that of the `PCREL_HI20` entry its symbol points to, or
`S + A` minus the symbol when there is none so far. -/
def pcrelOffset (hi20Addr addend : BitVec 64) (st : RelocState) : BitVec 64 :=
  match st.hi20Results.find? fun r => r.1 == hi20Addr with
  | some (_, offset) => offset
  | none => hi20Addr + addend - hi20Addr

def RelocState.patchCall (st : RelocState) (relocAddr offset : BitVec 64) : RelocState :=
  (st.patch relocAddr (insnU (upper offset))).patch (relocAddr + 4#64) (insnI (lower offset))

/-- `CALL` and `CALL_PLT`. -/
def relocCall (relType : Nat) (relocAddr target : BitVec 64) (st : RelocState) : RelocResult :=
  let p := relocAddr
  let offset := target - p
  if offset.toInt > 0x7fffffff ∨ offset.toInt < -0x80000000 then
    match st.throughPlt .riscv64 relType target with
    | (.error e, st') => (.error e, st')
    | (.ok pltAddr, st') => (.ok (), st'.patchCall relocAddr (pltAddr - p))
  else (.ok (), st.patchCall relocAddr offset)

def applyRelocationRiscv (relocAddr symValue addend : BitVec 64) (relType : Nat)
    (st : RelocState) : RelocResult :=
  let s := symValue
  let a := addend
  let p := relocAddr
  match RelocRiscv.ofU32 relType with
  | some .none | some .relax => (.ok (), st)
  | some .abs64 => (.ok (), st.write relocAddr (s + a))
  | some .abs32 => (.ok (), st.write relocAddr ((s + a).setWidth 32))
  | some .branch => relocOffset relType (-0x1000) 0xfff insnB relocAddr (s + a - p) st
  | some .jal => relocOffset relType (-0x100000) 0xfffff insnJ relocAddr (s + a - p) st
  | some .hi20 => (.ok (), st.patch relocAddr (insnU (upper (s + a))))
  | some .lo12I => (.ok (), st.patch relocAddr (insnI (lower (s + a))))
  | some .lo12S => (.ok (), st.patch relocAddr (insnS (lower (s + a))))
  | some .pcrelHi20 =>
    let offset := s + a - p
    let st' := { st with hi20Results := st.hi20Results ++ [(relocAddr, offset)] }
    (.ok (), st'.patch relocAddr (insnU (upper offset)))
  | some .pcrelLo12I =>
    (.ok (), st.patch relocAddr (insnI (lower (pcrelOffset symValue addend st))))
  | some .pcrelLo12S =>
    (.ok (), st.patch relocAddr (insnS (lower (pcrelOffset symValue addend st))))
  | some .call | some .callPlt => relocCall relType relocAddr (s + a) st
  | Option.none => (.error (.unsupportedRelocation relType), st)

/-! ## Fields of the patched words -/

open Rv64

section

variable (value offset insn : BitVec 32)

theorem immU_insnU : immU (insnU value insn) = value.extractLsb' 0 20 := by
  simp (disch := decide) only [immU, insnU, extractLsb'_or, field_clear,
    field_shiftLeft, zero_or, Nat.reduceSub]

theorem low_insnU : (insnU value insn).extractLsb' 0 12 = insn.extractLsb' 0 12 := by
  simp (disch := decide) only [insnU, extractLsb'_or, field_keep, field_shiftLeft_below, or_zero]

theorem immI_insnI : immI (insnI value insn) = value.extractLsb' 0 12 := by
  simp (disch := decide) only [immI, insnI, extractLsb'_or, field_clear,
    field_shiftLeft, zero_or, Nat.reduceSub]

theorem low_insnI : (insnI value insn).extractLsb' 0 20 = insn.extractLsb' 0 20 := by
  simp (disch := decide) only [insnI, extractLsb'_or, field_keep, field_shiftLeft_below, or_zero]

theorem immS_insnS : immS (insnS value insn) = value.extractLsb' 0 12 := by
  have hhi : (insnS value insn).extractLsb' 25 7 = value.extractLsb' 5 7 := by
    simp (disch := decide) only [insnS, extractLsb'_or, field_clear, field_keep, field_shiftLeft,
      field_sshiftRight, zero_or, or_zero, Nat.reduceSub, Nat.reduceAdd]
  have hlo : (insnS value insn).extractLsb' 7 5 = value.extractLsb' 0 5 := by
    simp (disch := decide) only [insnS, extractLsb'_or, field_clear, field_keep,
      field_shiftLeft, field_shiftLeft_below, zero_or, Nat.reduceSub]
  rw [immS, hhi, hlo]
  exact extractLsb'_append_extractLsb'_eq_extractLsb' (by decide)

theorem kept_insnS : (insnS value insn).extractLsb' 0 7 = insn.extractLsb' 0 7 ∧
    (insnS value insn).extractLsb' 12 13 = insn.extractLsb' 12 13 := by
  refine ⟨?_, ?_⟩ <;>
    simp (disch := decide) only [insnS, extractLsb'_or, field_clear, field_keep,
      field_shiftLeft, field_shiftLeft_below, or_zero, Nat.reduceSub]

theorem immB_insnB (he : offset.extractLsb' 0 1 = 0#1) :
    immB (insnB offset insn) = offset.extractLsb' 0 13 := by
  have h31 : (insnB offset insn).extractLsb' 31 1 = offset.extractLsb' 12 1 := by
    simp (disch := decide) only [insnB, extractLsb'_or, field_clear, field_keep, field_shiftLeft,
      field_sshiftRight, zero_or, or_zero, Nat.reduceSub, Nat.reduceAdd]
  have h7 : (insnB offset insn).extractLsb' 7 1 = offset.extractLsb' 11 1 := by
    simp (disch := decide) only [insnB, extractLsb'_or, field_clear, field_keep, field_shiftLeft,
      field_shiftLeft_below, field_sshiftRight, zero_or, Nat.reduceSub, Nat.reduceAdd]
  have h25 : (insnB offset insn).extractLsb' 25 6 = offset.extractLsb' 5 6 := by
    simp (disch := decide) only [insnB, extractLsb'_or, field_clear, field_keep, field_shiftLeft,
      field_shiftLeft_below, field_sshiftRight, zero_or, or_zero, Nat.reduceSub, Nat.reduceAdd]
  have h8 : (insnB offset insn).extractLsb' 8 4 = offset.extractLsb' 1 4 := by
    simp (disch := decide) only [insnB, extractLsb'_or, field_clear, field_keep, field_shiftLeft,
      field_shiftLeft_below, field_sshiftRight, zero_or, or_zero, Nat.reduceSub, Nat.reduceAdd]
  have h0 : offset.extractLsb' 1 4 ++ 0#1 = offset.extractLsb' 0 5 := field_append_zero he
  rw [immB, h31, h7, h25, h8, h0,
    extractLsb'_append_extractLsb'_eq_extractLsb' (by decide),
    extractLsb'_append_extractLsb'_eq_extractLsb' (by decide),
    extractLsb'_append_extractLsb'_eq_extractLsb' (by decide)]

theorem kept_insnB : (insnB offset insn).extractLsb' 0 7 = insn.extractLsb' 0 7 ∧
    (insnB offset insn).extractLsb' 12 13 = insn.extractLsb' 12 13 := by
  refine ⟨?_, ?_⟩ <;>
    simp (disch := decide) only [insnB, extractLsb'_or, field_clear, field_keep,
      field_shiftLeft, field_shiftLeft_below, or_zero, Nat.reduceSub]

theorem immJ_insnJ (he : offset.extractLsb' 0 1 = 0#1) :
    immJ (insnJ offset insn) = offset.extractLsb' 0 21 := by
  have h31 : (insnJ offset insn).extractLsb' 31 1 = offset.extractLsb' 20 1 := by
    simp (disch := decide) only [insnJ, extractLsb'_or, field_clear, field_keep, field_shiftLeft,
      field_sshiftRight, zero_or, or_zero, Nat.reduceSub, Nat.reduceAdd]
  have h12 : (insnJ offset insn).extractLsb' 12 8 = offset.extractLsb' 12 8 := by
    simp (disch := decide) only [insnJ, extractLsb'_or, field_clear, field_keep, field_shiftLeft,
      field_shiftLeft_below, field_sshiftRight, zero_or, Nat.reduceSub, Nat.reduceAdd]
  have h20 : (insnJ offset insn).extractLsb' 20 1 = offset.extractLsb' 11 1 := by
    simp (disch := decide) only [insnJ, extractLsb'_or, field_clear, field_keep, field_shiftLeft,
      field_shiftLeft_below, field_sshiftRight, zero_or, or_zero, Nat.reduceSub, Nat.reduceAdd]
  have h21 : (insnJ offset insn).extractLsb' 21 10 = offset.extractLsb' 1 10 := by
    simp (disch := decide) only [insnJ, extractLsb'_or, field_clear, field_keep, field_shiftLeft,
      field_shiftLeft_below, field_sshiftRight, zero_or, or_zero, Nat.reduceSub, Nat.reduceAdd]
  have h0 : offset.extractLsb' 1 10 ++ 0#1 = offset.extractLsb' 0 11 := field_append_zero he
  rw [immJ, h31, h12, h20, h21, h0,
    extractLsb'_append_extractLsb'_eq_extractLsb' (by decide),
    extractLsb'_append_extractLsb'_eq_extractLsb' (by decide),
    extractLsb'_append_extractLsb'_eq_extractLsb' (by decide)]

theorem low_insnJ : (insnJ offset insn).extractLsb' 0 12 = insn.extractLsb' 0 12 := by
  simp (disch := decide) only [insnJ, extractLsb'_or, field_keep, field_shiftLeft_below, or_zero]

end

theorem upper_field (d : BitVec 64) : (upper d).extractLsb' 0 20 = hi20 d := by
  rw [upper, field_setWidth _ (by decide), field_sshiftRight _ (by decide), hi20]

theorem lower_field (d : BitVec 64) : (lower d).extractLsb' 0 12 = d.extractLsb' 0 12 := by
  rw [lower, field_setWidth _ (by decide), field_keep _ (by decide)]

/-! ## Calls -/

/-- The pair at `p`: the sum of the two immediates and `p`. -/
def callTarget (m : ByteMem) (p : BitVec 64) : BitVec 64 :=
  p + hiLo (Rv64.immU (m.load32 p)) (Rv64.immI (m.load32 (p + 4#64)))

/-- Opcode and `rd` of the first word, opcode, `rd`, `funct3` and `rs1` of the second. -/
def CallKept (m m' : ByteMem) (p : BitVec 64) : Prop :=
  (m'.load32 p).extractLsb' 0 12 = (m.load32 p).extractLsb' 0 12 ∧
    (m'.load32 (p + 4#64)).extractLsb' 0 20 = (m.load32 (p + 4#64)).extractLsb' 0 20

open RelocState

theorem load32_patchCall (st : RelocState) (p d : BitVec 64) : (st.patchCall p d).mem.load32 p =
    insnU (upper d) (st.mem.load32 p) ∧ (st.patchCall p d).mem.load32 (p + 4#64) = insnI (lower d)
    (st.mem.load32 (p + 4#64)) := by
  have h : Apart p 4 (p + 4#64) 4 := by constructor <;> bv_omega
  have h' : Apart (p + 4#64) 4 p 4 := h.symm (by decide)
  rw [patchCall]
  constructor
  · rw [load32_patch_apart _ _ h', load32_patch]
  · rw [load32_patch, load32_patch_apart _ _ h]

theorem callTarget_patchCall (st : RelocState) (p d : BitVec 64) :
    callTarget (st.patchCall p d).mem p = p + hiLo (hi20 d) (d.extractLsb' 0 12) := by
  obtain ⟨h1, h2⟩ := load32_patchCall st p d
  rw [callTarget, h1, h2, immU_insnU, immI_insnI, upper_field, lower_field]

variable {p target : BitVec 64} {relType : Nat} {d : BitVec 64}

theorem callTarget_patchCall_iff (st : RelocState) (hf : FitsSigned 32 (target - p)) :
    callTarget (st.patchCall p (target - p)).mem p = target ↔
      (target - p).toInt < 2 ^ 31 - 2 ^ 11 := by
  have hreach := hiLo_eq_iff (target - p)
  have hlo := hf.1
  rw [callTarget_patchCall]
  constructor
  · intro h
    exact (hreach.mp (by grind)).2
  · intro h
    rw [hreach.mpr ⟨by omega, h⟩]
    grind

theorem callKept_patchCall (st : RelocState) (p d : BitVec 64) :
    CallKept st.mem (st.patchCall p d).mem p := by
  obtain ⟨h1, h2⟩ := load32_patchCall st p d
  rw [CallKept, h1, h2]
  exact ⟨low_insnU _ _, low_insnI _ _⟩

/-- The relocation leads to `st'` without using the PLT: it does the same where there is none. -/
def CallsDirectly (relocAddr symValue addend : BitVec 64) (relType : Nat) (st st' : RelocState) :
    Prop :=
  applyRelocationRiscv relocAddr symValue addend relType st = (.ok (), st') ∧
    applyRelocationRiscv relocAddr symValue addend relType { st with plt := none }
      = (.ok (), { st' with plt := none })

/-- What a call relocation that returns `Ok` without using the PLT should have done. -/
def DirectCallReaches (relocAddr symValue addend : BitVec 64) (relType : Nat) (st : RelocState) :
    Prop :=
  ∀ st', CallsDirectly relocAddr symValue addend relType st st' →
    callTarget st'.mem relocAddr = symValue + addend ∧ CallKept st.mem st'.mem relocAddr

theorem relocCall_near (st : RelocState) (h : FitsSigned 32 (target - p)) :
    relocCall relType p target st = (.ok (), st.patchCall p (target - p)) := by
  refine if_neg ?_
  have h1 := h.1
  have h2 := h.2
  omega

theorem relocCall_far {st : RelocState} (h : ¬ FitsSigned 32 (target - p)) (hplt : st.plt = none) :
    relocCall relType p target st = (.error (.unsupportedRelocation relType), st) := by
  have hc : (target - p).toInt > 0x7fffffff ∨ (target - p).toInt < -0x80000000 := by
    rw [FitsSigned] at h
    omega
  have ht : st.throughPlt .riscv64 relType target
      = (.error (.unsupportedRelocation relType), st) := by
    simp only [throughPlt, hplt]
  simp only [relocCall, if_pos hc, ht]

/-- **RISC-V calls** without the PLT reach their target exactly when the offset is not in the last 2
KB below `2^31`: there the rounded upper part overflows. -/
theorem call_reaches_iff (relocAddr symValue addend : BitVec 64) (relType : Nat) (st : RelocState)
    (htype : relType = 18 ∨ relType = 19) :
    DirectCallReaches relocAddr symValue addend relType st ↔
    ¬ (2 ^ 31 - 2 ^ 11 ≤ (symValue + addend - relocAddr).toInt ∧
      (symValue + addend - relocAddr).toInt < 2 ^ 31) := by
  have happly : ∀ st0, applyRelocationRiscv relocAddr symValue addend relType st0
      = relocCall relType relocAddr (symValue + addend) st0 := by
    rcases htype with rfl | rfl <;> exact fun _ => rfl
  simp only [DirectCallReaches, CallsDirectly, happly]
  generalize symValue + addend = target
  by_cases hf : FitsSigned 32 (target - relocAddr)
  · have hdirect : relocCall relType relocAddr target { st with plt := none }
        = (.ok (), { st.patchCall relocAddr (target - relocAddr) with plt := none }) :=
      relocCall_near _ hf
    have hjump := callTarget_patchCall_iff st hf
    have hhi := hf.2
    rw [relocCall_near st hf]
    constructor
    · intro h
      have := hjump.mp (h _ ⟨rfl, hdirect⟩).1
      omega
    · rintro h st' ⟨⟨⟩, _⟩
      exact ⟨hjump.mpr (by omega), callKept_patchCall ..⟩
  · -- without the PLT the relocation fails
    constructor
    · intro _
      rw [FitsSigned] at hf
      omega
    · rintro _ st' ⟨_, h⟩
      rw [relocCall_far hf rfl] at h
      cases h

theorem call_reaches_ahead :
    DirectCallReaches 0x80000000#64 0x80001000#64 0#64 18 ⟨fun _ => 0#8, none, []⟩ :=
  (call_reaches_iff 0x80000000#64 0x80001000#64 0#64 18 ⟨fun _ => 0#8, none, []⟩ (.inl rfl)).mpr
    (by decide)

/-- The offset `0x7ffff800` passes the range test, and the call goes `2^32` bytes below its target. -/
theorem call_misses :
    ∃ st', CallsDirectly 0x80000000#64 0xfffff800#64 0#64 18 ⟨fun _ => 0#8, none, []⟩ st' ∧
      callTarget st'.mem 0x80000000#64 ≠ 0xfffff800#64 := by
  refine ⟨RelocState.patchCall ⟨fun _ => 0#8, none, []⟩ 0x80000000#64 0x7ffff800#64, ⟨rfl, rfl⟩, ?_⟩
  rw [callTarget_patchCall]
  decide

/-! ## Immediates -/

theorem toInt_narrow32 (h1 : -2 ^ 31 < d.toInt) (h2 : d.toInt < 2 ^ 31) :
    (d.setWidth 32 : BitVec 32).toInt = d.toInt := by
  rw [toInt_setWidth, ← Int.bmod_bmod_of_dvd (n := 2 ^ 32) (m := 2 ^ 64) (by decide),
    ← toInt_eq_toNat_bmod]
  exact Int.bmod_eq_of_le (by omega) (by omega)

theorem relocOffset_cases {n : Nat} {f : BitVec 32 → BitVec 32 → BitVec 32} (st : RelocState)
    (h1 : -2 ^ 31 < d.toInt) (h2 : d.toInt < 2 ^ 31) :
    relocOffset relType (-2 ^ (n - 1)) (2 ^ (n - 1) - 1) f p d st =
      if FitsSigned n d then (.ok (), st.patch p (f (d.setWidth 32)))
      else (.error (.unsupportedRelocation relType), st) := by
  rw [relocOffset]
  simp only [toInt_narrow32 h1 h2]
  by_cases hf : FitsSigned n d
  · have hlo := hf.1
    have hhi := hf.2
    rw [if_pos hf, if_neg (by omega)]
  · rw [if_neg hf, if_pos]
    rw [FitsSigned] at hf
    omega

theorem even_narrow (he : d.toNat % 2 = 0) : (d.setWidth 32 : BitVec 32).extractLsb' 0 1 = 0#1 := by
  rw [field_setWidth _ (by decide), ← toNat_inj, extractLsb'_toNat]
  exact he

/-- **RISC-V immediates** of branches, of `jal` and of the `HI20` and `LO12` pairs are exact, or
refused because the offset does not fit. -/
theorem immediates_exact (p s a : BitVec 64) (st : RelocState) (h1 : -2 ^ 31 < (s + a - p).toInt)
    (h2 : (s + a - p).toInt < 2 ^ 31) :
    ((s + a - p).toNat % 2 = 0 →
       if FitsSigned 13 (s + a - p) then ∃ w, applyRelocationRiscv p s a 16 st =
         (.ok (), st.write p w) ∧ (Rv64.immB w).signExtend 64 = s + a - p ∧ w.extractLsb' 0 7 =
         (st.mem.load32 p).extractLsb' 0 7 ∧ w.extractLsb' 12 13 = (st.mem.load32 p).extractLsb' 12
         13
       else applyRelocationRiscv p s a 16 st = (.error (.unsupportedRelocation 16), st)) ∧
    ((s + a - p).toNat % 2 = 0 →
       if FitsSigned 21 (s + a - p) then ∃ w, applyRelocationRiscv p s a 17 st =
         (.ok (), st.write p w) ∧ (Rv64.immJ w).signExtend 64 = s + a - p ∧ w.extractLsb' 0 12 =
         (st.mem.load32 p).extractLsb' 0 12
       else applyRelocationRiscv p s a 17 st = (.error (.unsupportedRelocation 17), st)) ∧
    (-2 ^ 31 ≤ (s + a).toInt → (s + a).toInt < 2 ^ 31 - 2048 →
       ∀ (q : BitVec 64) (st' : RelocState),
         ∃ u i k, applyRelocationRiscv p s a 26 st = (.ok (), st.write p u) ∧
           applyRelocationRiscv q s a 27 st' = (.ok (), st'.write q i) ∧
           applyRelocationRiscv q s a 28 st' = (.ok (), st'.write q k) ∧
           hiLo (Rv64.immU u) (Rv64.immI i) = s + a ∧
           hiLo (Rv64.immU u) (Rv64.immS k) = s + a ∧
           u.extractLsb' 0 12 = (st.mem.load32 p).extractLsb' 0 12 ∧
           i.extractLsb' 0 20 = (st'.mem.load32 q).extractLsb' 0 20 ∧
           k.extractLsb' 0 7 = (st'.mem.load32 q).extractLsb' 0 7 ∧
           k.extractLsb' 12 13 = (st'.mem.load32 q).extractLsb' 12 13) := by
  have hB : applyRelocationRiscv p s a 16 st = _ := relocOffset_cases (n := 13) st h1 h2
  have hJ : applyRelocationRiscv p s a 17 st = _ := relocOffset_cases (n := 21) st h1 h2
  refine ⟨?_, ?_, ?_⟩
  · intro he
    rw [hB]
    split
    · rename_i hf
      obtain ⟨k1, k2⟩ := kept_insnB ((s + a - p).setWidth 32) (st.mem.load32 p)
      refine ⟨_, rfl, ?_, k1, k2⟩
      rw [immB_insnB _ _ (even_narrow he), field_setWidth _ (by decide)]
      exact signExtend_low hf (by decide) (by decide)
    · rfl
  · intro he
    rw [hJ]
    split
    · rename_i hf
      refine ⟨_, rfl, ?_, low_insnJ _ _⟩
      rw [immJ_insnJ _ _ (even_narrow he), field_setWidth _ (by decide)]
      exact signExtend_low hf (by decide) (by decide)
    · rfl
  · intro hlo hhi q st'
    have hsum := (hiLo_eq_iff (s + a)).mpr ⟨by omega, by omega⟩
    obtain ⟨k1, k2⟩ := kept_insnS (lower (s + a)) (st'.mem.load32 q)
    refine ⟨_, _, _, rfl, rfl, rfl, ?_, ?_, low_insnU _ _, low_insnI _ _, k1, k2⟩
    · rw [immU_insnU, immI_insnI, upper_field, lower_field, hsum]
    · rw [immU_insnU, immS_insnS, upper_field, lower_field, hsum]

theorem immediates_branch_ahead :
    ∃ w, applyRelocationRiscv 0x1000#64 0x1010#64 0#64 16 ⟨fun _ => 0#8, none, []⟩
        = (.ok (), RelocState.write ⟨fun _ => 0#8, none, []⟩ 0x1000#64 w) ∧
      (Rv64.immB w).signExtend 64 = 16#64 := by
  have h := (immediates_exact 0x1000#64 0x1010#64 0#64 ⟨fun _ => 0#8, none, []⟩ (by decide)
    (by decide)).1 (by decide)
  rw [if_pos (by decide)] at h
  obtain ⟨w, hw, himm, _⟩ := h
  exact ⟨w, hw, himm⟩

end Kerners.Module
