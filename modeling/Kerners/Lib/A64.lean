import Kerners.Lib.ByteMem

/-!
# A64 instructions that form addresses

The part of the A64 instruction set that position-dependent code is made of: `ADRP`, `ADD`
(immediate), 64-bit `LDR` and `STR` with an unsigned offset, `LDR` (literal), `B`, `BL` and `BR`.
`decode` reads the fields of a word, `exec` runs one instruction on a machine with registers and
memory. Register 31 is the zero register, or the stack pointer where an instruction says so.
-/

namespace Kerners.Lib.A64

inductive Insn where
  | adrp (imm : BitVec 21) (rd : BitVec 5)
  | addImm (sf sh : Bool) (imm : BitVec 12) (rn rd : BitVec 5)
  | ldr64 (imm : BitVec 12) (rn rt : BitVec 5)
  | str64 (imm : BitVec 12) (rn rt : BitVec 5)
  | ldrLit64 (imm : BitVec 19) (rt : BitVec 5)
  | b (link : Bool) (imm : BitVec 26)
  | br (rn : BitVec 5)
deriving DecidableEq

/-! ## Fields -/

def rd (w : BitVec 32) : BitVec 5 := w.extractLsb' 0 5

def rn (w : BitVec 32) : BitVec 5 := w.extractLsb' 5 5

/-- The immediate of `ADRP`, `immhi:immlo`. -/
def imm21 (w : BitVec 32) : BitVec 21 := w.extractLsb' 5 19 ++ w.extractLsb' 29 2

/-- The immediate of `ADD`, `LDR` and `STR`. -/
def imm12 (w : BitVec 32) : BitVec 12 := w.extractLsb' 10 12

def imm19 (w : BitVec 32) : BitVec 19 := w.extractLsb' 5 19

/-- The immediate of `B` and `BL`. -/
def imm26 (w : BitVec 32) : BitVec 26 := w.extractLsb' 0 26

def IsAdrp (w : BitVec 32) : Prop := w.extractLsb' 24 5 = 0b10000#5 ∧ w.extractLsb' 31 1 = 1#1

def IsAddImm (w : BitVec 32) : Prop := w.extractLsb' 23 8 = 0b00100010#8

def IsLdr64 (w : BitVec 32) : Prop := w.extractLsb' 22 10 = 0b1111100101#10

def IsStr64 (w : BitVec 32) : Prop := w.extractLsb' 22 10 = 0b1111100100#10

instance (w : BitVec 32) : Decidable (IsAdrp w) := inferInstanceAs (Decidable (_ ∧ _))
instance (w : BitVec 32) : Decidable (IsAddImm w) := inferInstanceAs (Decidable (_ = _))
instance (w : BitVec 32) : Decidable (IsLdr64 w) := inferInstanceAs (Decidable (_ = _))
instance (w : BitVec 32) : Decidable (IsStr64 w) := inferInstanceAs (Decidable (_ = _))

def decode (w : BitVec 32) : Option Insn :=
  if IsAdrp w then some (.adrp (imm21 w) (rd w))
  else if IsAddImm w then
    some (.addImm (w.getLsbD 31) (w.getLsbD 22) (imm12 w) (rn w) (rd w))
  else if IsLdr64 w then some (.ldr64 (imm12 w) (rn w) (rd w))
  else if IsStr64 w then some (.str64 (imm12 w) (rn w) (rd w))
  else if w.extractLsb' 24 8 = 0b01011000#8 then some (.ldrLit64 (imm19 w) (rd w))
  else if w.extractLsb' 26 5 = 0b00101#5 then some (.b (w.getLsbD 31) (imm26 w))
  else if w.extractLsb' 10 22 = 0b1101011000011111000000#22 ∧ w.extractLsb' 0 5 = 0#5 then
    some (.br (rn w))
  else none

/-! ## Execution -/

structure Machine where
  x : BitVec 5 → BitVec 64
  sp : BitVec 64
  pc : BitVec 64
  mem : ByteMem

/-- `X[r]`. -/
def Machine.reg (m : Machine) (r : BitVec 5) : BitVec 64 := if r = 31#5 then 0#64 else m.x r

/-- `X[r]`, or the stack pointer. -/
def Machine.regSp (m : Machine) (r : BitVec 5) : BitVec 64 := if r = 31#5 then m.sp else m.x r

/-- Writing `X[r]`. -/
def Machine.setReg (m : Machine) (r : BitVec 5) (v : BitVec 64) : Machine :=
  if r = 31#5 then m else { m with x := fun i => if i = r then v else m.x i }

/-- Writing `X[r]`, or the stack pointer. -/
def Machine.setRegSp (m : Machine) (r : BitVec 5) (v : BitVec 64) : Machine :=
  if r = 31#5 then { m with sp := v } else m.setReg r v

/-- A byte offset of words: `SignExtend(imm:'00', 64)`. -/
def wordOffset {n : Nat} (imm : BitVec n) : BitVec 64 := (imm ++ 0#2).signExtend 64

/-- Where a branch at `pc` goes. -/
def branchTarget (pc : BitVec 64) (imm : BitVec 26) : BitVec 64 := pc + wordOffset imm

/-- The address an instruction forms: the result of `ADRP` and `ADD`, the address `LDR` and `STR`
access, the target of a branch. -/
def Machine.address (m : Machine) : Insn → BitVec 64
  | .adrp imm _ => (m.pc &&& ~~~0xfff#64) + (imm ++ 0#12).signExtend 64
  | .addImm sf sh imm rn _ =>
    let sum := m.regSp rn + (if sh then (imm ++ 0#12).setWidth 64 else imm.setWidth 64)
    if sf then sum else (sum.setWidth 32).setWidth 64
  | .ldr64 imm rn _ | .str64 imm rn _ => m.regSp rn + (imm ++ 0#3).setWidth 64
  | .ldrLit64 imm _ => m.pc + wordOffset imm
  | .b _ imm => branchTarget m.pc imm
  | .br rn => m.reg rn

def Machine.exec (m : Machine) (i : Insn) : Machine :=
  let next := { m with pc := m.pc + 4#64 }
  match i with
  | .adrp _ rd => next.setReg rd (m.address i)
  | .addImm _ _ _ _ rd => next.setRegSp rd (m.address i)
  | .ldr64 _ _ rt | .ldrLit64 _ rt => next.setReg rt (m.mem.load64 (m.address i))
  | .str64 _ _ rt => { next with mem := m.mem.store (m.address i) (m.reg rt) }
  | .b link _ => { if link then next.setReg 30#5 next.pc else next with pc := m.address i }
  | .br _ => { m with pc := m.address i }

def Machine.step (m : Machine) : Option Machine := (decode (m.mem.load32 m.pc)).map m.exec

variable {w : BitVec 32}

theorem Machine.step_of_decode {m : Machine} {i : Insn} (hw : m.mem.load32 m.pc = w)
    (hi : decode w = some i) : m.step = some (m.exec i) := by
  rw [step, hw, hi, Option.map_some]

/-! ## Decoding -/

theorem decode_adrp (h : IsAdrp w) : decode w = some (.adrp (imm21 w) (rd w)) :=
  if_pos h

theorem IsAddImm.not_adrp (h : IsAddImm w) : ¬ IsAdrp w := by
  intro ha
  have h5 : (w.extractLsb' 23 8).extractLsb' 1 5 = w.extractLsb' 24 5 := field_field w (by decide)
  rw [ha.1, h] at h5
  exact absurd h5 (by decide)

theorem decode_addImm (h : IsAddImm w) :
    decode w = some (.addImm (w.getLsbD 31) (w.getLsbD 22) (imm12 w) (rn w) (rd w)) := by
  rw [decode, if_neg h.not_adrp, if_pos h]

theorem decode_ldst64 (h : IsLdr64 w ∨ IsStr64 w) : decode w = some (.ldr64 (imm12 w) (rn w) (rd w))
    ∨ decode w = some (.str64 (imm12 w) (rn w) (rd w)) := by
  have h5 : (w.extractLsb' 22 10).extractLsb' 2 5 = w.extractLsb' 24 5 := field_field w (by decide)
  have h8 : (w.extractLsb' 22 10).extractLsb' 1 8 = w.extractLsb' 23 8 := field_field w (by decide)
  have hadrp : ¬ IsAdrp w := by
    intro ha
    rw [ha.1] at h5
    rcases h with h | h <;> rw [h] at h5 <;> exact absurd h5 (by decide)
  have hadd : ¬ IsAddImm w := by
    intro ha
    rw [ha] at h8
    rcases h with h | h <;> rw [h] at h8 <;> exact absurd h8 (by decide)
  rw [decode, if_neg hadrp, if_neg hadd]
  by_cases hl : IsLdr64 w
  · exact .inl (if_pos hl)
  · right
    rw [if_neg hl, if_pos (h.resolve_left hl)]

theorem Machine.step_adrp {m : Machine} (hw : m.mem.load32 m.pc = w) (h : IsAdrp w)
    (h31 : rd w ≠ 31#5) :
    ∃ m1, m.step = some m1 ∧
      m1.x (rd w) = (m.pc &&& ~~~0xfff#64) + (imm21 w ++ 0#12).signExtend 64 := by
  refine ⟨_, step_of_decode hw (decode_adrp h), ?_⟩
  simp [exec, setReg, address, h31]

/-! ## Offsets in words -/

theorem low_wordOffset (imm : BitVec 26) : (wordOffset imm).extractLsb' 0 2 = 0#2 := by
  apply BitVec.eq_of_getLsbD_eq
  intro i hi
  have h28 : i < 26 + 2 := by omega
  rw [wordOffset, BitVec.getLsbD_extractLsb', Nat.zero_add, BitVec.getLsbD_signExtend, if_pos h28,
    BitVec.getLsbD_append, if_pos hi]
  simp

theorem wordOffset_eq_iff (d : BitVec 64) :
    wordOffset (d.extractLsb' 2 26) = d ↔ d.toNat % 4 = 0 ∧ FitsSigned 28 d := by
  have happ : d.extractLsb' 0 2 = 0#2 → d.extractLsb' 2 26 ++ 0#2 = d.extractLsb' 0 28 :=
    fun hlow => field_append_zero hlow
  have hiff : d.extractLsb' 0 2 = 0#2 ↔ d.toNat % 4 = 0 := by
    rw [← BitVec.toNat_inj, BitVec.extractLsb'_toNat]
    rfl
  constructor
  · intro h
    have hlow := low_wordOffset (d.extractLsb' 2 26)
    rw [h] at hlow
    rw [wordOffset, happ hlow] at h
    exact ⟨hiff.mp hlow, (signExtend_low_iff (by decide) (by decide)).mp h⟩
  · rintro ⟨h4, hf⟩
    rw [wordOffset, happ (hiff.mpr h4)]
    exact signExtend_low hf (by decide) (by decide)

end Kerners.Lib.A64
