import Kerners.Lib.ByteMem

/-!
# RV64 instructions that form addresses and transfer control

The immediates of the U, I, S, B and J formats, and the instructions that form an address or transfer
control: `auipc`, `ld`, `jal`, `jalr`, the conditional branches and their compressed forms. `transfer`
says where the instruction at the program counter sends control; it is `none` for an instruction that
goes on with the next one.
-/

namespace Kerners.Lib.Rv64

open BitVec

/-! ## Fields and immediates -/

def opcode (w : BitVec 32) : BitVec 7 := w.extractLsb' 0 7

def rd (w : BitVec 32) : BitVec 5 := w.extractLsb' 7 5

def funct3 (w : BitVec 32) : BitVec 3 := w.extractLsb' 12 3

def rs1 (w : BitVec 32) : BitVec 5 := w.extractLsb' 15 5

def rs2 (w : BitVec 32) : BitVec 5 := w.extractLsb' 20 5

def immU (w : BitVec 32) : BitVec 20 := w.extractLsb' 12 20

def immI (w : BitVec 32) : BitVec 12 := w.extractLsb' 20 12

def immS (w : BitVec 32) : BitVec 12 := w.extractLsb' 25 7 ++ w.extractLsb' 7 5

def immB (w : BitVec 32) : BitVec 13 :=
  w.extractLsb' 31 1 ++ (w.extractLsb' 7 1 ++ (w.extractLsb' 25 6 ++ (w.extractLsb' 8 4 ++ 0#1)))

def immJ (w : BitVec 32) : BitVec 21 :=
  w.extractLsb' 31 1 ++ (w.extractLsb' 12 8 ++ (w.extractLsb' 20 1 ++ (w.extractLsb' 21 10 ++ 0#1)))

/-- `c.j`: `imm[11|4|9:8|10|6|7|3:1|5]` in bits 12 to 2. -/
def immCJ (h : BitVec 16) : BitVec 12 :=
  h.extractLsb' 12 1 ++ (h.extractLsb' 8 1 ++ (h.extractLsb' 9 2 ++ (h.extractLsb' 6 1 ++
    (h.extractLsb' 7 1 ++ (h.extractLsb' 2 1 ++ (h.extractLsb' 11 1 ++ (h.extractLsb' 3 3 ++ 0#1)))))))

/-- `c.beqz`, `c.bnez`: `imm[8|4:3]` in bits 12 to 10 and `imm[7:6|2:1|5]` in bits 6 to 2. -/
def immCB (h : BitVec 16) : BitVec 9 :=
  h.extractLsb' 12 1 ++ (h.extractLsb' 5 2 ++ (h.extractLsb' 2 1 ++ (h.extractLsb' 10 2 ++
    (h.extractLsb' 3 2 ++ 0#1))))

/-! ## Instructions -/

inductive Insn where
  | auipc (imm : BitVec 20) (rd : BitVec 5)
  | ld (imm : BitVec 12) (rs1 rd : BitVec 5)
  | jal (imm : BitVec 21) (rd : BitVec 5)
  | jalr (imm : BitVec 12) (rs1 rd : BitVec 5)
  | branch (cond : BitVec 3) (imm : BitVec 13) (rs1 rs2 : BitVec 5)
  | cj (imm : BitVec 12)
  | cjr (rs1 : BitVec 5)
  | cjalr (rs1 : BitVec 5)
  | cbeqz (imm : BitVec 9) (rs1 : BitVec 5)
  | cbnez (imm : BitVec 9) (rs1 : BitVec 5)
deriving DecidableEq

def decode32 (w : BitVec 32) : Option Insn :=
  match opcode w with
  | 0b0010111#7 => some (.auipc (immU w) (rd w))
  | 0b0000011#7 => if funct3 w = 3#3 then some (.ld (immI w) (rs1 w) (rd w)) else none
  | 0b1101111#7 => some (.jal (immJ w) (rd w))
  | 0b1100111#7 => if funct3 w = 0#3 then some (.jalr (immI w) (rs1 w) (rd w)) else none
  | 0b1100011#7 => some (.branch (funct3 w) (immB w) (rs1 w) (rs2 w))
  | _ => none

/-- The register of a compressed branch, one of `x8` to `x15`. -/
def rs1C (h : BitVec 16) : BitVec 5 := 0b01#2 ++ h.extractLsb' 7 3

/-- `c.jr` and `c.jalr`: no second register, and a first one. -/
def IsCJump (h : BitVec 16) : Prop := h.extractLsb' 2 5 = 0#5 ∧ h.extractLsb' 7 5 ≠ 0#5

instance (h : BitVec 16) : Decidable (IsCJump h) := inferInstanceAs (Decidable (_ ∧ _))

def decode16 (h : BitVec 16) : Option Insn :=
  match h.extractLsb' 0 2, h.extractLsb' 13 3 with
  | 0b01#2, 0b101#3 => some (.cj (immCJ h))
  | 0b01#2, 0b110#3 => some (.cbeqz (immCB h) (rs1C h))
  | 0b01#2, 0b111#3 => some (.cbnez (immCB h) (rs1C h))
  | 0b10#2, 0b100#3 =>
    if IsCJump h then
      some (if h.getLsbD 12 then .cjalr (h.extractLsb' 7 5) else .cjr (h.extractLsb' 7 5))
    else none
  | _, _ => none

def decode (w : BitVec 32) : Option Insn :=
  if w.extractLsb' 0 2 = 0b11#2 then decode32 w else decode16 (w.extractLsb' 0 16)

/-! ## Execution -/

structure Machine where
  x : BitVec 5 → BitVec 64
  pc : BitVec 64
  mem : ByteMem

def Machine.reg (m : Machine) (r : BitVec 5) : BitVec 64 := if r = 0#5 then 0#64 else m.x r

def Machine.setReg (m : Machine) (r : BitVec 5) (v : BitVec 64) : Machine :=
  { m with x := fun i => if i = r then v else m.x i }

/-- Whether a conditional branch on `a` and `b` is taken; two of the conditions are not assigned. -/
def taken (cond : BitVec 3) (a b : BitVec 64) : Bool :=
  match cond with
  | 0b000#3 => a == b
  | 0b001#3 => a != b
  | 0b100#3 => a.slt b
  | 0b101#3 => !a.slt b
  | 0b110#3 => a.ult b
  | 0b111#3 => !a.ult b
  | _ => false

/-- Where an instruction sends control, `none` when it goes on with the next one. -/
def Machine.dest (m : Machine) : Insn → Option (BitVec 64)
  | .auipc _ _ | .ld _ _ _ => none
  | .jal imm _ => some (m.pc + imm.signExtend 64)
  | .jalr imm rs1 _ => some ((m.reg rs1 + imm.signExtend 64) &&& ~~~1#64)
  | .branch cond imm rs1 rs2 =>
    if taken cond (m.reg rs1) (m.reg rs2) then some (m.pc + imm.signExtend 64) else none
  | .cj imm => some (m.pc + imm.signExtend 64)
  | .cjr rs1 | .cjalr rs1 => some (m.reg rs1 &&& ~~~1#64)
  | .cbeqz imm rs1 => if m.reg rs1 = 0#64 then some (m.pc + imm.signExtend 64) else none
  | .cbnez imm rs1 => if m.reg rs1 ≠ 0#64 then some (m.pc + imm.signExtend 64) else none

def Machine.transfer (m : Machine) : Option (BitVec 64) :=
  (decode (m.mem.load32 m.pc)).bind m.dest

def Machine.exec (m : Machine) : Insn → Option Machine
  | .auipc imm rd =>
    some { m.setReg rd (m.pc + (imm ++ 0#12).signExtend 64) with pc := m.pc + 4#64 }
  | .ld imm rs1 rd =>
    some { m.setReg rd (m.mem.load64 (m.reg rs1 + imm.signExtend 64)) with pc := m.pc + 4#64 }
  | _ => none

/-- Fetching and running an instruction that goes on with the next one. -/
def Machine.step (m : Machine) : Option Machine := (decode (m.mem.load32 m.pc)).bind m.exec

/-! ## Control goes to even addresses -/

def Even {n : Nat} (x : BitVec n) : Prop := x.getLsbD 0 = false

instance {n : Nat} (x : BitVec n) : Decidable (Even x) := inferInstanceAs (Decidable (_ = _))

theorem Even.add {x y : BitVec 64} (hx : Even x) (hy : Even y) : Even (x + y) := by
  rw [Even, getLsbD_add (by decide), hx, hy, carry_zero]
  rfl

variable {n : Nat} {x : BitVec n} {m : Machine} {i : Insn} {d : BitVec 64}

theorem Even.signExtend (hn : 0 < n) (hx : Even x) : Even (x.signExtend 64) := by
  rw [Even, getLsbD_signExtend, if_pos hn, hx, Bool.and_false]

theorem even_append_zero (x : BitVec n) : Even (x ++ 0#1) := by
  rw [Even, getLsbD_append]
  rfl

theorem even_and (x : BitVec 64) : Even (x &&& ~~~1#64) := by
  rw [Even, getLsbD_and]
  exact Bool.and_false _

theorem even_append {k : Nat} {y : BitVec (k + 1)} (hy : Even y) : Even (x ++ y) := by
  rw [Even, getLsbD_append, if_pos (Nat.succ_pos k)]
  exact hy

theorem dest_even32 {w : BitVec 32} (hpc : Even m.pc) (hi : decode32 w = some i)
    (hd : m.dest i = some d) : Even d := by
  have hB : Even (immB w) := even_append (even_append (even_append (even_append_zero _)))
  have hJ : Even (immJ w) := even_append (even_append (even_append (even_append_zero _)))
  unfold decode32 at hi
  split at hi
  · cases hi
    cases hd
  · split at hi
    · cases hi
      cases hd
    · cases hi
  · cases hi
    cases hd
    exact hpc.add (hJ.signExtend (by decide))
  · split at hi
    · cases hi
      cases hd
      exact even_and _
    · cases hi
  · cases hi
    rw [Machine.dest] at hd
    split at hd
    · cases hd
      exact hpc.add (hB.signExtend (by decide))
    · cases hd
  · cases hi

theorem dest_even16 {h : BitVec 16} (hpc : Even m.pc) (hi : decode16 h = some i)
    (hd : m.dest i = some d) : Even d := by
  have hJ : Even (immCJ h) :=
    even_append (even_append (even_append (even_append (even_append (even_append
      (even_append (even_append_zero _)))))))
  have hB : Even (immCB h) :=
    even_append (even_append (even_append (even_append (even_append_zero _))))
  unfold decode16 at hi
  split at hi
  · cases hi
    cases hd
    exact hpc.add (hJ.signExtend (by decide))
  · cases hi
    rw [Machine.dest] at hd
    split at hd
    · cases hd
      exact hpc.add (hB.signExtend (by decide))
    · cases hd
  · cases hi
    rw [Machine.dest] at hd
    split at hd
    · cases hd
      exact hpc.add (hB.signExtend (by decide))
    · cases hd
  · split at hi
    · cases hi
      split at hd
      · cases hd
        exact even_and _
      · cases hd
        exact even_and _
    · cases hi
  · cases hi

theorem Machine.dest_even {w : BitVec 32} (hpc : Even m.pc) (hi : decode w = some i)
    (hd : m.dest i = some d) : Even d := by
  unfold decode at hi
  split at hi
  · exact dest_even32 hpc hi hd
  · exact dest_even16 hpc hi hd

theorem even_field {len : Nat} (hl : 0 < len) : Even (x.extractLsb' 0 len) ↔ Even x := by
  rw [Even, Even, getLsbD_extractLsb', decide_eq_true hl, Bool.true_and, Nat.zero_add]

theorem Even.and_not_one {x : BitVec 64} (hx : Even x) : x &&& ~~~1#64 = x := by
  apply eq_of_getLsbD_eq
  intro i hi
  cases i with
  | zero => rw [getLsbD_and, hx, Bool.false_and]
  | succ i =>
    have h1 : (1#64).getLsbD (i + 1) = false := by rw [getLsbD_one]; simp
    rw [getLsbD_and, getLsbD_not, h1, decide_eq_true hi]
    exact Bool.and_true _

theorem decode16_even {h : BitVec 16} (he : Even h) (hi : decode16 h = some i) :
    h.extractLsb' 0 2 = 0b10#2 ∧ h.extractLsb' 13 3 = 0b100#3 ∧ h.extractLsb' 2 5 = 0#5 ∧
      h.extractLsb' 7 5 ≠ 0#5 ∧ (i = .cjr (h.extractLsb' 7 5) ∨ i = .cjalr (h.extractLsb' 7 5)) := by
  have hodd : h.extractLsb' 0 2 ≠ 0b01#2 := by
    intro h01
    have hb : Even (h.extractLsb' 0 2) := (even_field (by decide)).mpr he
    rw [h01] at hb
    exact absurd hb (by decide)
  unfold decode16 at hi
  split at hi
  · rename_i h01 _
    exact absurd h01 hodd
  · rename_i h01 _
    exact absurd h01 hodd
  · rename_i h01 _
    exact absurd h01 hodd
  · rename_i h10 h100
    split at hi
    · rename_i hj
      refine ⟨h10, h100, hj.1, hj.2, ?_⟩
      cases hi
      split
      · exact .inr rfl
      · exact .inl rfl
    · cases hi
  · cases hi

end Kerners.Lib.Rv64
