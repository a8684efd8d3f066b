import Kerners.Lib.Packing
import Kerners.Module.Reloc

/-!
# AArch64 relocations (`src/module/loader.rs`)

`apply_relocation_aarch64` with the instruction words it builds, and what the patched instructions do
according to their A64 encoding.
-/

namespace Kerners.Module

open Lib BitVec

/-! ## The relocation -/

inductive RelocAarch64 where
  | none | abs64 | abs32 | prel64 | prel32 | adrPrelPgHi21 | addAbsLo12Nc | jump26 | call26
  | ldst64AbsLo12Nc
deriving DecidableEq

/-- The constants of `reloc_aarch64`. -/
def RelocAarch64.ofU32 : Nat → Option RelocAarch64
  | 0 => some .none
  | 257 => some .abs64
  | 258 => some .abs32
  | 260 => some .prel64
  | 261 => some .prel32
  | 275 => some .adrPrelPgHi21
  | 277 => some .addAbsLo12Nc
  | 282 => some .jump26
  | 283 => some .call26
  | 286 => some .ldst64AbsLo12Nc
  | _ => Option.none

/-- `B` and `BL` with an offset in words. -/
def insnBranch26 (offset insn : BitVec 32) : BitVec 32 :=
  (insn &&& 0xfc000000#32) ||| (offset &&& 0x03ffffff#32)

/-- `ADRP` with an offset in pages. -/
def insnAdrp (offset insn : BitVec 32) : BitVec 32 :=
  (insn &&& 0x9f00001f#32) ||| ((offset &&& 0x3#32) <<< 29)
    ||| (((offset.sshiftRight 2) &&& 0x7ffff#32) <<< 5)

/-- `ADD`, `LDR` and `STR` with an immediate of twelve bits. -/
def insnImm12 (value insn : BitVec 32) : BitVec 32 := (insn &&& 0xffc003ff#32) ||| (value <<< 10)

/-- `CALL26` and `JUMP26`. -/
def relocBranch26 (relType : Nat) (relocAddr target : BitVec 64) (st : RelocState) : RelocResult :=
  let p := relocAddr
  let offset : BitVec 32 := ((target - p).sshiftRight 2).setWidth 32
  if offset.toInt > 0x1ffffff ∨ offset.toInt < -0x2000000 then
    match st.throughPlt .aarch64 relType target with
    | (.error e, st') => (.error e, st')
    | (.ok pltAddr, st') =>
      (.ok (), st'.patch relocAddr (insnBranch26 (((pltAddr - p).sshiftRight 2).setWidth 32)))
  else (.ok (), st.patch relocAddr (insnBranch26 offset))

/-- `ADR_PREL_PG_HI21`. -/
def relocAdrp (relType : Nat) (relocAddr target : BitVec 64) (st : RelocState) : RelocResult :=
  let pageS := target &&& ~~~0xfff#64
  let pageP := relocAddr &&& ~~~0xfff#64
  let offset : BitVec 32 := ((pageS - pageP).sshiftRight 12).setWidth 32
  if offset.toInt > 0xfffff ∨ offset.toInt < -0x100000 then
    (.error (.unsupportedRelocation relType), st)
  else (.ok (), st.patch relocAddr (insnAdrp offset))

def applyRelocationAarch64 (relocAddr symValue addend : BitVec 64) (relType : Nat)
    (st : RelocState) : RelocResult :=
  let s := symValue
  let a := addend
  let p := relocAddr
  match RelocAarch64.ofU32 relType with
  | some .none => (.ok (), st)
  | some .abs64 => (.ok (), st.write relocAddr (s + a))
  | some .abs32 => (.ok (), st.write relocAddr ((s + a).setWidth 32))
  | some .prel32 => (.ok (), st.write relocAddr ((s + a - p).setWidth 32))
  | some .prel64 => (.ok (), st.write relocAddr (s + a - p))
  | some .call26 | some .jump26 => relocBranch26 relType relocAddr (s + a) st
  | some .adrPrelPgHi21 => relocAdrp relType relocAddr (s + a) st
  | some .addAbsLo12Nc =>
    (.ok (), st.patch relocAddr (insnImm12 (((s + a) &&& 0xfff#64).setWidth 32)))
  | some .ldst64AbsLo12Nc =>
    (.ok (), st.patch relocAddr (insnImm12 ((((s + a) &&& 0xfff#64).sshiftRight 3).setWidth 32)))
  | Option.none => (.error (.unsupportedRelocation relType), st)

/-! ## Fields of the patched words -/

theorem imm26_insnBranch26 (offset insn : BitVec 32) :
    A64.imm26 (insnBranch26 offset insn) = offset.extractLsb' 0 26 := by
  rw [A64.imm26, insnBranch26, extractLsb'_or, field_clear insn (by decide),
    field_keep offset (by decide), zero_or]

theorem top_insnBranch26 (offset insn : BitVec 32) :
    (insnBranch26 offset insn).extractLsb' 26 6 = insn.extractLsb' 26 6 := by
  rw [insnBranch26, extractLsb'_or, field_keep insn (by decide),
    field_clear offset (by decide), or_zero]

theorem imm21_insnAdrp (offset insn : BitVec 32) :
    A64.imm21 (insnAdrp offset insn) = offset.extractLsb' 0 21 := by
  have hhi : (insnAdrp offset insn).extractLsb' 5 19 = offset.extractLsb' 2 19 := by
    simp (disch := decide) only [insnAdrp, extractLsb'_or, field_clear, field_keep, field_shiftLeft,
      field_shiftLeft_below, field_sshiftRight, zero_or, or_zero, Nat.reduceSub, Nat.reduceAdd]
  have hlo : (insnAdrp offset insn).extractLsb' 29 2 = offset.extractLsb' 0 2 := by
    simp (disch := decide) only [insnAdrp, extractLsb'_or, field_clear, field_keep,
      field_shiftLeft, zero_or, or_zero, Nat.reduceSub]
  rw [A64.imm21, hhi, hlo]
  exact extractLsb'_append_extractLsb'_eq_extractLsb' (by decide)

theorem kept_insnAdrp (offset insn : BitVec 32) : (insnAdrp offset insn).extractLsb' 0 5 =
    insn.extractLsb' 0 5 ∧ (insnAdrp offset insn).extractLsb' 24 5 = insn.extractLsb' 24 5 ∧
    (insnAdrp offset insn).extractLsb' 31 1 = insn.extractLsb' 31 1 := by
  refine ⟨?_, ?_, ?_⟩ <;>
    simp (disch := decide) only [insnAdrp, extractLsb'_or, field_clear, field_keep,
      field_shiftLeft, field_shiftLeft_below, or_zero, Nat.reduceSub]

theorem imm12_insnImm12 (value insn : BitVec 32) :
    A64.imm12 (insnImm12 value insn) = value.extractLsb' 0 12 := by
  simp (disch := decide) only [A64.imm12, insnImm12, extractLsb'_or, field_clear,
    field_shiftLeft, zero_or, Nat.reduceSub]

theorem low_insnImm12 (value insn : BitVec 32) :
    (insnImm12 value insn).extractLsb' 0 10 = insn.extractLsb' 0 10 := by
  simp (disch := decide) only [insnImm12, extractLsb'_or, field_keep, field_shiftLeft_below,
    or_zero]

theorem top_insnImm12 (value insn : BitVec 32) (hv : value.extractLsb' 12 10 = 0#10) :
    (insnImm12 value insn).extractLsb' 22 10 = insn.extractLsb' 22 10 := by
  simp (disch := decide) only [insnImm12, extractLsb'_or, field_keep, field_shiftLeft, hv,
    or_zero, Nat.reduceSub]

/-! ## Branches -/

/-- The distance is within 128 MB modulo `2^34`: what the range test on the narrowed offset sees. -/
def InWindow (d : BitVec 64) : Prop :=
  -2 ^ 27 ≤ d.toInt.bmod (2 ^ 34) ∧ d.toInt.bmod (2 ^ 34) < 2 ^ 27

instance (d : BitVec 64) : Decidable (InWindow d) := inferInstanceAs (Decidable (_ ∧ _))

theorem toInt_narrow (d : BitVec 64) (k : Nat) :
    ((d.sshiftRight k).setWidth 32 : BitVec 32).toInt = (d.toInt / 2 ^ k).bmod (2 ^ 32) := by
  rw [toInt_setWidth, ← Int.bmod_bmod_of_dvd (n := 2 ^ 32) (m := 2 ^ 64) (by decide),
    ← toInt_eq_toNat_bmod, toInt_sshiftRight, Int.shiftRight_eq_div_pow]
  norm_cast

theorem window_iff (d : BitVec 64) :
    (((d.sshiftRight 2).setWidth 32 : BitVec 32).toInt > 0x1ffffff ∨
     ((d.sshiftRight 2).setWidth 32 : BitVec 32).toInt < -0x2000000) ↔
      ¬ InWindow d := by
  rw [toInt_narrow, InWindow]
  simp only [Int.bmod]
  omega

theorem imm26_patched (d : BitVec 64) (insn : BitVec 32) :
    A64.imm26 (insnBranch26 ((d.sshiftRight 2).setWidth 32) insn) = d.extractLsb' 2 26 := by
  rw [imm26_insnBranch26, field_setWidth _ (by decide), field_sshiftRight d (by decide)]

/-- The PLT page is within 128 MB of `p`. -/
structure NearPlt (st : RelocState) (p : BitVec 64) : Prop where
  valid : ∀ t, st.plt = some t → t.Valid
  page : ∀ t, st.plt = some t → t.base.toNat % 4096 = 0
  reach : ∀ t, st.plt = some t → ∀ k < 4096, FitsSigned 28 (t.base + BitVec.ofNat 64 k - p)

/-- The word at `p`, decoded as a branch, goes to the target or to a stub made for it. -/
def Branches (st : RelocState) (p target : BitVec 64) : Prop :=
  A64.branchTarget p (A64.imm26 (st.mem.load32 p)) = target ∨
    ∃ t, st.plt = some t ∧
      (target, A64.branchTarget p (A64.imm26 (st.mem.load32 p))) ∈ t.entries

/-- The word at `p` has the same top six bits in both memories. -/
def TopKept (m m' : ByteMem) (p : BitVec 64) : Prop :=
  (m'.load32 p).extractLsb' 26 6 = (m.load32 p).extractLsb' 26 6

/-- What a call relocation that returns `Ok` should have done. -/
def CallReaches (relocAddr symValue addend : BitVec 64) (relType : Nat) (st : RelocState) : Prop :=
  ∀ st', applyRelocationAarch64 relocAddr symValue addend relType st = (.ok (), st') →
    TopKept st.mem st'.mem relocAddr ∧ Branches st' relocAddr (symValue + addend)

/-- A stub for the target, should one be written now, leaves the top six bits of the word at `p`. -/
def StubSpares (st : RelocState) (p target : BitVec 64) : Prop :=
  ∀ t, st.plt = some t → TopKept st.mem (t.getOrCreate .aarch64 st.mem target).2.2 p

variable {st : RelocState} {p target a : BitVec 64} {relType : Nat} {st1 : RelocState}

theorem NearPlt.branchTarget {t : PltTable} (hn : NearPlt st p) (hp : p.toNat % 4 = 0)
    (ht : st.plt = some t) (m : ByteMem) (ha : (t.getOrCreate .aarch64 m target).1 = some a) :
    A64.branchTarget p ((a - p).extractLsb' 2 26) = a := by
  have hv := (hn.valid t ht).getOrCreate .aarch64 m target
  have hans := t.answered .aarch64 m target
  obtain ⟨k, hk, hslot⟩ := hv.mem_slot (hans.found a ha)
  rw [hans.base] at hslot
  simp only [maxPltEntries, pltEntrySize, Mm.pageSize] at hk hslot
  have hpage := hn.page t ht
  have hreach : FitsSigned 28 (a - p) := by
    rw [hslot]
    exact hn.reach t ht (k * 16) (by omega)
  have h4 : (a - p).toNat % 4 = 0 := by
    rw [hslot, toNat_sub, toNat_add, toNat_ofNat]
    omega
  rw [A64.branchTarget, (A64.wordOffset_eq_iff _).mpr ⟨h4, hreach⟩]
  grind

theorem relocBranch26_near (st : RelocState) (h : InWindow (target - p)) :
    relocBranch26 relType p target st =
      (.ok (), st.patch p (insnBranch26 (((target - p).sshiftRight 2).setWidth 32))) :=
  if_neg fun hc => (window_iff _).mp hc h

theorem relocBranch26_far {st' : RelocState} (h : ¬ InWindow (target - p))
    (hok : relocBranch26 relType p target st = (.ok (), st')) :
    ∃ a st1, st.throughPlt .aarch64 relType target = (.ok a, st1) ∧
      st' = st1.patch p (insnBranch26 (((a - p).sshiftRight 2).setWidth 32)) := by
  rw [relocBranch26] at hok
  simp only [if_pos ((window_iff _).mpr h)] at hok
  split at hok
  · cases hok
  · rename_i a st1 ha
    cases hok
    exact ⟨a, st1, ha, rfl⟩

theorem relocBranch26_far_ok (h : ¬ InWindow (target - p))
    (ha : st.throughPlt .aarch64 relType target = (.ok a, st1)) :
    relocBranch26 relType p target st =
      (.ok (), st1.patch p (insnBranch26 (((a - p).sshiftRight 2).setWidth 32))) := by
  rw [relocBranch26]
  simp only [if_pos ((window_iff _).mpr h), ha]

open RelocState

section

variable {relType : Nat} {p target : BitVec 64} {st : RelocState}

theorem branchTarget_eq_iff :
    A64.branchTarget p ((target - p).extractLsb' 2 26) = target ↔
      (target - p).toNat % 4 = 0 ∧ FitsSigned 28 (target - p) := by
  rw [← A64.wordOffset_eq_iff, A64.branchTarget]
  constructor <;> intro h <;> grind

theorem relocBranch26_near_iff (hw : InWindow (target - p)) :
    (∀ st', relocBranch26 relType p target st = (.ok (), st') →
       TopKept st.mem st'.mem p ∧ Branches st' p target) ↔
      ((target - p).toNat % 4 = 0 ∧ FitsSigned 28 (target - p)) ∨
      ∃ t, st.plt = some t ∧
        (target, A64.branchTarget p ((target - p).extractLsb' 2 26)) ∈ t.entries := by
  rw [relocBranch26_near st hw, ← branchTarget_eq_iff]
  constructor
  · intro h
    have hb := (h _ rfl).2
    rw [Branches, load32_patch, imm26_patched] at hb
    exact hb
  · rintro h st' ⟨⟩
    rw [TopKept, Branches, load32_patch, imm26_patched]
    exact ⟨top_insnBranch26 _ _, h⟩

theorem relocBranch26_far_iff (hw : ¬ InWindow (target - p)) (hp : p.toNat % 4 = 0)
    (hnear : NearPlt st p) :
    (∀ st', relocBranch26 relType p target st = (.ok (), st') →
       TopKept st.mem st'.mem p ∧ Branches st' p target) ↔
      StubSpares st p target := by
  constructor
  · intro h t ht
    rcases t.getOrCreate_cases .aarch64 st.mem target with ⟨_, _, he⟩ | ⟨_, _, he⟩ | ⟨_, _, he⟩
    · rw [he]
      rfl
    · rw [he]
      rfl
    · have hthrough := throughPlt_of_some relType ht (congrArg Prod.fst he)
      have htop := (h _ (relocBranch26_far_ok hw hthrough)).1
      rw [TopKept, load32_patch, top_insnBranch26] at htop
      exact htop
  · intro h st' hok
    obtain ⟨a, st1, hthrough, rfl⟩ := relocBranch26_far hw hok
    obtain ⟨t, ht, ha, hplt, hmem⟩ := throughPlt_ok hthrough
    rw [TopKept, Branches, load32_patch, imm26_patched, top_insnBranch26]
    refine ⟨by rw [hmem]; exact h t ht, .inr ⟨_, hplt, ?_⟩⟩
    rw [hnear.branchTarget hp ht st.mem ha]
    exact (t.answered .aarch64 st.mem target).found a ha

end

/-- **AArch64 calls.** A `CALL26` or `JUMP26` relocation that returns `Ok` leaves a branch to its
target, or to a stub for it, exactly when the distance is a multiple of four within 128 MB or needs
a stub, unless the new stub is written over the branch. -/
theorem call26_reaches_iff (relocAddr symValue addend : BitVec 64) (relType : Nat) (st : RelocState)
    (htype : relType = 283 ∨ relType = 282) (hp : relocAddr.toNat % 4 = 0)
    (hnear : NearPlt st relocAddr) :
    CallReaches relocAddr symValue addend relType st ↔
      let d := symValue + addend - relocAddr
      if InWindow d then
        (d.toNat % 4 = 0 ∧ FitsSigned 28 d) ∨
          ∃ t, st.plt = some t ∧
            (symValue + addend, A64.branchTarget relocAddr (d.extractLsb' 2 26)) ∈ t.entries
      else StubSpares st relocAddr (symValue + addend) := by
  have happly : ∀ st0, applyRelocationAarch64 relocAddr symValue addend relType st0
      = relocBranch26 relType relocAddr (symValue + addend) st0 := by
    rcases htype with rfl | rfl <;> exact fun _ => rfl
  simp only [CallReaches, happly]
  by_cases hw : InWindow (symValue + addend - relocAddr)
  · rw [if_pos hw]
    exact relocBranch26_near_iff hw
  · rw [if_neg hw]
    exact relocBranch26_far_iff hw hp hnear

/-- Zeroed memory and an empty PLT one megabyte behind the code at `0x80000000`. -/
def blankState : RelocState := ⟨fun _ => 0#8, some (PltTable.new 0x80100000#64), []⟩

theorem nearPlt_blankState : NearPlt blankState 0x80000000#64 where
  valid := by
    rintro t ⟨⟩
    exact PltTable.valid_new _
  page := by
    rintro t ⟨⟩
    rfl
  reach := by
    rintro t ⟨⟩ k hk
    have e : 0x80100000#64 + BitVec.ofNat 64 k - 0x80000000#64 = BitVec.ofNat 64 (0x100000 + k) := by
      rw [ofNat_add]
      grind
    rw [PltTable.new, e, FitsSigned, toInt_ofNat', Int.bmod_eq_of_le (by omega) (by omega)]
    constructor <;> omega

theorem call26_reaches_ahead :
    NearPlt blankState 0x80000000#64 ∧ CallReaches 0x80000000#64 0x80001000#64 0#64 283 blankState :=
  ⟨nearPlt_blankState,
    (call26_reaches_iff 0x80000000#64 0x80001000#64 0#64 283 blankState (.inl rfl) (by decide)
      nearPlt_blankState).mpr (by rw [if_pos (by decide)]; exact .inl (by decide))⟩

/-- A target `2^34` bytes ahead: the narrowed distance is zero, and the call goes to itself. -/
theorem call26_misses :
    NearPlt blankState 0x80000000#64 ∧
      ¬ CallReaches 0x80000000#64 0x480000000#64 0#64 283 blankState := by
  refine ⟨nearPlt_blankState, fun h => ?_⟩
  have hb := (h (blankState.patch 0x80000000#64 (insnBranch26 0#32)) rfl).2
  rw [Branches, RelocState.load32_patch, imm26_insnBranch26] at hb
  rcases hb with hb | ⟨t, ⟨⟩, ht⟩
  · exact absurd hb (by decide)
  · cases ht

/-! ## Addresses in two parts -/

def page (x : BitVec 64) : BitVec 64 := x &&& ~~~0xfff#64

def pageDistance (target p : BitVec 64) : BitVec 64 := (page target - page p).sshiftRight 12

theorem toNat_page (x : BitVec 64) : (page x).toNat = x.toNat / 2 ^ 12 * 2 ^ 12 := by
  rw [page, toNat_and]
  exact and_mask (k := 12) (n := 64) (by decide) x.isLt

theorem page_add_low (x : BitVec 64) : page x + (x.extractLsb' 0 12).setWidth 64 = x := by
  have hx := x.isLt
  apply eq_of_toNat_eq
  rw [toNat_add, toNat_page, toNat_setWidth, extractLsb'_toNat, Nat.shiftRight_zero]
  omega

theorem toInt_pages (h1 : -2 ^ 43 < (target - p).toInt) (h2 : (target - p).toInt < 2 ^ 43) :
    -2 ^ 43 ≤ (page target - page p).toInt ∧ (page target - page p).toInt ≤ 2 ^ 43 ∧
      (page target - page p).toInt % 2 ^ 12 = 0 := by
  have hp := p.isLt
  have e := toInt_eq_toNat_cond (target - p)
  have e' := toInt_eq_toNat_cond (page target - page p)
  rw [toNat_sub] at e e'
  rw [toNat_page, toNat_page] at e'
  omega

theorem adrpRange_iff (h1 : -2 ^ 43 < (target - p).toInt) (h2 : (target - p).toInt < 2 ^ 43) :
    (((page target - page p).sshiftRight 12).setWidth 32 : BitVec 32).toInt > 0xfffff ∨
        (((page target - page p).sshiftRight 12).setWidth 32 : BitVec 32).toInt < -0x100000 ↔
      ¬ FitsSigned 21 (pageDistance target p) := by
  obtain ⟨hlo, hhi, _⟩ := toInt_pages h1 h2
  rw [toInt_narrow, FitsSigned, pageDistance, toInt_sshiftRight, Int.shiftRight_eq_div_pow]
  generalize (page target - page p).toInt = v at hlo hhi ⊢
  simp only [Int.bmod]
  omega

theorem adrp_offset (hf : FitsSigned 21 (pageDistance target p)) :
    ((page target - page p).extractLsb' 12 21 ++ 0#12).signExtend 64 = page target - page p := by
  have hlow : (page target - page p).extractLsb' 0 12 = 0#12 := by
    rw [← toNat_inj, extractLsb'_toNat, toNat_sub, toNat_page, toNat_page]
    simp only [Nat.shiftRight_zero, toNat_ofNat]
    omega
  have happ : (page target - page p).extractLsb' 12 21 ++ 0#12
      = (page target - page p).extractLsb' 0 33 := field_append_zero hlow
  rw [happ]
  refine signExtend_low ?_ (by decide) (by decide)
  rw [FitsSigned, pageDistance, toInt_sshiftRight, Int.shiftRight_eq_div_pow] at hf
  rw [FitsSigned]
  omega

/-- What the second relocation of a pair writes into its immediate. -/
def lowValue (relType : Nat) (target : BitVec 64) : BitVec 32 :=
  if relType = 277 then (target &&& 0xfff#64).setWidth 32
  else ((target &&& 0xfff#64).sshiftRight 3).setWidth 32

theorem toNat_low12 (x : BitVec 64) : (x &&& 0xfff#64).toNat = x.toNat % 2 ^ 12 := by
  rw [toNat_and]
  exact Nat.and_two_pow_sub_one_eq_mod x.toNat 12

theorem toNat_lowValue (relType : Nat) (target : BitVec 64) :
    (lowValue relType target).toNat =
      if relType = 277 then target.toNat % 2 ^ 12 else target.toNat % 2 ^ 12 / 2 ^ 3 := by
  have h12 := toNat_low12 target
  unfold lowValue
  split
  · rw [toNat_setWidth, h12]
    omega
  · rw [toNat_setWidth, sshiftRight_eq_of_msb_false, toNat_ushiftRight, h12,
      Nat.shiftRight_eq_div_pow]
    · omega
    · rw [msb_eq_false_iff_two_mul_lt, h12]
      omega

theorem top_lowValue (relType : Nat) (target : BitVec 64) :
    (lowValue relType target).extractLsb' 12 10 = 0#10 := by
  rw [← toNat_inj, extractLsb'_toNat, toNat_lowValue, Nat.shiftRight_eq_div_pow]
  simp only [toNat_ofNat]
  split <;> omega

theorem apply_low (h : relType = 277 ∨ relType = 286) (q s a : BitVec 64) (st : RelocState) :
    applyRelocationAarch64 q s a relType st =
      (.ok (), st.patch q (insnImm12 (lowValue relType (s + a)))) := by
  rcases h with rfl | rfl <;> rfl

variable {s : BitVec 64}

theorem apply_adrp {st' : RelocState} (h : applyRelocationAarch64 p s a 275 st = (.ok (), st')) :
    st' = st.patch p (insnAdrp (((page (s + a) - page p).sshiftRight 12).setWidth 32)) := by
  have h' : relocAdrp 275 p (s + a) st = (.ok (), st') := h
  rw [relocAdrp] at h'
  split at h'
  · cases h'
  · cases h'
    rfl

/-- The second instruction of a pair fits its relocation: a 64-bit `ADD` that does not shift its
immediate, or `LDR` or `STR` of an address that is a multiple of eight. -/
def LowInsn (relType : Nat) (w : BitVec 32) (target : BitVec 64) : Prop :=
  (relType = 277 ∧ A64.IsAddImm w ∧ w.getLsbD 31 = true ∧ w.getLsbD 22 = false) ∨
    (relType = 286 ∧ (A64.IsLdr64 w ∨ A64.IsStr64 w) ∧ target.toNat % 8 = 0)

/-- The pair at `p` and `q` forms the address `v`: whatever machine runs the first instruction, the
second forms `v` on every machine that has the first one's result in its register. -/
def Forms (mem : ByteMem) (p q v : BitVec 64) : Prop :=
  ∀ m n : A64.Machine, m.mem = mem → m.pc = p → n.mem = mem → n.pc = q →
    ∃ m1 i, m.step = some m1 ∧ A64.decode (mem.load32 q) = some i ∧
      (n.x (A64.rd (mem.load32 p)) = m1.x (A64.rd (mem.load32 p)) → n.address i = v)

theorem LowInsn.of_kept {w w' : BitVec 32} (h : LowInsn relType w target)
    (hk : w'.extractLsb' 22 10 = w.extractLsb' 22 10) : LowInsn relType w' target := by
  have bit : ∀ (v : BitVec 32) (j : Nat), j < 10 →
      v.getLsbD (22 + j) = (v.extractLsb' 22 10).getLsbD j := by
    intro v j hj
    rw [getLsbD_extractLsb', decide_eq_true hj, Bool.true_and]
  have h8 : ∀ v : BitVec 32, (v.extractLsb' 22 10).extractLsb' 1 8 = v.extractLsb' 23 8 :=
    fun v => field_field v (by decide)
  rcases h with ⟨ht, ha, h31, h22⟩ | ⟨ht, hls, h8d⟩
  · refine .inl ⟨ht, ?_, ?_, ?_⟩
    · rw [A64.IsAddImm, ← h8, hk, h8]
      exact ha
    · rw [bit w' 9 (by decide), hk, ← bit w 9 (by decide)]
      exact h31
    · rw [bit w' 0 (by decide), hk, ← bit w 0 (by decide)]
      exact h22
  · refine .inr ⟨ht, ?_, h8d⟩
    rw [A64.IsLdr64, A64.IsStr64, hk]
    exact hls

theorem LowInsn.address {w : BitVec 32} (h : LowInsn relType w target)
    (himm : A64.imm12 w = (lowValue relType target).extractLsb' 0 12) (n : A64.Machine)
    (h31 : A64.rn w ≠ 31#5) (hn : n.x (A64.rn w) = page target) :
    ∃ i, A64.decode w = some i ∧ n.address i = target := by
  have hreg : n.regSp (A64.rn w) = page target := by rw [A64.Machine.regSp, if_neg h31, hn]
  have hval := toNat_lowValue relType target
  rcases h with ⟨rfl, ha, hsf, hsh⟩ | ⟨rfl, hls, h8⟩
  · refine ⟨_, A64.decode_addImm ha, ?_⟩
    have hlow : A64.imm12 w = target.extractLsb' 0 12 := by
      rw [himm, ← toNat_inj, extractLsb'_toNat, extractLsb'_toNat, hval]
      simp
    simp only [A64.Machine.address, hsf, hsh, hreg, hlow, if_true, Bool.false_eq_true, if_false]
    exact page_add_low target
  · have hlow : (A64.imm12 w ++ 0#3).setWidth 64 = (target.extractLsb' 0 12).setWidth 64 := by
      rw [himm, ← toNat_inj, toNat_setWidth, toNat_setWidth, toNat_append, extractLsb'_toNat,
        extractLsb'_toNat, hval, Nat.shiftLeft_eq]
      simp only [Nat.shiftRight_zero, toNat_ofNat, Nat.zero_mod, Nat.or_zero]
      rw [if_neg (by decide)]
      omega
    rcases A64.decode_ldst64 hls with hd | hd
    · refine ⟨_, hd, ?_⟩
      rw [A64.Machine.address, hreg, hlow]
      exact page_add_low target
    · refine ⟨_, hd, ?_⟩
      rw [A64.Machine.address, hreg, hlow]
      exact page_add_low target

theorem pair_words {q : BitVec 64} {st2 : RelocState} (hpq : Apart p 4 q 4)
    (ht : relType = 277 ∨ relType = 286)
    (hfst : applyRelocationAarch64 p s a 275 st = (.ok (), st1))
    (hsnd : applyRelocationAarch64 q s a relType st1 = (.ok (), st2)) :
    st2.mem.load32 p =
      insnAdrp (((page (s + a) - page p).sshiftRight 12).setWidth 32) (st.mem.load32 p) ∧
    st2.mem.load32 q = insnImm12 (lowValue relType (s + a)) (st.mem.load32 q) := by
  rw [apply_low ht] at hsnd
  cases hsnd
  rw [apply_adrp hfst]
  constructor
  · rw [load32_patch_apart _ _ (hpq.symm (by decide)), load32_patch]
  · rw [load32_patch, load32_patch_apart _ _ hpq]

theorem fits_of_adrp (h1 : -2 ^ 43 < (s + a - p).toInt) (h2 : (s + a - p).toInt < 2 ^ 43)
    (h : applyRelocationAarch64 p s a 275 st = (.ok (), st1)) :
    FitsSigned 21 (pageDistance (s + a) p) := by
  by_contra hf
  have hr : relocAdrp 275 p (s + a) st = (.ok (), st1) := h
  have hc := (adrpRange_iff h1 h2).mpr hf
  simp only [page] at hc
  rw [relocAdrp, if_pos hc] at hr
  cases hr

theorem relocAdrp_error {e : ModuleError} (h : (relocAdrp relType p target st).1 = .error e) :
    (relocAdrp relType p target st).2 = st := by
  rw [relocAdrp] at h ⊢
  split
  · rfl
  · rename_i hc
    simp only [if_neg hc, reduceCtorEq] at h

section

variable {p q s a : BitVec 64} {relType : Nat} {st st1 st2 : RelocState}

theorem pair_kept (hpq : Apart p 4 q 4) (ht : relType = 277 ∨ relType = 286)
    (hfst : applyRelocationAarch64 p s a 275 st = (.ok (), st1))
    (hsnd : applyRelocationAarch64 q s a relType st1 = (.ok (), st2)) :
    (st2.mem.load32 p).extractLsb' 0 5 = (st.mem.load32 p).extractLsb' 0 5 ∧
    (st2.mem.load32 p).extractLsb' 24 5 = (st.mem.load32 p).extractLsb' 24 5 ∧
    (st2.mem.load32 p).extractLsb' 31 1 = (st.mem.load32 p).extractLsb' 31 1 ∧
    (st2.mem.load32 q).extractLsb' 0 10 = (st.mem.load32 q).extractLsb' 0 10 ∧
    (st2.mem.load32 q).extractLsb' 22 10 = (st.mem.load32 q).extractLsb' 22 10 := by
  obtain ⟨hw1, hw2⟩ := pair_words hpq ht hfst hsnd
  obtain ⟨k0, k24, k31⟩ := kept_insnAdrp (((page (s + a) - page p).sshiftRight 12).setWidth 32)
    (st.mem.load32 p)
  have klow := low_insnImm12 (lowValue relType (s + a)) (st.mem.load32 q)
  have ktop := top_insnImm12 _ (st.mem.load32 q) (top_lowValue relType (s + a))
  rw [← hw1] at k0 k24 k31
  rw [← hw2] at klow ktop
  exact ⟨k0, k24, k31, klow, ktop⟩

theorem pair_page {m : A64.Machine} {w insn : BitVec 32} (hm : m.mem.load32 m.pc = w)
    (hw : w = insnAdrp (((page (s + a) - page m.pc).sshiftRight 12).setWidth 32) insn)
    (hadrp : A64.IsAdrp w) (hrd : A64.rd w ≠ 31#5)
    (hfits : FitsSigned 21 (pageDistance (s + a) m.pc)) :
    ∃ m1, m.step = some m1 ∧ m1.x (A64.rd w) = page (s + a) := by
  obtain ⟨m1, hstep, hx⟩ := A64.Machine.step_adrp hm hadrp hrd
  have himm : A64.imm21 w = (page (s + a) - page m.pc).extractLsb' 12 21 := by
    rw [hw, imm21_insnAdrp, field_setWidth _ (by decide), field_sshiftRight _ (by decide)]
  refine ⟨m1, hstep, ?_⟩
  rw [hx, himm, adrp_offset hfits, ← page]
  grind

theorem pair_forms (hpq : Apart p 4 q 4) (ht : relType = 277 ∨ relType = 286)
    (hfst : applyRelocationAarch64 p s a 275 st = (.ok (), st1))
    (hsnd : applyRelocationAarch64 q s a relType st1 = (.ok (), st2))
    (hfits : FitsSigned 21 (pageDistance (s + a) p)) (hadrp : A64.IsAdrp (st.mem.load32 p))
    (hlow : LowInsn relType (st.mem.load32 q) (s + a))
    (hreg : A64.rn (st.mem.load32 q) = A64.rd (st.mem.load32 p))
    (h31 : A64.rd (st.mem.load32 p) ≠ 31#5) : Forms st2.mem p q (s + a) := by
  obtain ⟨hw1, hw2⟩ := pair_words hpq ht hfst hsnd
  obtain ⟨k0, k24, k31, klow, ktop⟩ := pair_kept hpq ht hfst hsnd
  have hrn : A64.rn (st2.mem.load32 q) = A64.rd (st2.mem.load32 p) := by
    have h5 : ∀ w : BitVec 32, (w.extractLsb' 0 10).extractLsb' 5 5 = A64.rn w :=
      fun w => field_field w (by decide)
    rw [← h5, klow, h5, hreg, A64.rd, A64.rd, k0]
  have hrd : A64.rd (st2.mem.load32 p) ≠ 31#5 := by rw [A64.rd, k0]; exact h31
  have himm12 : A64.imm12 (st2.mem.load32 q) = (lowValue relType (s + a)).extractLsb' 0 12 := by
    rw [hw2, imm12_insnImm12]
  intro m n hm hpc hn _
  subst hpc
  obtain ⟨m1, hstep, hpage⟩ := pair_page (by rw [hm]) hw1
    ⟨k24.trans hadrp.1, k31.trans hadrp.2⟩ hrd hfits
  by_cases hval : n.x (A64.rd (st2.mem.load32 m.pc)) = m1.x (A64.rd (st2.mem.load32 m.pc))
  · obtain ⟨i, hi, haddr⟩ := (hlow.of_kept ktop).address himm12 n (by rw [hrn]; exact hrd)
      (by rw [hrn, hval, hpage])
    exact ⟨m1, i, hstep, hi, fun _ => haddr⟩
  · -- any machine shows that the word decodes
    obtain ⟨i, hi, _⟩ := (hlow.of_kept ktop).address himm12 ⟨fun _ => page (s + a), 0, 0, n.mem⟩
      (by rw [hrn]; exact hrd) rfl
    exact ⟨m1, i, hstep, hi, fun h => absurd h hval⟩

end

/-- **AArch64 addresses.** `ADRP` fails exactly when the page distance has more than 21 bits;
otherwise it forms `S + A` with a fitting second instruction. -/
theorem adrp_pair_exact (p s a : BitVec 64) (st : RelocState)
    (h1 : -2 ^ 43 < (s + a - p).toInt)
    (h2 : (s + a - p).toInt < 2 ^ 43) :
    ((∃ e, (applyRelocationAarch64 p s a 275 st).1 = .error e) ↔
      ¬ FitsSigned 21 (pageDistance (s + a) p)) ∧
    (∀ e, (applyRelocationAarch64 p s a 275 st).1 = .error e →
      (applyRelocationAarch64 p s a 275 st).2 = st) ∧
    ∀ q relType st1 st2, Apart p 4 q 4 → (relType = 277 ∨ relType = 286) →
      applyRelocationAarch64 p s a 275 st = (.ok (), st1) →
      applyRelocationAarch64 q s a relType st1 = (.ok (), st2) →
      ((st2.mem.load32 p).extractLsb' 0 5 = (st.mem.load32 p).extractLsb' 0 5 ∧
        (st2.mem.load32 p).extractLsb' 24 5 = (st.mem.load32 p).extractLsb' 24 5 ∧
        (st2.mem.load32 p).extractLsb' 31 1 = (st.mem.load32 p).extractLsb' 31 1 ∧
        (st2.mem.load32 q).extractLsb' 0 10 = (st.mem.load32 q).extractLsb' 0 10 ∧
        (st2.mem.load32 q).extractLsb' 22 10 = (st.mem.load32 q).extractLsb' 22 10) ∧
      (A64.IsAdrp (st.mem.load32 p) →
        LowInsn relType (st.mem.load32 q) (s + a) →
        A64.rn (st.mem.load32 q) = A64.rd (st.mem.load32 p) →
        A64.rd (st.mem.load32 p) ≠ 31#5 →
        Forms st2.mem p q (s + a)) := by
  have happly : applyRelocationAarch64 p s a 275 st = relocAdrp 275 p (s + a) st := rfl
  refine ⟨?_, ?_, ?_⟩
  · rw [← adrpRange_iff h1 h2, happly, relocAdrp]
    simp only [page]
    split <;> simp_all
  · rw [happly]
    intro e he
    exact relocAdrp_error he
  · intro q relType st1 st2 hpq ht hfst hsnd
    exact ⟨pair_kept hpq ht hfst hsnd, pair_forms hpq ht hfst hsnd (fits_of_adrp h1 h2 hfst)⟩

/-- Two instructions at `0x1000` and `0x2000`. -/
def twoInsns (first second : BitVec 32) : RelocState :=
  ⟨ByteMem.store (ByteMem.store (fun _ => 0#8) 0x1000#64 first) 0x2000#64 second, none, []⟩

/-- `adrp x0, ..` with `add x0, x0, #..`: both words are patched, and the pair forms the address. -/
theorem adrp_add_pair :
    ∃ st1 st2,
      applyRelocationAarch64 0x1000#64 0x3004#64 0#64 275 (twoInsns 0x90000000#32 0x91000000#32) =
        (.ok (), st1) ∧
      applyRelocationAarch64 0x2000#64 0x3004#64 0#64 277 st1 = (.ok (), st2) ∧
      st2.mem.load32 0x1000#64 = 0xd0000000#32 ∧
      st2.mem.load32 0x2000#64 = 0x91001000#32 ∧
      Forms st2.mem 0x1000#64 0x2000#64 0x3004#64 := by
  refine ⟨_, _, rfl, rfl, by decide, by decide, ?_⟩
  have hpair := (adrp_pair_exact 0x1000#64 0x3004#64 0#64 (twoInsns 0x90000000#32 0x91000000#32)
    (by decide) (by decide)).2.2 0x2000#64 277 _ _ (by decide) (.inl rfl) rfl rfl
  exact hpair.2 (by decide) (.inl ⟨rfl, by decide, by decide, by decide⟩) (by decide) (by decide)

/-- `adrp x0, ..` with `add x0, x0, #.., lsl #12`: the immediate of twelve bits is added to the page
number, and the pair does not form the address. -/
theorem adrp_add_shifted :
    let st := twoInsns 0x90000000#32 0x91400000#32
    A64.IsAdrp (st.mem.load32 0x1000#64) ∧ A64.IsAddImm (st.mem.load32 0x2000#64) ∧
      A64.rn (st.mem.load32 0x2000#64) = A64.rd (st.mem.load32 0x1000#64) ∧
      ∃ st1 st2, applyRelocationAarch64 0x1000#64 0x3004#64 0#64 275 st = (.ok (), st1) ∧
        applyRelocationAarch64 0x2000#64 0x3004#64 0#64 277 st1 = (.ok (), st2) ∧
        ¬ Forms st2.mem 0x1000#64 0x2000#64 0x3004#64 := by
  refine ⟨by decide, by decide, by decide, _, _, rfl, rfl, fun h => ?_⟩
  generalize hmem : RelocState.mem _ = mem at h
  have hp : mem.load32 0x1000#64 = 0xd0000000#32 := by
    rw [← hmem]
    decide
  have hq : mem.load32 0x2000#64 = 0x91401000#32 := by
    rw [← hmem]
    decide
  obtain ⟨m1, i, hstep, hi, hv⟩ := h ⟨fun _ => 0#64, 0#64, 0x1000#64, mem⟩
    ⟨fun _ => 0x3000#64, 0#64, 0x2000#64, mem⟩ rfl rfl rfl rfl
  rw [hq] at hi
  obtain rfl : A64.Insn.addImm true true 4#12 0#5 0#5 = i := Option.some.inj hi
  obtain ⟨m2, hstep2, hx⟩ := A64.Machine.step_adrp
    (m := ⟨fun _ => 0#64, 0#64, 0x1000#64, mem⟩) hp (by decide) (by decide)
  rw [hstep] at hstep2
  cases hstep2
  rw [hp, hx] at hv
  have hpage : 0x3000#64
      = (0x1000#64 &&& ~~~0xfff#64) + (A64.imm21 0xd0000000#32 ++ 0#12).signExtend 64 := by decide
  have hsum : 0x3000#64 + (4#12 ++ 0#12 : BitVec 24).setWidth 64 = 0x3004#64 := hv hpage
  exact absurd hsum (by decide)

end Kerners.Module
