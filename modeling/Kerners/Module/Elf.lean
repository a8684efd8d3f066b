import Kerners.Lib.Utf
import Kerners.Lib.Traced
import Mathlib.Algebra.Group.Int.Defs

/-!
# The ELF64 parser (`src/module/elf.rs`)

`Elf64::parse` views the input through raw pointers: the header, the section headers, the program
headers, symbols and relocations are Rust structs laid over the bytes. The model keeps what such a
view really sees.

* Every function returns in `Traced Range`: the ranges of `mem` it reads are its trace, and a
  failing slice index is a panic. `Safe (Inside len)` then says: reads only inside the input and
  never reaches a failing slice index.
* Offsets and sizes are `Nat`; the sums of `parse`, `section_data` and the string lookups are taken
  modulo `2^64`, as the release build takes them (`usize` is 64 bits on both targets).
-/

namespace Kerners.Module

open Lib

structure Range where
  start : Nat
  size : Nat
  deriving DecidableEq

/-- The range lies in the first `len` bytes. -/
def Inside (len : Nat) (r : Range) : Prop := r.start + r.size ≤ len

/-- The memory from the input's first byte on; the input is its first `len` bytes. -/
structure Input where
  mem : Nat → UInt8
  len : Nat

open List

def Input.bytes (inp : Input) (start size : Nat) : Bytes :=
  (List.range size).map fun i => inp.mem (start + i)

/-- The little-endian field of `size` bytes at `start`. -/
def Input.field (inp : Input) (start size : Nat) : Nat := leNat (inp.bytes start size)

theorem Input.field_lt (inp : Input) (start size : Nat) : inp.field start size < 256 ^ size := by
  have := leNat_lt (inp.bytes start size)
  simpa [Input.field, Input.bytes] using this

inductive Elf64Error where
  | tooSmall
  | invalidMagic
  | not64Bit
  | unsupportedEndian
  | unsupportedMachine
  | invalidSectionHeader
  | invalidProgramHeader
  | sectionNotFound
  | symbolNotFound
  deriving DecidableEq

abbrev Elf (α : Type) := Traced Range Elf64Error α

inductive Arch where
  | aarch64
  | riscv64
  deriving DecidableEq

/-- The `e_machine` value `parse` accepts on a target. -/
def Arch.machine : Arch → Nat
  | .aarch64 => 183
  | .riscv64 => 243

/-- `Elf64Header`, the fields the parser and the loader use. -/
structure Elf64Header where
  eIdent : Bytes
  eType : Nat
  eMachine : Nat
  eEntry : Nat
  ePhoff : Nat
  eShoff : Nat
  ePhentsize : Nat
  ePhnum : Nat
  eShentsize : Nat
  eShnum : Nat
  eShstrndx : Nat
  deriving DecidableEq

/-- `Elf64SectionHeader` (64 bytes), the fields the parser and the loader use. -/
structure Elf64SectionHeader where
  shName : Nat
  shType : Nat
  shFlags : Nat
  shOffset : Nat
  shSize : Nat
  shLink : Nat
  shInfo : Nat
  shAddralign : Nat
  deriving DecidableEq

/-- `Elf64Symbol` (24 bytes), without `st_other` and `st_size`. -/
structure Elf64Symbol where
  stName : Nat
  stInfo : Nat
  stShndx : Nat
  stValue : Nat
  deriving DecidableEq

/-- `Elf64Rela` (24 bytes). -/
structure Elf64Rela where
  rOffset : Nat
  rInfo : Nat
  rAddend : Int
  deriving DecidableEq

/-- `size_of` of the structs laid over the input. -/
def ehSize : Nat := 64
def shSize : Nat := 64
def phSize : Nat := 56
def symSize : Nat := 24
def relaSize : Nat := 24

/-- Section types and flags (`section_type`, `section_flags`). -/
def shtSymtab : Nat := 2
def shtRela : Nat := 4
def shtNobits : Nat := 8
def shfAlloc : Nat := 2

def Input.header (inp : Input) : Elf64Header where
  eIdent := inp.bytes 0 16
  eType := inp.field 16 2
  eMachine := inp.field 18 2
  eEntry := inp.field 24 8
  ePhoff := inp.field 32 8
  eShoff := inp.field 40 8
  ePhentsize := inp.field 54 2
  ePhnum := inp.field 56 2
  eShentsize := inp.field 58 2
  eShnum := inp.field 60 2
  eShstrndx := inp.field 62 2

/-- The section header at offset `o`. -/
def Input.sectionHeaderAt (inp : Input) (o : Nat) : Elf64SectionHeader where
  shName := inp.field o 4
  shType := inp.field (o + 4) 4
  shFlags := inp.field (o + 8) 8
  shOffset := inp.field (o + 24) 8
  shSize := inp.field (o + 32) 8
  shLink := inp.field (o + 40) 4
  shInfo := inp.field (o + 44) 4
  shAddralign := inp.field (o + 48) 8

/-- The symbol at offset `o`. -/
def Input.symbolAt (inp : Input) (o : Nat) : Elf64Symbol where
  stName := inp.field o 4
  stInfo := inp.field (o + 4) 1
  stShndx := inp.field (o + 6) 2
  stValue := inp.field (o + 8) 8

/-- A 64-bit pattern as the `i64` it is. -/
def asI64 (v : Nat) : Int := if v < 2 ^ 63 then (v : Int) else (v : Int) - 2 ^ 64

/-- The relocation at offset `o`. -/
def Input.relaAt (inp : Input) (o : Nat) : Elf64Rela where
  rOffset := inp.field o 8
  rInfo := inp.field (o + 8) 8
  rAddend := asI64 (inp.field (o + 16) 8)

def Elf64Rela.symbol (r : Elf64Rela) : Nat := r.rInfo / 2 ^ 32

def Elf64Rela.relType (r : Elf64Rela) : Nat := r.rInfo % 2 ^ 32

structure Table where
  off : Nat
  count : Nat
  deriving DecidableEq

/-- `Elf64<'a>`. -/
structure Elf64 where
  input : Input
  header : Elf64Header
  sectionHeaders : Table
  programHeaders : Option Table
  shstrtab : Range

/-- `&s[a..b]` on a slice of the input. -/
def subslice (s : Range) (a b : Nat) : Elf Range :=
  if a ≤ b ∧ b ≤ s.size then do
    Traced.access ⟨s.start + a, b - a⟩
    return ⟨s.start + a, b - a⟩
  else Traced.panic

def Input.slice (inp : Input) : Range := ⟨0, inp.len⟩

/-- `&[]`. -/
def emptySlice : Range := ⟨0, 0⟩

/-- The bytes `[start, start + size)` of the input when that range, its end taken modulo `2^64`,
does not pass the end of the input: the shape `parse` and `section_data` share. -/
def checkedSlice (inp : Input) (start size : Nat) : Elf Range :=
  let stop := (start + size) % 2 ^ 64
  if stop ≤ inp.len then subslice inp.slice start stop else return emptySlice

/-- `&section_headers[i]`. -/
def sectionHeader (inp : Input) (t : Table) (i : Nat) : Elf Elf64SectionHeader := do
  Traced.access ⟨t.off + shSize * i, shSize⟩
  return inp.sectionHeaderAt (t.off + shSize * i)

/-- The section-name table of `parse`: empty unless `e_shstrndx` names a section. -/
def shstrtabOf (inp : Input) (sections : Table) (idx : Nat) : Elf Range :=
  if idx < sections.count then do
    let sh ← sectionHeader inp sections idx
    checkedSlice inp sh.shOffset sh.shSize
  else return emptySlice

def parse (arch : Arch) (inp : Input) : Elf Elf64 :=
  if inp.len < ehSize then Traced.fail .tooSmall
  else do
    Traced.access ⟨0, ehSize⟩
    let h := inp.header
    if h.eIdent.take 4 ≠ [0x7f, 0x45, 0x4c, 0x46] then Traced.fail .invalidMagic
    else if h.eIdent.getD 4 0 ≠ 2 then Traced.fail .not64Bit
    else if h.eIdent.getD 5 0 ≠ 1 then Traced.fail .unsupportedEndian
    else if h.eMachine ≠ arch.machine then Traced.fail .unsupportedMachine
    -- the extent of a table is checked with the file's own entry size, modulo `2^64`
    else if (h.eShoff + h.eShnum * h.eShentsize) % 2 ^ 64 > inp.len then
      Traced.fail .invalidSectionHeader
    else if (h.ePhoff ≠ 0 ∧ h.ePhnum ≠ 0) ∧
        (h.ePhoff + h.ePhnum * h.ePhentsize) % 2 ^ 64 > inp.len then
      Traced.fail .invalidProgramHeader
    else
      let sections : Table := ⟨h.eShoff, h.eShnum⟩
      let programs := if h.ePhoff ≠ 0 ∧ h.ePhnum ≠ 0 then some ⟨h.ePhoff, h.ePhnum⟩ else none
      let shstrtab ← shstrtabOf inp sections h.eShstrndx
      return ⟨inp, h, sections, programs, shstrtab⟩

namespace Elf64

/-- `sections()[i]`. -/
def section_ (e : Elf64) (i : Nat) : Elf Elf64SectionHeader :=
  sectionHeader e.input e.sectionHeaders i

/-- `string_at`: the bytes up to the first NUL, as a string when they are UTF-8. -/
def stringAt (e : Elf64) (strtab : Range) (offset : Nat) : Elf Str :=
  if offset ≥ strtab.size then return []
  else do
    let tail ← subslice strtab offset strtab.size
    let stop := offset + (e.input.bytes tail.start tail.size).findIdx (· == 0)
    let s ← subslice strtab offset stop
    return (fromUtf8 (e.input.bytes s.start s.size)).getD []

def sectionName (e : Elf64) (sh : Elf64SectionHeader) : Elf Str :=
  e.stringAt e.shstrtab sh.shName

def sectionData (e : Elf64) (sh : Elf64SectionHeader) : Elf Range :=
  if sh.shType = shtNobits then return emptySlice
  else checkedSlice e.input sh.shOffset sh.shSize

/-- The first section of type `SHT_SYMTAB` among the indices `is`, with its symbols. -/
def symtabAmong (e : Elf64) : List Nat → Elf (Option (Elf64SectionHeader × Table))
  | [] => return none
  | i :: is => do
    let sh ← e.section_ i
    if sh.shType = shtSymtab then do
      let data ← e.sectionData sh
      return some (sh, ⟨data.start, data.size / symSize⟩)
    else symtabAmong e is

def symbolTable (e : Elf64) : Elf (Option (Elf64SectionHeader × Table)) :=
  e.symtabAmong (List.range e.sectionHeaders.count)

/-- `&symbols[j]`. -/
def symbol (e : Elf64) (t : Table) (j : Nat) : Elf Elf64Symbol := do
  Traced.access ⟨t.off + symSize * j, symSize⟩
  return e.input.symbolAt (t.off + symSize * j)

def symbolName (e : Elf64) (sym : Elf64Symbol) : Elf Str := do
  match ← e.symbolTable with
  | none => return []
  | some (symtab, _) =>
    if symtab.shLink < e.sectionHeaders.count then do
      let sh ← e.section_ symtab.shLink
      let strtab ← e.sectionData sh
      e.stringAt strtab sym.stName
    else return []

/-- The relocations of one section, `None` when it is not of type `SHT_RELA`. -/
def relocationsOf (e : Elf64) (i : Nat) : Elf (Option (Elf64SectionHeader × Table)) := do
  let sh ← e.section_ i
  if sh.shType = shtRela then do
    let data ← e.sectionData sh
    return some (sh, ⟨data.start, data.size / relaSize⟩)
  else return none

/-- `relocations`, the iterator run to its end. -/
def relocations (e : Elf64) : Elf (List (Option (Elf64SectionHeader × Table))) :=
  Traced.collect e.relocationsOf (List.range e.sectionHeaders.count)

/-- `&relas[j]`. -/
def rela (e : Elf64) (t : Table) (j : Nat) : Elf Elf64Rela := do
  Traced.access ⟨t.off + relaSize * j, relaSize⟩
  return e.input.relaAt (t.off + relaSize * j)

end Elf64

/-! ## Slices of the input -/

section

variable {inp : Input} {r s : Range}

theorem subslice_safe {len a b : Nat} (hs : Inside len s) (hab : a ≤ b) (hb : b ≤ s.size) :
    (subslice s a b).Safe (Inside len) := by
  unfold subslice
  rw [if_pos ⟨hab, hb⟩]
  refine Traced.safe_bind.mpr ⟨(Traced.safe_access _).mpr ?_, fun _ _ => Traced.safe_pure _⟩
  unfold Inside at *
  simp only
  omega

theorem subslice_ok {a b : Nat} (h : (subslice s a b).out = .ok r) :
    a ≤ b ∧ b ≤ s.size ∧ r = ⟨s.start + a, b - a⟩ := by
  unfold subslice at h
  split at h
  · rename_i hab
    obtain ⟨-, -, h⟩ := Traced.bind_ok.mp h
    exact ⟨hab.1, hab.2, (Traced.pure_ok.mp h).symm⟩
  · simp [Traced.panic] at h

theorem checkedSlice_safe_iff {start size : Nat} (hstart : start < 2 ^ 64) (hsize : size < 2 ^ 64) :
    (checkedSlice inp start size).Safe (Inside inp.len) ↔
      start + size < 2 ^ 64 ∨ inp.len < (start + size) % 2 ^ 64 := by
  unfold checkedSlice
  simp only
  split
  · rename_i hle
    constructor
    · intro h
      by_contra hcon
      rw [not_or] at hcon
      -- the wrapped end lies before the start: `&data[start..end]` panics
      have hpanic : ¬ (start ≤ (start + size) % 2 ^ 64 ∧
          (start + size) % 2 ^ 64 ≤ inp.slice.size) := by omega
      unfold subslice at h
      rw [if_neg hpanic] at h
      exact Traced.safe_panic h
    · intro h
      have hlt : start + size < 2 ^ 64 := by omega
      rw [Nat.mod_eq_of_lt hlt] at hle ⊢
      refine subslice_safe ?_ (by omega) hle
      simp [Inside, Input.slice]
  · rename_i hgt
    exact iff_of_true (Traced.safe_pure _) (Or.inr (by omega))

theorem checkedSlice_inside {start size : Nat} (h : (checkedSlice inp start size).out = .ok r) :
    Inside inp.len r := by
  unfold checkedSlice at h
  simp only at h
  split at h
  · obtain ⟨h1, h2, rfl⟩ := subslice_ok h
    simp only [Inside, Input.slice] at *
    omega
  · obtain rfl := Traced.pure_ok.mp h
    simp [Inside, emptySlice]

end

/-! ## The accessors -/

namespace Elf64

variable {e : Elf64} {sh : Elf64SectionHeader}

theorem stringAt_safe {strtab : Range} (hs : Inside e.input.len strtab) (offset : Nat) :
    (e.stringAt strtab offset).Safe (Inside e.input.len) := by
  unfold stringAt
  split
  · exact Traced.safe_pure _
  · rename_i hlt
    refine Traced.safe_bind.mpr ⟨subslice_safe hs (by omega) (Nat.le_refl _), fun tail htail => ?_⟩
    obtain ⟨-, -, rfl⟩ := subslice_ok htail
    refine Traced.safe_bind.mpr ⟨subslice_safe hs (by omega) ?_, fun _ _ => Traced.safe_pure _⟩
    have hend : ((e.input.bytes (strtab.start + offset) (strtab.size - offset)).findIdx (· == 0)) ≤
        (e.input.bytes (strtab.start + offset) (strtab.size - offset)).length :=
      findIdx_le_length
    simp only [Input.bytes, length_map, length_range] at hend ⊢
    omega

theorem sectionData_safe_iff (hoff : sh.shOffset < 2 ^ 64) (hsize : sh.shSize < 2 ^ 64) :
    (e.sectionData sh).Safe (Inside e.input.len) ↔
      (sh.shType ≠ shtNobits →
       sh.shOffset + sh.shSize < 2 ^ 64 ∨ e.input.len < (sh.shOffset + sh.shSize) % 2 ^ 64) := by
  unfold sectionData
  split
  · rename_i h
    simp [h]
  · rename_i h
    rw [checkedSlice_safe_iff hoff hsize]
    simp [h]

theorem sectionData_inside {r : Range} (h : (e.sectionData sh).out = .ok r) :
    Inside e.input.len r := by
  unfold sectionData at h
  split at h
  · obtain rfl := Traced.pure_ok.mp h
    simp [Inside, emptySlice]
  · exact checkedSlice_inside h

theorem section_ok {i : Nat} (h : (e.section_ i).out = .ok sh) :
    sh = e.input.sectionHeaderAt (e.sectionHeaders.off + Module.shSize * i) := by
  obtain ⟨-, -, h⟩ := Traced.bind_ok.mp h
  exact (Traced.pure_ok.mp h).symm

/-- The tables of the result lie inside the input, counted with the sizes of the structs. -/
def TablesInside (e : Elf64) : Prop :=
  (∀ i < e.sectionHeaders.count,
    Inside e.input.len ⟨e.sectionHeaders.off + Module.shSize * i, Module.shSize⟩) ∧
  ∀ t, e.programHeaders = some t →
    ∀ i < t.count, Inside e.input.len ⟨t.off + phSize * i, phSize⟩

/-- Every accessor reads only inside the input and never reaches a failing slice index. -/
structure AccessorsSafe (e : Elf64) : Prop where
  sections : ∀ i < e.sectionHeaders.count, ∀ sh, (e.section_ i).out = .ok sh →
    (e.sectionData sh).Safe (Inside e.input.len) ∧ (e.sectionName sh).Safe (Inside e.input.len)
  symtab : e.symbolTable.Safe (Inside e.input.len)
  symbols : ∀ sh t, e.symbolTable.out = .ok (some (sh, t)) →
    ∀ j < t.count, (e.symbol t j).Safe (Inside e.input.len)
  names : ∀ sym, (e.symbolName sym).Safe (Inside e.input.len)
  relocs : e.relocations.Safe (Inside e.input.len)
  relas : ∀ l, e.relocations.out = .ok l → ∀ sh t, some (sh, t) ∈ l →
    ∀ j < t.count, (e.rela t j).Safe (Inside e.input.len)

/-- The layout is sound: the tables fit, and a section that is stored in the file does not end,
modulo `2^64`, at an offset inside the input that lies before its start. -/
structure WellLaid (e : Elf64) : Prop where
  sections : e.sectionHeaders.count = 0 ∨
    e.sectionHeaders.off + Module.shSize * e.sectionHeaders.count ≤ e.input.len
  programs : ∀ t, e.programHeaders = some t → t.count = 0 ∨ t.off + phSize * t.count ≤ e.input.len
  no_wrap : ∀ i < e.sectionHeaders.count,
    let sh := e.input.sectionHeaderAt (e.sectionHeaders.off + Module.shSize * i)
    sh.shType ≠ shtNobits → sh.shOffset + sh.shSize < 2 ^ 64 ∨
      e.input.len < (sh.shOffset + sh.shSize) % 2 ^ 64

theorem table_inside_iff {len off size n : Nat} :
    (∀ i < n, Inside len ⟨off + size * i, size⟩) ↔ n = 0 ∨ off + size * n ≤ len := by
  unfold Inside
  constructor
  · intro h
    rcases Nat.eq_zero_or_pos n with h0 | hpos
    · exact Or.inl h0
    · have := h (n - 1) (by omega)
      have hn : size * n = size * (n - 1) + size := by
        rw [← Nat.mul_succ, Nat.succ_eq_add_one, Nat.sub_add_cancel hpos]
      exact Or.inr (by simp only at this; omega)
  · intro h i hi
    have hle := h.resolve_left (by omega)
    have : size * (i + 1) ≤ size * n := Nat.mul_le_mul_left _ hi
    rw [Nat.mul_add] at this
    simp only
    omega

theorem sectionHeaderAt_lt (inp : Input) (o : Nat) :
    (inp.sectionHeaderAt o).shOffset < 2 ^ 64 ∧ (inp.sectionHeaderAt o).shSize < 2 ^ 64 :=
  ⟨inp.field_lt (o + 24) 8, inp.field_lt (o + 32) 8⟩

section

variable (hw : e.WellLaid)

include hw

theorem WellLaid.section_safe {i : Nat} (hi : i < e.sectionHeaders.count) :
    (e.section_ i).Safe (Inside e.input.len) := by
  refine Traced.safe_bind.mpr ⟨(Traced.safe_access _).mpr ?_, fun _ _ => Traced.safe_pure _⟩
  exact table_inside_iff.mpr hw.sections i hi

theorem WellLaid.data_safe {i : Nat} (hi : i < e.sectionHeaders.count) {sh : Elf64SectionHeader}
    (h : (e.section_ i).out = .ok sh) : (e.sectionData sh).Safe (Inside e.input.len) := by
  obtain rfl := section_ok h
  have hlt := sectionHeaderAt_lt e.input (e.sectionHeaders.off + Module.shSize * i)
  exact (sectionData_safe_iff hlt.1 hlt.2).mpr (hw.no_wrap i hi)

theorem WellLaid.symtabAmong_safe : ∀ is : List Nat, (∀ i ∈ is, i < e.sectionHeaders.count) →
    (e.symtabAmong is).Safe (Inside e.input.len)
  | [], _ => Traced.safe_pure _
  | i :: is, h => by
    have hi := h i mem_cons_self
    refine Traced.safe_bind.mpr ⟨hw.section_safe hi, fun sh hsh => ?_⟩
    split
    · exact Traced.safe_bind.mpr ⟨hw.data_safe hi hsh, fun _ _ => Traced.safe_pure _⟩
    · exact symtabAmong_safe is fun j hj => h j (mem_cons_of_mem i hj)

theorem WellLaid.symbolTable_safe : e.symbolTable.Safe (Inside e.input.len) :=
  hw.symtabAmong_safe _ fun _ hi => mem_range.mp hi

theorem WellLaid.symbolName_safe (sym : Elf64Symbol) :
    (e.symbolName sym).Safe (Inside e.input.len) := by
  refine Traced.safe_bind.mpr ⟨hw.symbolTable_safe, fun res _ => ?_⟩
  cases res with
  | none => exact Traced.safe_pure _
  | some p =>
    simp only
    split
    · rename_i hlink
      refine Traced.safe_bind.mpr ⟨hw.section_safe hlink, fun sh hsh => ?_⟩
      refine Traced.safe_bind.mpr ⟨hw.data_safe hlink hsh, fun strtab hstr => ?_⟩
      exact stringAt_safe (sectionData_inside hstr) _
    · exact Traced.safe_pure _

theorem WellLaid.relocations_safe : e.relocations.Safe (Inside e.input.len) := by
  refine Traced.safe_collect fun i hi => ?_
  have hi := mem_range.mp hi
  refine Traced.safe_bind.mpr ⟨hw.section_safe hi, fun sh hsh => ?_⟩
  split
  · exact Traced.safe_bind.mpr ⟨hw.data_safe hi hsh, fun _ _ => Traced.safe_pure _⟩
  · exact Traced.safe_pure _

end

theorem entry_inside {len size j : Nat} {s : Range} (hs : Inside len s) (hj : j < s.size / size) :
    Inside len ⟨s.start + size * j, size⟩ := by
  have hle : size * (j + 1) ≤ s.size :=
    Nat.le_trans (Nat.mul_le_mul_left _ hj) (Nat.mul_div_le s.size size)
  rw [Nat.mul_add] at hle
  unfold Inside at *
  simp only
  omega

theorem symtabAmong_ok : ∀ {is : List Nat} {sh : Elf64SectionHeader} {t : Table},
    (e.symtabAmong is).out = .ok (some (sh, t)) →
      ∃ s : Range, Inside e.input.len s ∧ t = ⟨s.start, s.size / symSize⟩
  | [], _, _, h => by simp [symtabAmong] at h
  | i :: is, sh, t, h => by
    obtain ⟨sh', -, h⟩ := Traced.bind_ok.mp h
    split at h
    · obtain ⟨s, hs, h⟩ := Traced.bind_ok.mp h
      have := Traced.pure_ok.mp h
      simp only [Option.some.injEq, Prod.mk.injEq] at this
      exact ⟨s, sectionData_inside hs, this.2.symm⟩
    · exact symtabAmong_ok h

theorem relocations_ok {l : List (Option (Elf64SectionHeader × Table))}
    (h : e.relocations.out = .ok l) {t : Table} (ht : some (sh, t) ∈ l) :
    ∃ s : Range, Inside e.input.len s ∧ t = ⟨s.start, s.size / relaSize⟩ := by
  obtain ⟨i, -, h⟩ := Traced.collect_ok h _ ht
  obtain ⟨sh', -, h⟩ := Traced.bind_ok.mp h
  split at h
  · obtain ⟨s, hs, h⟩ := Traced.bind_ok.mp h
    have := Traced.pure_ok.mp h
    simp only [Option.some.injEq, Prod.mk.injEq] at this
    exact ⟨s, sectionData_inside hs, this.2.symm⟩
  · simp at h

end Elf64

/-! ## When the parser stays inside its input -/

theorem parse_ok {arch : Arch} {inp : Input} {e : Elf64} (h : (parse arch inp).out = .ok e) :
    ∃ shstrtab, (shstrtabOf inp ⟨inp.header.eShoff, inp.header.eShnum⟩ inp.header.eShstrndx).out =
        .ok shstrtab ∧
      e =
        ⟨inp, inp.header, ⟨inp.header.eShoff, inp.header.eShnum⟩, if inp.header.ePhoff ≠ 0 ∧
          inp.header.ePhnum ≠ 0 then some ⟨inp.header.ePhoff, inp.header.ePhnum⟩ else none,
          shstrtab⟩ := by
  unfold parse at h
  split at h
  · simp [Traced.fail] at h
  obtain ⟨-, -, h⟩ := Traced.bind_ok.mp h
  simp only at h
  -- the six rejecting branches, in the order of the source
  split at h
  · simp [Traced.fail] at h
  split at h
  · simp [Traced.fail] at h
  split at h
  · simp [Traced.fail] at h
  split at h
  · simp [Traced.fail] at h
  split at h
  · simp [Traced.fail] at h
  split at h
  · simp [Traced.fail] at h
  obtain ⟨str, hstr, h⟩ := Traced.bind_ok.mp h
  exact ⟨str, hstr, (Traced.pure_ok.mp h).symm⟩

theorem parse_shstrtab {arch : Arch} {inp : Input} {e : Elf64} (h : (parse arch inp).out = .ok e) :
    e.input = inp ∧ Inside inp.len e.shstrtab := by
  obtain ⟨str, hstr, rfl⟩ := parse_ok h
  refine ⟨rfl, ?_⟩
  unfold shstrtabOf at hstr
  split at hstr
  · obtain ⟨sh, -, hstr⟩ := Traced.bind_ok.mp hstr
    exact checkedSlice_inside hstr
  · obtain rfl := Traced.pure_ok.mp hstr
    simp [Inside, emptySlice]

/-- **When the parser stays inside its input.** For every input `parse` accepts, the tables lie
inside the input and every accessor is safe iff the layout is sound. -/
theorem elf_safe_iff {arch : Arch} {inp : Input} {e : Elf64} (h : (parse arch inp).out = .ok e) :
    e.TablesInside ∧ e.AccessorsSafe ↔ e.WellLaid := by
  obtain ⟨rfl, hshstr⟩ := parse_shstrtab h
  constructor
  · rintro ⟨⟨hsec, hprog⟩, hacc⟩
    refine ⟨Elf64.table_inside_iff.mp hsec,
      fun t ht => Elf64.table_inside_iff.mp (hprog t ht), fun i hi => ?_⟩
    have hlt := Elf64.sectionHeaderAt_lt e.input (e.sectionHeaders.off + shSize * i)
    exact (Elf64.sectionData_safe_iff hlt.1 hlt.2).mp (hacc.sections i hi _ rfl).1
  · intro hw
    refine ⟨⟨Elf64.table_inside_iff.mpr hw.sections,
      fun t ht => Elf64.table_inside_iff.mpr (hw.programs t ht)⟩, ?_⟩
    exact
      { sections := fun i hi sh hsh => ⟨hw.data_safe hi hsh, Elf64.stringAt_safe hshstr _⟩
        symtab := hw.symbolTable_safe
        symbols := fun sh t ht j hj => by
          obtain ⟨s, hs, rfl⟩ := Elf64.symtabAmong_ok ht
          exact Traced.safe_bind.mpr
            ⟨(Traced.safe_access _).mpr (Elf64.entry_inside hs hj), fun _ _ => Traced.safe_pure _⟩
        names := hw.symbolName_safe
        relocs := hw.relocations_safe
        relas := fun l hl sh t ht j hj => by
          obtain ⟨s, hs, rfl⟩ := Elf64.relocations_ok hl ht
          exact Traced.safe_bind.mpr
            ⟨(Traced.safe_access _).mpr (Elf64.entry_inside hs hj), fun _ _ => Traced.safe_pure _⟩ }

/-- An AArch64 header that announces one section header behind it, of `shentsize` bytes, in an
input of `len` bytes. Everything behind the header is zero. -/
def oneSection (shentsize : UInt8) (len : Nat) : Input where
  mem := fun i =>
    [0x7f, 0x45, 0x4c, 0x46, 2, 1, 1, 0, 0, 0, 0, 0, 0, 0, 0, 0, 1, 0, 183, 0, 1, 0, 0, 0,
      0, 0, 0, 0, 0, 0, 0, 0, 0, 0, 0, 0, 0, 0, 0, 0, 64, 0, 0, 0, 0, 0, 0, 0, 0, 0, 0, 0, 64, 0,
      0, 0, 0, 0, shentsize, 0, 1, 0, 1, 0].getD i 0
  len := len

/-- The section is a symbol table of one symbol, in the 24 bytes behind its header. -/
def oneSymbol : Input where
  mem := fun i =>
    if i = 68 then 2 else if i = 88 then 128 else if i = 96 then 24 else (oneSection 64 152).mem i
  len := 152

theorem elf_safe_iff_oneSymbol : ∃ e, (parse .aarch64 oneSymbol).out = .ok e ∧
    e.symbolTable.out.toOption.join.map Prod.snd = some ⟨128, 1⟩ ∧
    e.TablesInside ∧
    e.AccessorsSafe := by
  have hparse : (parse .aarch64 oneSymbol).out = .ok _ := rfl
  refine ⟨_, hparse, rfl, (elf_safe_iff hparse).mpr ⟨Or.inr (by decide), by decide, fun i hi => ?_⟩⟩
  obtain rfl : i = 0 := Nat.lt_one_iff.mp hi
  exact fun _ => Or.inl (by decide)

/-- **The extent check can be talked out of the way.** The 64 bytes of a header with
`e_shentsize = 0` are accepted, and the section header they announce lies at offset 64, wholly
outside the input. -/
theorem elf_table_outside : ∃ e, (parse .aarch64 (oneSection 0 64)).out = .ok e ∧
    ¬ (e.TablesInside ∧ e.AccessorsSafe) := by
  refine ⟨_, rfl, fun h => ?_⟩
  have h0 : 64 + shSize * 0 + shSize ≤ 64 := h.1.1 0 (by decide)
  exact absurd h0 (by decide)

end Kerners.Module
