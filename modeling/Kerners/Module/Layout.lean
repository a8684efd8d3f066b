import Kerners.Lib.Packing
import Kerners.Module.Elf
import Mathlib.Algebra.Order.Ring.Nat

/-!
# The memory of a module's sections (`src/module/elf.rs`, `src/module/loader.rs`)

`load_object` asks `section_memory_size` how much memory the `SHF_ALLOC` sections need and allocates
that many pages and one more for the PLT; `load_sections` then lays the sections out. The first adds a
section's size and then aligns, the second aligns and then adds the size.

`usize` arithmetic wraps; `alignUp` is the source's mask expression.
-/

namespace Kerners.Module

open Lib List

/-! ## The two loops -/

def Elf64SectionHeader.isAlloc (sh : Elf64SectionHeader) : Bool := sh.shFlags &&& shfAlloc != 0

/-- `(x + align - 1) & !(align - 1)`. -/
def alignUp (x align : Nat) : Nat := (x + align - 1) % 2 ^ 64 &&& (2 ^ 64 - 1 - (align - 1))

/-- One section in `section_memory_size`. -/
def addSection (total : Nat) (sh : Elf64SectionHeader) : Nat :=
  if sh.isAlloc then
    let total := (total + sh.shSize) % 2 ^ 64
    if sh.shAddralign > 0 then alignUp total sh.shAddralign else total
  else total

def sectionMemorySize (sections : List Elf64SectionHeader) : Nat := sections.foldl addSection 0

/-- The pages `load_object` allocates for the sections. -/
def numPages (sections : List Elf64SectionHeader) : Nat :=
  (sectionMemorySize sections + 4096 - 1) % 2 ^ 64 / 4096

/-- The offset of a section in `load_sections`, given the offset reached before it. -/
def sectionOffset (currentOffset : Nat) (sh : Elf64SectionHeader) : Nat :=
  if sh.shAddralign > 0 ∧ currentOffset % sh.shAddralign ≠ 0 then
    alignUp currentOffset sh.shAddralign
  else currentOffset

/-- One section in `load_sections`: the addresses so far and the offset reached. -/
def loadSection (baseAddr : Nat) (st : List Nat × Nat) (sh : Elf64SectionHeader) : List Nat × Nat :=
  if sh.isAlloc then
    (st.1 ++ [(baseAddr + sectionOffset st.2 sh) % 2 ^ 64],
      (sectionOffset st.2 sh + sh.shSize) % 2 ^ 64)
  else (st.1 ++ [0], st.2)

/-- `load_sections`: the addresses of the sections and the offset reached at the end. -/
def loadSections (baseAddr : Nat) (sections : List Elf64SectionHeader) : List Nat × Nat :=
  sections.foldl (loadSection baseAddr) ([], 0)

/-! ## The loops as a packing -/

/-- The `SHF_ALLOC` sections. -/
def pieces (sections : List Elf64SectionHeader) : List Piece :=
  (sections.filter (·.isAlloc)).map fun sh => ⟨sh.shSize, sh.shAddralign⟩

/-- The sizes and alignments add up to less than the address space. -/
def Bounded (t : Nat) (ps : List Piece) : Prop :=
  t + (ps.map fun p => p.size + p.align).sum + 4096 < 2 ^ 64

variable {sections : List Elf64SectionHeader} {sh : Elf64SectionHeader}

theorem Bounded.cons {t : Nat} {p : Piece} {ps : List Piece} (h : Bounded t (p :: ps)) :
    t + p.size + p.align + 4096 < 2 ^ 64 ∧ Bounded (t + p.size + p.align) ps := by
  unfold Bounded at h ⊢
  rw [map_cons, sum_cons] at h
  exact ⟨by omega, by omega⟩

theorem Bounded.mono {t t' : Nat} {ps : List Piece} (h : Bounded t ps) (hle : t' ≤ t) :
    Bounded t' ps := by
  unfold Bounded at h ⊢
  omega

/-- Every section that `load_sections` places ends within `limit`. -/
def Within (baseAddr limit : Nat) (sections : List Elf64SectionHeader) (addrs : List Nat) : Prop :=
  List.Forall₂ (fun sh addr => sh.isAlloc = true → ∃ offset, addr = (baseAddr + offset) % 2 ^ 64 ∧
    offset + sh.shSize ≤ limit) sections addrs

/-- What the estimate promises: the end lies within it, and every section within the pages that
`load_object` allocates for the sections. -/
def Fits (baseAddr : Nat) (sections : List Elf64SectionHeader) : Prop :=
  (loadSections baseAddr sections).2 ≤ sectionMemorySize sections ∧
    Within baseAddr (numPages sections * 4096) sections (loadSections baseAddr sections).1

end Kerners.Module
