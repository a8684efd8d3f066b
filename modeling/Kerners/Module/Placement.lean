import Kerners.Module.Layout

/-!
# Where the sections are placed (`src/module/loader.rs`)

`load_sections` gives every `SHF_ALLOC` section the next address that is a multiple of its alignment,
and `0` to the others. Its sums wrap, so a section of a size near `2^64` sends the sections behind it
below the base, and with a base of `0` the first section is taken for one that is not loaded.

`loadSections_eq`: the addresses are those of the ideal placement modulo `2^64`.
-/

namespace Kerners.Module

open Lib List

/-- The addresses from `base` on, the offset `o` being reached, as unbounded numbers. -/
def idealAddrs (base : Nat) : Nat → List Elf64SectionHeader → List Nat
  | _, [] => []
  | o, sh :: rest =>
    if sh.isAlloc then
      (base + roundUp sh.shAddralign o)
        :: idealAddrs base (roundUp sh.shAddralign o + sh.shSize) rest
    else 0 :: idealAddrs base o rest

def loadedSections (sections : List Elf64SectionHeader) (addrs : List Nat) :
    List (Elf64SectionHeader × Nat) :=
  (sections.zip addrs).filter fun x => x.1.isAlloc

/-- Addresses as `load_sections` should return them: one a section, `0` exactly for those that are not
loaded, and for the loaded ones multiples of the alignment, not below the base, each section ending
before the next ones start. -/
structure PlacedWell (base : Nat) (sections : List Elf64SectionHeader) (addrs : List Nat) :
    Prop where
  length : addrs.length = sections.length
  zero : ∀ x ∈ sections.zip addrs, x.2 = 0 ↔ x.1.isAlloc = false
  aligned : ∀ x ∈ loadedSections sections addrs, x.1.shAddralign ∣ x.2
  above : ∀ x ∈ loadedSections sections addrs, base ≤ x.2
  ordered : (loadedSections sections addrs).Pairwise fun x y => x.2 + x.1.shSize ≤ y.2

/-- The loaded sections are aligned to a power of two, at most a page. -/
def PageAligned (sections : List Elf64SectionHeader) : Prop :=
  ∀ sh ∈ sections, sh.isAlloc = true → ∃ k ≤ 12, sh.shAddralign = 2 ^ k

variable {sections : List Elf64SectionHeader} {sh : Elf64SectionHeader} {base o : Nat}

theorem PageAligned.tail (h : PageAligned (sh :: sections)) : PageAligned sections :=
  fun s hs => h s (mem_cons_of_mem _ hs)

theorem PageAligned.pos (h : PageAligned (sh :: sections)) (ha : sh.isAlloc = true) :
    0 < sh.shAddralign := by
  obtain ⟨k, _, hk⟩ := h sh mem_cons_self ha
  rw [hk]
  exact Nat.two_pow_pos k

theorem PageAligned.dvd (h : PageAligned (sh :: sections)) (ha : sh.isAlloc = true) :
    sh.shAddralign ∣ 4096 := by
  obtain ⟨k, hk, heq⟩ := h sh mem_cons_self ha
  rw [heq]
  exact Nat.pow_dvd_pow 2 hk

/-! ## The placement modulo `2^64` -/

theorem roundDown_mod {d n : Nat} (h : d ∣ n) (y : Nat) : y % n / d * d = y / d * d % n := by
  obtain ⟨q, rfl⟩ := h
  rw [Nat.mod_mul_right_div_self, Nat.mul_comm d q, Nat.mul_mod_mul_right]

theorem sectionOffset_mod (ha : ∃ k ≤ 12, sh.shAddralign = 2 ^ k) (o : Nat) :
    sectionOffset (o % 2 ^ 64) sh % 2 ^ 64 = roundUp sh.shAddralign o % 2 ^ 64 := by
  obtain ⟨k, hk, ha⟩ := ha
  have hpos : 0 < 2 ^ k := Nat.two_pow_pos k
  have hdvd : 2 ^ k ∣ 2 ^ 64 := Nat.pow_dvd_pow 2 (by omega)
  -- whole turns around the address space do not change the rounding
  have hround : roundUp (2 ^ k) o % 2 ^ 64 = roundUp (2 ^ k) (o % 2 ^ 64) % 2 ^ 64 := by
    have hsplit : o % 2 ^ 64 + 2 ^ 64 * (o / 2 ^ 64) = o := Nat.mod_add_div o (2 ^ 64)
    conv_lhs => rw [← hsplit]
    rw [roundUp_add hpos (Dvd.dvd.mul_right hdvd _), Nat.add_mul_mod_self_left]
  have hlt : o % 2 ^ 64 < 2 ^ 64 := Nat.mod_lt _ (by decide)
  rw [ha, hround]
  generalize o % 2 ^ 64 = x at hlt
  unfold sectionOffset
  rw [ha]
  by_cases hmod : x % 2 ^ k ≠ 0
  · rw [if_pos ⟨hpos, hmod⟩, alignUp, and_mask (by omega) (Nat.mod_lt _ (by decide)), roundUp]
    rw [roundDown_mod hdvd, Nat.mod_mod]
  · rw [if_neg (fun h => hmod h.2), roundUp_of_dvd hpos (Nat.dvd_of_mod_eq_zero (not_not.mp hmod))]

theorem foldl_loadSection_ideal (hp : PageAligned sections) (addrs : List Nat) (o : Nat) :
    (sections.foldl (loadSection base) (addrs, o % 2 ^ 64)).1 =
      addrs ++ (idealAddrs base o sections).map (· % 2 ^ 64) := by
  induction sections generalizing addrs o with
  | nil => exact (append_nil _).symm
  | cons sh sections ih =>
    rw [foldl_cons, loadSection, idealAddrs]
    by_cases ha : sh.isAlloc = true
    · have hoff := sectionOffset_mod (hp sh mem_cons_self ha) o
      have hsize : (sectionOffset (o % 2 ^ 64) sh + sh.shSize) % 2 ^ 64
          = (roundUp sh.shAddralign o + sh.shSize) % 2 ^ 64 := by
        rw [Nat.add_mod, hoff, ← Nat.add_mod]
      have haddr : (base + sectionOffset (o % 2 ^ 64) sh) % 2 ^ 64
          = (base + roundUp sh.shAddralign o) % 2 ^ 64 := by
        rw [Nat.add_mod, hoff, ← Nat.add_mod]
      rw [if_pos ha, if_pos ha, hsize, haddr, ih hp.tail, append_assoc]
      rfl
    · rw [if_neg ha, if_neg ha, ih hp.tail, append_assoc]
      rfl

theorem loadSections_eq (hp : PageAligned sections) :
    (loadSections base sections).1 = (idealAddrs base 0 sections).map (· % 2 ^ 64) :=
  foldl_loadSection_ideal hp [] 0

/-! ## Correct placements -/

theorem loadedSections_cons_alloc (h : sh.isAlloc = true) (a : Nat) (addrs : List Nat) :
    loadedSections (sh :: sections) (a :: addrs) = (sh, a) :: loadedSections sections addrs := by
  rw [loadedSections, zip_cons_cons]
  exact filter_cons_of_pos (a := (sh, a)) h

theorem loadedSections_cons_skip (h : ¬ sh.isAlloc = true) (a : Nat) (addrs : List Nat) :
    loadedSections (sh :: sections) (a :: addrs) = loadedSections sections addrs := by
  rw [loadedSections, zip_cons_cons]
  exact filter_cons_of_neg (a := (sh, a)) h

theorem length_idealAddrs : (idealAddrs base o sections).length = sections.length := by
  induction sections generalizing o with
  | nil => rfl
  | cons sh sections ih =>
    rw [idealAddrs]
    split
    · exact congrArg Nat.succ ih
    · exact congrArg Nat.succ ih

theorem ideal_skip {x : Elf64SectionHeader × Nat}
    (hx : x ∈ sections.zip (idealAddrs base o sections)) (h : x.1.isAlloc = false) : x.2 = 0 := by
  induction sections generalizing o with
  | nil => cases hx
  | cons sh sections ih =>
    rw [idealAddrs] at hx
    split at hx
    · rename_i ha
      rcases mem_cons.mp hx with rfl | hx
      · rw [ha] at h
        cases h
      · exact ih hx
    · rcases mem_cons.mp hx with rfl | hx
      · rfl
      · exact ih hx

theorem ideal_placed (hp : PageAligned sections) (hb : base % 4096 = 0) :
    (∀ x ∈ loadedSections sections (idealAddrs base o sections),
      x.1.shAddralign ∣ x.2 ∧ base + o ≤ x.2) ∧
    (loadedSections sections (idealAddrs base o sections)).Pairwise
      fun x y => x.2 + x.1.shSize ≤ y.2 := by
  induction sections generalizing o with
  | nil => exact ⟨fun x hx => absurd hx not_mem_nil, List.Pairwise.nil⟩
  | cons sh sections ih =>
    rw [idealAddrs]
    by_cases ha : sh.isAlloc = true
    · have hbase : sh.shAddralign ∣ base := (hp.dvd ha).trans (Nat.dvd_of_mod_eq_zero hb)
      have hle : o ≤ roundUp sh.shAddralign o := le_roundUp (hp.pos ha)
      obtain ⟨hall, hpair⟩ := @ih (roundUp sh.shAddralign o + sh.shSize) hp.tail
      rw [if_pos ha, loadedSections_cons_alloc ha]
      refine ⟨fun x hx => ?_, pairwise_cons.mpr ⟨fun y hy => ?_, hpair⟩⟩
      · rcases mem_cons.mp hx with rfl | hx
        · exact ⟨Nat.dvd_add hbase (dvd_roundUp _ _), by omega⟩
        · exact ⟨(hall x hx).1, by have := (hall x hx).2; omega⟩
      · have := (hall y hy).2
        simp only
        omega
    · rw [if_neg ha, loadedSections_cons_skip ha]
      exact ih hp.tail

theorem ideal_first (hp : PageAligned sections) (h : ∃ sh ∈ sections, sh.isAlloc = true) :
    ∃ x ∈ loadedSections sections (idealAddrs base 0 sections), x.2 = base := by
  induction sections with
  | nil =>
    obtain ⟨sh, hs, _⟩ := h
    cases hs
  | cons sh sections ih =>
    rw [idealAddrs]
    by_cases ha : sh.isAlloc = true
    · rw [if_pos ha, loadedSections_cons_alloc ha]
      refine ⟨_, mem_cons_self, ?_⟩
      rw [roundUp_of_dvd (hp.pos ha) (Nat.dvd_zero _)]
      rfl
    · rw [if_neg ha, loadedSections_cons_skip ha]
      obtain ⟨s, hs, hsa⟩ := h
      rcases mem_cons.mp hs with rfl | hs
      · exact absurd hsa ha
      · exact ih hp.tail ⟨s, hs, hsa⟩

theorem ideal_map_mod
    (h : ∀ x ∈ loadedSections sections (idealAddrs base o sections), x.2 < 2 ^ 64) :
    (idealAddrs base o sections).map (· % 2 ^ 64) = idealAddrs base o sections := by
  induction sections generalizing o with
  | nil => rfl
  | cons sh sections ih =>
    rw [idealAddrs] at h ⊢
    by_cases ha : sh.isAlloc = true
    · rw [if_pos ha, loadedSections_cons_alloc ha] at h
      rw [if_pos ha, map_cons, ih fun x hx => h x (mem_cons_of_mem _ hx),
        Nat.mod_eq_of_lt (h _ mem_cons_self)]
    · rw [if_neg ha, loadedSections_cons_skip ha] at h
      rw [if_neg ha, map_cons, ih h, Nat.zero_mod]

theorem not_wrapped {a x : Nat} (hdvd : a ∣ 2 ^ 64) (hx : a ∣ x)
    (hnear : x < x % 2 ^ 64 + a) (hne : x % 2 ^ 64 ≠ 0) : x < 2 ^ 64 := by
  have hmod : a ∣ x % 2 ^ 64 := (Nat.dvd_mod_iff hdvd).mpr hx
  have hle := Nat.le_of_dvd (Nat.pos_of_ne_zero hne) hmod
  have ha := Nat.le_of_dvd (by decide) hdvd
  omega

theorem ideal_lt_of_placed (hp : PageAligned sections) (hb : base % 4096 = 0)
    (hzero : ∀ x ∈ loadedSections sections ((idealAddrs base o sections).map (· % 2 ^ 64)), x.2 ≠ 0)
    (hfrom :
      ∀ x ∈ loadedSections sections ((idealAddrs base o sections).map (· % 2 ^ 64)), base + o ≤ x.2)
    (hpair :
      (loadedSections sections ((idealAddrs base o sections).map (· % 2 ^ 64))).Pairwise fun x y =>
        x.2 + x.1.shSize ≤ y.2) :
    ∀ x ∈ loadedSections sections (idealAddrs base o sections), x.2 < 2 ^ 64 := by
  induction sections generalizing o with
  | nil => exact fun x hx => absurd hx not_mem_nil
  | cons sh sections ih =>
    rw [idealAddrs] at hzero hfrom hpair ⊢
    by_cases ha : sh.isAlloc = true
    · have hpos := hp.pos ha
      have hd64 : sh.shAddralign ∣ 2 ^ 64 := (hp.dvd ha).trans (by decide)
      have hbase : sh.shAddralign ∣ base := (hp.dvd ha).trans (Nat.dvd_of_mod_eq_zero hb)
      rw [if_pos ha, map_cons, loadedSections_cons_alloc ha] at hzero hfrom hpair
      rw [if_pos ha, loadedSections_cons_alloc ha]
      have hround : roundUp sh.shAddralign o ≤ o + sh.shAddralign - 1 := roundUp_le_add o
      have hfirst : base + o ≤ (base + roundUp sh.shAddralign o) % 2 ^ 64 :=
        hfrom _ mem_cons_self
      have hlt : base + roundUp sh.shAddralign o < 2 ^ 64 :=
        not_wrapped hd64 (Nat.dvd_add hbase (dvd_roundUp _ _)) (by omega)
          (hzero _ mem_cons_self)
      obtain ⟨hnext, hpair'⟩ := pairwise_cons.mp hpair
      intro x hx
      rcases mem_cons.mp hx with rfl | hx
      · exact hlt
      · refine ih hp.tail (fun y hy => hzero y (mem_cons_of_mem _ hy)) (fun y hy => ?_) hpair'
          x hx
        have hy' := hnext y hy
        rw [Nat.mod_eq_of_lt hlt] at hy'
        simp only at hy'
        omega
    · rw [if_neg ha, map_cons, loadedSections_cons_skip ha] at hzero hfrom hpair
      rw [if_neg ha, loadedSections_cons_skip ha]
      exact ih hp.tail hzero hfrom hpair

/-- **Where the sections are placed**, for alignments that are powers of two up to a page and a base
that is a multiple of a page. -/
theorem loadSections_placed_iff (sections : List Elf64SectionHeader) (base : Nat)
    (hp : PageAligned sections) (hb : base % 4096 = 0) :
    PlacedWell base sections (loadSections base sections).1 ↔
      (∀ x ∈ loadedSections sections (idealAddrs base 0 sections), x.2 < 2 ^ 64) ∧
        ((∃ sh ∈ sections, sh.isAlloc = true) → base ≠ 0) := by
  have hsub : ∀ (l : List Nat) (x), x ∈ loadedSections sections l →
      x ∈ sections.zip l ∧ x.1.isAlloc = true := fun l x hx => mem_filter.mp hx
  rw [loadSections_eq hp]
  constructor
  · intro h
    have hzero : ∀ x ∈ loadedSections sections ((idealAddrs base 0 sections).map (· % 2 ^ 64)),
        x.2 ≠ 0 := by
      intro x hx h0
      obtain ⟨hz, ha⟩ := hsub _ x hx
      rw [(h.zero x hz).mp h0] at ha
      cases ha
    have hsmall := ideal_lt_of_placed hp hb hzero h.above h.ordered
    refine ⟨hsmall, fun hex => ?_⟩
    have hfirst : ∃ x ∈ loadedSections sections (idealAddrs base 0 sections), x.2 = base :=
      ideal_first hp hex
    obtain ⟨x, hx, rfl⟩ := hfirst
    rw [ideal_map_mod hsmall] at hzero
    exact hzero x hx
  · rintro ⟨hsmall, hne⟩
    obtain ⟨hall, hpair⟩ := ideal_placed (o := 0) hp hb
    rw [ideal_map_mod hsmall]
    refine ⟨length_idealAddrs, fun x hx => ⟨fun h0 => ?_, ideal_skip hx⟩,
      fun x hx => (hall x hx).1, fun x hx => (hall x hx).2, hpair⟩
    by_contra ha
    have ha : x.1.isAlloc = true := by simpa using ha
    have hx' : x ∈ loadedSections sections (idealAddrs base 0 sections) :=
      mem_filter.mpr ⟨hx, ha⟩
    have := (hall x hx').2
    exact hne ⟨x.1, (of_mem_zip hx).1, ha⟩ (by omega)

def bytesSection (size : Nat) : Elf64SectionHeader := ⟨0, shtNobits, shfAlloc, 0, size, 0, 0, 16⟩

theorem pageAligned_bytes (sizes : List Nat) : PageAligned (sizes.map bytesSection) := by
  intro sh hsh _
  obtain ⟨n, _, rfl⟩ := mem_map.mp hsh
  exact ⟨4, by decide, rfl⟩

theorem loadSections_placed_two :
    PlacedWell 0x80000000 ([100, 200].map bytesSection)
      (loadSections 0x80000000 ([100, 200].map bytesSection)).1 :=
  (loadSections_placed_iff _ 0x80000000 (pageAligned_bytes _) (by decide)).mpr
    ⟨by decide, fun _ => by decide⟩

/-- A section of `2^64 - 4096` bytes: the one behind it is placed below the base. -/
theorem loadSections_wraps :
    PageAligned ([2 ^ 64 - 4096, 16].map bytesSection) ∧
    (loadSections 0x80000000 ([2 ^ 64 - 4096, 16].map bytesSection)).1 = [0x80000000, 0x7ffff000] ∧
    ¬ PlacedWell 0x80000000 ([2 ^ 64 - 4096, 16].map bytesSection)
      (loadSections 0x80000000 ([2 ^ 64 - 4096, 16].map bytesSection)).1 := by
  have hval : (loadSections 0x80000000 ([2 ^ 64 - 4096, 16].map bytesSection)).1
      = [0x80000000, 0x7ffff000] := by decide
  refine ⟨pageAligned_bytes _, hval, fun h => ?_⟩
  have habove := h.above (bytesSection 16, 0x7ffff000)
  rw [hval] at habove
  exact absurd (habove (by decide)) (by decide)

end Kerners.Module
