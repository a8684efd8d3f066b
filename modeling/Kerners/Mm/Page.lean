import Mathlib.Data.Nat.Count
import Mathlib.Order.Interval.Finset.Nat

/-!
# The page frame allocator (`src/mm/page.rs`)

Model of `FrameAllocator`: a bitmap of 64-bit words placed at the start of the managed region,
one bit a page, a `next_search` cursor and a counter of allocated pages.

* The words behind the raw pointer `bitmap` are a function `Nat → BitVec 64`; `init` receives
  whatever the memory held before it and overwrites the words it uses.
* Addresses and page indices are `Nat`. `alloc_pages` and `free_pages` form addresses and indices
  with 64-bit wrap-around, as the release build does. The region `init` receives is a valid
  memory region (the `# Safety` note of `FrameAllocator::new`), so it ends at or below `2^64`:
  that is `Region`, with the page alignment `init` asserts and the two-page minimum the
  module-level `init` checks.
-/

namespace Kerners.Mm

open Function

def pageSize : Nat := 4096

/-- `FrameAllocator`. `bitmap i` is the word at `self.bitmap.add(i)`. -/
structure FrameAllocator where
  base : Nat
  totalPages : Nat
  bitmap : Nat → BitVec 64
  bitmapLen : Nat
  nextSearch : Nat
  allocatedCount : Nat

namespace FrameAllocator

def isPageFree (a : FrameAllocator) (pageIdx : Nat) : Bool :=
  if pageIdx ≥ a.totalPages then false
  else (a.bitmap (pageIdx / 64) &&& (1#64 <<< (pageIdx % 64))) == 0#64

def markAllocated (a : FrameAllocator) (pageIdx : Nat) : FrameAllocator :=
  { a with
    bitmap := update a.bitmap (pageIdx / 64)
      (a.bitmap (pageIdx / 64) ||| (1#64 <<< (pageIdx % 64))) }

def markFree (a : FrameAllocator) (pageIdx : Nat) : FrameAllocator :=
  { a with
    bitmap := update a.bitmap (pageIdx / 64)
      (a.bitmap (pageIdx / 64) &&& ~~~(1#64 <<< (pageIdx % 64))) }

/-- The number of bitmap words `init` reserves for `n` pages. -/
def bitmapU64s (n : Nat) : Nat := (n + 63) / 64

def bitmapPages (n : Nat) : Nat := (bitmapU64s n * 8 + pageSize - 1) / pageSize

/-- The allocator over a cleared bitmap: the first loop of `init` and the fields it sets. `mem` is
what the memory at `base` held before. -/
def cleared (mem : Nat → BitVec 64) (base total : Nat) : FrameAllocator where
  base := base
  totalPages := total
  bitmap := fun i => if i < bitmapU64s total then 0#64 else mem i
  bitmapLen := bitmapU64s total
  nextSearch := bitmapPages total
  allocatedCount := bitmapPages total

/-- `FrameAllocator::init`: clear the words of the bitmap, mark its own pages allocated and start
searching behind them. -/
def init (mem : Nat → BitVec 64) (base size : Nat) : FrameAllocator :=
  let total := size / pageSize
  (List.range (bitmapPages total)).foldl markAllocated (cleared mem base total)

/-- The search loop of `alloc_pages`: `n` iterations left, at page `startPage`, inside a free run
of `consecutive` pages that began at `firstPage`. -/
def scan (a : FrameAllocator) (count : Nat) : Nat → Nat → Nat → Nat → Option Nat
  | 0, _, _, _ => none
  | n + 1, startPage, consecutive, firstPage =>
    -- past the last page the search wraps and the run starts over
    let wrapped := startPage ≥ a.totalPages
    let start := if wrapped then 0 else startPage
    let run := if wrapped then 0 else consecutive
    if a.isPageFree start then
      let first := if run = 0 then start else firstPage
      if run + 1 = count then some first
      else scan a count n (start + 1) (run + 1) first
    else scan a count n (start + 1) 0 firstPage

def allocPages (a : FrameAllocator) (count : Nat) : Option Nat × FrameAllocator :=
  if count = 0 then (none, a)
  else match a.scan count a.totalPages a.nextSearch 0 0 with
    | none => (none, a)
    | some firstPage =>
      let marked := (List.range count).foldl (fun b i => b.markAllocated (firstPage + i)) a
      (some ((a.base + firstPage * pageSize) % 2 ^ 64),
        { marked with
          allocatedCount := a.allocatedCount + count
          nextSearch := firstPage + count })

def alloc (a : FrameAllocator) : Option Nat × FrameAllocator := a.allocPages 1

/-- One iteration of the loop of `free_pages`; `saturating_sub` is the subtraction of `Nat`. -/
def freeOne (pageIdx : Nat) (a : FrameAllocator) (i : Nat) : FrameAllocator :=
  if (pageIdx + i) % 2 ^ 64 < a.totalPages then
    { a.markFree ((pageIdx + i) % 2 ^ 64) with allocatedCount := a.allocatedCount - 1 }
  else a

def freePages (a : FrameAllocator) (addr count : Nat) : FrameAllocator :=
  if addr < a.base then a
  else
    let pageIdx := (addr - a.base) / pageSize
    let freed := (List.range count).foldl (freeOne pageIdx) a
    if pageIdx < a.nextSearch then { freed with nextSearch := pageIdx } else freed

def free (a : FrameAllocator) (addr : Nat) : FrameAllocator := a.freePages addr 1

/-! ## The bitmap as a set of pages -/

def pageBit (a : FrameAllocator) (p : Nat) : Bool := (a.bitmap (p / 64)).getLsbD (p % 64)

/-- The pages below `total_pages` whose bit is set. -/
def usedPages (a : FrameAllocator) : Finset Nat :=
  (Finset.range a.totalPages).filter fun p => a.pageBit p = true

variable {a : FrameAllocator} {p count : Nat}

theorem mem_usedPages : p ∈ a.usedPages ↔ p < a.totalPages ∧ a.pageBit p = true := by
  simp [usedPages]

theorem and_mask_eq_zero (w : BitVec 64) {i : Nat} (hi : i < 64) :
    ((w &&& (1#64 <<< i)) == 0#64) = !w.getLsbD i := by
  rw [Bool.eq_iff_iff, beq_iff_eq, Bool.not_eq_true']
  constructor
  · intro h
    have := congrArg (fun v : BitVec 64 => v.getLsbD i) h
    simpa [hi] using this
  · intro h
    apply BitVec.eq_of_getLsbD_eq
    intro j hj
    by_cases hji : j = i
    · subst hji; simp [h]
    · simp only [BitVec.getLsbD_and, BitVec.getLsbD_shiftLeft, BitVec.getLsbD_one,
        BitVec.getLsbD_zero]
      by_cases hlt : j < i
      · simp [hlt]
      · have : j - i ≠ 0 := by omega
        simp [this]

theorem isPageFree_eq (hp : p < a.totalPages) : a.isPageFree p = !a.pageBit p := by
  unfold isPageFree pageBit
  rw [if_neg (by omega), and_mask_eq_zero _ (Nat.mod_lt _ (by decide))]

theorem isPageFree_iff : a.isPageFree p = true ↔ p < a.totalPages ∧ p ∉ a.usedPages := by
  by_cases hp : p < a.totalPages
  · rw [isPageFree_eq hp, mem_usedPages]
    simp [hp]
  · simp only [hp, false_and, iff_false]
    unfold isPageFree
    rw [if_pos (by omega)]
    exact Bool.false_ne_true

theorem page_eq_of_word_bit {q : Nat} (hw : q / 64 = p / 64) (hb : q % 64 = p % 64) : q = p := by
  omega

theorem pageBit_markAllocated (a : FrameAllocator) (p q : Nat) :
    (a.markAllocated p).pageBit q = (decide (q = p) || a.pageBit q) := by
  unfold pageBit markAllocated
  simp only
  by_cases hw : q / 64 = p / 64
  · rw [hw, update_self]
    simp only [BitVec.getLsbD_or, BitVec.getLsbD_shiftLeft, BitVec.getLsbD_one]
    by_cases hb : q % 64 = p % 64
    · obtain rfl := page_eq_of_word_bit hw hb
      simp [Nat.mod_lt]
    · have hne : q ≠ p := fun e => hb (by rw [e])
      by_cases hlt : q % 64 < p % 64
      · simp [hlt, hne]
      · have : q % 64 - p % 64 ≠ 0 := by omega
        simp [this, hne]
  · have hne : q ≠ p := fun e => hw (by rw [e])
    rw [update_of_ne hw]
    simp [hne]

theorem pageBit_markFree (a : FrameAllocator) (p q : Nat) :
    (a.markFree p).pageBit q = (!decide (q = p) && a.pageBit q) := by
  unfold pageBit markFree
  simp only
  by_cases hw : q / 64 = p / 64
  · rw [hw, update_self]
    simp only [BitVec.getLsbD_and, BitVec.getLsbD_not, BitVec.getLsbD_shiftLeft, BitVec.getLsbD_one]
    by_cases hb : q % 64 = p % 64
    · obtain rfl := page_eq_of_word_bit hw hb
      simp [Nat.mod_lt]
    · have hne : q ≠ p := fun e => hb (by rw [e])
      have h64 : q % 64 < 64 := Nat.mod_lt _ (by decide)
      by_cases hlt : q % 64 < p % 64
      · simp [hlt, hne, h64]
      · have : q % 64 - p % 64 ≠ 0 := by omega
        simp [this, hne, h64]
  · have hne : q ≠ p := fun e => hw (by rw [e])
    rw [update_of_ne hw]
    simp [hne]

theorem usedPages_markAllocated (hp : p < a.totalPages) :
    (a.markAllocated p).usedPages = insert p a.usedPages := by
  ext q
  rw [Finset.mem_insert, mem_usedPages, mem_usedPages, pageBit_markAllocated]
  change q < a.totalPages ∧ _ ↔ _
  by_cases hq : q = p
  · subst hq; simp [hp]
  · simp [hq]

theorem usedPages_markFree (a : FrameAllocator) (p : Nat) :
    (a.markFree p).usedPages = a.usedPages.erase p := by
  ext q
  rw [Finset.mem_erase, mem_usedPages, mem_usedPages, pageBit_markFree]
  change q < a.totalPages ∧ _ ↔ _
  by_cases hq : q = p
  · subst hq; simp
  · simp [hq]

/-! ## What one call does -/

theorem foldl_markAllocated (first : Nat) :
    ∀ (n : Nat) (a : FrameAllocator), first + n ≤ a.totalPages →
        ∃ bm, (List.range n).foldl (fun b i => b.markAllocated (first + i)) a =
            { a with bitmap := bm } ∧
          ({ a with bitmap := bm } : FrameAllocator).usedPages =
            a.usedPages ∪ Finset.Ico first (first + n)
  | 0, a, _ => ⟨a.bitmap, rfl, by simp⟩
  | n + 1, a, h => by
    obtain ⟨bm, hfold, hused⟩ := foldl_markAllocated first n a (by omega)
    rw [List.range_succ, List.foldl_append, hfold, List.foldl_cons, List.foldl_nil]
    refine ⟨_, rfl, ?_⟩
    have hmark := usedPages_markAllocated (a := { a with bitmap := bm }) (p := first + n) h
    rw [hused] at hmark
    refine hmark.trans ?_
    ext q
    simp only [Finset.mem_insert, Finset.mem_union, Finset.mem_Ico]
    grind

def RunFree (a : FrameAllocator) (startPage consecutive firstPage : Nat) : Prop :=
  consecutive = 0 ∨
    (firstPage + consecutive = startPage ∧ ∀ i < consecutive, a.isPageFree (firstPage + i) = true)

theorem RunFree.extend {start run first : Nat} (h : RunFree a start run first)
    (hfree : a.isPageFree start = true) :
    RunFree a (start + 1) (run + 1) (if run = 0 then start else first) := by
  refine Or.inr ?_
  by_cases hrun : run = 0
  · subst hrun
    rw [if_pos rfl]
    refine ⟨rfl, fun i hi => ?_⟩
    have : i = 0 := by omega
    rw [this]
    exact hfree
  · rw [if_neg hrun]
    obtain ⟨hend, hall⟩ := h.resolve_left hrun
    refine ⟨by omega, fun i hi => ?_⟩
    rcases Nat.lt_succ_iff_lt_or_eq.mp hi with hlt | heq
    · exact hall i hlt
    · rw [heq, hend]; exact hfree

theorem scan_some {a : FrameAllocator} {count f : Nat} :
    ∀ {n start run first : Nat}, RunFree a start run first →
      a.scan count n start run first = some f → ∀ i < count, a.isPageFree (f + i) = true
  | 0, _, _, _, _, h => by simp [scan] at h
  | n + 1, start, run, first, hrun, h => by
    have hrun' : RunFree a (if start ≥ a.totalPages then 0 else start)
        (if start ≥ a.totalPages then 0 else run) first := by
      split_ifs
      · exact Or.inl rfl
      · exact hrun
    simp only [scan] at h
    generalize (if start ≥ a.totalPages then 0 else start) = start' at h hrun'
    generalize (if start ≥ a.totalPages then 0 else run) = run' at h hrun'
    split at h
    · rename_i hfree
      have hext := hrun'.extend hfree
      split at h
      · rename_i hcount
        obtain rfl := Option.some.inj h
        rcases hext with h0 | ⟨-, hall⟩
        · omega
        · rw [hcount] at hall
          exact hall
      · exact scan_some hext h
    · exact scan_some (Or.inl rfl) h

theorem allocPages_some {a' : FrameAllocator} {addr : Nat}
    (h : a.allocPages count = (some addr, a')) :
    0 < count ∧
    ∃ f, addr = (a.base + f * pageSize) % 2 ^ 64 ∧
      f + count ≤ a.totalPages ∧
      Disjoint a.usedPages (Finset.Ico f (f + count)) ∧
      a'.usedPages = a.usedPages ∪ Finset.Ico f (f + count) ∧
      a'.base = a.base ∧
      a'.totalPages = a.totalPages ∧
      a'.allocatedCount = a.allocatedCount + count := by
  unfold allocPages at h
  split at h
  · simp at h
  · rename_i hcount
    split at h
    · simp at h
    · rename_i f hscan
      have hfree := scan_some (Or.inl rfl) hscan
      have hlast := (isPageFree_iff.mp (hfree (count - 1) (by omega))).1
      have hfit : f + count ≤ a.totalPages := by omega
      obtain ⟨bm, hfold, hused⟩ := foldl_markAllocated f count a hfit
      rw [hfold] at h
      simp only [Prod.mk.injEq, Option.some.injEq] at h
      obtain ⟨rfl, rfl⟩ := h
      refine ⟨by omega, f, rfl, hfit, ?_, hused, rfl, rfl, rfl⟩
      rw [Finset.disjoint_right]
      intro p hp
      rw [Finset.mem_Ico] at hp
      have := hfree (p - f) (by omega)
      rw [show f + (p - f) = p by omega] at this
      exact (isPageFree_iff.mp this).2

theorem allocPages_none {a' : FrameAllocator} (h : a.allocPages count = (none, a')) : a' = a := by
  unfold allocPages at h
  split at h
  · exact (Prod.mk.inj h).2.symm
  · split at h
    · exact (Prod.mk.inj h).2.symm
    · simp at h

theorem foldl_freeOne (first : Nat) :
    ∀ (n : Nat) (a : FrameAllocator), first + n ≤ a.totalPages → a.totalPages < 2 ^ 64 →
      Finset.Ico first (first + n) ⊆ a.usedPages → a.allocatedCount = a.usedPages.card →
        ∃ bm, (List.range n).foldl (freeOne first) a =
            { a with bitmap := bm, allocatedCount := a.allocatedCount - n } ∧
          ({ a with bitmap := bm, allocatedCount := a.allocatedCount - n } :
            FrameAllocator).usedPages = a.usedPages \ Finset.Ico first (first + n)
  | 0, a, _, _, _, _ => ⟨a.bitmap, rfl, by
      rw [show first + 0 = first by rfl, Finset.Ico_self, Finset.sdiff_empty]; rfl⟩
  | n + 1, a, h, h64, hsub, hcount => by
    have hsub' : Finset.Ico first (first + n) ⊆ a.usedPages := fun p hp =>
      hsub (by rw [Finset.mem_Ico] at hp ⊢; omega)
    obtain ⟨bm, hfold, hused⟩ := foldl_freeOne first n a (by omega) h64 hsub' hcount
    rw [List.range_succ, List.foldl_append, hfold, List.foldl_cons, List.foldl_nil]
    have hmod : (first + n) % 2 ^ 64 = first + n := Nat.mod_eq_of_lt (by omega)
    unfold freeOne
    simp only [hmod]
    rw [if_pos (by omega : first + n < a.totalPages)]
    refine ⟨_, by rw [Nat.sub_sub]; rfl, ?_⟩
    have hmark := usedPages_markFree
      { a with bitmap := bm, allocatedCount := a.allocatedCount - n } (first + n)
    rw [hused] at hmark
    refine hmark.trans ?_
    ext q
    simp only [Finset.mem_erase, Finset.mem_sdiff, Finset.mem_Ico]
    grind

theorem freePages_spec {f : Nat} (hfit : f + count ≤ a.totalPages) (h64 : a.totalPages < 2 ^ 64)
    (hsub : Finset.Ico f (f + count) ⊆ a.usedPages) (hcount : a.allocatedCount = a.usedPages.card) :
    (a.freePages (a.base + f * pageSize) count).usedPages = a.usedPages \ Finset.Ico f (f + count) ∧
    (a.freePages (a.base + f * pageSize) count).base = a.base ∧ (a.freePages (a.base + f * pageSize)
    count).totalPages = a.totalPages ∧ (a.freePages (a.base + f * pageSize) count).allocatedCount =
    a.allocatedCount - count := by
  have hidx : (a.base + f * pageSize - a.base) / pageSize = f := by
    rw [Nat.add_sub_cancel_left, Nat.mul_div_cancel _ (by decide)]
  obtain ⟨bm, hfold, hused⟩ := foldl_freeOne f count a hfit h64 hsub hcount
  unfold freePages
  rw [if_neg (by omega)]
  simp only [hidx, hfold]
  split_ifs
  · exact ⟨hused, rfl, rfl, rfl⟩
  · exact ⟨hused, rfl, rfl, rfl⟩

theorem bitmapPages_le {n : Nat} (hn : 1 ≤ n) : bitmapPages n ≤ n := by
  unfold bitmapPages bitmapU64s pageSize
  omega

theorem usedPages_cleared (mem : Nat → BitVec 64) (base total : Nat) :
    (cleared mem base total).usedPages = ∅ := by
  rw [Finset.eq_empty_iff_forall_notMem]
  intro p hp
  obtain ⟨hlt, hbit⟩ := mem_usedPages.mp hp
  change p < total at hlt
  have hw : p / 64 < bitmapU64s total := by
    unfold bitmapU64s
    omega
  simp [pageBit, cleared, hw] at hbit

theorem init_spec (mem : Nat → BitVec 64) (base : Nat) {size : Nat} (hsize : pageSize ≤ size) :
    (init mem base size).usedPages = Finset.range (bitmapPages (size / pageSize)) ∧
      (init mem base size).base = base ∧ (init mem base size).totalPages = size / pageSize ∧
      (init mem base size).allocatedCount = bitmapPages (size / pageSize) := by
  have hn : 1 ≤ size / pageSize := (Nat.one_le_div_iff (by decide)).mpr hsize
  obtain ⟨bm, hfold, hused⟩ := foldl_markAllocated 0 (bitmapPages (size / pageSize))
    (cleared mem base (size / pageSize)) (by rw [Nat.zero_add]; exact bitmapPages_le hn)
  simp only [Nat.zero_add] at hfold hused
  unfold init
  rw [hfold, hused, usedPages_cleared, Finset.empty_union, Finset.range_eq_Ico]
  exact ⟨rfl, rfl, rfl, rfl⟩

end FrameAllocator

/-! ## Runs -/

structure Region where
  base : Nat
  size : Nat
  aligned : base % pageSize = 0
  two_pages : 2 * pageSize ≤ size
  fits : base + size ≤ 2 ^ 64

/-- A block of pages returned by `alloc` or `alloc_pages`. -/
structure Block where
  addr : Nat
  count : Nat
  deriving DecidableEq

def Block.Apart (b c : Block) : Prop :=
  b.addr + b.count * pageSize ≤ c.addr ∨ c.addr + c.count * pageSize ≤ b.addr

/-- Page `p` of the region at `base` belongs to the block. -/
def Block.Covers (b : Block) (base p : Nat) : Prop :=
  b.addr ≤ base + p * pageSize ∧ base + p * pageSize < b.addr + b.count * pageSize

/-- The allocator with the blocks it has returned and not yet taken back. -/
structure System where
  frames : FrameAllocator
  live : List Block

inductive Call where
  | alloc
  | allocPages (count : Nat)
  | free (addr : Nat)
  | freePages (addr count : Nat)
  deriving DecidableEq

/-- The pages a call asks for, `none` for a free. -/
def Call.asks : Call → Option Nat
  | .alloc => some 1
  | .allocPages count => some count
  | .free _ => none
  | .freePages _ _ => none

def Call.Names (live : List Block) : Call → Prop
  | .free addr => ⟨addr, 1⟩ ∈ live
  | .freePages addr count => ⟨addr, count⟩ ∈ live
  | _ => True

/-- The blocks live after an allocation of `count` pages returned `r`. -/
def System.grant (s : System) (count : Nat) (r : Option Nat × FrameAllocator) :
    Option Nat × System :=
  (r.1, ⟨r.2, match r.1 with
    | some addr => ⟨addr, count⟩ :: s.live
    | none => s.live⟩)

def System.call (s : System) : Call → Option Nat × System
  | .alloc => s.grant 1 s.frames.alloc
  | .allocPages count => s.grant count (s.frames.allocPages count)
  | .free addr => (none, ⟨s.frames.free addr, s.live.erase ⟨addr, 1⟩⟩)
  | .freePages addr count => (none, ⟨s.frames.freePages addr count, s.live.erase ⟨addr, count⟩⟩)

open FrameAllocator

/-- The states after any sequence of calls in which every free names a live block. -/
def Reach (r : Region) (mem : Nat → BitVec 64) : System → Prop :=
  Relation.ReflTransGen (fun s s' => ∃ c : Call, c.Names s.live ∧ s' = (s.call c).2)
    ⟨FrameAllocator.init mem r.base r.size, []⟩

/-! ### The invariant -/

def Region.total (r : Region) : Nat := r.size / pageSize

def Region.bitmap (r : Region) : Nat := FrameAllocator.bitmapPages r.total

def Block.pages (base : Nat) (b : Block) : Finset Nat :=
  Finset.Ico ((b.addr - base) / pageSize) ((b.addr - base) / pageSize + b.count)

/-- A live block sits on whole pages of the region, behind the bitmap. -/
def Block.Placed (r : Region) (b : Block) : Prop :=
  0 < b.count ∧ ∃ f, b.addr = r.base + f * pageSize ∧ r.bitmap ≤ f ∧ f + b.count ≤ r.total

structure Inv (r : Region) (s : System) : Prop where
  base_eq : s.frames.base = r.base
  total_eq : s.frames.totalPages = r.total
  placed : ∀ b ∈ s.live, b.Placed r
  apart : s.live.Pairwise fun b c => Disjoint (b.pages r.base) (c.pages r.base)
  used : ∀ p, p ∈ s.frames.usedPages ↔ p < r.bitmap ∨ ∃ b ∈ s.live, p ∈ b.pages r.base
  counted : s.frames.allocatedCount = s.frames.usedPages.card

variable {r : Region} {s : System} {b : Block}

theorem Region.total_lt (r : Region) : r.base + r.total * pageSize ≤ 2 ^ 64 := by
  have := r.fits
  have := Nat.div_mul_le_self r.size pageSize
  unfold Region.total
  omega

theorem Block.pages_eq {base f : Nat} (h : b.addr = base + f * pageSize) :
    b.pages base = Finset.Ico f (f + b.count) := by
  unfold Block.pages
  rw [h, Nat.add_sub_cancel_left, Nat.mul_div_cancel _ (by decide)]

theorem inv_init (r : Region) (mem : Nat → BitVec 64) :
    Inv r ⟨init mem r.base r.size, []⟩ := by
  have hsize : pageSize ≤ r.size := by have := r.two_pages; omega
  obtain ⟨hused, hbase, htotal, hcount⟩ := init_spec mem r.base hsize
  refine ⟨hbase, htotal, by simp, List.Pairwise.nil, fun p => ?_, ?_⟩
  · simp only [hused, Finset.mem_range]
    simp [Region.bitmap, Region.total]
  · simp only [hcount, hused, Finset.card_range]

theorem Inv.grant_some (hi : Inv r s) {count addr : Nat} {a' : FrameAllocator}
    (h : s.frames.allocPages count = (some addr, a')) :
    Block.Placed r ⟨addr, count⟩ ∧
    (∀ b ∈ s.live, Disjoint (Block.pages r.base ⟨addr, count⟩) (b.pages r.base)) ∧
    Inv r ⟨a', ⟨addr, count⟩ :: s.live⟩ := by
  obtain ⟨hpos, f, haddr, hfit, hdisj, hused, hbase, htotal, hcount⟩ :=
    allocPages_some h
  rw [hi.total_eq] at hfit
  have hwrap : addr = r.base + f * pageSize := by
    have htop := r.total_lt
    have hmul : (f + 1) * pageSize ≤ r.total * pageSize := Nat.mul_le_mul_right _ (by omega)
    rw [haddr, hi.base_eq]
    refine Nat.mod_eq_of_lt ?_
    unfold pageSize at *
    omega
  have hpages : Block.pages r.base ⟨addr, count⟩ = Finset.Ico f (f + count) :=
    Block.pages_eq hwrap
  have hfree : ∀ p ∈ Finset.Ico f (f + count), p ∉ s.frames.usedPages := fun p hp =>
    Finset.disjoint_right.mp hdisj hp
  have hbehind : r.bitmap ≤ f := by
    by_contra hlt
    refine hfree f ?_ ((hi.used f).mpr (Or.inl (by omega)))
    rw [Finset.mem_Ico]
    omega
  have hplaced : Block.Placed r ⟨addr, count⟩ := ⟨hpos, f, hwrap, hbehind, hfit⟩
  have hap : ∀ b ∈ s.live, Disjoint (Block.pages r.base ⟨addr, count⟩) (b.pages r.base) := by
    intro b hb
    rw [hpages, Finset.disjoint_left]
    intro p hp hpb
    exact hfree p hp ((hi.used p).mpr (Or.inr ⟨b, hb, hpb⟩))
  refine ⟨hplaced, hap, ⟨hbase.trans hi.base_eq, htotal.trans hi.total_eq, ?_, ?_, ?_, ?_⟩⟩
  · intro b hb
    rcases List.mem_cons.mp hb with rfl | hb
    · exact hplaced
    · exact hi.placed b hb
  · exact List.Pairwise.cons hap hi.apart
  · intro p
    simp only [hused, Finset.mem_union, hi.used p, List.mem_cons, exists_eq_or_imp, hpages]
    rw [or_assoc]
    exact or_congr Iff.rfl or_comm
  · simp only [hcount, hused]
    rw [Finset.card_union_of_disjoint hdisj, hi.counted, Nat.card_Ico]
    omega

theorem Inv.erase_pages (hi : Inv r s) (hb : b ∈ s.live) (p : Nat) : (∃ c ∈ s.live.erase b, p ∈
    c.pages r.base) ↔ (∃ c ∈ s.live, p ∈ c.pages r.base) ∧ p ∉ b.pages r.base := by
  have hperm := List.perm_cons_erase hb
  have hpw : (b :: s.live.erase b).Pairwise
      fun b c => Disjoint (b.pages r.base) (c.pages r.base) :=
    (hperm.pairwise_iff (fun {x y} h => h.symm)).mp hi.apart
  obtain ⟨hhead, -⟩ := List.pairwise_cons.mp hpw
  constructor
  · rintro ⟨c, hc, hp⟩
    exact ⟨⟨c, List.mem_of_mem_erase hc, hp⟩, fun hpb =>
      Finset.disjoint_left.mp (hhead c hc) hpb hp⟩
  · rintro ⟨⟨c, hc, hp⟩, hpb⟩
    rcases List.mem_cons.mp (hperm.mem_iff.mp hc) with rfl | hc'
    · exact absurd hp hpb
    · exact ⟨c, hc', hp⟩

theorem Inv.free (hi : Inv r s) (hb : b ∈ s.live) :
    Inv r ⟨s.frames.freePages b.addr b.count, s.live.erase b⟩ := by
  obtain ⟨hpos, f, haddr, hbehind, hfit⟩ := hi.placed b hb
  have hpages : b.pages r.base = Finset.Ico f (f + b.count) := Block.pages_eq haddr
  have hsub : Finset.Ico f (f + b.count) ⊆ s.frames.usedPages := fun p hp =>
    (hi.used p).mpr (Or.inr ⟨b, hb, by rw [hpages]; exact hp⟩)
  have h64 : s.frames.totalPages < 2 ^ 64 := by
    have := r.total_lt
    rw [hi.total_eq]
    unfold pageSize at *
    omega
  obtain ⟨hused, hbase, htotal, hcount⟩ :=
    freePages_spec (by rw [hi.total_eq]; exact hfit) h64 hsub hi.counted
  rw [hi.base_eq, ← haddr] at hused hbase htotal hcount
  refine ⟨hbase, htotal.trans hi.total_eq, fun c hc => hi.placed c (List.mem_of_mem_erase hc),
    hi.apart.sublist List.erase_sublist, fun p => ?_, ?_⟩
  · simp only [hused, Finset.mem_sdiff, hi.used p, hi.erase_pages hb p, hpages, Finset.mem_Ico]
    have : p < r.bitmap → ¬ (f ≤ p ∧ p < f + b.count) := by omega
    tauto
  · simp only [hcount, hused]
    rw [Finset.card_sdiff_of_subset hsub, hi.counted, Nat.card_Ico]
    omega

theorem Inv.call (hi : Inv r s) {c : Call} (hc : c.Names s.live) : Inv r (s.call c).2 := by
  have hgrant : ∀ count, Inv r (s.grant count (s.frames.allocPages count)).2 := by
    intro count
    unfold System.grant
    cases h : s.frames.allocPages count with
    | mk res a' =>
      cases res with
      | none =>
        obtain rfl := allocPages_none h
        exact hi
      | some addr => exact (hi.grant_some h).2.2
  cases c with
  | alloc => exact hgrant 1
  | allocPages count => exact hgrant count
  | free addr => exact hi.free (b := ⟨addr, 1⟩) hc
  | freePages addr count => exact hi.free (b := ⟨addr, count⟩) hc

theorem reach_inv {mem : Nat → BitVec 64} (h : Reach r mem s) : Inv r s := by
  induction h with
  | refl => exact inv_init r mem
  | tail _ hstep ih =>
    obtain ⟨c, hc, rfl⟩ := hstep
    exact ih.call hc

/-! ### No page is handed out twice -/

/-- Where a block may lie: on whole pages of the region, off the bitmap's pages. -/
structure Block.Inside (r : Region) (b : Block) : Prop where
  lower : r.base ≤ b.addr
  upper : b.addr + b.count * pageSize ≤ r.base + r.total * pageSize
  aligned : b.addr % pageSize = 0
  off_bitmap : r.base + r.bitmap * pageSize ≤ b.addr

structure Sound (r : Region) (s : System) : Prop where
  total_eq : s.frames.totalPages = r.total
  inside : ∀ b ∈ s.live, b.Inside r
  apart : s.live.Pairwise Block.Apart
  bits : ∀ p < s.frames.totalPages,
    s.frames.pageBit p = true ↔ p < r.bitmap ∨ ∃ b ∈ s.live, b.Covers r.base p
  counted : s.frames.allocatedCount = Nat.count (s.frames.pageBit · = true) s.frames.totalPages

theorem Block.Placed.inside (h : b.Placed r) : b.Inside r := by
  obtain ⟨-, f, haddr, hbehind, hfit⟩ := h
  have hal := r.aligned
  have h1 : (f + b.count) * pageSize ≤ r.total * pageSize := Nat.mul_le_mul_right _ hfit
  have h2 : r.bitmap * pageSize ≤ f * pageSize := Nat.mul_le_mul_right _ hbehind
  rw [Nat.add_mul] at h1
  refine ⟨by omega, by omega, ?_, by omega⟩
  rw [haddr]
  unfold pageSize at *
  omega

theorem Block.Placed.apart {c : Block} (hb : b.Placed r) (hc : c.Placed r)
    (h : Disjoint (b.pages r.base) (c.pages r.base)) : b.Apart c := by
  obtain ⟨hbpos, f, hbaddr, -, -⟩ := hb
  obtain ⟨hcpos, g, hcaddr, -, -⟩ := hc
  rw [Block.pages_eq hbaddr, Block.pages_eq hcaddr, Finset.disjoint_left] at h
  have hsep : f + b.count ≤ g ∨ g + c.count ≤ f := by
    by_contra hcon
    refine h (a := max f g) ?_ ?_ <;> rw [Finset.mem_Ico] <;> omega
  unfold Block.Apart
  rcases hsep with hle | hle
  · have := Nat.mul_le_mul_right pageSize hle
    rw [Nat.add_mul] at this
    exact Or.inl (by omega)
  · have := Nat.mul_le_mul_right pageSize hle
    rw [Nat.add_mul] at this
    exact Or.inr (by omega)

theorem Block.Placed.covers_iff (h : b.Placed r) (p : Nat) :
    b.Covers r.base p ↔ p ∈ b.pages r.base := by
  obtain ⟨-, f, haddr, -, -⟩ := h
  rw [Block.pages_eq haddr, Finset.mem_Ico]
  unfold Block.Covers
  rw [haddr, Nat.add_assoc, ← Nat.add_mul, Nat.add_le_add_iff_left, Nat.add_lt_add_iff_left]
  unfold pageSize
  omega

theorem Inv.sound (hi : Inv r s) : Sound r s := by
  refine ⟨hi.total_eq, fun b hb => (hi.placed b hb).inside, ?_, fun p hp => ?_, ?_⟩
  · exact hi.apart.imp_of_mem fun hb hc h => (hi.placed _ hb).apart (hi.placed _ hc) h
  · have hiff := hi.used p
    rw [mem_usedPages] at hiff
    rw [show (s.frames.pageBit p = true) = (p < s.frames.totalPages ∧ s.frames.pageBit p = true)
      by simp [hp], hiff]
    refine or_congr Iff.rfl (exists_congr fun b => and_congr_right fun hb => ?_)
    exact ((hi.placed b hb).covers_iff p).symm
  · rw [hi.counted, Nat.count_eq_card_filter_range]
    rfl

/-- **No page is handed out twice**, in every state that a run of calls can reach. -/
theorem alloc_run_sound {mem : Nat → BitVec 64} (h : Reach r mem s) :
    Sound r s ∧
    ∀ (c : Call) (count : Nat), c.asks = some count →
        ((s.call c).1 = none → (s.call c).2 = s) ∧
        ∀ addr, (s.call c).1 = some addr →
          Block.Inside r ⟨addr, count⟩ ∧ ∀ b ∈ s.live, Block.Apart ⟨addr, count⟩ b := by
  have hi := reach_inv h
  have hgrant : ∀ count, ((s.grant count (s.frames.allocPages count)).1 = none →
        (s.grant count (s.frames.allocPages count)).2 = s) ∧
      ∀ addr, (s.grant count (s.frames.allocPages count)).1 = some addr →
        Block.Inside r ⟨addr, count⟩ ∧ ∀ b ∈ s.live, Block.Apart ⟨addr, count⟩ b := by
    intro count
    unfold System.grant
    cases hcall : s.frames.allocPages count with
    | mk res a' =>
      refine ⟨?_, ?_⟩
      · rintro rfl
        obtain rfl := FrameAllocator.allocPages_none hcall
        rfl
      · rintro addr rfl
        obtain ⟨hplaced, hap, -⟩ := hi.grant_some hcall
        exact ⟨hplaced.inside, fun b hb => hplaced.apart (hi.placed b hb) (hap b hb)⟩
  refine ⟨hi.sound, fun c count hasks => ?_⟩
  cases c with
  | alloc =>
    obtain rfl := Option.some.inj hasks
    exact hgrant 1
  | allocPages n =>
    obtain rfl := Option.some.inj hasks
    exact hgrant n
  | free addr => exact absurd hasks (by simp [Call.asks])
  | freePages addr n => exact absurd hasks (by simp [Call.asks])

theorem alloc_run_sound_two_pages :
    ∃ (r : Region) (mem : Nat → BitVec 64) (s : System), Reach r mem s ∧ s.live = [⟨4096, 1⟩] ∧
      Sound r s ∧ (s.call .alloc).2 = s := by
  let r : Region := ⟨0, 8192, by decide, by decide, by decide⟩
  let s0 : System := ⟨FrameAllocator.init (fun _ => 0#64) r.base r.size, []⟩
  have h : Reach r (fun _ => 0#64) (s0.call .alloc).2 :=
    Relation.ReflTransGen.tail Relation.ReflTransGen.refl ⟨.alloc, trivial, rfl⟩
  have hall := alloc_run_sound h
  refine ⟨r, _, _, h, by decide, hall.1, (hall.2 .alloc 1 rfl).1 (by decide)⟩

end Kerners.Mm
