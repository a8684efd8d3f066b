import Kerners.Mm.Page

/-!
# Which runs of free pages `alloc_pages` sees (`src/mm/page.rs`)

The search of `alloc_pages` visits every page once, from `next_search` to the end and then from the
start, and its run length starts over at the wrap. A run of free pages that lies before the cursor or
behind it is found; one that lies across the cursor is not.
-/

namespace Kerners.Mm

namespace FrameAllocator

variable {a a' : FrameAllocator} {count : Nat}

theorem scan_succ {n start run first : Nat} (hs : start < a.totalPages) :
    a.scan count (n + 1) start run first =
      if a.isPageFree start then
        if run + 1 = count then some (if run = 0 then start else first)
        else a.scan count n (start + 1) (run + 1) (if run = 0 then start else first)
      else a.scan count n (start + 1) 0 first := by
  have hwrap : ¬ start ≥ a.totalPages := by omega
  rw [scan]
  simp only [if_neg hwrap]

theorem scan_none_sees : ∀ {n start run first : Nat}, run < count → run ≤ start →
    start + n ≤ a.totalPages → a.scan count n start run first = none →
    ∀ f, start - run ≤ f → f + count ≤ start + n → ∃ i < count, a.isPageFree (f + i) = false
  | 0, start, run, first, hrun, hle, _, _, f, hf, hfit => by omega
  | n + 1, start, run, first, hrun, hle, hn, h, f, hf, hfit => by
    rw [scan_succ (by omega)] at h
    by_cases hfree : a.isPageFree start = true
    · rw [if_pos hfree] at h
      by_cases hdone : run + 1 = count
      · rw [if_pos hdone] at h
        cases h
      · rw [if_neg hdone] at h
        exact scan_none_sees (by omega) (by omega) (by omega) h f (by omega) (by omega)
    · rw [if_neg hfree] at h
      by_cases hafter : start + 1 ≤ f
      · exact scan_none_sees (by omega) (by omega) (by omega) h f (by omega) (by omega)
      · -- the used page lies in the run
        refine ⟨start - f, by omega, ?_⟩
        rw [show f + (start - f) = start by omega]
        simpa using hfree

theorem scan_none_split :
    ∀ {n m start run first : Nat},
      start + n ≤ a.totalPages → a.scan count (n + m) start run first = none →
        a.scan count n start run first = none ∧
        ∃ run' first', a.scan count m (start + n) run' first' = none
  | 0, m, start, run, first, _, h => by
    rw [Nat.zero_add] at h
    exact ⟨rfl, run, first, h⟩
  | n + 1, m, start, run, first, hn, h => by
    rw [show n + 1 + m = n + m + 1 by omega, scan_succ (by omega)] at h
    rw [scan_succ (by omega), show start + (n + 1) = start + 1 + n by omega]
    split_ifs at h ⊢
    · exact scan_none_split (by omega) h
    · exact scan_none_split (by omega) h
    · exact scan_none_split (by omega) h

theorem scan_wrap {m start run first : Nat} (hpos : 0 < a.totalPages) (hs : a.totalPages ≤ start) :
    a.scan count m start run first = a.scan count m 0 0 first := by
  cases m with
  | zero => rfl
  | succ m =>
    have h0 : ¬ 0 ≥ a.totalPages := by omega
    unfold scan
    simp only [if_pos hs, if_neg h0]

theorem allocPages_none_sees (hpos : 0 < a.totalPages) (hcur : a.nextSearch ≤ a.totalPages)
    (hcount : 0 < count) (h : (a.allocPages count).1 = none) {f : Nat}
    (hfit : f + count ≤ a.totalPages) (hside : a.nextSearch ≤ f ∨ f + count ≤ a.nextSearch) :
    ∃ i < count, a.isPageFree (f + i) = false := by
  have hscan : a.scan count a.totalPages a.nextSearch 0 0 = none := by
    unfold allocPages at h
    rw [if_neg (by omega)] at h
    cases hs : a.scan count a.totalPages a.nextSearch 0 0 with
    | none => rfl
    | some f =>
      rw [hs] at h
      cases h
  have htotal : a.totalPages = (a.totalPages - a.nextSearch) + a.nextSearch := by omega
  rw [htotal] at hscan
  obtain ⟨hfirst, run', first', hrest⟩ := scan_none_split (by omega) hscan
  rcases hside with hside | hside
  · exact scan_none_sees hcount (Nat.zero_le _) (by omega) hfirst f (by omega) (by omega)
  · rw [scan_wrap hpos (by omega)] at hrest
    exact scan_none_sees hcount (Nat.le_refl 0) (by omega) hrest f (by omega) (by omega)

/-! ## The cursor -/

theorem isPageFree_false_iff {p : Nat} (hp : p < a.totalPages) :
    a.isPageFree p = false ↔ p ∈ a.usedPages := by
  rw [Bool.eq_false_iff, ne_eq, isPageFree_iff]
  tauto

/-- The cursor is a place between pages, and no free page lies right in front of it. -/
structure CursorOk (a : FrameAllocator) : Prop where
  le : a.nextSearch ≤ a.totalPages
  front : ∀ q, q + 1 = a.nextSearch → q ∈ a.usedPages

theorem CursorOk.complete (h : CursorOk a) (hpos : 0 < a.totalPages) (hcount : 0 < count)
    (hnone : (a.allocPages count).1 = none) {f : Nat} (hfit : f + count ≤ a.totalPages) :
    ∃ i < count, a.isPageFree (f + i) = false := by
  by_cases hside : a.nextSearch ≤ f ∨ f + count ≤ a.nextSearch
  · exact allocPages_none_sees hpos h.le hcount hnone hfit hside
  · -- the page in front of the cursor lies in the run
    have hle := h.le
    refine ⟨a.nextSearch - 1 - f, by omega, ?_⟩
    rw [isPageFree_false_iff (by omega)]
    exact h.front _ (by omega)

theorem CursorOk.allocated {addr : Nat} (h : a.allocPages count = (some addr, a')) :
    CursorOk a' := by
  obtain ⟨hpos, f, -, hfit, -, hused, -, htotal, -⟩ := allocPages_some h
  have hfree : ∃ g, a'.nextSearch = g + count ∧ a'.usedPages = a.usedPages ∪ Finset.Ico g (g + count) ∧
      g + count ≤ a.totalPages := by
    unfold allocPages at h
    rw [if_neg (by omega)] at h
    cases hs : a.scan count a.totalPages a.nextSearch 0 0 with
    | none => simp [hs] at h
    | some g =>
      have hlast := (isPageFree_iff.mp (scan_some (Or.inl rfl) hs (count - 1) (by omega))).1
      obtain ⟨bm, hfold, hused'⟩ := foldl_markAllocated g count a (by omega)
      rw [hs] at h
      simp only [hfold, Prod.mk.injEq, Option.some.injEq] at h
      obtain ⟨-, rfl⟩ := h
      exact ⟨g, rfl, hused', by omega⟩
  obtain ⟨g, hnext, hused', hfit'⟩ := hfree
  refine ⟨by omega, fun q hq => ?_⟩
  rw [hused', Finset.mem_union, Finset.mem_Ico]
  exact Or.inr (by omega)

theorem foldl_freeOne_next (first : Nat) : ∀ (l : List Nat) (a : FrameAllocator),
    (l.foldl (freeOne first) a).nextSearch = a.nextSearch
  | [], _ => rfl
  | i :: l, a => by
    rw [List.foldl_cons, foldl_freeOne_next first l]
    unfold freeOne
    split_ifs <;> rfl

theorem freePages_next {f : Nat} :
    (a.freePages (a.base + f * pageSize) count).nextSearch = min f a.nextSearch := by
  have hidx : (a.base + f * pageSize - a.base) / pageSize = f := by
    rw [Nat.add_sub_cancel_left, Nat.mul_div_cancel _ (by decide)]
  unfold freePages
  rw [if_neg (by omega)]
  simp only [hidx]
  split_ifs with hlt
  · exact (Nat.min_eq_left (Nat.le_of_lt hlt)).symm
  · rw [foldl_freeOne_next]
    omega

end FrameAllocator

/-! ## Runs -/

variable {r : Region} {s : System}

/-- When a free of the block at `addr` moves the cursor, the page in front of the block is in use. -/
def FrameAllocator.FrontUsed (a : FrameAllocator) (addr : Nat) : Prop :=
  (addr - a.base) / pageSize < a.nextSearch →
    ∀ q, q + 1 = (addr - a.base) / pageSize → a.isPageFree q = false

/-- The call leaves the page in front of the cursor in use. -/
def Call.KeepsFront (a : FrameAllocator) : Call → Prop
  | .free addr => a.FrontUsed addr
  | .freePages addr _ => a.FrontUsed addr
  | _ => True

open FrameAllocator

/-- The runs of calls in which a free names a live block and `KeepsFront` holds at every call. -/
def FrontReach (r : Region) (mem : Nat → BitVec 64) : System → Prop :=
  Relation.ReflTransGen
    (fun s s' => ∃ c : Call, c.Names s.live ∧ c.KeepsFront s.frames ∧ s' = (s.call c).2)
    ⟨FrameAllocator.init mem r.base r.size, []⟩

theorem CursorOk.freed (hi : Inv r s) (hcur : s.frames.CursorOk) {b : Block} (hb : b ∈ s.live)
    (hfront : s.frames.FrontUsed b.addr) : (s.frames.freePages b.addr b.count).CursorOk := by
  obtain ⟨hpos, f, haddr, hbehind, hfit⟩ := hi.placed b hb
  have hpages : b.pages r.base = Finset.Ico f (f + b.count) := Block.pages_eq haddr
  have hsub : Finset.Ico f (f + b.count) ⊆ s.frames.usedPages := fun p hp =>
    (hi.used p).mpr (Or.inr ⟨b, hb, by rw [hpages]; exact hp⟩)
  have htot := hi.total_eq
  have h64 : s.frames.totalPages < 2 ^ 64 := by
    have := r.total_lt
    unfold pageSize at *
    omega
  obtain ⟨hused, -, htotal, -⟩ :=
    freePages_spec (by rw [htot]; exact hfit) h64 hsub hi.counted
  have hnext : (s.frames.freePages (s.frames.base + f * pageSize) b.count).nextSearch =
      min f s.frames.nextSearch := freePages_next
  have hidx : (b.addr - s.frames.base) / pageSize = f := by
    rw [haddr, hi.base_eq, Nat.add_sub_cancel_left, Nat.mul_div_cancel _ (by decide)]
  rw [hi.base_eq, ← haddr] at hused htotal hnext
  unfold FrameAllocator.FrontUsed at hfront
  rw [hidx] at hfront
  have hle := hcur.le
  refine ⟨by omega, fun q hq => ?_⟩
  rw [hused, Finset.mem_sdiff, Finset.mem_Ico]
  refine ⟨?_, by omega⟩
  by_cases hlt : f < s.frames.nextSearch
  · exact (isPageFree_false_iff (by omega)).1 (hfront hlt q (by omega))
  · exact hcur.front q (by omega)

theorem cursorOk_call (hi : Inv r s) (hcur : s.frames.CursorOk) {c : Call} (hn : c.Names s.live)
    (hk : c.KeepsFront s.frames) : (s.call c).2.frames.CursorOk := by
  have hgrant : ∀ count, (s.grant count (s.frames.allocPages count)).2.frames.CursorOk := by
    intro count
    unfold System.grant
    cases h : s.frames.allocPages count with
    | mk res a' =>
      cases res with
      | none =>
        obtain rfl := allocPages_none h
        exact hcur
      | some addr => exact FrameAllocator.CursorOk.allocated h
  cases c with
  | alloc => exact hgrant 1
  | allocPages count => exact hgrant count
  | free addr => exact CursorOk.freed hi hcur (b := ⟨addr, 1⟩) hn hk
  | freePages addr count => exact CursorOk.freed hi hcur (b := ⟨addr, count⟩) hn hk

theorem foldl_markAllocated_next : ∀ (l : List Nat) (a : FrameAllocator),
    (l.foldl markAllocated a).nextSearch = a.nextSearch
  | [], _ => rfl
  | p :: l, a => by
    rw [List.foldl_cons, foldl_markAllocated_next l]
    rfl

theorem cursorOk_init (r : Region) (mem : Nat → BitVec 64) :
    (init mem r.base r.size).CursorOk := by
  have htwo := r.two_pages
  have hsize : pageSize ≤ r.size := by omega
  obtain ⟨hused, -, htotal, -⟩ := init_spec mem r.base hsize
  have hnext : (init mem r.base r.size).nextSearch =
      bitmapPages (r.size / pageSize) := foldl_markAllocated_next _ _
  have hone : 1 ≤ r.size / pageSize := (Nat.one_le_div_iff (by decide)).mpr hsize
  have hle := bitmapPages_le hone
  refine ⟨by omega, fun q hq => ?_⟩
  rw [hused, Finset.mem_range]
  omega

theorem FrontReach.cursorOk {mem : Nat → BitVec 64} (h : FrontReach r mem s) :
    s.frames.CursorOk := by
  have key : Inv r s ∧ s.frames.CursorOk := by
    induction h with
    | refl => exact ⟨inv_init r mem, cursorOk_init r mem⟩
    | tail _ hstep ih =>
      obtain ⟨c, hn, hk, rfl⟩ := hstep
      exact ⟨ih.1.call hn, cursorOk_call ih.1 ih.2 hn hk⟩
  exact key.2

/-- **`alloc_pages` is complete in every run in which no free moves the cursor behind a free page**:
in every state reached it returns `None` only if no run of `count` free pages exists. -/
theorem allocPages_complete {mem : Nat → BitVec 64} (h : FrontReach r mem s) {count : Nat}
    (hcount : 0 < count) (hnone : (s.frames.allocPages count).1 = none) :
    ¬ ∃ f, f + count ≤ s.frames.totalPages ∧ ∀ i < count, s.frames.isPageFree (f + i) = true := by
  rintro ⟨f, hfit, hfree⟩
  obtain ⟨i, hi, hused⟩ := h.cursorOk.complete (by omega) hcount hnone hfit
  rw [hfree i hi] at hused
  cases hused

/-- `free_count()`. -/
def FrameAllocator.freeCount (a : FrameAllocator) : Nat := a.totalPages - a.allocatedCount

def sixPages : Region := ⟨0, 24576, by decide, by decide, by decide⟩

/-- The state after the calls, from the state after `init`. -/
def afterCalls (r : Region) (cs : List Call) : System :=
  cs.foldl (fun s c => (s.call c).2) ⟨FrameAllocator.init (fun _ => 0#64) r.base r.size, []⟩

/-- Pages 1, 2 and 3 are taken and page 2 is freed: the cursor goes back to it. -/
def frontCalls : List Call := [.alloc, .alloc, .alloc, .free 8192]

theorem allocPages_complete_frontCalls :
    (afterCalls sixPages [.alloc, .alloc, .alloc]).frames.nextSearch = 4 ∧
    (afterCalls sixPages frontCalls).frames.nextSearch = 2 ∧
    (afterCalls sixPages frontCalls).frames.freeCount = 3 ∧
    ¬ ∃ f, f + 3 ≤ (afterCalls sixPages frontCalls).frames.totalPages ∧
      ∀ i < 3, (afterCalls sixPages frontCalls).frames.isPageFree (f + i) = true := by
  have h1 : FrontReach sixPages (fun _ => 0#64) (afterCalls sixPages [.alloc]) :=
    Relation.ReflTransGen.tail Relation.ReflTransGen.refl ⟨.alloc, trivial, trivial, rfl⟩
  have h2 := h1.tail ⟨.alloc, trivial, trivial, rfl⟩
  have h3 : FrontReach sixPages (fun _ => 0#64) (afterCalls sixPages [.alloc, .alloc, .alloc]) :=
    h2.tail ⟨.alloc, trivial, trivial, rfl⟩
  have hfront : (Call.free 8192).KeepsFront
      (afterCalls sixPages [.alloc, .alloc, .alloc]).frames := by
    intro _ q hq
    obtain rfl : q = 1 := Nat.succ.inj (hq.trans (by decide))
    decide
  have h4 := h3.tail ⟨.free 8192, by unfold Call.Names; decide, hfront, rfl⟩
  exact ⟨by decide, by decide, by decide, allocPages_complete h4 (by decide) (by decide)⟩

/-- Calls after which pages 1 and 2 are free, with the cursor between them and all other pages used. -/
def crossingCalls : List Call :=
  [.alloc, .alloc, .free 4096, .allocPages 2, .alloc, .free 8192]

/-- **A run of free pages can be missed**: the cursor stands between the two free pages, and
`alloc_pages(2)` returns `None`. -/
theorem allocPages_misses_run :
    Reach sixPages (fun _ => 0#64) (afterCalls sixPages crossingCalls) ∧
    ((afterCalls sixPages crossingCalls).frames.allocPages 2).1 = none ∧
    1 + 2 ≤ (afterCalls sixPages crossingCalls).frames.totalPages ∧
    ∀ i < 2, (afterCalls sixPages crossingCalls).frames.isPageFree (1 + i) = true := by
  refine ⟨?_, by decide, by decide, by decide⟩
  have h1 : Reach sixPages (fun _ => 0#64) (afterCalls sixPages [.alloc]) :=
    Relation.ReflTransGen.tail Relation.ReflTransGen.refl ⟨.alloc, trivial, rfl⟩
  have h2 := h1.tail ⟨.alloc, trivial, rfl⟩
  have h3 := h2.tail ⟨.free 4096, by unfold Call.Names; decide, rfl⟩
  have h4 := h3.tail ⟨.allocPages 2, trivial, rfl⟩
  have h5 := h4.tail ⟨.alloc, trivial, rfl⟩
  exact h5.tail ⟨.free 8192, by unfold Call.Names; decide, rfl⟩

/-! ## One page -/

theorem nextSearch_call (hi : Inv r s) (hle : s.frames.nextSearch ≤ r.total) {c : Call}
    (hn : c.Names s.live) : (s.call c).2.frames.nextSearch ≤ r.total := by
  have hgrant : ∀ count, (s.grant count (s.frames.allocPages count)).2.frames.nextSearch ≤
      r.total := by
    intro count
    unfold System.grant
    cases h : s.frames.allocPages count with
    | mk res a' =>
      cases res with
      | none =>
        obtain rfl := allocPages_none h
        exact hle
      | some addr =>
        obtain ⟨-, _, -, -, -, -, -, htotal, -⟩ := allocPages_some h
        exact (CursorOk.allocated h).le.trans (htotal.trans hi.total_eq).le
  have hfree : ∀ b ∈ s.live, (s.frames.freePages b.addr b.count).nextSearch ≤ r.total := by
    intro b hb
    obtain ⟨-, f, haddr, -⟩ := hi.placed b hb
    rw [haddr, ← hi.base_eq, freePages_next]
    exact (Nat.min_le_right ..).trans hle
  cases c with
  | alloc => exact hgrant 1
  | allocPages count => exact hgrant count
  | free addr => exact hfree ⟨addr, 1⟩ hn
  | freePages addr count => exact hfree ⟨addr, count⟩ hn

theorem nextSearch_le {mem : Nat → BitVec 64} (h : Reach r mem s) :
    s.frames.nextSearch ≤ r.total := by
  induction h with
  | refl => exact (inv_init r mem).total_eq ▸ (cursorOk_init r mem).le
  | tail hreach hstep ih =>
    obtain ⟨c, hn, rfl⟩ := hstep
    exact nextSearch_call (reach_inv hreach) ih hn

/-- **A single page is refused only when none is left**: in every state reached, `alloc` returns
`None` exactly when the statistics show no free page. -/
theorem alloc_none_iff {mem : Nat → BitVec 64} (h : Reach r mem s) :
    s.frames.alloc.1 = none ↔ s.frames.freeCount = 0 := by
  have hi := reach_inv h
  have hle : s.frames.nextSearch ≤ s.frames.totalPages := hi.total_eq ▸ nextSearch_le h
  have hsub : s.frames.usedPages ⊆ Finset.range s.frames.totalPages := fun p hp =>
    Finset.mem_range.2 (mem_usedPages.1 hp).1
  unfold freeCount alloc
  rw [hi.counted]
  constructor
  · intro hnone
    by_contra hcard
    obtain ⟨p, hp, hfree⟩ := Finset.exists_mem_notMem_of_card_lt_card
      (show s.frames.usedPages.card < (Finset.range s.frames.totalPages).card by
        rw [Finset.card_range]; omega)
    have hp' := Finset.mem_range.1 hp
    obtain ⟨i, hi', hused⟩ :=
      allocPages_none_sees (by omega) hle Nat.one_pos hnone hp' (by omega)
    obtain rfl : i = 0 := by omega
    exact hfree ((isPageFree_false_iff hp').1 hused)
  · intro hcard
    cases hres : s.frames.allocPages 1 with
    | mk res a' =>
      cases res with
      | none => rfl
      | some addr =>
        obtain ⟨-, f, -, hfit, hdis, -⟩ := allocPages_some hres
        have hf : f ∉ s.frames.usedPages := fun hf =>
          Finset.disjoint_left.1 hdis hf (Finset.mem_Ico.2 (by omega))
        have hlt := Finset.card_lt_card
          ((Finset.ssubset_iff_of_subset hsub).2 ⟨f, Finset.mem_range.2 hfit, hf⟩)
        rw [Finset.card_range] at hlt
        omega

theorem alloc_none_iff_full :
    (afterCalls sixPages [.allocPages 5]).frames.alloc.1 = none := by
  have h : Reach sixPages (fun _ => 0#64) (afterCalls sixPages [.allocPages 5]) :=
    Relation.ReflTransGen.tail Relation.ReflTransGen.refl ⟨.allocPages 5, trivial, rfl⟩
  exact (alloc_none_iff h).2 (by decide)

def takenPages (r : Region) : List Block → Finset Nat
  | [] => Finset.range r.bitmap
  | b :: bs => b.pages r.base ∪ takenPages r bs

theorem mem_takenPages {bs : List Block} {p : Nat} :
    p ∈ takenPages r bs ↔ p < r.bitmap ∨ ∃ b ∈ bs, p ∈ b.pages r.base := by
  induction bs with
  | nil => simp [takenPages]
  | cons b bs ih =>
    rw [takenPages, Finset.mem_union, ih]
    simp only [List.mem_cons, exists_eq_or_imp]
    exact or_left_comm

theorem card_takenPages {bs : List Block} (hp : ∀ b ∈ bs, b.Placed r)
    (ha : bs.Pairwise fun b c => Disjoint (b.pages r.base) (c.pages r.base)) :
    (takenPages r bs).card = bs.foldr (fun b n => b.count + n) r.bitmap := by
  induction bs with
  | nil => simp [takenPages]
  | cons b bs ih =>
    obtain ⟨hb, hbs⟩ := List.forall_mem_cons.1 hp
    obtain ⟨hab, habs⟩ := List.pairwise_cons.1 ha
    obtain ⟨-, f, haddr, hbehind, -⟩ := hb
    have hpages : b.pages r.base = Finset.Ico f (f + b.count) := Block.pages_eq haddr
    have hdis : Disjoint (b.pages r.base) (takenPages r bs) := by
      rw [Finset.disjoint_left]
      intro p hpb hpt
      obtain hlow | ⟨c, hc, hpc⟩ := mem_takenPages.1 hpt
      · rw [hpages, Finset.mem_Ico] at hpb
        omega
      · exact Finset.disjoint_left.1 (hab c hc) hpb hpc
    rw [takenPages, Finset.card_union_of_disjoint hdis, ih hbs habs, hpages, Nat.card_Ico,
      List.foldr_cons, Nat.add_sub_cancel_left]

/-- **Every allocated page is accounted for**: the counter is always the number of pages of the
bitmap and of the blocks that are out. -/
theorem pages_accounted {mem : Nat → BitVec 64} (h : Reach r mem s) :
    s.frames.allocatedCount = s.live.foldr (fun b n => b.count + n) r.bitmap := by
  have hi := reach_inv h
  have hused : s.frames.usedPages = takenPages r s.live := by
    ext p
    rw [hi.used, mem_takenPages]
  rw [hi.counted, hused, card_takenPages hi.placed hi.apart]

theorem pages_accounted_two : sixPages.bitmap = 1 ∧
    (afterCalls sixPages [.allocPages 2]).frames.allocatedCount = 2 + 1 := by
  have h : Reach sixPages (fun _ => 0#64) (afterCalls sixPages [.allocPages 2]) :=
    Relation.ReflTransGen.tail Relation.ReflTransGen.refl ⟨.allocPages 2, trivial, rfl⟩
  exact ⟨by decide, pages_accounted h⟩

end Kerners.Mm
