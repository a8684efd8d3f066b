import Kerners.Fat32.Volume
import Kerners.Lib.Chain

/-!
# Cluster chains and the allocator on a volume

`Chain fs v c l`: from cluster `c` on, the FAT of `v` leads through the clusters `l` to an
end-of-chain value. `read_chain` returns exactly such a list, and `alloc_cluster` picks the first
free cluster in the order of its two searches (`pickFree`).
-/

namespace Kerners.Fat32

open Lib Kerners.Block List

variable {fs : Fat32FileSystem} {v v' : Vol} {l : List Nat} {c : Nat}

/-! ## `read_chain` -/

def Cell (fs : Fat32FileSystem) (c : Nat) : Prop := fs.InRange c ∧ c < fatReservedMin

/-- **The chain of a cluster**, up to an end-of-chain value. -/
def Chain (fs : Fat32FileSystem) (v : Vol) (c : Nat) (l : List Nat) : Prop :=
  Walk (fun c => v.fat (fatIndex c)) (Cell fs) (fatEocMin ≤ ·) c l

/-- The loop of `read_chain` on a volume. -/
def chainLoop (fs : Fat32FileSystem) (v : Vol) : Nat → List Nat → Nat → Except FatError (List Nat)
  | 0, _, _ => .error .corruptedChain
  | fuel + 1, chain, current =>
    if 2 ≤ current ∧ current < fatReservedMin then
      if fs.InRange current then
        if (chain ++ [current]).length > fs.totalClusters then .error .corruptedChain
        else chainLoop fs v fuel (chain ++ [current]) (v.fat (fatIndex current))
      else .error .invalidCluster
    else .ok chain

/-- `read_chain` on a volume. -/
def chainOf (fs : Fat32FileSystem) (v : Vol) (c : Nat) : Except FatError (List Nat) :=
  chainLoop fs v (fs.totalClusters + 2) [] c

theorem readChainLoop_runs {t : FatTable} :
    ∀ (fuel : Nat) (chain : List Nat) (current : Nat),
      RunsM (volView fs) (fs.readChainLoop fuel chain current) t v
        (chainLoop fs v fuel chain current) t v
  | 0, _, _ => .throw _
  | fuel + 1, chain, current => by
    unfold Fat32FileSystem.readChainLoop chainLoop
    by_cases hcell : 2 ≤ current ∧ current < fatReservedMin
    · rw [if_pos hcell, if_pos hcell]
      by_cases hr : fs.InRange current
      · rw [if_pos hr]
        refine .bind_ok (readEntry_runs hr) ?_
        by_cases hlen : (chain ++ [current]).length > fs.totalClusters
        · rw [if_pos hlen, if_pos hlen]
          exact .throw _
        · rw [if_neg hlen, if_neg hlen]
          exact readChainLoop_runs fuel _ _
      · rw [if_neg hr]
        exact .bind_error (readEntry_invalid hr)
    · rw [if_neg hcell, if_neg hcell]
      exact .pure _

theorem readChain_runs {t : FatTable} (c : Nat) :
    RunsM (volView fs) (fs.readChain c) t v (chainOf fs v c) t v :=
  readChainLoop_runs _ _ _

/-! ### Chains -/

namespace Chain

variable {c x : Nat} {l : List Nat}

theorem cell_not_stop (c : Nat) (h : Cell fs c) : ¬ fatEocMin ≤ c := by
  have := h.2
  unfold fatReservedMin at this
  unfold fatEocMin
  omega

theorem nodup (h : Chain fs v c l) : l.Nodup := Walk.nodup cell_not_stop h

theorem inRange (h : Chain fs v c l) (hx : x ∈ l) : fs.InRange x := (Walk.cells h x hx).1

theorem cell (h : Chain fs v c l) (hx : x ∈ l) : Cell fs x := Walk.cells h x hx

theorem used (h : Chain fs v c l) (hx : x ∈ l) : v.fat (fatIndex x) ≠ fatFree := by
  obtain ⟨l1, l2, rfl⟩ := append_of_mem hx
  have htail := Walk.tail_of_append h
  have hnext : ∀ {y : Nat} {m : List Nat}, Chain fs v y m → y ≠ fatFree := by
    intro y m hy
    unfold fatFree
    cases hy with
    | done hs =>
      unfold fatEocMin at hs
      omega
    | step hc _ =>
      have := hc.1.1
      omega
  cases htail with
  | step _ hr => exact hnext hr

theorem length_le (h : Chain fs v c l) : l.length ≤ fs.totalClusters := by
  have hsub : l ⊆ List.range' 2 fs.totalClusters := fun x hx => by
    have := h.inRange hx
    rw [mem_range'_1]
    have h1 := this.1
    have h2 := this.2
    omega
  have := (subperm_of_subset h.nodup hsub).length_le
  rwa [length_range'] at this

theorem splice {pre rest rest' : List Nat} {z : Nat} (h : Chain fs v c (pre ++ z :: rest))
    (hpre : ∀ x ∈ pre, v'.fat (fatIndex x) = v.fat (fatIndex x))
    (hrest : Chain fs v' (v'.fat (fatIndex z)) rest') : Chain fs v' c (pre ++ z :: rest') :=
  Walk.splice h hpre hrest

theorem congr (h : Chain fs v c l) (hfat : ∀ x ∈ l, v'.fat (fatIndex x) = v.fat (fatIndex x)) :
    Chain fs v' c l :=
  Walk.congr h hfat

end Chain

theorem chainLoop_of_chain (h : Chain fs v c l) : ∀ (fuel : Nat) (pre : List Nat), pre.length +
    l.length ≤ fs.totalClusters → l.length < fuel → chainLoop fs v fuel pre c = .ok (pre ++ l) := by
  induction h with
  | @done c hs =>
    intro fuel pre _ hfuel
    obtain ⟨n, rfl⟩ : ∃ n, fuel = n + 1 := ⟨fuel - 1, by simp at hfuel; omega⟩
    unfold chainLoop
    rw [if_neg, append_nil]
    unfold fatEocMin at hs
    unfold fatReservedMin
    omega
  | @step c l hc _ ih =>
    intro fuel pre hlen hfuel
    rw [length_cons] at hlen hfuel
    obtain ⟨n, rfl⟩ : ∃ n, fuel = n + 1 := ⟨fuel - 1, by omega⟩
    unfold chainLoop
    rw [if_pos ⟨hc.1.1, hc.2⟩, if_pos hc.1, if_neg, ih n _ _ (by omega), append_assoc]
    · rfl
    · simp only [length_append, length_singleton]
      omega
    · simp only [length_append, length_singleton]
      omega

theorem chainOf_of_chain (h : Chain fs v c l) : chainOf fs v c = .ok l := by
  have hlen := h.length_le
  exact chainLoop_of_chain h _ [] (by simpa using hlen) (by omega)

/-- The value behind the last cluster of a list that starts at `c`. -/
def endValue (v : Vol) (c : Nat) (l : List Nat) : Nat :=
  match l.getLast? with
  | none => c
  | some x => v.fat (fatIndex x)

theorem endValue_cons (c : Nat) (m : List Nat) :
    endValue v c (c :: m) = endValue v (v.fat (fatIndex c)) m := by
  cases m with
  | nil => rfl
  | cons x m => simp only [endValue, getLast?_cons, Option.getD_some]

theorem chain_of_chainLoop :
    ∀ {fuel : Nat} {pre l : List Nat} {c : Nat}, chainLoop fs v fuel pre c = .ok l →
      ∃ m, l = pre ++ m ∧ (fatEocMin ≤ endValue v c m → Chain fs v c m)
  | 0, _, _, _, h => by
    unfold chainLoop at h
    exact absurd h (by simp)
  | fuel + 1, pre, l, c, h => by
    unfold chainLoop at h
    split_ifs at h with hcell hr hlen
    · obtain ⟨m, rfl, hm⟩ := chain_of_chainLoop h
      refine ⟨c :: m, by simp, fun hend => .step ⟨hr, hcell.2⟩ (hm ?_)⟩
      rwa [endValue_cons] at hend
    · cases h
      exact ⟨[], by simp, fun hend => .done hend⟩

theorem chain_of_chainOf (h : chainOf fs v c = .ok l) (hend : fatEocMin ≤ endValue v c l) :
    Chain fs v c l := by
  obtain ⟨m, hm, hc⟩ := chain_of_chainLoop h
  rw [nil_append] at hm
  subst hm
  exact hc hend

theorem Chain.endValue_ge (h : Chain fs v c l) : fatEocMin ≤ endValue v c l := by
  induction h with
  | done hs => exact hs
  | step _ _ ih => rwa [endValue_cons]

/-! ## `alloc_cluster` and `free_cluster` -/

def HintOk (fs : Fat32FileSystem) (t : FatTable) : Prop :=
  2 ≤ t.nextFreeHint ∧ t.nextFreeHint ≤ fs.totalClusters + 2

theorem hintOk_new (fs : Fat32FileSystem) : HintOk fs FatTable.new :=
  ⟨Nat.le_refl 2, Nat.le_add_left 2 _⟩

/-- The free cluster that a search over `cs` finds. -/
def findFreeCluster (v : Vol) (cs : List Nat) : Option Nat :=
  cs.find? fun c => v.fat (fatIndex c) = fatFree

/-- The cluster that `alloc_cluster` takes: the first free one from the hint on, then from the
start. -/
def pickFree (fs : Fat32FileSystem) (v : Vol) (hint : Nat) : Option Nat :=
  (findFreeCluster v (List.range' hint (fs.totalClusters + 2 - hint))).or
    (findFreeCluster v (List.range' 2 (hint - 2)))

def FatTable.took (t : FatTable) (c : Nat) : FatTable := ⟨c + 1, t.freeCount.map (· - 1)⟩

def Vol.markEoc (v : Vol) (c : Nat) : Vol := v.setFat (fatIndex c) fatEoc

def allocOutcome (v : Vol) (t : FatTable) : Option Nat → FatTable × Vol
  | some c => (t.took c, v.markEoc c)
  | none => (t, v)

theorem allocFrom_runs {t : FatTable} : ∀ (cs : List Nat), (∀ c ∈ cs, fs.InRange c) →
    RunsM (volView fs) (fs.allocFrom cs) t v (.ok (findFreeCluster v cs))
      (allocOutcome v t (findFreeCluster v cs)).1 (allocOutcome v t (findFreeCluster v cs)).2
  | [], _ => .pure _
  | c :: cs, h => by
    have hr := h c mem_cons_self
    have ih := allocFrom_runs (t := t) cs fun c' hc' => h c' (mem_cons_of_mem c hc')
    unfold Fat32FileSystem.allocFrom
    by_cases hfree : v.fat (fatIndex c) = fatFree
    · have hfind : findFreeCluster v (c :: cs) = some c := by
        simp only [findFreeCluster, find?_cons, hfree, decide_true]
      rw [hfind]
      refine .bind_ok (readEntry_runs hr) ?_
      rw [if_pos hfree]
      refine .bind_ok (writeEntry_runs hr) ?_
      exact .bind_ok RunsM.get (.bind_ok RunsM.set (.pure _))
    · have hfind : findFreeCluster v (c :: cs) = findFreeCluster v cs := by
        simp only [findFreeCluster, find?_cons, hfree, decide_false]
      rw [hfind]
      refine .bind_ok (readEntry_runs hr) ?_
      rw [if_neg hfree]
      exact ih

variable {t : FatTable}

theorem allocCluster_runs (ht : HintOk fs t) :
    RunsM (volView fs) fs.allocCluster t v
      ((pickFree fs v t.nextFreeHint).elim (.error .noSpace) .ok)
      (allocOutcome v t (pickFree fs v t.nextFreeHint)).1
      (allocOutcome v t (pickFree fs v t.nextFreeHint)).2 := by
  have hfirst := @allocFrom_runs fs v t
    (List.range' t.nextFreeHint (fs.totalClusters + 2 - t.nextFreeHint)) fun c hc => by
      obtain ⟨h1, h2⟩ := mem_range'_1.mp hc
      exact ⟨Nat.le_trans ht.1 h1, by omega⟩
  have hsecond := @allocFrom_runs fs v t
    (List.range' 2 (t.nextFreeHint - 2)) fun c hc => by
      obtain ⟨h1, h2⟩ := mem_range'_1.mp hc
      have := ht.2
      exact ⟨h1, by omega⟩
  refine RunsM.of_presented fun d hp => ?_
  unfold Fat32FileSystem.allocCluster pickFree
  rw [hp.consistent.end_eq]
  refine RunsM.bind_ok RunsM.get ?_
  generalize findFreeCluster v (List.range' t.nextFreeHint _) = found at hfirst ⊢
  cases found with
  | some c => exact .bind_ok hfirst (.pure _)
  | none =>
    refine .bind_ok hfirst ?_
    rw [Option.none_or]
    generalize findFreeCluster v (List.range' 2 _) = found at hsecond ⊢
    cases found with
    | some c => exact .bind_ok hsecond (.pure _)
    | none => exact .bind_ok hsecond (.throw _)

theorem pickFree_some {hint : Nat} (hh : 2 ≤ hint ∧ hint ≤ fs.totalClusters + 2)
    (h : pickFree fs v hint = some c) : fs.InRange c ∧ v.fat (fatIndex c) = fatFree := by
  unfold pickFree at h
  have hfree : ∀ cs, findFreeCluster v cs = some c → c ∈ cs ∧ v.fat (fatIndex c) = fatFree := by
    intro cs hcs
    exact ⟨mem_of_find?_eq_some hcs, by simpa using find?_some hcs⟩
  rcases Option.or_eq_some_iff.mp h with h | ⟨-, h⟩
  · obtain ⟨hmem, hf⟩ := hfree _ h
    obtain ⟨h1, h2⟩ := mem_range'_1.mp hmem
    exact ⟨⟨by omega, by omega⟩, hf⟩
  · obtain ⟨hmem, hf⟩ := hfree _ h
    obtain ⟨h1, h2⟩ := mem_range'_1.mp hmem
    exact ⟨⟨by omega, by omega⟩, hf⟩

theorem pickFree_none {hint : Nat} (h : pickFree fs v hint = none) (hr : fs.InRange c) :
    v.fat (fatIndex c) ≠ fatFree := by
  unfold pickFree findFreeCluster at h
  rw [Option.or_eq_none_iff, find?_eq_none, find?_eq_none] at h
  have h1 := hr.1
  have h2 := hr.2
  by_cases hc : hint ≤ c
  · simpa using h.1 c (mem_range'_1.mpr ⟨hc, by omega⟩)
  · simpa using h.2 c (mem_range'_1.mpr ⟨h1, by omega⟩)

theorem HintOk.took {t : FatTable} {c : Nat} (hr : fs.InRange c) : HintOk fs (t.took c) := by
  have h1 := hr.1
  have h2 := hr.2
  refine ⟨?_, ?_⟩ <;> simp only [FatTable.took] <;> omega

def FatTable.gave (t : FatTable) (c : Nat) : FatTable :=
  ⟨min c t.nextFreeHint, t.freeCount.map fun n => (n + 1) % 2 ^ 32⟩

theorem HintOk.gave (ht : HintOk fs t) (hr : fs.InRange c) : HintOk fs (t.gave c) := by
  have h1 := hr.1
  have h2 := hr.2
  have h3 := ht.1
  refine ⟨?_, ?_⟩ <;> simp only [FatTable.gave] <;> omega

theorem freeCluster_runs (hr : fs.InRange c) : RunsM (volView fs) (fs.freeCluster c) t v (.ok ())
    (t.gave c) (v.setFat (fatIndex c) fatFree) := by
  unfold Fat32FileSystem.freeCluster
  exact .bind_ok (writeEntry_runs hr) (.bind_ok RunsM.get RunsM.set)

end Kerners.Fat32
