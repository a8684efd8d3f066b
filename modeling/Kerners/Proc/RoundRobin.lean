import Kerners.Lib.Cyclic
import Kerners.Proc.Scheduler

/-!
# A round of `schedule()` on one CPU (`src/proc/scheduler.rs`)

Along a round the thread list is the one in which every eligible thread is ready, `demote cur ts`, but
for the current thread, which runs: `schedule()` first turns the list into exactly that one, so each
call searches the same list from another start. Which threads become current is then the round of
`Lib.Cyclic` over the eligible indices.

The index of the current thread is kept in a `u32`, whose largest value means that there is none: a
list of fewer threads never stores it.
-/

namespace Kerners.Proc

open Lib Function List

variable {κ : Type}

/-- Thread `i` takes part in a round on CPU `c` that starts with `cur` running: it is `cur` or ready,
and not pinned to another CPU. -/
def eligible (ts : List (Thread κ)) (c cur i : Nat) : Bool :=
  (i == cur || stateOf ts i == some .ready) &&
    (affinityOf ts i == some none || affinityOf ts i == some (some c))

/-- The index of the current thread of CPU `c`. -/
abbrev Kernel.currentIdx (k : Kernel κ) (c : Nat) : Nat := (k.get c).currentThreadIdx

/-- The number of threads in a round. -/
def eligibleCount (ts : List (Thread κ)) (c cur : Nat) : Nat :=
  ((List.range ts.length).filter (eligible ts c cur)).length

/-- The kernel after `j` calls of `schedule()` on CPU `c`. -/
def Kernel.schedules (k : Kernel κ) (c j : Nat) : Kernel κ := (fun k => (k.select c).1)^[j] k

/-- The current threads of CPU `c` after each of `j` calls. -/
def Kernel.currents (k : Kernel κ) (c j : Nat) : List Nat :=
  (List.range j).map fun i => (k.schedules c (i + 1)).currentIdx c

/-- A fair round on CPU `c` from `cur`: as many calls as there are eligible threads. -/
structure FairRound (k : Kernel κ) (c cur : Nat) : Prop where
  /-- Every eligible thread becomes current once, and no other thread does. -/
  once : ∀ i, (k.currents c (eligibleCount k.threads c cur)).count i =
    if i < k.threads.length ∧ eligible k.threads c cur i then 1 else 0
  /-- They do in the order of their indices, from the one behind `cur` on and wrapped around. -/
  order : k.currents c (eligibleCount k.threads c cur) =
    ((List.range k.threads.length).rotate (cur + 1)).filter (eligible k.threads c cur)
  running : ∀ j, stateOf (k.schedules c j).threads ((k.schedules c j).currentIdx c) =
    some .running
  current : (k.schedules c (eligibleCount k.threads c cur)).currentIdx c = cur ∧
    stateOf (k.schedules c (eligibleCount k.threads c cur)).threads cur = some .running
  same : k.schedules c (eligibleCount k.threads c cur) = k

/-! ## The search -/

section

variable {ts : List (Thread κ)} {c cur : Nat}

def runnableAt (ts : List (Thread κ)) (c i : Nat) : Bool :=
  match ts[i]? with
  | some t => runnable c t
  | none => false

theorem runnableAt_iff {i : Nat} : runnableAt ts c i = true ↔ Runnable ts c i := by
  rw [runnable_iff, runnableAt]
  cases ts[i]? <;> simp

theorem offsets_eq_cyclic (n x : Nat) :
    ((List.range' 1 n).map fun offset => (x + offset) % n) = cyclic n x := by
  refine ext_getElem (by simp [cyclic]) fun i h _ => ?_
  simp only [cyclic, getElem_map, getElem_range', getElem_rotate, getElem_range, length_range]
  congr 1
  omega

theorem nextIdx_eq_turn {x : Nat} (hx : Runnable ts c x) :
    nextIdx ts c x = some (turn (runnableAt ts c) ts.length x) := by
  have hfind : nextIdx ts c x = (cyclic ts.length x).find? (runnableAt ts c) := by
    rw [← offsets_eq_cyclic]
    rfl
  obtain ⟨y, hy⟩ : ∃ y, (cyclic ts.length x).find? (runnableAt ts c) = some y := by
    refine Option.isSome_iff_exists.mp (find?_isSome.mpr ⟨x, ?_, runnableAt_iff.mpr hx⟩)
    exact mem_rotate.mpr (mem_range.mpr (lt_of_stateOf hx.1))
  rw [hfind, turn, hy]
  rfl

theorem demote_setState {i : Nat} (h : stateOf ts i = some .ready) :
    demote i (setState i .running ts) = ts := by
  refine ext_getElem? fun j => ?_
  unfold setState demote
  rw [getElem?_modify, getElem?_modify]
  by_cases hij : i = j
  · subst hij
    obtain ⟨t, ht, hst⟩ := Option.map_eq_some_iff.1 h
    obtain ⟨tid, name, state, context, aff⟩ := t
    simp only at hst
    subst hst
    simp [ht]
  · simp [hij]

theorem runnableAt_demote (h : stateOf ts cur = some .running) (i : Nat) :
    runnableAt (demote cur ts) c i = eligible ts c cur i := by
  rw [Bool.eq_iff_iff, runnableAt_iff]
  unfold Runnable eligible
  rw [stateOf_demote, affinityOf_demote]
  by_cases hi : cur = i
  · subst hi
    simp [h]
  · simp [hi, Ne.symm hi]

end

/-! ## The kernel along a round -/

namespace Kernel

variable {k : Kernel κ} {c : Nat}

/-- The kernel with the thread list `ds` in which thread `x` runs on CPU `c`. -/
def withCurrent (k : Kernel κ) (ds : List (Thread κ)) (c x : Nat) : Kernel κ :=
  { k with threads := setState x .running ds }.put c { k.get c with currentThreadIdx := x }

theorem get_withCurrent (ds : List (Thread κ)) (x : Nat) :
    (k.withCurrent ds c x).get c = { k.get c with currentThreadIdx := x } :=
  update_self ..

theorem withCurrent_demote (h : stateOf k.threads (k.currentIdx c) = some .running) :
    k.withCurrent (demote (k.currentIdx c) k.threads) c (k.currentIdx c) = k := by
  unfold withCurrent put
  rw [setState_demote h]
  have hsame : update k.perCpu (slot c) (k.get c) = k.perCpu :=
    update_eq_self _ _
  exact congrArg (fun p => { k with perCpu := p }) hsame

theorem select_withCurrent {ds : List (Thread κ)} {x : Nat}
    (hx : Runnable ds c x)
    (hthread : x ≠ noThread)
    (hfits : turn (runnableAt ds c) ds.length x < 2 ^ 32) :
    ((k.withCurrent ds c x).select c).1 =
      k.withCurrent ds c (turn (runnableAt ds c) ds.length x) := by
  have hlt : ¬ (k.withCurrent ds c x).threads.length ≤ x := by
    have := lt_of_stateOf hx.1
    simpa [withCurrent, put] using this
  have hds : demote x (k.withCurrent ds c x).threads = ds := demote_setState hx.1
  simp only [select, get_withCurrent, if_neg hthread, ge_iff_le, if_neg hlt, hds,
    nextIdx_eq_turn hx]
  unfold switchTo
  split
  · rename_i hsame
    rw [hsame]
    rfl
  · have hget : Kernel.get { k.withCurrent ds c x with
        threads := setState (turn (runnableAt ds c) ds.length x) .running ds } c =
        { k.get c with currentThreadIdx := x } := get_withCurrent ds x
    simp only [hget, asU32, Nat.mod_eq_of_lt hfits]
    unfold withCurrent put
    simp only [update_idem]

end Kernel

open Kernel

section

variable {k : Kernel κ} {c : Nat}

theorem schedules_succ (j : Nat) : k.schedules c (j + 1) = ((k.schedules c j).select c).1 :=
  Function.iterate_succ_apply' _ _ _

/-- The thread that is current after `j` calls. -/
def stop (k : Kernel κ) (c j : Nat) : Nat :=
  (turn (eligible k.threads c (k.currentIdx c)) k.threads.length)^[j] (k.currentIdx c)

/-- **The calls of a round**, by induction on their number: the list that is searched stays the same,
only the running thread moves on. -/
theorem schedules_eq (hrun : stateOf k.threads (k.currentIdx c) = some .running)
    (haff : eligible k.threads c (k.currentIdx c) (k.currentIdx c) = true)
    (hfew : ∀ i < k.threads.length, eligible k.threads c (k.currentIdx c) i = true → i < noThread)
    (j : Nat) :
    k.schedules c j = k.withCurrent (demote (k.currentIdx c) k.threads) c (stop k c j) := by
  have hsearch : runnableAt (demote (k.currentIdx c) k.threads) c =
      eligible k.threads c (k.currentIdx c) := funext fun i => runnableAt_demote hrun i
  have hstop : ∀ j, stop k c j < k.threads.length ∧
      eligible k.threads c (k.currentIdx c) (stop k c j) = true := fun j =>
    turns_candidate (lt_of_stateOf hrun) haff j
  induction j with
  | zero => exact (withCurrent_demote hrun).symm
  | succ j ih =>
    have hnext : turn (runnableAt (demote (k.currentIdx c) k.threads) c)
        (demote (k.currentIdx c) k.threads).length (stop k c j) = stop k c (j + 1) := by
      rw [hsearch, length_demote]
      exact (Function.iterate_succ_apply' _ _ _).symm
    have hready : Runnable (demote (k.currentIdx c) k.threads) c (stop k c j) := by
      rw [← runnableAt_iff, hsearch]
      exact (hstop j).2
    have hthread := hfew _ (hstop j).1 (hstop j).2
    have hfits := hfew _ (hstop (j + 1)).1 (hstop (j + 1)).2
    have hcall := select_withCurrent (k := k) hready (by omega)
      (by rw [hnext]; unfold noThread at hfits; omega)
    rw [hnext] at hcall
    rw [schedules_succ, ih, hcall]

theorem count_of_order {cur : Nat} {l : List Nat}
    (h : l = candidates (eligible k.threads c cur) k.threads.length cur) (i : Nat) :
    l.count i = if i < k.threads.length ∧ eligible k.threads c cur i then 1 else 0 := by
  rw [h, nodup_candidates.count]
  exact if_congr mem_candidates rfl rfl

theorem currentIdx_withCurrent (ds : List (Thread κ)) (x : Nat) :
    (k.withCurrent ds c x).currentIdx c = x := by
  rw [currentIdx, get_withCurrent]

theorem fairRound_of_few (hrun : stateOf k.threads (k.currentIdx c) = some .running)
    (haff : eligible k.threads c (k.currentIdx c) (k.currentIdx c) = true)
    (hfew : ∀ i < k.threads.length, eligible k.threads c (k.currentIdx c) i = true → i < noThread) :
    FairRound k c (k.currentIdx c) := by
  have hlt := lt_of_stateOf hrun
  have hstate := schedules_eq hrun haff hfew
  have hlen : eligibleCount k.threads c (k.currentIdx c) =
      (candidates (eligible k.threads c (k.currentIdx c)) k.threads.length (k.currentIdx c)).length :=
    length_candidates.symm
  have horder : k.currents c (eligibleCount k.threads c (k.currentIdx c)) =
      candidates (eligible k.threads c (k.currentIdx c)) k.threads.length (k.currentIdx c) := by
    refine ext_getElem (by rw [currents, length_map, length_range, hlen])
      fun j _ hj => ?_
    rw [← turns_eq hlt haff hj]
    simp only [currents, getElem_map, getElem_range, hstate, currentIdx_withCurrent]
    rfl
  have hround : stop k c (eligibleCount k.threads c (k.currentIdx c)) = k.currentIdx c := by
    rw [hlen]
    exact turns_round hlt haff
  have hsame : k.schedules c (eligibleCount k.threads c (k.currentIdx c)) = k := by
    rw [hstate, hround, withCurrent_demote hrun]
  refine ⟨count_of_order horder, horder, fun j => ?_, by rw [hsame]; exact ⟨rfl, hrun⟩, hsame⟩
  have hin : stop k c j < k.threads.length := (turns_candidate hlt haff j).1
  have hdemoted : stop k c j < (demote (k.currentIdx c) k.threads).length := by
    rw [length_demote]
    exact hin
  obtain ⟨st, hst⟩ := exists_stateOf hdemoted
  rw [hstate, currentIdx_withCurrent]
  unfold withCurrent put
  rw [stateOf_setState, if_pos rfl, hst]
  rfl

end

/-! ## A round of `schedule()` -/

/-- **Round robin on one CPU**: a round of `schedule()` makes each eligible thread current once, in
cyclic order, and ends in the state before it. The threads are fewer than `u32::MAX`, the value of
`current_thread_idx` that stands for no thread. -/
theorem schedule_round (k : Kernel κ) (c cur : Nat)
    (hlen : k.threads.length < 2 ^ 32 - 1)
    (hcur : k.currentIdx c = cur)
    (hrun : stateOf k.threads cur = some .running)
    (haff : affinityOf k.threads cur = some none ∨ affinityOf k.threads cur = some (some c)) :
    FairRound k c cur := by
  subst hcur
  refine fairRound_of_few hrun (by simpa [eligible] using haff) fun i hi _ => ?_
  unfold noThread
  omega

/-- CPU 0 runs thread 2; threads 0 and 4 are ready for it, thread 1 is pinned to CPU 1. -/
def fiveThreads : Kernel Unit :=
  ⟨[⟨1, "a", .ready, (), none⟩, ⟨2, "b", .ready, (), some 1⟩, ⟨0, "idle/0", .running, (), some 0⟩,
    ⟨3, "c", .terminated, (), none⟩, ⟨4, "d", .ready, (), some 0⟩],
    fun _ => ⟨0, 2, 2, true⟩, 5, 1⟩

theorem schedule_round_five :
    fiveThreads.currents 0 3 = [4, 0, 2] ∧ FairRound fiveThreads 0 2 :=
  ⟨by decide, schedule_round fiveThreads 0 2 (by decide) rfl rfl (Or.inr rfl)⟩

end Kerners.Proc
