import Mathlib.Algebra.BigOperators.Group.Finset.Piecewise
import Mathlib.Data.Fintype.Pi
import Kerners.Lib.Threads
import Kerners.Sync.Semaphore

/-!
# The resource pool (`sync/semaphore.rs`)

Model of `ResourcePool<T, N>` and `PoolGuard`. A turn is one access to the semaphore, to a flag of
`available` or to a slot of `resources`:
* `add` loads the flags one after the other; at the first that is clear it writes the resource, sets
  the flag and releases a permit, and if all are set it gives the resource back;
* `acquire` takes a permit and exchanges the flags from set to clear one after the other, over and
  over, until one succeeds; `try_acquire` goes over them once and then releases its permit;
* dropping a `PoolGuard` sets the flag and releases a permit.

A clear flag means that the slot is empty **or** that its resource is out. A thread of the model is
one call with the guard it returns.
-/

namespace Kerners.Sync

open Lib Semaphore Function

structure ResourcePool (T : Type*) (N : Nat) where
  semaphore : Int
  resources : Fin N → Option T
  available : Fin N → Bool

inductive PoolPc (T : Type*) (N : Nat) where
  | start
  | addTest (resource : T) (i : Fin N)
  | addWrite (resource : T) (i : Fin N)
  | addSet (i : Fin N)
  | addRelease
  | added
  | refused (resource : T)
  | permit (blocking : Bool) (acq : AcqPc)
  | scan (blocking : Bool) (i : Fin N)
  | spin
  | giveBack
  | guard (i : Fin N)
  | dropRelease
  | gone
  deriving DecidableEq

/-- The entry points, the drop of a guard, the next access, and an exchange that fails without
cause. -/
inductive PoolAct (T : Type*) where
  | add (resource : T)
  | acquire
  | tryAcquire
  | drop
  | step
  | weakFail
  deriving DecidableEq

variable {T : Type*} {N : Nat} {ι : Type*}

/-- A loop over the slots, with slot `k` next. -/
def PoolPc.loop (k : Nat) (body : Fin N → PoolPc T N) (done : PoolPc T N) : PoolPc T N :=
  if h : k < N then body ⟨k, h⟩ else done

/-- After a round over the slots `acquire` spins and `try_acquire` gives its permit back. -/
def PoolPc.roundDone (blocking : Bool) : PoolPc T N := if blocking then .spin else .giveBack

def ResourcePool.turn (s : ResourcePool T N) :
    PoolPc T N → PoolAct T → Option (ResourcePool T N × PoolPc T N)
  | .start, .add resource => some (s, .loop 0 (.addTest resource) (.refused resource))
  | .addTest resource i, .step =>
    if s.available i then some (s, .loop (i + 1) (.addTest resource) (.refused resource))
    else some (s, .addWrite resource i)
  | .addWrite resource i, .step =>
    some ({ s with resources := update s.resources i (some resource) }, .addSet i)
  | .addSet i, .step =>
    some ({ s with available := update s.available i true }, .addRelease)
  | .addRelease, .step => some ({ s with semaphore := release s.semaphore }, .added)
  | .start, .acquire => some (s, .permit true .load)
  | .start, .tryAcquire => some (s, .permit false .load)
  | .permit blocking acq, .step =>
    match acquireTurn blocking s.semaphore acq with
    | .next acq => some (s, .permit blocking acq)
    | .got count =>
      some ({ s with semaphore := count }, .loop 0 (.scan blocking) (.roundDone blocking))
    | .failed => some (s, .gone)
  | .permit true (.exchange _), .weakFail => some (s, .permit true .load)
  | .scan blocking i, .step =>
    if s.available i then
      some ({ s with available := update s.available i false }, .guard i)
    else some (s, .loop (i + 1) (.scan blocking) (.roundDone blocking))
  | .spin, .step => some (s, .loop 0 (.scan true) .spin)
  | .giveBack, .step => some ({ s with semaphore := release s.semaphore }, .gone)
  | .guard i, .drop =>
    some ({ s with available := update s.available i true }, .dropRelease)
  | .dropRelease, .step => some ({ s with semaphore := release s.semaphore }, .gone)
  | _, _ => none

abbrev PoolConf (ι T : Type*) (N : Nat) := Conf ι (ResourcePool T N) (PoolPc T N)

/-- `ResourcePool::empty`, with no call on it. -/
def ResourcePool.empty : PoolConf ι T N := ⟨⟨0, fun _ => none, fun _ => false⟩, fun _ => .start⟩

/-! ## What a turn does -/

namespace PoolPc

/-- Has found slot `i` clear and not written to it yet. -/
def writing (i : Fin N) : PoolPc T N → Nat
  | .addWrite _ j => if j = i then 1 else 0
  | _ => 0

/-- Is to set the flag of slot `i`. -/
def holding (i : Fin N) : PoolPc T N → Nat
  | .addSet j | .guard j => if j = i then 1 else 0
  | _ => 0

/-- Has a permit that is not in the semaphore: it was taken for a flag that is still set, or is to be
released for one that was set. -/
def permits : PoolPc T N → Nat
  | .scan .. | .spin | .giveBack | .addRelease | .dropRelease => 1
  | _ => 0

def accepted : PoolPc T N → Nat
  | .addSet _ | .addRelease | .added => 1
  | _ => 0

structure Idle (p : PoolPc T N) : Prop where
  writing : ∀ i, p.writing i = 0
  holding : ∀ i, p.holding i = 0
  accepted : p.accepted = 0

theorem loop_cases {P : PoolPc T N → Prop} {k : Nat} {body : Fin N → PoolPc T N}
    {done : PoolPc T N} (hbody : ∀ i, P (body i)) (hdone : P done) : P (loop k body done) := by
  unfold loop
  split
  · exact hbody _
  · exact hdone

end PoolPc

inductive PoolEffect (s : ResourcePool T N) (p : PoolPc T N) : ResourcePool T N → PoolPc T N → Prop
  | moves {p' : PoolPc T N} (hp : p.Idle) (hp' : p'.Idle) (hperm : p'.permits = p.permits) :
    PoolEffect s p s p'
  | finds {resource : T} {i : Fin N} (hp : p = .addTest resource i)
    (hclear : s.available i = false) : PoolEffect s p s (.addWrite resource i)
  | writes {resource : T} {i : Fin N} (hp : p = .addWrite resource i) :
    PoolEffect s p { s with resources := update s.resources i (some resource) } (.addSet i)
  | sets {p' : PoolPc T N} {i : Fin N} (hp : p = .addSet i ∧ p' = .addRelease ∨
      p = .guard i ∧ p' = .dropRelease) :
    PoolEffect s p { s with available := update s.available i true } p'
  | releases {p' : PoolPc T N} (hp : p = .addRelease ∧ p' = .added ∨
      (p = .giveBack ∨ p = .dropRelease) ∧ p' = .gone) :
    PoolEffect s p { s with semaphore := release s.semaphore } p'
  | takes {p' : PoolPc T N} (hpos : 0 < s.semaphore) (hp : p.Idle) (hp' : p'.Idle)
    (hperm : p.permits = 0 ∧ p'.permits = 1) :
    PoolEffect s p { s with semaphore := s.semaphore - 1 } p'
  | clears {blocking : Bool} {i : Fin N} (hp : p = .scan blocking i) (hset : s.available i = true) :
    PoolEffect s p { s with available := update s.available i false } (.guard i)

namespace PoolPc

variable {i : Fin N} {resource : T} {blocking : Bool} {acq : AcqPc}

theorem idle_start : (start : PoolPc T N).Idle := ⟨fun _ => rfl, fun _ => rfl, rfl⟩

theorem idle_addTest : (addTest resource i).Idle := ⟨fun _ => rfl, fun _ => rfl, rfl⟩

theorem idle_refused : (refused resource : PoolPc T N).Idle := ⟨fun _ => rfl, fun _ => rfl, rfl⟩

theorem idle_permit : (permit blocking acq : PoolPc T N).Idle :=
  ⟨fun _ => rfl, fun _ => rfl, rfl⟩

theorem idle_scan : (scan blocking i : PoolPc T N).Idle := ⟨fun _ => rfl, fun _ => rfl, rfl⟩

theorem idle_spin : (spin : PoolPc T N).Idle := ⟨fun _ => rfl, fun _ => rfl, rfl⟩

theorem idle_gone : (gone : PoolPc T N).Idle := ⟨fun _ => rfl, fun _ => rfl, rfl⟩

theorem idle_addLoop (k : Nat) : (loop k (addTest resource) (refused resource) : PoolPc T N).Idle ∧
    (loop k (addTest resource) (refused resource) : PoolPc T N).permits = 0 :=
  loop_cases (P := fun p => p.Idle ∧ p.permits = 0) (fun _ => ⟨idle_addTest, rfl⟩)
    ⟨idle_refused, rfl⟩

theorem idle_scanLoop (k : Nat) (blocking : Bool) : (loop k (scan blocking) (roundDone blocking) :
    PoolPc T N).Idle ∧ (loop k (scan blocking) (roundDone blocking) : PoolPc T N).permits = 1 := by
  refine loop_cases (P := fun p => p.Idle ∧ p.permits = 1) (fun _ => ⟨idle_scan, rfl⟩) ?_
  cases blocking <;> exact ⟨⟨fun _ => rfl, fun _ => rfl, rfl⟩, rfl⟩

end PoolPc

theorem ResourcePool.turn_effect {s s' : ResourcePool T N} {p p' : PoolPc T N} {a : PoolAct T}
    (h : ResourcePool.turn s p a = some (s', p')) : PoolEffect s p s' p' := by
  revert h
  fun_cases ResourcePool.turn s p a <;> intro h <;>
    simp only [Option.some.injEq, Prod.mk.injEq, reduceCtorEq] at h <;> obtain ⟨rfl, rfl⟩ := h
  -- `add`
  · exact .moves PoolPc.idle_start (PoolPc.idle_addLoop _).1 (PoolPc.idle_addLoop _).2
  · exact .moves PoolPc.idle_addTest (PoolPc.idle_addLoop _).1 (PoolPc.idle_addLoop _).2
  · next hclear => exact .finds rfl (by simpa using hclear)
  · exact .writes rfl
  · exact .sets (.inl ⟨rfl, rfl⟩)
  · exact .releases (.inl ⟨rfl, rfl⟩)
  -- the permit of `acquire` and `try_acquire`
  · exact .moves PoolPc.idle_start PoolPc.idle_permit rfl
  · exact .moves PoolPc.idle_start PoolPc.idle_permit rfl
  · exact .moves PoolPc.idle_permit PoolPc.idle_permit rfl
  · next hgot =>
    obtain ⟨seen, rfl, hseen, rfl⟩ := acquireTurn_got hgot
    exact .takes (hseen ▸ seen.2) PoolPc.idle_permit (PoolPc.idle_scanLoop _ _).1
      ⟨rfl, (PoolPc.idle_scanLoop _ _).2⟩
  · exact .moves PoolPc.idle_permit PoolPc.idle_gone rfl
  · exact .moves PoolPc.idle_permit PoolPc.idle_permit rfl
  -- the slots, and the guard
  · exact .clears rfl ‹_›
  · exact .moves PoolPc.idle_scan (PoolPc.idle_scanLoop _ _).1 (PoolPc.idle_scanLoop _ _).2
  · exact .moves PoolPc.idle_spin (PoolPc.idle_scanLoop _ true).1 (PoolPc.idle_scanLoop _ true).2
  · exact .releases (.inr ⟨.inl rfl, rfl⟩)
  · exact .sets (.inr ⟨rfl, rfl⟩)
  · exact .releases (.inr ⟨.inr rfl, rfl⟩)

/-! ## One holder at a time -/

variable [DecidableEq ι] [Fintype ι] {c c' : PoolConf ι T N}

def ResourcePool.next : PoolConf ι T N → ι × PoolAct T → Option (PoolConf ι T N) :=
  Conf.next ResourcePool.turn

def flagged (b : Bool) : Nat := if b then 1 else 0

def present (r : Option T) : Nat := if r.isSome then 1 else 0

/-- When `add` finds a flag clear, the slot has never been filled, and no other `add` has found it so
and not written yet. -/
def AddsToEmpty (c : PoolConf ι T N) (ia : ι × PoolAct T) : Prop :=
  ∀ resource i, c.thread ia.1 = .addTest resource i → c.shared.available i = false →
    c.shared.resources i = none ∧ ∀ j, (c.thread j).writing i = 0

/-- What holds of a slot with `held` holders and `written` calls that are to write to it: when it is
empty it is at most about to be filled, and else its resource is either there, with the flag set, or
with one holder. -/
structure SlotInv (resource : Option T) (available : Bool) (held written : Nat) : Prop where
  empty : resource = none → available = false ∧ held = 0 ∧ written ≤ 1
  full : resource ≠ none → written = 0 ∧ held + flagged available = 1

namespace SlotInv

variable {r : Option T} {b : Bool} {held written : Nat}

theorem finds (h : SlotInv (none : Option T) b held 0) : SlotInv (none : Option T) b held 1 :=
  ⟨fun _ => ⟨(h.empty rfl).1, (h.empty rfl).2.1, Nat.le_refl 1⟩, fun hr => absurd rfl hr⟩

theorem resource_eq_none (h : SlotInv r b held (written + 1)) : r = none := by
  by_contra hr
  have := (h.full hr).1
  omega

theorem writes (h : SlotInv r b held (written + 1)) (resource : T) :
    SlotInv (some resource) b (held + 1) written := by
  obtain ⟨hb, hheld, hwritten⟩ := h.empty h.resource_eq_none
  refine ⟨nofun, fun _ => ⟨by omega, ?_⟩⟩
  rw [hb, flagged, if_neg (by simp)]
  omega

theorem resource_ne_none (h : SlotInv r b (held + 1) written) : r ≠ none := fun hr => by
  have := (h.empty hr).2.1
  omega

theorem available_eq_false (h : SlotInv r b (held + 1) written) : b = false := by
  have hfull := (h.full h.resource_ne_none).2
  cases b with
  | false => rfl
  | true =>
    rw [flagged, if_pos rfl] at hfull
    omega

theorem sets (h : SlotInv r b (held + 1) written) : SlotInv r true held written := by
  have hb := h.available_eq_false
  obtain ⟨hwritten, hheld⟩ := h.full h.resource_ne_none
  refine ⟨fun hr => absurd hr h.resource_ne_none, fun _ => ⟨hwritten, ?_⟩⟩
  rw [hb, flagged, if_neg (by simp)] at hheld
  rw [flagged, if_pos rfl]
  omega

theorem clears (h : SlotInv r true held written) : SlotInv r false (held + 1) written := by
  have hr : r ≠ none := fun hr => by cases (h.empty hr).1
  obtain ⟨hwritten, hheld⟩ := h.full hr
  refine ⟨fun hr' => absurd hr' hr, fun _ => ⟨hwritten, ?_⟩⟩
  rw [flagged, if_pos rfl] at hheld
  rw [flagged, if_neg (by simp)]
  omega

end SlotInv

structure PoolInv (c : PoolConf ι T N) : Prop where
  slot : ∀ k, SlotInv (c.shared.resources k) (c.shared.available k)
    (tally (PoolPc.holding k) c.thread) (tally (PoolPc.writing k) c.thread)
  nonneg : 0 ≤ c.shared.semaphore
  permits : c.shared.semaphore + tally PoolPc.permits c.thread = tally flagged c.shared.available
  accepted : tally PoolPc.accepted c.thread = tally present c.shared.resources

omit [DecidableEq ι] in
theorem PoolInv.start : PoolInv (ResourcePool.empty : PoolConf ι T N) where
  slot := fun k => by
    have h1 : tally (PoolPc.holding k) (ResourcePool.empty : PoolConf ι T N).thread = 0 :=
      tally_eq_zero.mpr fun _ => rfl
    have h2 : tally (PoolPc.writing k) (ResourcePool.empty : PoolConf ι T N).thread = 0 :=
      tally_eq_zero.mpr fun _ => rfl
    rw [h1, h2]
    exact ⟨fun _ => ⟨rfl, rfl, Nat.zero_le 1⟩, fun h => absurd rfl h⟩
  nonneg := Int.le_refl 0
  permits := by
    have h1 : tally PoolPc.permits (ResourcePool.empty : PoolConf ι T N).thread = 0 :=
      tally_eq_zero.mpr fun _ => rfl
    have h2 : tally flagged (ResourcePool.empty : PoolConf ι T N).shared.available = 0 :=
      tally_eq_zero.mpr fun _ => rfl
    rw [h1, h2]
    rfl
  accepted := (tally_eq_zero.mpr fun _ => rfl).trans (tally_eq_zero.mpr fun _ => rfl).symm

theorem flagged_le (b : Bool) : flagged b ≤ 1 := by
  cases b <;> decide

theorem present_le (r : Option T) : present r ≤ 1 := by
  cases r <;> simp [present]

theorem PoolInv.next (hN : N < 2 ^ 63) {ia : ι × PoolAct T} (h : PoolInv c)
    (hok : AddsToEmpty c ia) (hn : ResourcePool.next c ia = some c') : PoolInv c' := by
  obtain ⟨i, a⟩ := ia
  obtain ⟨s', p', ht, rfl⟩ := Conf.exists_turn hn
  have hpermits := h.permits
  have hnonneg := h.nonneg
  have haccepted := h.accepted
  cases ResourcePool.turn_effect ht with
  | moves hp hp' hsame =>
    refine ⟨fun k => ?_, hnonneg, ?_, ?_⟩
    · rw [tally_moves rfl _ ((hp'.holding k).trans (hp.holding k).symm),
        tally_moves rfl _ ((hp'.writing k).trans (hp.writing k).symm)]
      exact h.slot k
    · rw [tally_moves rfl _ hsame]
      exact hpermits
    · rw [tally_moves rfl _ (hp'.accepted.trans hp.accepted.symm)]
      exact haccepted
  | @finds resource j hp hclear =>
    obtain ⟨hnone, hfree⟩ := hok resource j hp hclear
    refine ⟨fun k => ?_, hnonneg, ?_, ?_⟩
    · rw [tally_moves hp (.addWrite resource j) (w := PoolPc.holding k) rfl]
      by_cases hk : j = k
      · subst hk
        have hslot := h.slot j
        have hzero : tally (PoolPc.writing j) c.thread = 0 := tally_eq_zero.mpr hfree
        have hone : PoolPc.writing j (.addWrite resource j) = 1 := if_pos rfl
        rw [hnone, hzero] at hslot
        rw [tally_gains hp _ hone, hnone, hzero]
        exact hslot.finds
      · have hother : PoolPc.writing k (.addWrite resource j) = 0 := if_neg hk
        rw [tally_moves hp _ hother]
        exact h.slot k
    · rw [tally_moves hp (.addWrite resource j) (w := PoolPc.permits) rfl]
      exact hpermits
    · rw [tally_moves hp (.addWrite resource j) (w := PoolPc.accepted) rfl]
      exact haccepted
  | @writes resource j hp =>
    have hone : PoolPc.writing j (.addWrite resource j) = 1 := if_pos rfl
    have hset : PoolPc.holding j (.addSet j : PoolPc T N) = 1 := if_pos rfl
    have hlose := tally_loses hp (.addSet j) hone
    have hslot := h.slot j
    rw [hlose] at hslot
    refine ⟨fun k => ?_, hnonneg, ?_, ?_⟩
    · by_cases hk : j = k
      · subst hk
        rw [tally_gains hp _ hset]
        simp only [update_self]
        exact hslot.writes resource
      · have hother : PoolPc.writing k (.addWrite resource j) = 0 := if_neg hk
        have hother' : PoolPc.holding k (.addSet j : PoolPc T N) = 0 := if_neg hk
        rw [tally_moves hp _ hother', tally_moves hp _ hother.symm]
        simp only [update_of_ne (Ne.symm hk)]
        exact h.slot k
    · rw [tally_moves hp (.addSet j) (w := PoolPc.permits) rfl]
      exact hpermits
    · rw [tally_gains hp (.addSet j) (w := PoolPc.accepted) rfl, haccepted,
        tally_gains hslot.resource_eq_none (some resource) (w := present) rfl]
  | @sets p' j hp =>
    have hold : PoolPc.holding j (c.thread i) = 1 := by
      rcases hp with ⟨hp, -⟩ | ⟨hp, -⟩ <;> rw [hp] <;> exact if_pos rfl
    have hnew : ∀ k, p'.holding k = 0 ∧ p'.writing k = 0 ∧ (c.thread i).writing k = 0 := by
      rcases hp with ⟨hp, rfl⟩ | ⟨hp, rfl⟩ <;> rw [hp] <;> exact fun _ => ⟨rfl, rfl, rfl⟩
    have hpart : p'.permits = (c.thread i).permits + 1 ∧
        p'.accepted = (c.thread i).accepted := by
      rcases hp with ⟨hp, rfl⟩ | ⟨hp, rfl⟩ <;> rw [hp] <;> exact ⟨rfl, rfl⟩
    have hlose := tally_loses (t := c.thread) rfl p' (hold.trans (by rw [(hnew j).1]))
    have hslot := h.slot j
    rw [hlose] at hslot
    refine ⟨fun k => ?_, hnonneg, ?_, ?_⟩
    · rw [tally_moves rfl _ ((hnew k).2.1.trans (hnew k).2.2.symm)]
      by_cases hk : j = k
      · subst hk
        simp only [update_self]
        exact hslot.sets
      · have hother : PoolPc.holding k (c.thread i) = 0 := by
          rcases hp with ⟨hp, -⟩ | ⟨hp, -⟩ <;> rw [hp] <;> exact if_neg hk
        rw [tally_moves rfl _ ((hnew k).1.trans hother.symm)]
        simp only [update_of_ne (Ne.symm hk)]
        exact h.slot k
    · rw [tally_gains rfl _ hpart.1, tally_gains hslot.available_eq_false true (w := flagged) rfl]
      simp only
      omega
    · rw [tally_moves rfl _ hpart.2]
      exact haccepted
  | releases hp =>
    have hidle : ∀ k, p'.holding k = (c.thread i).holding k ∧
        p'.writing k = (c.thread i).writing k := by
      rcases hp with ⟨hp, rfl⟩ | ⟨hp | hp, rfl⟩ <;> rw [hp] <;> exact fun _ => ⟨rfl, rfl⟩
    have hpart : (c.thread i).permits = p'.permits + 1 ∧
        p'.accepted = (c.thread i).accepted := by
      rcases hp with ⟨hp, rfl⟩ | ⟨hp | hp, rfl⟩ <;> rw [hp] <;> exact ⟨rfl, rfl⟩
    have hlose := tally_loses (t := c.thread) rfl p' hpart.1
    -- a permit is out, so the count is below the number of slots
    have hcard := tally_le_card flagged_le c.shared.available
    rw [Fintype.card_fin] at hcard
    have hrel : release c.shared.semaphore = c.shared.semaphore + 1 :=
      release_of_lt (by omega) (by omega)
    refine ⟨fun k => ?_, ?_, ?_, ?_⟩
    · rw [tally_moves rfl _ (hidle k).1, tally_moves rfl _ (hidle k).2]
      exact h.slot k
    · simp only [hrel]
      omega
    · simp only [hrel]
      omega
    · rw [tally_moves rfl _ hpart.2]
      exact haccepted
  | takes hpos hp hp' htake =>
    refine ⟨fun k => ?_, ?_, ?_, ?_⟩
    · rw [tally_moves rfl _ ((hp'.holding k).trans (hp.holding k).symm),
        tally_moves rfl _ ((hp'.writing k).trans (hp.writing k).symm)]
      exact h.slot k
    · simp only
      omega
    · rw [tally_gains rfl _ (htake.2.trans (by rw [htake.1]))]
      simp only
      omega
    · rw [tally_moves rfl _ (hp'.accepted.trans hp.accepted.symm)]
      exact haccepted
  | @clears blocking j hp hset =>
    have hone : PoolPc.holding j (.guard j : PoolPc T N) = 1 := if_pos rfl
    have hslot := h.slot j
    rw [hset] at hslot
    have hperm := tally_loses hp (.guard j) (w := PoolPc.permits) rfl
    have hflag := tally_loses hset false (w := flagged) rfl
    refine ⟨fun k => ?_, hnonneg, ?_, ?_⟩
    · rw [tally_moves hp (.guard j) (w := PoolPc.writing k) rfl]
      by_cases hk : j = k
      · subst hk
        rw [tally_gains hp _ hone]
        simp only [update_self]
        exact hslot.clears
      · have hother : PoolPc.holding k (.guard j : PoolPc T N) = 0 := if_neg hk
        rw [tally_moves hp _ hother]
        simp only [update_of_ne (Ne.symm hk)]
        exact h.slot k
    · simp only
      omega
    · rw [tally_moves hp (.guard j) (w := PoolPc.accepted) rfl]
      exact haccepted

theorem PoolInv.reach (hN : N < 2 ^ 63)
    (hr : Reach (Fires ResourcePool.next AddsToEmpty) ResourcePool.empty c) : PoolInv c :=
  Reach.invariant PoolInv.start (fun h ⟨_, hok, hn⟩ => h.next hN hok hn) hr

omit [DecidableEq ι] in
theorem PoolConf.held {j : ι} {k : Fin N} (hj : c.thread j = .guard k) :
    ∃ n, tally (PoolPc.holding k) c.thread = n + 1 := by
  have hle := le_tally (PoolPc.holding k) c.thread j
  rw [hj, PoolPc.holding, if_pos rfl] at hle
  exact Nat.exists_eq_add_of_le' hle

theorem PoolInv.resource_kept (h : PoolInv c) {j : ι} {k : Fin N} (hj : c.thread j = .guard k)
    {ia : ι × PoolAct T} (hn : ResourcePool.next c ia = some c') :
    c'.shared.resources k = c.shared.resources k := by
  obtain ⟨i, a⟩ := ia
  obtain ⟨s', p', ht, rfl⟩ := Conf.exists_turn hn
  cases ResourcePool.turn_effect ht with
  | @writes resource m hp =>
    -- the writer is the only one, of an empty slot, and the guard's slot is full
    have hne : m ≠ k := by
      rintro rfl
      obtain ⟨n, hn⟩ := PoolConf.held hj
      have hslot := h.slot m
      rw [hn] at hslot
      have hle := le_tally (PoolPc.writing m) c.thread i
      rw [hp, PoolPc.writing, if_pos rfl, (hslot.full hslot.resource_ne_none).1] at hle
      omega
    simp only [update_of_ne (Ne.symm hne)]
  | moves | finds | sets | releases | takes | clears => rfl

/-- No call is in progress: every one has not begun, has returned or is a live guard. -/
def PoolPc.Resting : PoolPc T N → Prop
  | .start | .added | .refused _ | .guard _ | .gone => True
  | _ => False

theorem PoolPc.Resting.permits {p : PoolPc T N} (h : p.Resting) : p.permits = 0 := by
  cases p <;> first | rfl | exact h.elim

/-- The calls of `add` that returned `Ok`. -/
def PoolConf.accepted [DecidableEq T] (c : PoolConf ι T N) : Finset ι :=
  Finset.univ.filter fun i => c.thread i = .added

def PoolConf.availableSlots (c : PoolConf ι T N) : Finset (Fin N) :=
  Finset.univ.filter fun k => c.shared.available k = true

omit [DecidableEq ι] [Fintype ι] in
theorem PoolConf.card_availableSlots (c : PoolConf ι T N) :
    c.availableSlots.card = tally flagged c.shared.available := Finset.card_filter _ _

omit [DecidableEq ι] in
theorem PoolConf.card_accepted_le [DecidableEq T] (c : PoolConf ι T N) :
    c.accepted.card ≤ tally PoolPc.accepted c.thread := by
  rw [PoolConf.accepted, Finset.card_filter]
  refine Finset.sum_le_sum fun i _ => ?_
  split_ifs with h
  · rw [h]
    exact Nat.le_refl 1
  · exact Nat.zero_le _

/-- **One holder at a time.** Live guards have different slots, the resource of a live guard is there
and stays, at most `N` resources are accepted, and the count agrees with the flags whenever no call is
in progress. -/
theorem ResourcePool.run_guards_apart [DecidableEq T] (hN : N < 2 ^ 63)
    (hr : Reach (Fires ResourcePool.next AddsToEmpty) ResourcePool.empty c) :
    (∀ i j k, c.thread i = .guard k → c.thread j = .guard k → i = j) ∧
      (∀ j k, c.thread j = .guard k → c.shared.resources k ≠ none ∧
        ∀ ia c', ResourcePool.next c ia = some c' →
          c'.shared.resources k = c.shared.resources k) ∧
      c.accepted.card ≤ N ∧
      ((∀ i, (c.thread i).Resting) → c.shared.semaphore = c.availableSlots.card) := by
  have h := PoolInv.reach hN hr
  refine ⟨fun i j k hi hj => ?_, fun j k hj => ⟨?_, fun _ _ hn => h.resource_kept hj hn⟩, ?_, ?_⟩
  · by_contra hij
    obtain ⟨n, hn⟩ := PoolConf.held hi
    have hslot := h.slot k
    rw [hn] at hslot
    have hsum := add_le_tally (PoolPc.holding k) c.thread hij
    rw [hi, hj, PoolPc.holding, if_pos rfl] at hsum
    have hone := (hslot.full hslot.resource_ne_none).2
    omega
  · obtain ⟨n, hn⟩ := PoolConf.held hj
    have hslot := h.slot k
    rw [hn] at hslot
    exact hslot.resource_ne_none
  · calc c.accepted.card ≤ tally PoolPc.accepted c.thread := c.card_accepted_le
      _ = tally present c.shared.resources := h.accepted
      _ ≤ N := by simpa using tally_le_card present_le c.shared.resources
  · intro hrest
    have hzero : tally PoolPc.permits c.thread = 0 := tally_eq_zero.mpr fun i => (hrest i).permits
    have hpermits := h.permits
    rw [hzero] at hpermits
    rw [PoolConf.card_availableSlots]
    omega

instance [DecidableEq T] (c : PoolConf ι T N) (ia : ι × PoolAct T) : Decidable (AddsToEmpty c ia) :=
  match hp : c.thread ia.1 with
  | .addTest resource i =>
    decidable_of_iff (c.shared.available i = false →
        c.shared.resources i = none ∧ ∀ j, (c.thread j).writing i = 0)
      ⟨fun h r k hk hclear => by
        obtain ⟨rfl, rfl⟩ := PoolPc.addTest.inj (hp.symm.trans hk)
        exact h hclear, fun h => h resource i hp⟩
  | .start | .addWrite .. | .addSet _ | .addRelease | .added | .refused _ | .permit .. | .scan ..
  | .spin | .giveBack | .guard _ | .dropRelease | .gone =>
    isTrue fun _ _ hk => by cases hp.symm.trans hk

theorem ResourcePool.run_guards_apart_held :
    ∃ c : PoolConf (Fin 2) Nat 1, c.thread 1 = .guard 0 ∧ c.shared.resources 0 ≠ none ∧
      c.accepted.card ≤ 1 := by
  obtain ⟨c, hr, hc⟩ : ∃ c : PoolConf (Fin 2) Nat 1,
      Reach (Fires ResourcePool.next AddsToEmpty) ResourcePool.empty c ∧ c.thread 1 = .guard 0 :=
    exists_reach [(0, .add 7), (0, .step), (0, .step), (0, .step), (0, .step), (1, .acquire),
      (1, .step), (1, .step), (1, .step)] (by decide)
  obtain ⟨-, hkept, haccepted, -⟩ := ResourcePool.run_guards_apart (by decide) hr
  exact ⟨c, hc, (hkept 1 0 hc).1, haccepted⟩

/-- **`add` takes the slot of a live guard for empty.** The resource that is out is replaced, and the
slot is handed out once more. -/
theorem ResourcePool.add_replaces_held :
    ∃ c : PoolConf (Fin 4) Nat 1,
      Reach (Fires ResourcePool.next fun _ _ => True) ResourcePool.empty c ∧
      c.thread 1 = .guard 0 ∧ c.thread 3 = .guard 0 ∧ c.shared.resources 0 = some 2 ∧
      1 < c.accepted.card :=
  exists_reach [(0, .add 1), (0, .step), (0, .step), (0, .step), (0, .step), (1, .acquire),
    (1, .step), (1, .step), (1, .step), (2, .add 2), (2, .step), (2, .step), (2, .step),
    (2, .step), (3, .acquire), (3, .step), (3, .step), (3, .step)] (by decide)

end Kerners.Sync
