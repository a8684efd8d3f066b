import Kerners.Lib.Word
import Kerners.Lib.Threads

/-!
# Updating the clock (`sync/seqlock.rs`, `TimeSeqLock::update_time`)

`update_time` copies the time under one `write_guard`, adds to it, drops the guard, and stores the sum
with `write`, which takes the lock a second time. The model has one process for each call and takes
as a step each access to the lock, to `sequence`, and to the time, which happens under the lock.

* Sums of `u64` wrap. `NoOverflow` singles out the steps whose addition stays below `2 ^ 64`.
* A history beside the clock, `lineage`, is the set of calls whose additions the stored time
  contains: a call takes over the lineage of the time it copies, and its store adds the call itself.
-/

namespace Kerners.Sync

open Lib

/-! ## The time -/

structure TimeSpec where
  sec : Nat
  nsec : Nat
  deriving DecidableEq

def nanos : Nat := 1000000000

def TimeSpec.total (t : TimeSpec) : Nat := t.sec * nanos + t.nsec

/-- The loop `while time.nsec >= 1_000_000_000`, for at most `turns` turns. -/
def carryLoop : Nat → TimeSpec → TimeSpec
  | 0, t => t
  | turns + 1, t =>
    if nanos ≤ t.nsec then carryLoop turns ⟨incWord t.sec, t.nsec - nanos⟩ else t

/-- The new time of `update_time`. The loop makes fewer turns than there are nanoseconds. -/
def TimeSpec.plus (t : TimeSpec) (addNsec : Nat) : TimeSpec :=
  let nsec := (t.nsec + addNsec) % 2 ^ 64
  carryLoop nsec ⟨t.sec, nsec⟩

def TimeSpec.Fits (t : TimeSpec) (addNsec : Nat) : Prop :=
  t.nsec + addNsec < 2 ^ 64 ∧ t.sec + (t.nsec + addNsec) / nanos < 2 ^ 64

instance (t : TimeSpec) (addNsec : Nat) : Decidable (t.Fits addNsec) :=
  inferInstanceAs (Decidable (_ ∧ _))

theorem carryLoop_spec {turns : Nat} {t : TimeSpec} (hturns : t.nsec ≤ turns)
    (hfits : t.sec + t.nsec / nanos < 2 ^ 64) :
    (carryLoop turns t).nsec < nanos ∧ (carryLoop turns t).total = t.total := by
  induction turns generalizing t with
  | zero =>
    have hzero : t.nsec = 0 := by omega
    refine ⟨?_, rfl⟩
    change t.nsec < nanos
    rw [hzero]
    decide
  | succ turns ih =>
    unfold carryLoop
    by_cases hge : nanos ≤ t.nsec
    · rw [if_pos hge]
      have hdiv : (t.nsec - nanos) / nanos + 1 = t.nsec / nanos := by
        rw [Nat.div_eq_sub_div (by decide) hge]
      have hpos : 0 < nanos := by decide
      have hsec : t.sec + 1 ≤ t.sec + t.nsec / nanos := by
        rw [← hdiv]
        exact Nat.add_le_add_left (Nat.le_add_left _ _) _
      have hinc : incWord t.sec = t.sec + 1 := Nat.mod_eq_of_lt (by omega)
      rw [hinc]
      obtain ⟨hlt, htotal⟩ := ih (t := ⟨t.sec + 1, t.nsec - nanos⟩) (by simp only; omega)
        (by simp only; omega)
      refine ⟨hlt, htotal.trans ?_⟩
      simp only [TimeSpec.total, Nat.add_mul, Nat.one_mul]
      omega
    · rw [if_neg hge]
      exact ⟨by omega, rfl⟩

theorem TimeSpec.plus_spec {t : TimeSpec} {addNsec : Nat} (h : t.Fits addNsec) :
    (t.plus addNsec).nsec < nanos ∧ (t.plus addNsec).total = t.total + addNsec := by
  obtain ⟨hword, hsec⟩ := h
  unfold TimeSpec.plus
  simp only
  rw [Nat.mod_eq_of_lt hword]
  obtain ⟨hlt, htotal⟩ := carryLoop_spec (t := ⟨t.sec, t.nsec + addNsec⟩) (Nat.le_refl _) hsec
  refine ⟨hlt, htotal.trans ?_⟩
  simp only [TimeSpec.total]
  omega

/-! ## The calls -/

/-- Where a call of `update_time` stands. From the copy on it carries the new time, and the lineage of
the time it copied. -/
inductive ClockPc (ι : Type*) where
  | start
  /-- `write_guard` has the lock. -/
  | locked
  /-- `write_begin` is done. -/
  | begun
  /-- The new time is computed, the guard is still there. -/
  | updated (time : TimeSpec) (seen : Finset ι)
  /-- `write_end` is done. -/
  | dropped (time : TimeSpec) (seen : Finset ι)
  /-- The guard is gone, `write` is about to take the lock. -/
  | released (time : TimeSpec) (seen : Finset ι)
  /-- `write` has the lock. -/
  | relocked (time : TimeSpec) (seen : Finset ι)
  /-- `write_begin` is done. -/
  | storing (time : TimeSpec) (seen : Finset ι)
  | stored
  /-- `write_end` is done. -/
  | ended
  | returned
  deriving DecidableEq

structure Clock (ι : Type*) where
  sequence : Nat
  writeLock : Bool
  data : TimeSpec
  lineage : Finset ι
  pc : ι → ClockPc ι

variable {ι : Type*} [DecidableEq ι]

def Clock.start (ι : Type*) (time : TimeSpec) : Clock ι := ⟨0, false, time, ∅, fun _ => .start⟩

/-- Call `i` goes on to `p`. -/
def Clock.goes (s : Clock ι) (i : ι) (p : ClockPc ι) : Clock ι :=
  { s with pc := Function.update s.pc i p }

theorem Clock.goes_cases {β : Type*} (f : ClockPc ι → β) {s : Clock ι} {i j : ι} {p : ClockPc ι}
    {b : β} (h : f ((s.goes i p).pc j) = b) :
    (j = i ∧ f p = b) ∨ (j ≠ i ∧ f (s.pc j) = b) := by
  by_cases hj : j = i
  · subst hj
    exact .inl ⟨rfl, by simpa [Clock.goes] using h⟩
  · exact .inr ⟨hj, by simpa [Clock.goes, hj] using h⟩

/-- The next step of call `i`, which adds `add i`. -/
def Clock.next (add : ι → Nat) (s : Clock ι) (i : ι) : Option (Clock ι) :=
  match s.pc i with
  | .start => if s.writeLock then none else some ({ s with writeLock := true }.goes i .locked)
  | .locked => some ({ s with sequence := incWord s.sequence }.goes i .begun)
  | .begun => some (s.goes i (.updated (s.data.plus (add i)) s.lineage))
  | .updated time seen =>
    some ({ s with sequence := incWord s.sequence }.goes i (.dropped time seen))
  | .dropped time seen => some ({ s with writeLock := false }.goes i (.released time seen))
  | .released time seen =>
    if s.writeLock then none else some ({ s with writeLock := true }.goes i (.relocked time seen))
  | .relocked time seen =>
    some ({ s with sequence := incWord s.sequence }.goes i (.storing time seen))
  | .storing time seen => some ({ s with data := time, lineage := insert i seen }.goes i .stored)
  | .stored => some ({ s with sequence := incWord s.sequence }.goes i .ended)
  | .ended => some ({ s with writeLock := false }.goes i .returned)
  | .returned => none

/-- If the next step of call `i` adds, the sum stays below `2 ^ 64`. -/
def NoOverflow (add : ι → Nat) (s : Clock ι) (i : ι) : Prop :=
  match s.pc i with
  | .begun => s.data.Fits (add i)
  | _ => True

instance (add : ι → Nat) (s : Clock ι) (i : ι) : Decidable (NoOverflow add s i) := by
  unfold NoOverflow
  split <;> infer_instance

/-! ## The invariant -/

namespace ClockPc

/-- The new time the call carries, and the lineage of the time it copied. -/
def carried : ClockPc ι → Option (TimeSpec × Finset ι)
  | updated time seen | dropped time seen | released time seen | relocked time seen
  | storing time seen => some (time, seen)
  | _ => none

def unstored : ClockPc ι → Bool
  | stored | ended | returned => false
  | _ => true

end ClockPc

section

variable {add : ι → Nat} {initial : Nat} {s s' : Clock ι} {i j : ι} {p : ClockPc ι}

/-- The time is the initial one plus the additions of these calls. -/
def Contains (add : ι → Nat) (initial : Nat) (t : TimeSpec) (calls : Finset ι) : Prop :=
  t.nsec < nanos ∧ t.total = initial + ∑ i ∈ calls, add i

structure ClockInv (add : ι → Nat) (initial : Nat) (s : Clock ι) : Prop where
  data : Contains add initial s.data s.lineage
  times : ∀ {i c}, (s.pc i).carried = some c → Contains add initial c.1 (insert i c.2)
  fresh : ∀ {i}, (s.pc i).unstored = true → i ∉ s.lineage ∧
    ∀ {j c}, (s.pc j).carried = some c → i ∉ c.2

theorem ClockInv.start (time : TimeSpec) (h : time.nsec < nanos) :
    ClockInv add time.total (Clock.start ι time) where
  data := ⟨h, by simp [Clock.start]⟩
  times h := by cases h
  fresh _ := ⟨by simp [Clock.start], fun h => by cases h⟩

theorem ClockInv.quiet (h : ClockInv add initial s) {q : ClockPc ι} (hq : s.pc i = q)
    (hcarried : p.carried = q.carried) (hunstored : p.unstored = q.unstored)
    {sequence : Nat} {writeLock : Bool} :
    ClockInv add initial ({ s with sequence, writeLock }.goes i p) := by
  subst hq
  have hcarry : ∀ {j c}, (({ s with sequence, writeLock }.goes i p).pc j).carried = some c →
      (s.pc j).carried = some c := by
    intro j c hj
    rcases Clock.goes_cases ClockPc.carried hj with ⟨rfl, hc⟩ | ⟨_, hc⟩
    · rw [← hcarried, hc]
    · exact hc
  refine ⟨h.data, fun hj => h.times (hcarry hj), ?_⟩
  intro j hj
  have hstored : (s.pc j).unstored = true := by
    rcases Clock.goes_cases ClockPc.unstored hj with ⟨rfl, hu⟩ | ⟨_, hu⟩
    · rw [← hunstored, hu]
    · exact hu
  obtain ⟨hnot, hseen⟩ := h.fresh hstored
  exact ⟨hnot, fun hc => hseen (hcarry hc)⟩

theorem ClockInv.update (h : ClockInv add initial s) (hp : s.pc i = .begun)
    (hfits : s.data.Fits (add i)) :
    ClockInv add initial (s.goes i (.updated (s.data.plus (add i)) s.lineage)) := by
  have hfresh := (h.fresh (i := i) (by rw [hp]; rfl)).1
  have hnew : Contains add initial (s.data.plus (add i)) (insert i s.lineage) := by
    obtain ⟨hlt, htotal⟩ := TimeSpec.plus_spec hfits
    have hold := h.data.2
    refine ⟨hlt, ?_⟩
    rw [Finset.sum_insert hfresh]
    omega
  refine ⟨h.data, ?_, ?_⟩
  · intro j c hj
    rcases Clock.goes_cases ClockPc.carried hj with ⟨rfl, hc⟩ | ⟨_, hc⟩
    · obtain rfl := Option.some.inj hc
      exact hnew
    · exact h.times hc
  · intro j hj
    have hwas : (s.pc j).unstored = true := by
      rcases Clock.goes_cases ClockPc.unstored hj with ⟨rfl, _⟩ | ⟨_, hu⟩
      · rw [hp]
        rfl
      · exact hu
    obtain ⟨hnot, hseen⟩ := h.fresh hwas
    refine ⟨hnot, ?_⟩
    intro k c hk
    rcases Clock.goes_cases ClockPc.carried hk with ⟨_, hc⟩ | ⟨_, hc⟩
    · obtain rfl := Option.some.inj hc
      exact hnot
    · exact hseen hc

theorem ClockInv.store (h : ClockInv add initial s) {time : TimeSpec} {seen : Finset ι}
    (hp : s.pc i = .storing time seen) :
    ClockInv add initial ({ s with data := time, lineage := insert i seen }.goes i .stored) := by
  have hcarried : (s.pc i).carried = some (time, seen) := by rw [hp]; rfl
  refine ⟨h.times hcarried, ?_, ?_⟩
  · intro j c hj
    rcases Clock.goes_cases ClockPc.carried hj with ⟨_, hc⟩ | ⟨_, hc⟩
    · cases hc
    · exact h.times hc
  · intro j hj
    rcases Clock.goes_cases ClockPc.unstored hj with ⟨_, hu⟩ | ⟨hji, hu⟩
    · cases hu
    · obtain ⟨_, hseen⟩ := h.fresh hu
      refine ⟨?_, ?_⟩
      · change j ∉ insert i seen
        rw [Finset.mem_insert, not_or]
        exact ⟨hji, hseen hcarried⟩
      · intro k c hk
        rcases Clock.goes_cases ClockPc.carried hk with ⟨_, hc⟩ | ⟨_, hc⟩
        · cases hc
        · exact hseen hc

theorem ClockInv.step (h : ClockInv add initial s) (hok : NoOverflow add s i)
    (hs : s.next add i = some s') : ClockInv add initial s' := by
  unfold Clock.next at hs
  cases hp : s.pc i with
  | start | released =>
    simp only [hp] at hs
    split at hs
    · cases hs
    · obtain rfl := Option.some.inj hs
      refine h.quiet hp ?_ ?_ <;> rfl
  | begun =>
    rw [hp] at hs
    obtain rfl := Option.some.inj hs
    unfold NoOverflow at hok
    rw [hp] at hok
    exact h.update hp hok
  | storing time seen =>
    rw [hp] at hs
    obtain rfl := Option.some.inj hs
    exact h.store hp
  | returned =>
    rw [hp] at hs
    cases hs
  | _ =>
    rw [hp] at hs
    obtain rfl := Option.some.inj hs
    refine h.quiet hp ?_ ?_ <;> rfl

end

/-! ## What is kept -/

section

variable {add : ι → Nat} {time : TimeSpec} {s s' : Clock ι}

/-- A run of the calls from `time` in which no addition overflows. -/
def ClockRun (add : ι → Nat) (time : TimeSpec) (s : Clock ι) : Prop :=
  Reach (Fires (Clock.next add) (NoOverflow add)) (Clock.start ι time) s

theorem ClockRun.inv (h0 : time.nsec < nanos) (h : ClockRun add time s) :
    ClockInv add time.total s :=
  h.invariant (.start time h0) fun hi ⟨_, hok, hs⟩ => hi.step hok hs

end

end Kerners.Sync
