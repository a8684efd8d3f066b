import Kerners.Proc.Scheduler

/-!
# The timer on RISC-V (`src/arch/riscv64/timer.rs`)

The CLINT has one time counter, `mtime`, and one compare register `mtimecmp` for each hart. A hart's
timer interrupt is pending while its compare register is at most the counter, so arming the next
tick means storing a later time in the hart's own register.

* Registers are addressed by their offset, as in the source; `Clint.hartAt` decodes it. A CLINT has
  at most 4095 harts: the next compare register would be `mtime`.
* `set_next_tick` stores at the fixed offset `MTIMECMP_OFFSET`, `init_secondary` at the offset of
  its hart. The sums and products of `u64` wrap.
* A run is a list of events: time passing, and calls made on a hart (`Legal` says when).
-/

namespace Kerners.Arch

open Proc Function

/-! ## The device -/

structure Clint where
  harts : Nat
  mtime : Nat
  mtimecmp : Nat → Nat
  fits : harts ≤ 4095

def mtimeOffset : Nat := 0xBFF8

def mtimecmpOffset : Nat := 0x4000

def Clint.hartAt (c : Clint) (offset : Nat) : Option Nat :=
  if mtimecmpOffset ≤ offset ∧ (offset - mtimecmpOffset) % 8 = 0 ∧
      (offset - mtimecmpOffset) / 8 < c.harts then
    some ((offset - mtimecmpOffset) / 8)
  else none

/-- A 64-bit load at this offset; an offset without a register reads zero. -/
def Clint.load (c : Clint) (offset : Nat) : Nat :=
  if offset = mtimeOffset then c.mtime
  else match c.hartAt offset with
    | some h => c.mtimecmp h
    | none => 0

/-- A 64-bit store at this offset; an offset without a register ignores it. -/
def Clint.store (c : Clint) (offset value : Nat) : Clint :=
  if offset = mtimeOffset then { c with mtime := value }
  else match c.hartAt offset with
    | some h => { c with mtimecmp := update c.mtimecmp h value }
    | none => c

theorem Clint.load_mtime (c : Clint) : c.load mtimeOffset = c.mtime := by
  simp [Clint.load]

variable {h : Nat}

theorem Clint.store_hart (c : Clint) (hh : h < c.harts) (value : Nat) :
    c.store (mtimecmpOffset + h * 8) value =
      { c with mtimecmp := update c.mtimecmp h value } := by
  have hfits := c.fits
  have hne : mtimecmpOffset + h * 8 ≠ mtimeOffset := by
    unfold mtimecmpOffset mtimeOffset
    omega
  have hat : c.hartAt (mtimecmpOffset + h * 8) = some h := by
    have hsub : mtimecmpOffset + h * 8 - mtimecmpOffset = h * 8 := by omega
    unfold Clint.hartAt
    rw [hsub, if_pos ⟨by omega, by omega, by omega⟩, Nat.mul_div_cancel h (by decide)]
  unfold Clint.store
  rw [if_neg hne, hat]

/-! ## The driver -/

/-- The state the driver works on: the device, `TIMER_TICKS` and the `tick_count`s of `PER_CPU`. -/
structure Timer where
  clint : Clint
  timerTicks : Nat
  tickCount : Fin maxCpus → Nat

def timerTickMs : Nat := 10

/-- `(timer_freq() * TIMER_TICK_MS) / 1000`, the product wrapping. -/
def tickLength (freq : Nat) : Nat := freq * timerTickMs % 2 ^ 64 / 1000

def Timer.readMtime (t : Timer) : Nat := t.clint.load mtimeOffset

def Timer.writeMtimecmp (t : Timer) (value : Nat) : Timer :=
  { t with clint := t.clint.store mtimecmpOffset value }

def Timer.writeMtimecmpHart (t : Timer) (hartid value : Nat) : Timer :=
  { t with clint := t.clint.store (mtimecmpOffset + hartid * 8) value }

def Timer.setNextTick (freq : Nat) (t : Timer) : Timer :=
  t.writeMtimecmp ((t.readMtime + tickLength freq) % 2 ^ 64)

/-- `init_secondary` on hart `hartid`. -/
def Timer.initSecondary (freq hartid : Nat) (t : Timer) : Timer :=
  t.writeMtimecmpHart hartid ((t.readMtime + tickLength freq) % 2 ^ 64)

/-- `handle_irq` on hart `hartid`, up to its call of `schedule()`. -/
def Timer.handleIrq (freq hartid : Nat) (t : Timer) : Timer :=
  let t := { t with timerTicks := (t.timerTicks + 1) % 2 ^ 64 }
  let t := t.setNextTick freq
  let count := (t.tickCount (slot hartid) + 1) % 2 ^ 64
  { t with tickCount := update t.tickCount (slot hartid) count }

/-! ## Runs -/

inductive TimerEvent where
  /-- The counter advances by `dt`. -/
  | elapse (dt : Nat)
  /-- `init` on hart `h`. -/
  | init (h : Nat)
  /-- `init_secondary` on hart `h`. -/
  | initSecondary (h : Nat)
  /-- Hart `h` takes its timer interrupt and runs `handle_irq`. -/
  | handleIrq (h : Nat)
  deriving DecidableEq

def Timer.exec (freq : Nat) (t : Timer) : TimerEvent → Timer
  | .elapse dt => { t with clint := { t.clint with mtime := (t.clint.mtime + dt) % 2 ^ 64 } }
  | .init _ => t.setNextTick freq
  | .initSecondary h => t.initSecondary freq h
  | .handleIrq h => t.handleIrq freq h

/-- The event can happen: its hart exists, and an interrupt is taken only while it is pending. -/
def Legal (t : Timer) : TimerEvent → Prop
  | .elapse _ => True
  | .init h => h < t.clint.harts
  | .initSecondary h => h < t.clint.harts
  | .handleIrq h => h < t.clint.harts ∧ t.clint.mtimecmp h ≤ t.clint.mtime

/-- `P` holds of every event of the run at the state in which it happens. -/
def Along (freq : Nat) (P : Timer → TimerEvent → Prop) : Timer → List TimerEvent → Prop
  | _, [] => True
  | t, e :: es => P t e ∧ Along freq P (t.exec freq e) es

/-- Hart `h` is armed one tick ahead, in the future, and no other hart's deadline has moved. -/
structure Rearmed (freq h : Nat) (t t' : Timer) : Prop where
  deadline : t'.clint.mtimecmp h = t.clint.mtime + freq * 10 / 1000
  others : ∀ h', h' < t.clint.harts → h' ≠ h → t'.clint.mtimecmp h' = t.clint.mtimecmp h'
  future : t'.clint.mtime < t'.clint.mtimecmp h

/-- What an event should do: `handle_irq` and `init_secondary` arm the hart they run on. -/
def Arms (freq : Nat) (t : Timer) : TimerEvent → Prop
  | .elapse _ => True
  | .init _ => True
  | .initSecondary h => Rearmed freq h t (t.exec freq (.initSecondary h))
  | .handleIrq h => Rearmed freq h t (t.exec freq (.handleIrq h))

def NoWrap (freq : Nat) (t : Timer) : Prop :=
  freq * 10 < 2 ^ 64 ∧ t.clint.mtime + freq * 10 / 1000 < 2 ^ 64

/-- Interrupts are taken on hart 0 only, and no deadline overflows. -/
def OnHartZero (freq : Nat) (t : Timer) : TimerEvent → Prop
  | .elapse _ => True
  | .init _ => True
  | .initSecondary _ => NoWrap freq t
  | .handleIrq h => h = 0 ∧ NoWrap freq t

/-! ## What the calls store -/

def Timer.nextDeadline (freq : Nat) (t : Timer) : Nat :=
  (t.clint.mtime + tickLength freq) % 2 ^ 64

theorem initSecondary_clint (freq : Nat) (t : Timer) (hh : h < t.clint.harts) :
    (t.exec freq (.initSecondary h)).clint =
      { t.clint with mtimecmp := update t.clint.mtimecmp h (t.nextDeadline freq) } := by
  simp only [Timer.exec, Timer.initSecondary, Timer.writeMtimecmpHart, Timer.readMtime,
    Clint.load_mtime, Clint.store_hart _ hh, Timer.nextDeadline]

theorem setNextTick_clint (freq : Nat) (t : Timer) (hh : 0 < t.clint.harts) :
    (t.setNextTick freq).clint =
      { t.clint with mtimecmp := update t.clint.mtimecmp 0 (t.nextDeadline freq) } := by
  have hstore := t.clint.store_hart hh (t.nextDeadline freq)
  rw [Nat.zero_mul, Nat.add_zero] at hstore
  simp only [Timer.setNextTick, Timer.writeMtimecmp, Timer.readMtime, Clint.load_mtime]
  exact hstore

theorem handleIrq_clint (freq : Nat) (t : Timer) (h : Nat) (hh : 0 < t.clint.harts) :
    (t.exec freq (.handleIrq h)).clint =
      { t.clint with mtimecmp := update t.clint.mtimecmp 0 (t.nextDeadline freq) } :=
  setNextTick_clint freq { t with timerTicks := (t.timerTicks + 1) % 2 ^ 64 } hh

theorem nextDeadline_eq_iff (freq : Nat) (t : Timer) :
    t.nextDeadline freq = t.clint.mtime + freq * 10 / 1000 ↔ NoWrap freq t := by
  unfold Timer.nextDeadline NoWrap tickLength timerTickMs
  constructor
  · intro hd
    have hmod := Nat.mod_le (t.clint.mtime + freq * 10 % 2 ^ 64 / 1000) (2 ^ 64)
    have hfreq : freq * 10 < 2 ^ 64 := by
      by_contra hge
      -- a product that wraps is short by at least `2 ^ 64`, which the division by 1000 keeps
      have hless : freq * 10 % 2 ^ 64 + 2 ^ 64 ≤ freq * 10 := by
        rw [Nat.mod_eq_sub_mod (by omega)]
        have := Nat.mod_le (freq * 10 - 2 ^ 64) (2 ^ 64)
        omega
      generalize freq * 10 % 2 ^ 64 = r at hd hless hmod
      rw [hd] at hmod
      omega
    rw [Nat.mod_eq_of_lt hfreq] at hd
    exact ⟨hfreq, by omega⟩
  · rintro ⟨hfreq, hsum⟩
    rw [Nat.mod_eq_of_lt hfreq, Nat.mod_eq_of_lt hsum]

variable {freq : Nat} {t : Timer}

theorem rearmed_iff {t' : Timer} (hfreq : 100 ≤ freq)
    (ht : t'.clint = { t.clint with mtimecmp := update t.clint.mtimecmp h (t.nextDeadline freq) }) :
    Rearmed freq h t t' ↔ NoWrap freq t := by
  rw [← nextDeadline_eq_iff]
  constructor
  · intro hr
    have hd := hr.deadline
    rw [ht] at hd
    simpa using hd
  · intro hd
    refine ⟨?_, ?_, ?_⟩
    · rw [ht]
      simpa using hd
    · intro h' _ hne
      rw [ht]
      exact update_of_ne hne _ _
    · rw [ht]
      have hfuture : t.clint.mtime < t.nextDeadline freq := by omega
      simpa using hfuture

/-! ## One event and whole runs -/

theorem not_rearmed_other (hfreq : 100 ≤ freq) (hl : Legal t (.handleIrq h)) (hne : h ≠ 0) :
    ¬ Rearmed freq h t (t.exec freq (.handleIrq h)) := by
  intro hr
  obtain ⟨hh, hpend⟩ := hl
  have hd := hr.deadline
  rw [handleIrq_clint freq t h (by omega)] at hd
  have hsame : update t.clint.mtimecmp 0 (t.nextDeadline freq) h = t.clint.mtimecmp h :=
    update_of_ne hne _ _
  have hpast : t.clint.mtimecmp h = t.clint.mtime + freq * 10 / 1000 := hsame.symm.trans hd
  omega

theorem arms_iff {e : TimerEvent} (hfreq : 100 ≤ freq) (hl : Legal t e) :
    Arms freq t e ↔ OnHartZero freq t e := by
  cases e with
  | elapse dt => exact Iff.rfl
  | init h => exact Iff.rfl
  | initSecondary h => exact rearmed_iff hfreq (initSecondary_clint freq t hl)
  | handleIrq h =>
    constructor
    · intro hr
      have hzero : h = 0 := by
        by_contra hne
        exact not_rearmed_other hfreq hl hne hr
      subst hzero
      exact ⟨rfl, (rearmed_iff hfreq (handleIrq_clint freq t 0 hl.1)).mp hr⟩
    · rintro ⟨hzero, hwrap⟩
      subst hzero
      exact (rearmed_iff hfreq (handleIrq_clint freq t 0 hl.1)).mpr hwrap

/-- **Every call of a run arms its own hart and no other exactly when every interrupt is taken on
hart 0 and no deadline overflows**, for any number of harts and any legal run. -/
theorem rearms_own_hart_iff {freq : Nat} (hfreq : 100 ≤ freq) (t : Timer)
    (es : List TimerEvent) (hl : Along freq Legal t es) :
    Along freq (Arms freq) t es ↔ Along freq (OnHartZero freq) t es := by
  induction es generalizing t with
  | nil => exact Iff.rfl
  | cons e es ih => exact and_congr (arms_iff hfreq hl.1) (ih _ hl.2)

def twoHarts : Timer where
  clint := ⟨2, 7, fun _ => 5, by decide⟩
  timerTicks := 0
  tickCount _ := 0

theorem rearms_own_hart_zero :
    Along 10000000 Legal twoHarts [.handleIrq 0] ∧
      Along 10000000 (Arms 10000000) twoHarts [.handleIrq 0] := by
  have hl : Along 10000000 Legal twoHarts [.handleIrq 0] :=
    ⟨⟨by decide, by decide⟩, trivial⟩
  refine ⟨hl, (rearms_own_hart_iff (by decide) twoHarts _ hl).mpr ⟨⟨rfl, ?_⟩, trivial⟩⟩
  exact ⟨by decide, by decide⟩

/-- Hart 1 takes its interrupt: its own deadline stays in the past, and hart 0's moves. -/
theorem hart_one_stays_pending :
    Legal twoHarts (.handleIrq 1) ∧
      (twoHarts.exec 10000000 (.handleIrq 1)).clint.mtimecmp 1 = 5 ∧
      (twoHarts.exec 10000000 (.handleIrq 1)).clint.mtime = 7 ∧
      twoHarts.clint.mtimecmp 0 = 5 ∧
      (twoHarts.exec 10000000 (.handleIrq 1)).clint.mtimecmp 0 = 100007 ∧
      ¬ Along 10000000 (Arms 10000000) twoHarts [.handleIrq 1] := by
  refine ⟨⟨by decide, by decide⟩, by decide, by decide, by decide, by decide, ?_⟩
  intro h
  exact not_rearmed_other (by decide) ⟨by decide, by decide⟩ (by decide) h.1

end Kerners.Arch
