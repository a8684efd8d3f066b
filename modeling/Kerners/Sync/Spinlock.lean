import Kerners.Lib.Threads

/-!
# The interrupt-safe spinlock (`sync/spinlock.rs`)

Model of `IrqSpinlock` with the `Spinlock` inside it. A turn is one access to the lock word or to
the CPU's interrupt mask:
* `IrqSpinlock::lock` reads the mask, masks, and spins: a `compare_exchange_weak`, which may also
  fail without cause, and after a failure loads until the word is seen clear;
* dropping an `IrqSpinlockGuard` runs its `Drop`: the guard inside, read out with `ptr::read`, is
  dropped and clears the word; interrupts are restored. After a `Drop` the fields of a value are
  dropped too, so the guard inside is dropped again and clears the word **a second time**.

A guard is live from the successful exchange to the first clearing. A CPU that is in neither call
may change its mask at any time.
-/

namespace Kerners.Sync

open Lib

/-- Where a CPU stands; `was` is the local `irq_enabled`, later the guard's `irq_was_enabled`. -/
inductive IrqPc where
  | idle
  | masking (was : Bool)
  | exchange (was : Bool)
  | spinning (was : Bool)
  | holding (was : Bool)
  | restoring (was : Bool)
  | fieldDrop
  deriving DecidableEq

structure Cpu where
  enabled : Bool
  pc : IrqPc
  deriving DecidableEq

/-- What a CPU can do: begin `lock`, take the next step of the call it is in, fail an exchange
without cause, begin to drop its guard, or change its mask outside. -/
inductive IrqAct where
  | lock
  | step
  | weakFail
  | drop
  | setMask (enabled : Bool)
  deriving DecidableEq

/-- One turn of a CPU; `locked` is the word. -/
def IrqSpinlock.turn (locked : Bool) (cpu : Cpu) : IrqAct → Option (Bool × Cpu)
  | .lock =>
    match cpu.pc with
    | .idle => some (locked, { cpu with pc := .masking cpu.enabled })
    | _ => none
  | .step =>
    match cpu.pc with
    | .masking was => some (locked, ⟨false, .exchange was⟩)
    | .exchange was =>
      if locked then some (locked, { cpu with pc := .spinning was })
      else some (true, { cpu with pc := .holding was })
    | .spinning was =>
      if locked then some (locked, cpu) else some (locked, { cpu with pc := .exchange was })
    | .restoring was => some (locked, ⟨if was then true else cpu.enabled, .fieldDrop⟩)
    | .fieldDrop => some (false, { cpu with pc := .idle })
    | .idle | .holding _ => none
  | .weakFail =>
    match cpu.pc with
    | .exchange was => some (locked, { cpu with pc := .spinning was })
    | _ => none
  | .drop =>
    match cpu.pc with
    | .holding was => some (false, { cpu with pc := .restoring was })
    | _ => none
  | .setMask enabled =>
    match cpu.pc with
    | .idle => some (locked, { cpu with enabled })
    | _ => none

abbrev IrqConf (ι : Type*) := Conf ι Bool Cpu

variable {ι : Type*} [DecidableEq ι]

/-- A new lock: the word is clear, no CPU is in a call, the masks are arbitrary. -/
def IrqSpinlock.new (mask : ι → Bool) : IrqConf ι := ⟨false, fun i => ⟨mask i, .idle⟩⟩

open IrqSpinlock

def IrqSpinlock.next : IrqConf ι → ι × IrqAct → Option (IrqConf ι) := Conf.next IrqSpinlock.turn

def Cpu.live (cpu : Cpu) : Nat :=
  match cpu.pc with
  | .holding _ => 1
  | _ => 0

def Cpu.halfDropped (cpu : Cpu) : Nat :=
  match cpu.pc with
  | .restoring _ | .fieldDrop => 1
  | _ => 0

def Cpu.past (cpu : Cpu) : Bool :=
  match cpu.pc with
  | .exchange _ | .spinning _ | .holding _ => true
  | _ => false

/-! ## What a turn does -/

inductive IrqEffect (locked : Bool) (cpu : Cpu) (a : IrqAct) : Bool → Cpu → Prop
  | other {cpu' : Cpu} (hl : cpu'.live = cpu.live) (hh : cpu'.halfDropped = cpu.halfDropped) :
    IrqEffect locked cpu a locked cpu'
  | acquire {was : Bool} {cpu' : Cpu} (ha : a = .step) (hpc : cpu.pc = .exchange was)
    (hfree : locked = false) (hpc' : cpu'.pc = .holding was) : IrqEffect locked cpu a true cpu'
  | firstRelease {was : Bool} {cpu' : Cpu} (hpc : cpu.pc = .holding was)
    (hpc' : cpu'.pc = .restoring was) : IrqEffect locked cpu a false cpu'
  | secondRelease {cpu' : Cpu} (hpc : cpu.pc = .fieldDrop) (hpc' : cpu'.pc = .idle) :
    IrqEffect locked cpu a false cpu'

variable {locked locked' : Bool} {cpu cpu' : Cpu} {a : IrqAct}

open Cpu

theorem IrqSpinlock.turn_effect (h : turn locked cpu a = some (locked', cpu')) :
    IrqEffect locked cpu a locked' cpu' := by
  revert h
  fun_cases turn locked cpu a <;> intro h <;> cases h
  all_goals first
    | exact .other (by simp [live, *]) (by simp [halfDropped, *])
    | exact .firstRelease ‹_› rfl
    | exact .secondRelease ‹_› rfl
    | exact .acquire rfl ‹_› (by simpa using ‹¬ locked = true›) rfl

theorem IrqSpinlock.turn_masked (h : turn locked cpu a = some (locked', cpu'))
    (hm : cpu.past = true → cpu.enabled = false) : cpu'.past = true → cpu'.enabled = false := by
  revert h
  fun_cases turn locked cpu a <;> intro h <;> cases h <;> simp_all [past]

variable {c : IrqConf ι}

theorem masked_of_reach {ok : IrqConf ι → ι × IrqAct → Prop} {mask : ι → Bool}
    (hr : Reach (Fires next ok) (IrqSpinlock.new mask) c) :
    ∀ i, (c.thread i).past = true → (c.thread i).enabled = false := by
  refine Reach.invariant (P := fun c : IrqConf ι => ∀ i, (c.thread i).past = true →
    (c.thread i).enabled = false) ?_ ?_ hr
  · intro i h
    cases h
  · rintro c c' h ⟨⟨i, a⟩, -, hn⟩
    exact Conf.forall_thread (Q := fun _ _ (cpu : Cpu) => cpu.past = true → cpu.enabled = false) h
      hn (fun ht => turn_masked ht (h i)) fun _ _ _ hj => hj

/-! ## Exclusion -/

variable [Fintype ι]

/-- Guards that are live or released once: there is one at most, and the word says whether it is
live. -/
structure IrqExclusive (c : IrqConf ι) : Prop where
  word : c.shared.toNat = tally Cpu.live c.thread
  one : tally Cpu.live c.thread + tally Cpu.halfDropped c.thread ≤ 1

/-- An exchange that acquires finds no CPU between the two releases of its guard. -/
def NoHalfDrop (c : IrqConf ι) (ia : ι × IrqAct) : Prop :=
  ∀ was, ia.2 = .step → (c.thread ia.1).pc = .exchange was → c.shared = false →
    ∀ j, (c.thread j).halfDropped = 0

omit [DecidableEq ι] in
theorem IrqExclusive.new (mask : ι → Bool) : IrqExclusive (IrqSpinlock.new mask) := by
  have hl : tally live (IrqSpinlock.new mask).thread = 0 := tally_eq_zero.mpr fun _ => rfl
  have hh : tally halfDropped (IrqSpinlock.new mask).thread = 0 :=
    tally_eq_zero.mpr fun _ => rfl
  constructor
  · rw [hl]
    rfl
  · omega

theorem IrqExclusive.next {c' : IrqConf ι} {ia : ι × IrqAct} (h : IrqExclusive c)
    (hok : NoHalfDrop c ia) (hn : next c ia = some c') : IrqExclusive c' := by
  obtain ⟨i, a⟩ := ia
  obtain ⟨word, cpu, ht, rfl⟩ := Conf.exists_turn hn
  have hw := h.word
  have ho := h.one
  have hl := tally_update live c.thread i cpu
  have hh := tally_update halfDropped c.thread i cpu
  cases turn_effect ht with
  | other el eh =>
    constructor <;> simp only <;> omega
  | acquire ha hpc hfree hpc' =>
    -- the gap of a drop is where the word is clear although a release is still to come
    have hgap : tally halfDropped c.thread = 0 := tally_eq_zero.mpr (hok _ ha hpc hfree)
    simp only [live, halfDropped, hpc, hpc'] at hl hh
    rw [hfree] at hw
    constructor <;> simp only [Bool.toNat_true, Bool.toNat_false] at hw ⊢ <;> omega
  | firstRelease hpc hpc' =>
    simp only [live, halfDropped, hpc, hpc'] at hl hh
    constructor <;> simp only [Bool.toNat_false] <;> omega
  | secondRelease hpc hpc' =>
    simp only [live, halfDropped, hpc, hpc'] at hl hh
    constructor <;> simp only [Bool.toNat_false] <;> omega

theorem Cpu.live_eq_one {was : Bool} (h : cpu.pc = .holding was) : cpu.live = 1 := by
  simp only [live, h]

/-- **One live guard at most, with the word set and interrupts masked**, in every run in which no
CPU acquires while another is between the two releases of its guard. -/
theorem IrqSpinlock.one_live_guard {mask : ι → Bool} {c : IrqConf ι}
    (hr : Reach (Fires IrqSpinlock.next NoHalfDrop) (IrqSpinlock.new mask) c) :
    (∀ i j u v, (c.thread i).pc = .holding u → (c.thread j).pc = .holding v → i = j) ∧
      ∀ i u, (c.thread i).pc = .holding u → c.shared = true ∧ (c.thread i).enabled = false := by
  have hx : IrqExclusive c := Reach.invariant (IrqExclusive.new mask)
    (fun h ⟨_, hok, hn⟩ => h.next hok hn) hr
  have hw := hx.word
  have ho := hx.one
  constructor
  · intro i j u v hi hj
    by_contra hij
    have := add_le_tally Cpu.live c.thread hij
    rw [Cpu.live_eq_one hi, Cpu.live_eq_one hj] at this
    omega
  · intro i u hi
    have hpast : (c.thread i).past = true := by simp only [Cpu.past, hi]
    refine ⟨?_, masked_of_reach hr i hpast⟩
    have := le_tally Cpu.live c.thread i
    rw [Cpu.live_eq_one hi] at this
    cases hs : c.shared with
    | true => rfl
    | false =>
      rw [hs] at hw
      simp only [Bool.toNat_false] at hw
      omega

instance : ∀ (c : IrqConf ι) (ia : ι × IrqAct), Decidable (NoHalfDrop c ia) := fun c ia =>
  inferInstanceAs (Decidable (∀ was, ia.2 = .step → (c.thread ia.1).pc = .exchange was →
    c.shared = false → ∀ j, (c.thread j).halfDropped = 0))

theorem IrqSpinlock.one_live_guard_handover :
    ∃ c : IrqConf (Fin 2), (c.thread 1).pc = .holding true ∧ c.shared = true ∧
      (c.thread 1).enabled = false := by
  obtain ⟨c, hr, hc⟩ : ∃ c : IrqConf (Fin 2), Reach (Fires IrqSpinlock.next NoHalfDrop)
      (IrqSpinlock.new fun _ => true) c ∧ (c.thread 1).pc = .holding true :=
    exists_reach [(0, .lock), (0, .step), (0, .step), (1, .lock), (1, .step), (1, .step),
      (0, .drop), (0, .step), (0, .step), (1, .step), (1, .step)] (by decide)
  exact ⟨c, hc, (IrqSpinlock.one_live_guard hr).2 1 true hc⟩

/-- The exchange of CPU 1 falls into the gap of CPU 0's drop; CPU 0's second release clears the
word under it, and CPU 2 acquires too. -/
theorem IrqSpinlock.two_live_guards :
    ∃ c : IrqConf (Fin 3), Reach (Fires IrqSpinlock.next fun _ _ => True)
        (IrqSpinlock.new fun _ => true) c ∧
      (c.thread 1).pc = .holding true ∧ (c.thread 2).pc = .holding true :=
  exists_reach [(0, .lock), (0, .step), (0, .step), (1, .lock), (1, .step), (0, .drop),
    (1, .step), (0, .step), (0, .step), (2, .lock), (2, .step), (2, .step)] (by decide)

end Kerners.Sync
