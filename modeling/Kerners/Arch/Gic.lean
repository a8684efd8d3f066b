import Kerners.Proc.Scheduler

/-!
# Interrupts on AArch64 (`src/arch/aarch64/gic.rs`, `src/arch/aarch64/timer.rs`)

`handle_irq` acknowledges an interrupt at the CPU's GIC interface, runs its handler and ends the
interrupt. The handlers of the timer and of the reschedule interrupt call `schedule()`, which may
switch to another thread; the rest of `handle_irq` runs when the interrupted one is resumed.

* The GIC interface of a CPU is the list of interrupts it has acknowledged and not ended. An
  interrupt is the value `ack_irq` reads; its low ten bits are the number (`irqNum`).
* A CPU executes thread code, or stands in `handle_irq` before or after the handler (`Mode`). A
  thread that is switched out resumes in thread code, which is also where a new thread starts, or in
  `handle_irq` after the handler (`Resume`).
* Threads are those of `Kerners.Proc`: `schedule()` is `Kernel.select` followed by the switch.
-/

namespace Kerners.Arch

open Lib Proc Function

/-- The interrupt number in the value `ack_irq` returns: `irq & 0x3FF`. -/
def irqNum (irq : Nat) : Nat := irq % 1024

def sgiReschedule : Nat := 0

def irqPhysTimer : Nat := 30

/-- The handler of this interrupt calls `schedule()`: the reschedule interrupt among the SGIs, and
the timer. The UART and VirtIO handlers do not. -/
def schedules (irq : Nat) : Bool :=
  if irqNum irq < 16 then irqNum irq == sgiReschedule else irqNum irq == irqPhysTimer

inductive Mode where
  /-- Thread code, outside the interrupt path. -/
  | code
  /-- `handle_irq`, the interrupt acknowledged and the handler still to run. -/
  | acked (irq : Nat)
  /-- `handle_irq`, the handler done and the interrupt still to be ended. -/
  | handled (irq : Nat)
  deriving DecidableEq

inductive Resume where
  /-- In thread code: a new thread, or one that called `schedule()` itself. -/
  | code
  /-- In the `handle_irq` whose handler called `schedule()`. -/
  | handler (irq : Nat)
  deriving DecidableEq

def Resume.mode : Resume → Mode
  | .code => .code
  | .handler irq => .handled irq

structure Gic (κ : Type) where
  w : World κ
  mode : Nat → Mode
  active : Nat → List Nat
  cont : Nat → Resume

namespace Gic

variable {κ : Type} (s : Gic κ)

/-- `schedule()` on CPU `c`; the calling thread goes on at `here`. -/
def schedule (c : Nat) (here : Resume) : Gic κ :=
  match s.w.k.select c with
  | (k, none) => { s with w := { s.w with k := k }, mode := update s.mode c here.mode }
  | (k, some (old, new)) =>
    { s with
      w := { s.w with k := k }
      mode := update s.mode c (s.cont new).mode
      cont := update s.cont old here }

/-- `ack_irq`, and the return of `handle_irq` on a spurious interrupt. -/
def ack (c irq : Nat) : Gic κ :=
  if irqNum irq ≥ 1020 then s
  else
    { s with
      mode := update s.mode c (.acked irq)
      active := update s.active c (irq :: s.active c) }

def handle (c irq : Nat) : Gic κ :=
  if schedules irq = true then s.schedule c (.handler irq)
  else { s with mode := update s.mode c (.handled irq) }

/-- `end_irq`, and the return to thread code. -/
def endIrq (c irq : Nat) : Gic κ :=
  { s with
    mode := update s.mode c .code
    active := update s.active c ((s.active c).erase irq) }

variable [Inhabited κ]

/-- A secondary CPU comes up; its GIC interface has nothing active. -/
def comeUp (c : Nat) : Gic κ :=
  { s with
    w := s.w.comeUp c
    mode := update s.mode c .code
    active := update s.active c [] }

/-- After `proc::init`. -/
def start : Gic κ := ⟨.start, fun _ => .code, fun _ => [], fun _ => .code⟩

end Gic

inductive GicStep {κ : Type} [Inhabited κ] (ok : Gic κ → Nat → Prop) : Gic κ → Gic κ → Prop
  | spawn (s : Gic κ) (name : String) (context : κ) :
      s.w.k.threads.length + 1 < noThread →
      GicStep ok s { s with w := { s.w with k := (s.w.k.spawn name context).2 } }
  | comeUp (s : Gic κ) (c : Nat) :
      c ∉ s.w.up → OwnEntry c → s.w.k.threads.length + 1 < noThread → GicStep ok s (s.comeUp c)
  | exit (s : Gic κ) (c : Nat) :
      c ∈ s.w.up → s.mode c = .code → (∀ c' ∈ s.w.up, s.w.idle c' ≠ s.w.current c) →
      GicStep ok s { s with w := s.w.exit c }
  | yield (s : Gic κ) (c : Nat) :
      c ∈ s.w.up → s.mode c = .code → GicStep ok s (s.schedule c .code)
  | ack (s : Gic κ) (c irq : Nat) :
      c ∈ s.w.up → s.mode c = .code → GicStep ok s (s.ack c irq)
  | handle (s : Gic κ) (c irq : Nat) :
      c ∈ s.w.up → s.mode c = .acked irq → (schedules irq = true → ok s c) →
      GicStep ok s (s.handle c irq)
  | endIrq (s : Gic κ) (c irq : Nat) :
      c ∈ s.w.up → s.mode c = .handled irq → GicStep ok s (s.endIrq c irq)

/-- No thread but the current one can run on CPU `c`. -/
def NoOther {κ : Type} (s : Gic κ) (c : Nat) : Prop :=
  ∀ j, j ≠ s.w.current c → ¬ Runnable s.w.k.threads c j

/-- The interrupts that are active in a mode, if every one is ended in time. -/
def Mode.actives : Mode → List Nat
  | .code => []
  | .acked irq => [irq]
  | .handled irq => [irq]

/-! ## The invariant -/

section

variable {κ : Type} {s : Gic κ}

/-- What every step keeps: no thread is left behind in a handler. -/
structure GicInv (s : Gic κ) : Prop where
  inv : Inv s.w
  active : ∀ c ∈ s.w.up, s.active c = (s.mode c).actives
  cont : ∀ i, s.cont i = .code

theorem GicInv.setMode (hi : GicInv s) {k : Kernel κ} (hk : Inv { s.w with k := k }) (c : Nat)
    (m : Mode) : GicInv
      { s with
        w := { s.w with k := k }
        mode := update s.mode c m
        active := update s.active c m.actives } := by
  refine ⟨hk, fun c' hc' => ?_, hi.cont⟩
  by_cases he : c' = c
  · subst he
    simp
  · simpa [update_of_ne he] using hi.active c' hc'

theorem GicInv.keepActive (hi : GicInv s) {k : Kernel κ} (hk : Inv { s.w with k := k }) {c : Nat}
    {m : Mode} (h : s.active c = m.actives) :
    GicInv { s with w := { s.w with k := k }, mode := update s.mode c m } := by
  have := hi.setMode hk c m
  rwa [← h, update_eq_self] at this

theorem GicInv.yield (hi : GicInv s) {c : Nat} (hc : c ∈ s.w.up) (hm : s.mode c = .code) :
    GicInv (s.schedule c .code) := by
  have hact : s.active c = Mode.code.actives := by rw [hi.active c hc, hm]
  unfold Gic.schedule
  rcases select_cases hi.inv hc with hsel | ⟨j, hj, hrun, hsel⟩
  · rw [hsel]
    exact hi.keepActive (k := s.w.k) hi.inv hact
  · rw [hsel]
    have hcont : update s.cont (s.w.current c) Resume.code = s.cont := by
      rw [← hi.cont (s.w.current c), update_eq_self]
    simp only [hcont, hi.cont j]
    exact hi.keepActive (hi.inv.switched hc hj hrun) hact

theorem GicInv.handle (hi : GicInv s) {c irq : Nat} (hc : c ∈ s.w.up) (hm : s.mode c = .acked irq)
    (hok : schedules irq = true → NoOther s c) : GicInv (s.handle c irq) := by
  have hact : s.active c = (Mode.handled irq).actives := by rw [hi.active c hc, hm]; rfl
  unfold Gic.handle
  split
  · rename_i hs
    unfold Gic.schedule
    rcases select_cases hi.inv hc with hsel | ⟨j, hj, hrun, -⟩
    · rw [hsel]
      exact hi.keepActive (k := s.w.k) hi.inv hact
    · exact absurd hrun (hok hs j hj)
  · exact hi.keepActive (k := s.w.k) hi.inv hact

variable [Inhabited κ]

theorem GicInv.comeUp (hi : GicInv s) {c : Nat} (hnew : c ∉ s.w.up) (hc : c < maxCpus)
    (hroom : s.w.k.threads.length + 1 < noThread) : GicInv (s.comeUp c) := by
  refine ⟨hi.inv.comeUp hnew hc hroom, fun c' hc' => ?_, hi.cont⟩
  change update s.active c [] c' = (update s.mode c .code c').actives
  rcases List.mem_cons.1 hc' with rfl | hm
  · simp [Mode.actives]
  · have hne : c' ≠ c := fun h => hnew (h ▸ hm)
    rw [update_of_ne hne, update_of_ne hne]
    exact hi.active c' hm

theorem GicInv.step {s' : Gic κ} (hi : GicInv s) (h : GicStep NoOther s s') : GicInv s' := by
  cases h with
  | spawn name context hroom => exact ⟨hi.inv.spawn name context hroom, hi.active, hi.cont⟩
  | comeUp c hnew hok hroom => exact hi.comeUp hnew hok hroom
  | exit c hc hm hidle => exact ⟨hi.inv.exit hc hidle, hi.active, hi.cont⟩
  | yield c hc hm => exact hi.yield hc hm
  | ack c irq hc hm =>
    have hact : s.active c = [] := by rw [hi.active c hc, hm]; rfl
    unfold Gic.ack
    split
    · exact hi
    · rw [hact]
      exact hi.setMode (k := s.w.k) hi.inv c (.acked irq)
  | handle c irq hc hm hok => exact hi.handle hc hm hok
  | endIrq c irq hc hm =>
    have hact : (s.active c).erase irq = [] := by
      rw [hi.active c hc, hm]
      simp [Mode.actives]
    unfold Gic.endIrq
    rw [hact]
    exact hi.setMode (k := s.w.k) hi.inv c .code

theorem GicInv.start : GicInv (Gic.start : Gic κ) := ⟨Inv.start, fun _ _ => rfl, fun _ => rfl⟩

end

/-! ## Results -/

variable {κ : Type}

/-- Whenever a CPU executes thread code, it has no active interrupt. -/
def QuietInCode (s : Gic κ) : Prop := ∀ c ∈ s.w.up, s.mode c = .code → s.active c = []

/-- **Every acknowledged interrupt is ended before thread code runs**, in every run in which a
handler calls `schedule()` only when no other thread can run on its CPU. -/
theorem no_active_in_thread_code [Inhabited κ] (s : Gic κ)
    (h : Reach (GicStep NoOther) Gic.start s) : QuietInCode s := by
  have hi : GicInv s := Reach.invariant GicInv.start GicInv.step h
  intro c hc hm
  rw [hi.active c hc, hm]
  rfl

theorem no_active_in_thread_code_after_tick : ∃ s : Gic Unit,
    Reach (GicStep NoOther) Gic.start s ∧ s.w.current 0 = 1 ∧ s.mode 0 = .code ∧
      QuietInCode s := by
  have h1 : Reach (GicStep NoOther) (Gic.start : Gic Unit) _ :=
    Reach.refl.tail (.ack _ 0 30 (by decide) (by decide))
  have h2 := h1.tail (.handle _ 0 30 (by decide) (by decide) (fun _ j hj hrun => by
    have hlt : j < 1 := lt_of_stateOf hrun.1
    exact hj (by rw [show j = 0 by omega]; decide)))
  have h3 := h2.tail (.endIrq _ 0 30 (by decide) (by decide))
  have h4 := h3.tail (.spawn _ "a" () (by decide))
  have h5 := h4.tail (.yield _ 0 (by decide) (by decide))
  exact ⟨_, h5, by decide, by decide, no_active_in_thread_code _ h5⟩

/-- **The timer's `schedule()` starts a new thread while the timer interrupt is active.** -/
theorem thread_starts_with_active_timer : ∃ s : Gic Unit,
    Reach (GicStep fun _ _ => True) Gic.start s ∧ s.w.current 0 = 1 ∧ s.mode 0 = .code ∧
      s.active 0 = [30] ∧ ¬ QuietInCode s := by
  have h1 : Reach (GicStep fun _ _ => True) (Gic.start : Gic Unit) _ :=
    Reach.refl.tail (.spawn _ "a" () (by decide))
  have h2 := h1.tail (.ack _ 0 30 (by decide) (by decide))
  have h3 := h2.tail (.handle _ 0 30 (by decide) (by decide) (fun _ => trivial))
  refine ⟨_, h3, by decide, by decide, by decide, fun hq => ?_⟩
  exact absurd (hq 0 (by decide) (by decide)) (by decide)

end Kerners.Arch
