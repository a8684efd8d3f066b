import Mathlib.Logic.Function.Basic
import Kerners.Lib.Machine

/-!
# Interrupts and the lock `THREADS` (`src/proc/mod.rs`, `src/sync/mutex.rs`)

One CPU. Its threads call kernel functions that take and release `THREADS` with interrupts enabled;
a timer or reschedule interrupt may arrive between any two steps, and its handler calls
`schedule()`, which takes the same lock with interrupts masked. `Mutex::lock` spins until a
`compare_exchange` succeeds; it neither masks interrupts nor gives up.

* A thread is a continuation: what is left of the kernel call it makes and, when an interrupt came
  in, what is left of the handler. `context_switch` leaves both as they are and resumes another
  thread, which may itself stand in a handler.
-/

namespace Kerners.Proc

open Lib

/-! ## The code -/

/-- What a kernel function does, as far as `THREADS` is concerned. -/
inductive Op where
  /-- Anything that does not touch the lock. -/
  | access
  /-- `THREADS.lock()`. -/
  | lock
  /-- The guard is dropped. -/
  | unlock
  /-- `context_switch`. -/
  | switch
  deriving DecidableEq

/-- The functions that take `THREADS` with interrupts enabled. -/
inductive Call where
  | spawn
  | exit
  | currentTid
  | currentContextPtr
  | dumpThreads
  | readyCount
  | activeCount
  | schedule
  deriving DecidableEq

def critical : List Op := [.lock, .access, .unlock]

/-- `schedule()`: not initialised yet, the current thread goes on, or a switch. -/
def schedulePaths : List (List Op) :=
  [[.access], .access :: critical, .access :: critical ++ [.switch]]

def paths : Call → List (List Op)
  | .spawn => [.access :: critical ++ [.access]]
  | .exit => schedulePaths.map fun p => .access :: critical ++ p
  | .currentTid | .currentContextPtr => [[.access], .access :: critical]
  | .dumpThreads | .readyCount | .activeCount => [critical]
  | .schedule => schedulePaths

/-- `handle_irq` for the timer and for the reschedule interrupt: acknowledge, `schedule()`, end. -/
def handlerPaths : List (List Op) := schedulePaths.map fun p => .access :: p ++ [.access]

structure Cont where
  code : List Op
  handler : Option (List Op)
  deriving DecidableEq

namespace Cont

def top (t : Cont) : List Op := t.handler.getD t.code

def setTop (t : Cont) (ops : List Op) : Cont :=
  match t.handler with
  | none => { t with code := ops }
  | some _ => { t with handler := some ops }

end Cont

/-- The lock, the thread the CPU executes and the continuations of all threads. -/
structure Cpu where
  locked : Bool
  cur : Nat
  conts : Nat → Cont

namespace Cpu

variable (s : Cpu)

def cont : Cont := s.conts s.cur

def setCont (t : Cont) : Cpu := { s with conts := Function.update s.conts s.cur t }

/-- Every thread is outside the kernel functions, the lock is free. -/
def start : Cpu := ⟨false, 0, fun _ => ⟨[], none⟩⟩

end Cpu

inductive PreemptStep (ok : Cpu → Prop) : Cpu → Cpu → Prop
  | call (s : Cpu) (f : Call) (p : List Op) :
      s.cont = ⟨[], none⟩ → p ∈ paths f → PreemptStep ok s (s.setCont ⟨p, none⟩)
  | irq (s : Cpu) (p : List Op) :
      s.cont.handler = none → ok s → p ∈ handlerPaths →
      PreemptStep ok s (s.setCont ⟨s.cont.code, some p⟩)
  | access (s : Cpu) (rest : List Op) :
      s.cont.top = .access :: rest → PreemptStep ok s (s.setCont (s.cont.setTop rest))
  | lock (s : Cpu) (rest : List Op) :
      s.cont.top = .lock :: rest → s.locked = false →
      PreemptStep ok s { s.setCont (s.cont.setTop rest) with locked := true }
  | spin (s : Cpu) (rest : List Op) :
      s.cont.top = .lock :: rest → s.locked = true → PreemptStep ok s s
  | unlock (s : Cpu) (rest : List Op) :
      s.cont.top = .unlock :: rest →
      PreemptStep ok s { s.setCont (s.cont.setTop rest) with locked := false }
  | switch (s : Cpu) (rest : List Op) (next : Nat) :
      s.cont.top = .switch :: rest →
      PreemptStep ok s { s.setCont (s.cont.setTop rest) with cur := next }
  | iret (s : Cpu) :
      s.cont.handler = some [] → PreemptStep ok s (s.setCont ⟨s.cont.code, none⟩)

/-- The code stands between taking `THREADS` and releasing it. -/
def holds : List Op → Bool
  | [] => false
  | .lock :: _ => false
  | .unlock :: _ => true
  | _ :: rest => holds rest

/-- The interrupted code does not hold `THREADS`. -/
def CodeUnlocked (s : Cpu) : Prop := holds s.cont.code = false

/-- The handler spins on `THREADS` while the code it interrupted holds it. -/
def SelfDeadlock (s : Cpu) : Prop :=
  ∃ rest, s.cont.handler = some (.lock :: rest) ∧ s.locked = true ∧ holds s.cont.code = true

/-! ## The invariant -/

/-- Lock and unlock alternate, starting in a critical section or not, and the code does not switch
or return inside one. -/
def bracketed : Bool → List Op → Bool
  | held, [] => !held
  | held, .access :: rest => bracketed held rest
  | held, .lock :: rest => !held && bracketed true rest
  | held, .unlock :: rest => held && bracketed false rest
  | held, .switch :: rest => !held && bracketed false rest

/-- What is left of a function is bracketed from where it stands. -/
def Bracketed (ops : List Op) : Prop := bracketed (holds ops) ops = true

theorem holds_of_bracketed : ∀ {held : Bool} {ops : List Op}, bracketed held ops = true →
    holds ops = held
  | held, [], h => by simpa [bracketed, holds] using h
  | held, .access :: rest, h => (holds_of_bracketed h : holds rest = held)
  | held, .lock :: rest, h => by simp [bracketed] at h; simp [holds, h.1]
  | held, .unlock :: rest, h => by simp [bracketed] at h; simp [holds, h.1]
  | held, .switch :: rest, h => by
    simp [bracketed] at h
    simp [holds, holds_of_bracketed h.2, h.1]

theorem bracketed_iff {held : Bool} {ops : List Op} :
    bracketed held ops = true ↔ Bracketed ops ∧ holds ops = held := by
  constructor
  · intro h
    have hheld := holds_of_bracketed h
    unfold Bracketed
    exact ⟨by rwa [hheld], hheld⟩
  · rintro ⟨h, rfl⟩
    exact h

theorem paths_bracketed (f : Call) : ∀ p ∈ paths f, bracketed false p = true := by
  cases f <;> decide

theorem handlerPaths_bracketed : ∀ p ∈ handlerPaths, bracketed false p = true := by decide

/-- The lock is held exactly by what the CPU executes; interrupted code and other threads do not
hold it. -/
structure Balanced (s : Cpu) : Prop where
  code : ∀ i, Bracketed (s.conts i).code
  handler : ∀ i, ∀ h ∈ (s.conts i).handler, Bracketed h ∧ holds (s.conts i).code = false
  others : ∀ i, i ≠ s.cur → holds (s.conts i).top = false
  locked : s.locked = holds s.cont.top

namespace Balanced

variable {s : Cpu}

theorem top (hb : Balanced s) : Bracketed s.cont.top := by
  unfold Cont.top
  cases hh : s.cont.handler with
  | none => exact hb.code s.cur
  | some h => exact (hb.handler s.cur h hh).1

theorem setCont (hb : Balanced s) {t : Cont} (hcode : Bracketed t.code)
    (hhandler : ∀ h ∈ t.handler, Bracketed h ∧ holds t.code = false) (locked : Bool)
    (hlocked : locked = holds t.top) : Balanced { s.setCont t with locked := locked } := by
  have hupd : ∀ i, (s.setCont t).conts i = if i = s.cur then t else s.conts i :=
    fun i => Function.update_apply ..
  refine ⟨?_, ?_, ?_, ?_⟩
  · intro i
    change Bracketed ((s.setCont t).conts i).code
    rw [hupd]
    split
    · exact hcode
    · exact hb.code i
  · intro i h
    change h ∈ ((s.setCont t).conts i).handler → _ ∧ holds ((s.setCont t).conts i).code = false
    rw [hupd]
    split
    · exact hhandler h
    · exact hb.handler i h
  · intro i (hne : i ≠ s.cur)
    change holds ((s.setCont t).conts i).top = false
    rw [hupd, if_neg hne]
    exact hb.others i hne
  · change locked = holds ((s.setCont t).conts s.cur).top
    rw [hupd, if_pos rfl]
    exact hlocked

theorem pop (hb : Balanced s) {rest : List Op} {held : Bool} (h : bracketed held rest = true) :
    Balanced { s.setCont (s.cont.setTop rest) with locked := held } := by
  obtain ⟨hrest, hheld⟩ := bracketed_iff.1 h
  unfold Cont.setTop
  cases hh : s.cont.handler with
  | none =>
    exact hb.setCont (t := ⟨rest, none⟩) hrest (by simp) held hheld.symm
  | some f =>
    refine hb.setCont (t := ⟨s.cont.code, some rest⟩) (hb.code s.cur) ?_ held hheld.symm
    rintro h ⟨⟩
    exact ⟨hrest, (hb.handler s.cur f hh).2⟩

theorem resume (hb : Balanced s) (hfree : s.locked = false) (next : Nat) :
    Balanced { s with cur := next } := by
  have hnone : ∀ i, holds (s.conts i).top = false := by
    intro i
    by_cases hi : i = s.cur
    · rw [hi]
      exact hb.locked.symm.trans hfree
    · exact hb.others i hi
  exact ⟨hb.code, hb.handler, fun i _ => hnone i, hfree.trans (hnone next).symm⟩

theorem step {s' : Cpu} (hb : Balanced s) (h : PreemptStep CodeUnlocked s s') : Balanced s' := by
  cases h with
  | call f p hidle hp =>
    obtain ⟨hbr, hno⟩ := bracketed_iff.1 (paths_bracketed f p hp)
    have hlocked : s.locked = false := by rw [hb.locked, hidle]; rfl
    exact hb.setCont (t := ⟨p, none⟩) hbr (by simp) s.locked (hlocked.trans hno.symm)
  | irq p hh hok hp =>
    obtain ⟨hbr, hno⟩ := bracketed_iff.1 (handlerPaths_bracketed p hp)
    have hlocked : s.locked = false := by
      rw [hb.locked, Cont.top, hh]
      exact hok
    refine hb.setCont (t := ⟨s.cont.code, some p⟩) (hb.code s.cur) ?_ s.locked
      (hlocked.trans hno.symm)
    rintro h ⟨⟩
    exact ⟨hbr, hok⟩
  | access rest ht =>
    have hbr := hb.top
    rw [Bracketed, ht] at hbr
    have hrest : bracketed s.locked rest = true := by
      rw [hb.locked, ht]
      exact hbr
    exact hb.pop hrest
  | lock rest ht hfree =>
    have hbr := hb.top
    rw [Bracketed, ht] at hbr
    exact hb.pop hbr
  | spin rest ht hl => exact hb
  | unlock rest ht =>
    have hbr := hb.top
    rw [Bracketed, ht] at hbr
    exact hb.pop hbr
  | switch rest next ht =>
    have hbr := hb.top
    rw [Bracketed, ht] at hbr
    obtain ⟨hno, hrest⟩ := Bool.and_eq_true_iff.1 hbr
    have hfree : s.locked = false := by
      rw [hb.locked, ht]
      simpa using hno
    have hpop : Balanced (s.setCont (s.cont.setTop rest)) := by
      have := hb.pop hrest
      rwa [← hfree] at this
    exact hpop.resume hfree next
  | iret hh =>
    have hno := hb.handler s.cur [] hh
    refine hb.setCont (t := ⟨s.cont.code, none⟩) (hb.code s.cur) (by simp) s.locked ?_
    rw [hb.locked, Cont.top, hh]
    exact hno.2.symm

theorem start : Balanced Cpu.start :=
  ⟨fun _ => rfl, fun _ _ h => by simp [Cpu.start] at h, fun _ _ => rfl, rfl⟩

end Balanced

/-! ## Results -/

theorem lock_free_when_wanted {s : Cpu} (h : Reach (PreemptStep CodeUnlocked) Cpu.start s)
    {rest : List Op} (ht : s.cont.top = .lock :: rest) : s.locked = false := by
  have hb : Balanced s := Reach.invariant Balanced.start Balanced.step h
  rw [hb.locked, ht]
  rfl

/-- **The handler never spins on a lock that the code it interrupted holds**, in every run in which
no interrupt arrives while the code it interrupts holds `THREADS`. -/
theorem no_self_deadlock (s : Cpu) (h : Reach (PreemptStep CodeUnlocked) Cpu.start s) :
    ¬ SelfDeadlock s := by
  rintro ⟨rest, hh, hl, -⟩
  have hfree := lock_free_when_wanted h (show s.cont.top = .lock :: rest by rw [Cont.top, hh]; rfl)
  exact absurd hl (by rw [hfree]; decide)

theorem no_self_deadlock_at_lock : ∃ s : Cpu,
    Reach (PreemptStep CodeUnlocked) Cpu.start s ∧
      s.cont = ⟨critical, some (critical ++ [.access])⟩ ∧
      ¬ SelfDeadlock s := by
  have h1 : Reach (PreemptStep CodeUnlocked) Cpu.start _ :=
    Reach.refl.tail (.call _ .currentTid (.access :: critical) rfl (by decide))
  have h2 := h1.tail (.access _ critical rfl)
  have h3 := h2.tail (.irq _ (.access :: (.access :: critical) ++ [.access]) rfl
    (show _ = false from rfl) (by decide))
  have h4 := h3.tail (.access _ (.access :: critical ++ [.access]) rfl)
  have h5 := h4.tail (.access _ (critical ++ [.access]) rfl)
  exact ⟨_, h5, rfl, no_self_deadlock _ h5⟩

/-- **A timer tick inside `current_tid`**: the handler wants the lock that `current_tid` holds. -/
theorem handler_spins_on_own_lock : ∃ s : Cpu,
    Reach (PreemptStep fun _ => True) Cpu.start s ∧ s.cont.code = [.access, .unlock] ∧
      SelfDeadlock s := by
  have h1 : Reach (PreemptStep fun _ => True) Cpu.start _ :=
    Reach.refl.tail (.call _ .currentTid (.access :: critical) rfl (by decide))
  have h2 := h1.tail (.access _ critical rfl)
  have h3 := h2.tail (.lock _ [.access, .unlock] rfl rfl)
  have h4 := h3.tail (.irq _ (.access :: (.access :: critical) ++ [.access]) rfl trivial
    (by decide))
  have h5 := h4.tail (.access _ (.access :: critical ++ [.access]) rfl)
  have h6 := h5.tail (.access _ (critical ++ [.access]) rfl)
  exact ⟨_, h6, rfl, _, rfl, rfl, rfl⟩

/-! ## After the tick -/

/-- `x` is as `s` was at the tick, and the handler has nothing but accesses in front of the lock. -/
structure Hung (s x : Cpu) : Prop where
  cur : x.cur = s.cur
  locked : x.locked = true
  code : x.cont.code = s.cont.code
  handler : ∃ n rest, x.cont.handler = some (List.replicate n .access ++ .lock :: rest)

theorem Hung.step {ok : Cpu → Prop} {s x x' : Cpu} (h : Hung s x) (hs : PreemptStep ok x x') :
    Hung s x' := by
  obtain ⟨n, rest, hh⟩ := h.handler
  have ht : x.cont.top = List.replicate n .access ++ .lock :: rest := by rw [Cont.top, hh]; rfl
  cases hs with
  | call f p hidle hp => simp [hidle] at hh
  | irq p hnone hok hp => simp [hnone] at hh
  | iret h' => simp [h'] at hh
  | spin _ _ _ => exact h
  | lock _ _ hfree => simp [h.locked] at hfree
  | access ops h' =>
    cases n with
    | zero => simp [ht] at h'
    | succ n =>
      obtain rfl : List.replicate n .access ++ .lock :: rest = ops := by
        simpa [ht, List.replicate_succ] using h'
      have hset : (x.setCont (x.cont.setTop (List.replicate n .access ++ .lock :: rest))).cont =
          ⟨x.cont.code, some (List.replicate n .access ++ .lock :: rest)⟩ := by
        simp [Cpu.cont, Cpu.setCont, Cont.setTop, show (x.conts x.cur).handler = _ from hh]
      exact ⟨h.cur, h.locked, by rw [hset, h.code], n, rest, by rw [hset]⟩
  | unlock _ h' | switch _ _ h' => cases n <;> simp [ht, List.replicate_succ] at h'

/-- **A tick inside a critical section stops the CPU for good**: when the code that an interrupt finds
on this CPU holds `THREADS` and the handler takes it, then in every run from there that code does not
go on and the handler does not get past the lock. No tick before it came in a critical section. -/
theorem tick_in_critical_hangs {ok : Cpu → Prop} {s s' : Cpu} {p : List Op}
    (hs : Reach (PreemptStep CodeUnlocked) Cpu.start s)
    (hcode : s.cont.handler = none)
    (hholds : holds s.cont.code = true)
    (hp : p ∈ handlerPaths)
    (hlock : .lock ∈ p)
    (h : Reach (PreemptStep ok) (s.setCont ⟨s.cont.code, some p⟩) s') :
    Hung s s' := by
  have hb : Balanced s := Reach.invariant Balanced.start Balanced.step hs
  have hl : s.locked = true := by
    rw [hb.locked, Cont.top, hcode]
    exact hholds
  have hstart : Hung s (s.setCont ⟨s.cont.code, some p⟩) := by
    refine ⟨rfl, hl, by simp [Cpu.cont, Cpu.setCont], ?_⟩
    simp only [handlerPaths, schedulePaths, List.map_cons, List.map_nil, List.mem_cons,
      List.not_mem_nil, or_false] at hp
    obtain rfl | rfl | rfl := hp
    · simp at hlock
    · exact ⟨2, [.access, .unlock, .access], by simp [Cpu.cont, Cpu.setCont, critical]⟩
    · exact ⟨2, [.access, .unlock, .switch, .access], by simp [Cpu.cont, Cpu.setCont, critical]⟩
  exact Reach.invariant hstart Hung.step h

theorem tick_in_critical_hangs_currentTid : ∃ s s' : Cpu,
    s.cont.code = [.access, .unlock] ∧
      s'.cont.handler = some (critical ++ [.access]) ∧
      Hung s s' := by
  have h1 : Reach (PreemptStep CodeUnlocked) Cpu.start _ :=
    Reach.refl.tail (.call _ .currentTid (.access :: critical) rfl (by decide))
  have h2 := h1.tail (.access _ critical rfl)
  have h3 := h2.tail (.lock _ [.access, .unlock] rfl rfl)
  refine ⟨_, _, ?_, ?_, tick_in_critical_hangs (p := .access :: (.access :: critical) ++ [.access]) h3
    rfl rfl (by decide) (by decide) (show Reach (PreemptStep fun _ => True) _ _ from
      (Reach.refl.tail (.access _ (.access :: critical ++ [.access]) rfl)).tail
        (.access _ (critical ++ [.access]) rfl))⟩
  · rfl
  · rfl

end Kerners.Proc
