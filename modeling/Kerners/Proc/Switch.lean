import Kerners.Proc.Scheduler

/-!
# Switching contexts on several CPUs (`src/proc/scheduler.rs`, `src/proc/context.rs`)

`schedule()` has two parts: the selection under the lock `THREADS`, which marks the outgoing thread
ready and the incoming one running, and `context_switch` after the lock is released, which stores
the registers of the CPU into the outgoing thread's `Context` and loads the incoming thread's. Here
they are two steps, and CPUs interleave between them.

* `Smp.pending c` is the pair of threads of a CPU that has selected and not yet switched;
  `Smp.exec c` is the thread whose code CPU `c` executes, whatever `PER_CPU` says.
-/

namespace Kerners.Proc

open Lib Function List

/-! ## Contexts of threads -/

section

variable {κ : Type} {ts : List (Thread κ)} {i : Nat}

/-- The `Context` of thread `i`. -/
def contextOf (ts : List (Thread κ)) (i : Nat) : Option κ := ts[i]?.map (·.context)

/-- `*old_ctx` overwritten. -/
def setContext (i : Nat) (context : κ) (ts : List (Thread κ)) : List (Thread κ) :=
  ts.modify i fun t => { t with context := context }

@[simp] theorem length_setContext (i : Nat) (r : κ) (ts : List (Thread κ)) :
    (setContext i r ts).length = ts.length := by simp [setContext]

@[simp] theorem stateOf_setContext (i j : Nat) (r : κ) (ts : List (Thread κ)) :
    stateOf (setContext i r ts) j = stateOf ts j := by
  unfold stateOf setContext
  rw [getElem?_modify]
  cases ts[j]? <;> simp
  split <;> rfl

@[simp] theorem affinityOf_setContext (i j : Nat) (r : κ) (ts : List (Thread κ)) :
    affinityOf (setContext i r ts) j = affinityOf ts j := by
  unfold affinityOf setContext
  rw [getElem?_modify]
  cases ts[j]? <;> simp
  split <;> rfl

theorem contextOf_setContext (i j : Nat) (r : κ) (ts : List (Thread κ)) :
    contextOf (setContext i r ts) j =
      if i = j then (contextOf ts j).map fun _ => r else contextOf ts j := by
  unfold contextOf setContext
  rw [getElem?_modify]
  split
  · cases ts[j]? <;> rfl
  · simp

@[simp] theorem contextOf_setState (i j : Nat) (st : ThreadState) (ts : List (Thread κ)) :
    contextOf (setState i st ts) j = contextOf ts j := by
  unfold contextOf setState
  rw [getElem?_modify]
  cases ts[j]? <;> simp
  split <;> rfl

@[simp] theorem contextOf_demote (i j : Nat) (ts : List (Thread κ)) :
    contextOf (demote i ts) j = contextOf ts j := by
  unfold contextOf demote
  rw [getElem?_modify]
  cases ts[j]? <;> simp
  split <;> [split; skip] <;> rfl

theorem contextOf_append_of_lt (t : Thread κ) (h : i < ts.length) :
    contextOf (ts ++ [t]) i = contextOf ts i := by
  unfold contextOf
  rw [getElem?_append_left h]

theorem contextOf_append_length (ts : List (Thread κ)) (t : Thread κ) :
    contextOf (ts ++ [t]) ts.length = some t.context := by
  simp [contextOf]

theorem exists_contextOf (h : i < ts.length) : ∃ r, contextOf ts i = some r :=
  ⟨ts[i].context, by simp [contextOf, h]⟩

end

/-! ## The machine -/

inductive Held (κ : Type) where
  /-- In its `Context`, stored by the last CPU that ran it; `none` for the initial `Context`. -/
  | saved (cpu : Option Nat) (context : κ)
  /-- In the registers of the CPU that executes it. -/
  | live (cpu : Nat)
  deriving DecidableEq

structure Smp (κ : Type) where
  w : World κ
  /-- The registers `context_switch` stores and loads. -/
  regs : Nat → κ
  /-- Outgoing and incoming thread of a CPU between its selection and its `context_switch`. -/
  pending : Nat → Option (Nat × Nat)
  exec : Nat → Nat
  held : Nat → Held κ

namespace Smp

variable {κ : Type} (s : Smp κ)

/-- The first half of `context_switch`: the registers go to the outgoing thread's `Context`. -/
def store (c old : Nat) : Smp κ :=
  { s with
    w := { s.w with k := { s.w.k with threads := setContext old (s.regs c) s.w.k.threads } }
    held := update s.held old (.saved (some c) (s.regs c)) }

/-- The second half: the incoming thread's `Context` goes to the registers. -/
def load (c new : Nat) : Smp κ :=
  { s with
    regs := update s.regs c ((contextOf s.w.k.threads new).getD (s.regs c))
    pending := update s.pending c none
    exec := update s.exec c new
    held := update s.held new (.live c) }

/-- `context_switch(old_ctx, new_ctx)` on CPU `c`. -/
def contextSwitch (c old new : Nat) : Smp κ := (s.store c old).load c new

/-- The locked part of `schedule()` on CPU `c`. -/
def select (c : Nat) : Smp κ :=
  { s with
    w := { s.w with k := (s.w.k.select c).1 }
    pending := update s.pending c (s.w.k.select c).2 }

/-- `spawn`: the new thread has its initial `Context`. -/
def spawn (name : String) (context : κ) : Smp κ :=
  { s with
    w := { s.w with k := (s.w.k.spawn name context).2 }
    held := update s.held s.w.k.threads.length (.saved none context) }

variable [Inhabited κ]

def comeUp (c : Nat) : Smp κ :=
  { s with
    w := s.w.comeUp c
    pending := update s.pending c none
    exec := update s.exec c s.w.k.threads.length
    held := update s.held s.w.k.threads.length (.live c) }

/-- After `proc::init`. -/
def start : Smp κ := ⟨.start, fun _ => default, fun _ => none, fun _ => 0, fun _ => .live 0⟩

end Smp

/-- The steps of a CPU. Between its selection and its `context_switch` it does nothing else. -/
inductive SwitchStep {κ : Type} [Inhabited κ] (ok : Smp κ → Nat → Prop) : Smp κ → Smp κ → Prop
  | spawn (s : Smp κ) (name : String) (context : κ) :
      s.w.k.threads.length + 1 < noThread → SwitchStep ok s (s.spawn name context)
  | comeUp (s : Smp κ) (c : Nat) :
      c ∉ s.w.up → OwnEntry c → s.w.k.threads.length + 1 < noThread →
      SwitchStep ok s (s.comeUp c)
  | run (s : Smp κ) (c : Nat) (r : κ) :
      c ∈ s.w.up → s.pending c = none →
      SwitchStep ok s { s with regs := update s.regs c r }
  | exit (s : Smp κ) (c : Nat) :
      c ∈ s.w.up → s.pending c = none → (∀ c' ∈ s.w.up, s.w.idle c' ≠ s.w.current c) →
      SwitchStep ok s { s with w := s.w.exit c }
  | select (s : Smp κ) (c : Nat) :
      c ∈ s.w.up → s.pending c = none → ok s c → SwitchStep ok s (s.select c)
  | contextSwitch (s : Smp κ) (c old new : Nat) :
      c ∈ s.w.up → s.pending c = some (old, new) → SwitchStep ok s (s.contextSwitch c old new)

/-- No CPU stands between its selection and its `context_switch` with an outgoing thread that is
ready and may run on CPU `c`. -/
def NoneLeaving {κ : Type} (s : Smp κ) (c : Nat) : Prop :=
  ∀ c' ∈ s.w.up, ∀ old new, s.pending c' = some (old, new) → ¬ Runnable s.w.k.threads c old

instance {κ : Type} (ts : List (Thread κ)) (c i : Nat) : Decidable (Runnable ts c i) :=
  inferInstanceAs (Decidable (_ ∧ (_ ∨ _)))

instance {κ : Type} (s : Smp κ) (c : Nat) : Decidable (NoneLeaving s c) :=
  decidable_of_iff (∀ c' ∈ s.w.up, ∀ p ∈ s.pending c', ¬ Runnable s.w.k.threads c p.1)
    ⟨fun h c' hc' old new hp => h c' hc' (old, new) hp, fun h c' hc' p hp => h c' hc' p.1 p.2 hp⟩

/-! ## The invariant -/

section

variable {κ : Type} {s : Smp κ} {c : Nat}

structure SwitchInv (s : Smp κ) : Prop where
  inv : Inv s.w
  exec_lt : ∀ c ∈ s.w.up, s.exec c < s.w.k.threads.length
  settled : ∀ c ∈ s.w.up, s.pending c = none → s.exec c = s.w.current c
  leaving : ∀ c ∈ s.w.up, ∀ old new, s.pending c = some (old, new) →
    s.exec c = old ∧ s.w.current c = new ∧ ∀ c' ∈ s.w.up, s.exec c' ≠ new
  live : ∀ c ∈ s.w.up, s.held (s.exec c) = .live c
  saved : ∀ i < s.w.k.threads.length, (∀ c ∈ s.w.up, s.exec c ≠ i) →
    ∃ cpu r, s.held i = .saved cpu r ∧ contextOf s.w.k.threads i = some r

theorem SwitchInv.exec_inj (hi : SwitchInv s) {c' : Nat} (hc : c ∈ s.w.up) (hc' : c' ∈ s.w.up)
    (h : s.exec c = s.exec c') : c = c' := by
  have := hi.live c hc
  rw [h, hi.live c' hc'] at this
  injection this with this
  exact this.symm

theorem SwitchInv.inv_setContext (hi : SwitchInv s) (i : Nat) (r : κ) :
    Inv { s.w with k := { s.w.k with threads := setContext i r s.w.k.threads } } := by
  refine hi.inv.retype rfl (by simp) (by simp) ?_ ?_ ?_ ?_
  · simpa using hi.inv.running
  · simpa using hi.inv.terminated
  · simpa using hi.inv.not_blocked
  · exact fun c hc => (hi.inv.idle c hc).2

theorem SwitchInv.spawn (hi : SwitchInv s) (name : String) (context : κ)
    (hroom : s.w.k.threads.length + 1 < noThread) : SwitchInv (s.spawn name context) := by
  set t : Thread κ := ⟨s.w.k.nextTid, name, .ready, context, none⟩ with ht
  have hts : (s.spawn name context).w.k.threads = s.w.k.threads ++ [t] := rfl
  have hlen : (s.spawn name context).w.k.threads.length = s.w.k.threads.length + 1 := by simp [hts]
  refine ⟨hi.inv.spawn name context hroom, ?_, hi.settled, hi.leaving, ?_, ?_⟩
  · intro c hc
    rw [hlen]
    exact Nat.lt_succ_of_lt (hi.exec_lt c hc)
  · intro c hc
    have hne : s.exec c ≠ s.w.k.threads.length := Nat.ne_of_lt (hi.exec_lt c hc)
    change update s.held _ _ (s.exec c) = _
    rw [update_of_ne hne]
    exact hi.live c hc
  · intro i hlt hne
    rw [hlen] at hlt
    rw [hts]
    change ∃ cpu r, update s.held _ _ i = _ ∧ _
    by_cases he : i = s.w.k.threads.length
    · subst he
      exact ⟨none, context, update_self .., contextOf_append_length ..⟩
    · rw [update_of_ne he, contextOf_append_of_lt t (by omega)]
      exact hi.saved i (by omega) hne

theorem SwitchInv.exit (hi : SwitchInv s) (hc : c ∈ s.w.up)
    (hidle : ∀ c' ∈ s.w.up, s.w.idle c' ≠ s.w.current c) :
    SwitchInv { s with w := s.w.exit c } := by
  have hcur : ∀ c', (s.w.exit c).current c' = s.w.current c' := fun c' => by
    unfold World.current
    rw [show (s.w.exit c).k = s.w.k.exit c from rfl, get_exit]
  have hlen : (s.w.exit c).k.threads.length = s.w.k.threads.length := by
    change (s.w.k.exit c).threads.length = _
    unfold Kernel.exit
    simp only
    split <;> simp
  have hctx : ∀ i, contextOf (s.w.exit c).k.threads i = contextOf s.w.k.threads i := by
    intro i
    change contextOf (s.w.k.exit c).threads i = _
    unfold Kernel.exit
    simp only
    split <;> simp
  refine ⟨hi.inv.exit hc hidle, ?_, ?_, ?_, hi.live, ?_⟩
  · intro c' hc'
    rw [hlen]
    exact hi.exec_lt c' hc'
  · intro c' hc' hp
    rw [hcur]
    exact hi.settled c' hc' hp
  · intro c' hc' old new hp
    rw [hcur]
    exact hi.leaving c' hc' old new hp
  · intro i hlt hne
    rw [hctx]
    exact hi.saved i (hlen ▸ hlt) hne

/-- The incoming thread of a selection executes nowhere: a CPU that has switched executes its
current thread, which is not ready, and a CPU that has not is excluded by `NoneLeaving`. -/
theorem SwitchInv.exec_ne_of_runnable (hi : SwitchInv s) {j : Nat} (hok : NoneLeaving s c)
    (hrun : Runnable s.w.k.threads c j) : ∀ c' ∈ s.w.up, s.exec c' ≠ j := by
  intro c' hc' he
  cases hp : s.pending c' with
  | none =>
    have hcur := hi.settled c' hc' hp
    exact (hi.inv.of_ready hrun.1).1 ⟨c', hc', hcur.symm.trans he⟩
  | some p =>
    obtain ⟨old, new⟩ := p
    have hold := (hi.leaving c' hc' old new hp).1
    exact hok c' hc' old new hp (hold.symm.trans he ▸ hrun)

theorem SwitchInv.select (hi : SwitchInv s) (hc : c ∈ s.w.up) (hp : s.pending c = none)
    (hok : NoneLeaving s c) : SwitchInv (s.select c) := by
  rcases select_cases hi.inv hc with hsel | ⟨j, hj, hrun, hsel⟩
  · have : s.select c = s := by
      unfold Smp.select
      rw [hsel]
      simp only [← hp, update_eq_self]
    rw [this]
    exact hi
  · have hfree := hi.exec_ne_of_runnable hok hrun
    have hs : s.select c =
        { s with
          w := { s.w with k := switched s.w.k c j }
          pending := update s.pending c (some (s.w.current c, j)) } := by
      unfold Smp.select
      rw [hsel]
    have hcur : ∀ c' ∈ s.w.up, World.current { s.w with k := switched s.w.k c j } c' =
        if c' = c then j else s.w.current c' := by
      intro c' hc'
      unfold World.current
      rw [get_switched (hi.inv.own c hc) (hi.inv.own c' hc')]
      split <;> rfl
    rw [hs]
    refine ⟨hi.inv.switched hc hj hrun, ?_, ?_, ?_, hi.live, ?_⟩
    · intro c' hc'
      simpa [switched] using hi.exec_lt c' hc'
    · intro c' hc' hp'
      have hne : c' ≠ c := by
        rintro rfl
        simp at hp'
      simp only [update_of_ne hne] at hp'
      rw [hcur c' hc', if_neg hne]
      exact hi.settled c' hc' hp'
    · intro c' hc' old new hp'
      by_cases he : c' = c
      · subst he
        simp only [update_self, Option.some.injEq, Prod.mk.injEq] at hp'
        obtain ⟨rfl, rfl⟩ := hp'
        exact ⟨hi.settled c' hc hp, by rw [hcur c' hc, if_pos rfl], hfree⟩
      · simp only [update_of_ne he] at hp'
        rw [hcur c' hc', if_neg he]
        exact hi.leaving c' hc' old new hp'
    · intro i hlt hne
      have hctx : contextOf (switched s.w.k c j).threads i = contextOf s.w.k.threads i := by
        simp [switched]
      simp only [hctx]
      exact hi.saved i (by simpa [switched] using hlt) hne

theorem SwitchInv.contextSwitch (hi : SwitchInv s) {old new : Nat} (hc : c ∈ s.w.up)
    (hp : s.pending c = some (old, new)) : SwitchInv (s.contextSwitch c old new) := by
  obtain ⟨hold, hnew, hfree⟩ := hi.leaving c hc old new hp
  have hne : old ≠ new := fun he => hfree c hc (hold.trans he)
  have hlt : new < s.w.k.threads.length := hnew ▸ hi.inv.current_lt c hc
  have hother : ∀ c' ∈ s.w.up, c' ≠ c → s.exec c' ≠ old := fun c' hc' h he =>
    h (hi.exec_inj hc' hc (he.trans hold.symm))
  have hexec : ∀ c', (s.contextSwitch c old new).exec c' = if c' = c then new else s.exec c' :=
    fun c' => update_apply ..
  have hheld : ∀ i, (s.contextSwitch c old new).held i =
      if i = new then .live c else if i = old then .saved (some c) (s.regs c) else s.held i := by
    intro i
    change update (update s.held old _) new _ i = _
    rw [update_apply, update_apply]
  have hlen : (s.contextSwitch c old new).w.k.threads.length = s.w.k.threads.length :=
    length_setContext ..
  constructor
  case inv => exact hi.inv_setContext old (s.regs c)
  case exec_lt =>
    intro c' hc'
    rw [hexec, hlen]
    split
    · exact hlt
    · exact hi.exec_lt c' hc'
  case settled =>
    intro c' hc' hp'
    rw [hexec]
    change _ = s.w.current c'
    split
    · rename_i he
      rw [he, hnew]
    · rename_i he
      exact hi.settled c' hc' ((update_of_ne he ..).symm.trans hp')
  case leaving =>
    intro c' hc' old' new' hp'
    have he : c' ≠ c := by
      rintro rfl
      exact absurd ((update_self ..).symm.trans hp') (by simp)
    obtain ⟨ho', hn', hf'⟩ :=
      hi.leaving c' hc' old' new' ((update_of_ne he ..).symm.trans hp')
    refine ⟨by rw [hexec, if_neg he, ho'], hn', fun c'' hc'' => ?_⟩
    rw [hexec]
    split
    · intro hnn
      exact he (hi.inv.current_inj c' hc' c hc (by rw [hn', hnew, hnn]))
    · exact hf' c'' hc''
  case live =>
    intro c' hc'
    rw [hexec, hheld]
    by_cases he : c' = c
    · rw [if_pos he, if_pos rfl, he]
    · rw [if_neg he, if_neg (hfree c' hc'), if_neg (hother c' hc' he)]
      exact hi.live c' hc'
  case saved =>
    intro i hi' hnot
    rw [hlen] at hi'
    have hin : i ≠ new := fun h => hnot c hc (by rw [hexec, if_pos rfl, h])
    change ∃ cpu r, _ ∧ contextOf (setContext old (s.regs c) s.w.k.threads) i = _
    rw [hheld, if_neg hin, contextOf_setContext]
    by_cases hio : i = old
    · obtain ⟨r, hr⟩ := exists_contextOf hi'
      rw [if_pos hio, if_pos hio.symm, hr]
      exact ⟨_, _, rfl, rfl⟩
    · rw [if_neg hio, if_neg (Ne.symm hio)]
      refine hi.saved i hi' fun c' hc' he => ?_
      by_cases hcc : c' = c
      · exact hio (by rw [← he, hcc, hold])
      · exact hnot c' hc' (by rw [hexec, if_neg hcc, he])

variable [Inhabited κ]

theorem SwitchInv.comeUp (hi : SwitchInv s) (hnewc : c ∉ s.w.up) (hc : c < maxCpus)
    (hroom : s.w.k.threads.length + 1 < noThread) : SwitchInv (s.comeUp c) := by
  have hne : ∀ c' ∈ s.w.up, c' ≠ c := fun c' hc' h => hnewc (h ▸ hc')
  have hexec : ∀ c', (s.comeUp c).exec c' =
      if c' = c then s.w.k.threads.length else s.exec c' := fun c' => update_apply ..
  have hheld : ∀ i, (s.comeUp c).held i =
      if i = s.w.k.threads.length then .live c else s.held i := fun i => update_apply ..
  have hts : (s.comeUp c).w.k.threads = s.w.k.threads ++ [(s.w.k.initSecondary c).idleForCpu c] :=
    comeUp_threads
  have hlen : (s.comeUp c).w.k.threads.length = s.w.k.threads.length + 1 := by simp [hts]
  have hcur : ∀ c', c' < maxCpus → (s.comeUp c).w.current c' =
      if c' = c then s.w.k.threads.length else s.w.current c' := by
    intro c' hc'
    unfold World.current
    rw [show (s.comeUp c).w.k.get c' = (s.w.comeUp c).k.get c' from rfl,
      comeUp_get hc hc' hi.inv.few]
    split <;> rfl
  constructor
  case inv => exact hi.inv.comeUp hnewc hc hroom
  case exec_lt =>
    intro c' hc'
    rw [hexec, hlen]
    rcases mem_cons.1 hc' with rfl | hm
    · simp
    · rw [if_neg (hne c' hm)]
      exact Nat.lt_succ_of_lt (hi.exec_lt c' hm)
  case settled =>
    intro c' hc' hp'
    rcases mem_cons.1 hc' with rfl | hm
    · rw [hexec, hcur c' hc, if_pos rfl, if_pos rfl]
    · have hp : s.pending c' = none := (update_of_ne (hne c' hm) ..).symm.trans hp'
      rw [hexec, hcur c' (hi.inv.own c' hm), if_neg (hne c' hm), if_neg (hne c' hm)]
      exact hi.settled c' hm hp
  case leaving =>
    intro c' hc' old new hp'
    rcases mem_cons.1 hc' with rfl | hm
    · exact absurd ((update_self ..).symm.trans hp') (by simp)
    · have hp : s.pending c' = some (old, new) :=
        (update_of_ne (hne c' hm) ..).symm.trans hp'
      obtain ⟨ho, hn, hf⟩ := hi.leaving c' hm old new hp
      rw [hexec, hcur c' (hi.inv.own c' hm), if_neg (hne c' hm), if_neg (hne c' hm)]
      refine ⟨ho, hn, fun c'' hc'' => ?_⟩
      have hlt := hi.inv.current_lt c' hm
      rw [hexec]
      rcases mem_cons.1 hc'' with rfl | hm''
      · rw [if_pos rfl]
        omega
      · rw [if_neg (hne c'' hm'')]
        exact hf c'' hm''
  case live =>
    intro c' hc'
    rw [hexec, hheld]
    rcases mem_cons.1 hc' with rfl | hm
    · rw [if_pos rfl, if_pos rfl]
    · have hlt := hi.exec_lt c' hm
      rw [if_neg (hne c' hm), if_neg (by omega)]
      exact hi.live c' hm
  case saved =>
    intro i hlt hnot
    have hil : i ≠ s.w.k.threads.length := fun h =>
      hnot c mem_cons_self (by rw [hexec, if_pos rfl, h])
    have hlt' : i < s.w.k.threads.length := by omega
    rw [hheld, if_neg hil, hts, contextOf_append_of_lt _ hlt']
    refine hi.saved i hlt' fun c' hm he => ?_
    exact hnot c' (mem_cons_of_mem _ hm) (by rw [hexec, if_neg (hne c' hm), he])

theorem SwitchInv.start : SwitchInv (Smp.start : Smp κ) := by
  have hup : ∀ c ∈ (Smp.start : Smp κ).w.up, c = 0 := fun c hc => mem_singleton.1 hc
  refine ⟨Inv.start, fun _ _ => Nat.one_pos, ?_, ?_, ?_, ?_⟩
  · intro c hc _
    rw [hup c hc]
    rfl
  · intro c _ old new hp
    exact absurd hp (by simp [Smp.start])
  · intro c hc
    rw [hup c hc]
    rfl
  · intro i hlt hnot
    have : i < 1 := hlt
    exact absurd (show (Smp.start : Smp κ).exec 0 = i from (by omega : 0 = i))
      (hnot 0 (mem_singleton.2 rfl))

theorem SwitchInv.step {s' : Smp κ} (hi : SwitchInv s) (h : SwitchStep NoneLeaving s s') :
    SwitchInv s' := by
  cases h with
  | spawn name context hroom => exact hi.spawn name context hroom
  | comeUp c hnew hok hroom => exact hi.comeUp hnew hok hroom
  | run c r hc hp => exact ⟨hi.inv, hi.exec_lt, hi.settled, hi.leaving, hi.live, hi.saved⟩
  | exit c hc hp hidle => exact hi.exit hc hidle
  | select c hc hp hok => exact hi.select hc hp hok
  | contextSwitch c old new hc hp => exact hi.contextSwitch hc hp

end

/-! ## Results -/

variable {κ : Type}

/-- A `context_switch` loads only a stored `Context`, and no thread executes twice. -/
structure Resumes (s : Smp κ) : Prop where
  /-- When a CPU has stored its outgoing thread, the `Context` it is about to load is the initial
  one of the incoming thread or was stored by the last CPU that ran it. -/
  stored : ∀ c ∈ s.w.up, ∀ old new, s.pending c = some (old, new) →
    ∃ cpu r, (s.store c old).held new = .saved cpu r ∧
      contextOf (s.store c old).w.k.threads new = some r
  exec_inj : ∀ c ∈ s.w.up, ∀ c' ∈ s.w.up, s.exec c = s.exec c' → c = c'

theorem SwitchInv.resumes {s : Smp κ} (hi : SwitchInv s) : Resumes s := by
  refine ⟨?_, fun c hc c' hc' h => hi.exec_inj hc hc' h⟩
  intro c hc old new hp
  obtain ⟨hold, hnew, hfree⟩ := hi.leaving c hc old new hp
  have hne : old ≠ new := fun he => hfree c hc (hold.trans he)
  obtain ⟨cpu, r, hheld, hctx⟩ := hi.saved new (hnew ▸ hi.inv.current_lt c hc) hfree
  refine ⟨cpu, r, (update_of_ne hne.symm ..).trans hheld, ?_⟩
  change contextOf (setContext old (s.regs c) s.w.k.threads) new = _
  rw [contextOf_setContext, if_neg hne, hctx]

/-- **No CPU resumes a thread whose registers are not saved**, in every run in which no CPU selects
while another one still has to store a thread that the selection could pick. -/
theorem switch_loads_stored [Inhabited κ] (s : Smp κ)
    (h : Reach (SwitchStep NoneLeaving) Smp.start s) : Resumes s :=
  (Reach.invariant SwitchInv.start SwitchInv.step h : SwitchInv s).resumes

theorem switch_loads_stored_both_pending : ∃ s : Smp Nat,
    Reach (SwitchStep NoneLeaving) Smp.start s ∧ s.pending 0 = some (0, 2) ∧
      s.pending 1 = some (1, 3) ∧ Resumes s := by
  have h1 : Reach (SwitchStep NoneLeaving) (Smp.start : Smp Nat) _ :=
    Reach.refl.tail (.comeUp _ 1 (by decide) (by decide : 1 < maxCpus) (by decide))
  have h2 := h1.tail (.spawn _ "a" 7 (by decide))
  have h3 := h2.tail (.spawn _ "b" 8 (by decide))
  have h4 := h3.tail (.select _ 0 (by decide) (by decide) (by decide))
  have h5 := h4.tail (.select _ 1 (by decide) (by decide) (by decide))
  exact ⟨_, h5, by decide, by decide, switch_loads_stored _ h5⟩

/-- **CPU 1 resumes thread 2 while CPU 0 still executes it**, with the `Context` it was created with
(7) and not its registers (9). -/
theorem unsaved_thread_resumed : ∃ s : Smp Nat,
    Reach (SwitchStep fun _ _ => True) Smp.start s ∧ s.exec 0 = 2 ∧ s.exec 1 = 2 ∧
      s.regs 0 = 9 ∧ s.regs 1 = 7 ∧ ¬ Resumes s := by
  have h1 : Reach (SwitchStep fun _ _ => True) (Smp.start : Smp Nat) _ :=
    Reach.refl.tail (.comeUp _ 1 (by decide) (by decide : 1 < maxCpus) (by decide))
  have h2 := h1.tail (.spawn _ "a" 7 (by decide))
  have h3 := h2.tail (.select _ 0 (by decide) (by decide) trivial)
  have h4 := h3.tail (.contextSwitch _ 0 0 2 (by decide) (by decide))
  have h5 := h4.tail (.run _ 0 9 (by decide) (by decide))
  have h6 := h5.tail (.spawn _ "b" 8 (by decide))
  have h7 := h6.tail (.select _ 0 (by decide) (by decide) trivial)
  have h8 := h7.tail (.select _ 1 (by decide) (by decide) trivial)
  have h9 := h8.tail (.contextSwitch _ 1 1 2 (by decide) (by decide))
  refine ⟨_, h9, by decide, by decide, by decide, by decide, fun hres => ?_⟩
  exact absurd (hres.exec_inj 0 (by decide) 1 (by decide) (by decide)) (by decide)

end Kerners.Proc
