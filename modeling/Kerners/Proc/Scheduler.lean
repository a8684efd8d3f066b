import Mathlib.Data.List.Basic
import Kerners.Lib.Machine

/-!
# Threads and the scheduler (`src/proc/mod.rs`, `src/proc/percpu.rs`, `src/proc/scheduler.rs`)

All CPUs share one list of threads, `THREADS`; each CPU keeps the index of its current and of its
idle thread in its entry of `PER_CPU`. `Kernel` is this data, and `init`, `initSecondary`,
`initOnSecondaryCpu`, `spawn`, `exit` and `select` (the part of `schedule()` under the lock) compute
on it as the code does.

* The register `Context` of a thread is a value of an arbitrary type `κ`; `default` is
  `Context::empty()`. The kernel stack and the tick counter are left out: nothing here reads them.
* `PER_CPU` has `MAX_CPUS` entries. `percpu::get` falls back to entry 0 for a larger CPU number
  (`slot`), `percpu::init_secondary` ignores such a CPU, `init_on_secondary_cpu` does not.
* Only CPU 0 runs `proc::init`: the boot code parks every other one. `kick_idle_cpu` sends an
  interrupt and changes nothing here.
-/

namespace Kerners.Proc

open Lib List

/-! ## The data -/

/-- `ThreadState`. No function of the kernel sets `blocked`. -/
inductive ThreadState where
  | ready
  | running
  | blocked
  | terminated
  deriving DecidableEq

structure Thread (κ : Type) where
  tid : Nat
  name : String
  state : ThreadState
  context : κ
  cpuAffinity : Option Nat
  deriving DecidableEq

def maxCpus : Nat := 8

/-- `u32::MAX`: a thread index not yet set. -/
def noThread : Nat := 2 ^ 32 - 1

/-- `x as u32`. -/
def asU32 (n : Nat) : Nat := n % 2 ^ 32

structure PerCpuData where
  cpuId : Nat
  currentThreadIdx : Nat
  idleThreadIdx : Nat
  online : Bool
  deriving DecidableEq

namespace PerCpuData

def new : PerCpuData := ⟨0, noThread, noThread, false⟩

def init (cpuId : Nat) : PerCpuData := ⟨cpuId, noThread, noThread, false⟩

def setOnline (pc : PerCpuData) : PerCpuData := { pc with online := true }

end PerCpuData

/-- `THREADS`, `PER_CPU`, `NEXT_TID` and `NUM_CPUS_ONLINE`. -/
structure Kernel (κ : Type) where
  threads : List (Thread κ)
  perCpu : Fin maxCpus → PerCpuData
  nextTid : Nat
  numCpusOnline : Nat

/-- The entry of `PER_CPU` that `percpu::get` and `percpu::current` use. -/
def slot (cpuId : Nat) : Fin maxCpus := if h : cpuId < maxCpus then ⟨cpuId, h⟩ else ⟨0, by decide⟩

theorem slot_inj {c c' : Nat} (hc : c < maxCpus) (hc' : c' < maxCpus) (h : slot c = slot c') :
    c = c' := by
  simpa [slot, hc, hc'] using h

section

variable {κ : Type}

/-- `threads.get_mut(i)` with its state overwritten. -/
def setState (i : Nat) (st : ThreadState) (ts : List (Thread κ)) : List (Thread κ) :=
  ts.modify i fun t => { t with state := st }

def demote (i : Nat) (ts : List (Thread κ)) : List (Thread κ) :=
  ts.modify i fun t => if t.state = .running then { t with state := .ready } else t

/-- The state of thread `i`. -/
def stateOf (ts : List (Thread κ)) (i : Nat) : Option ThreadState := ts[i]?.map (·.state)

/-- The affinity of thread `i`. -/
def affinityOf (ts : List (Thread κ)) (i : Nat) : Option (Option Nat) := ts[i]?.map (·.cpuAffinity)

/-- The test in the selection loop: ready, and not pinned to another CPU. -/
def runnable (cpuId : Nat) (t : Thread κ) : Bool :=
  t.state == .ready &&
    match t.cpuAffinity with
    | some affinity => affinity == cpuId
    | none => true

/-- The selection loop: the first of the offsets `1..=num_threads` that meets a runnable thread. -/
def nextIdx (ts : List (Thread κ)) (cpuId currentIdx : Nat) : Option Nat :=
  ((List.range' 1 ts.length).map fun offset => (currentIdx + offset) % ts.length).find? fun idx =>
    match ts[idx]? with
    | some t => runnable cpuId t
    | none => false

end

namespace Kernel

variable {κ : Type} (k : Kernel κ)

/-- `percpu::get`, and `percpu::current` on CPU `cpuId`. -/
def get (cpuId : Nat) : PerCpuData := k.perCpu (slot cpuId)

/-- A store to the entry `percpu::get` returns. -/
def put (cpuId : Nat) (pc : PerCpuData) : Kernel κ :=
  { k with perCpu := Function.update k.perCpu (slot cpuId) pc }

/-- The statics before `proc::init`. -/
def boot : Kernel κ := ⟨[], fun _ => .new, 1, 0⟩

variable [Inhabited κ]

def init : Kernel κ :=
  let k := k.put 0 (PerCpuData.init 0).setOnline
  let idle : Thread κ := ⟨0, "idle/0", .running, default, some 0⟩
  let k := { k with threads := k.threads ++ [idle], numCpusOnline := 1 }
  k.put 0 { k.get 0 with currentThreadIdx := 0, idleThreadIdx := 0 }

omit [Inhabited κ] in
def initSecondary (cpuId : Nat) : Kernel κ :=
  if cpuId ≥ maxCpus then k
  else
    let k := k.put cpuId (PerCpuData.init cpuId).setOnline
    { k with numCpusOnline := k.numCpusOnline + 1 }

def idleForCpu (cpuId : Nat) : Thread κ :=
  ⟨k.nextTid, "idle/" ++ toString cpuId, .running, default, some cpuId⟩

def initOnSecondaryCpu (cpuId : Nat) : Kernel κ :=
  let idle := k.idleForCpu cpuId
  let idx := k.threads.length
  let k := { k with threads := k.threads ++ [idle], nextTid := (k.nextTid + 1) % 2 ^ 64 }
  k.put cpuId
    { k.get cpuId with currentThreadIdx := asU32 idx, idleThreadIdx := asU32 idx }

omit [Inhabited κ] in
/-- `proc::spawn`: the new thread starts with the registers `Context::new(entry, stack_top)`. -/
def spawn (name : String) (context : κ) : Nat × Kernel κ :=
  let thread : Thread κ := ⟨k.nextTid, name, .ready, context, none⟩
  (thread.tid,
    { k with threads := k.threads ++ [thread], nextTid := (k.nextTid + 1) % 2 ^ 64 })

omit [Inhabited κ] in
/-- `proc::exit` up to its call of `schedule()`. -/
def exit (cpuId : Nat) : Kernel κ :=
  let idx := (k.get cpuId).currentThreadIdx
  if idx ≠ noThread then { k with threads := setState idx .terminated k.threads } else k

omit [Inhabited κ] in
/-- The end of the locked part of `schedule()`, with the next thread chosen: the outgoing and the
incoming thread, unless the current thread goes on. -/
def switchTo (cpuId currentIdx nextIdx : Nat) : Kernel κ × Option (Nat × Nat) :=
  if nextIdx = currentIdx then
    ({ k with threads := setState currentIdx .running k.threads }, none)
  else
    let k := { k with threads := setState nextIdx .running k.threads }
    (k.put cpuId { k.get cpuId with currentThreadIdx := asU32 nextIdx }, some (currentIdx, nextIdx))

omit [Inhabited κ] in
/-- The locked part of `schedule()` on CPU `cpuId`, with the two threads of the `context_switch`
that follows it. -/
def select (cpuId : Nat) : Kernel κ × Option (Nat × Nat) :=
  let currentIdx := (k.get cpuId).currentThreadIdx
  if currentIdx = noThread then (k, none)
  else if currentIdx ≥ k.threads.length then (k, none)
  else
    let k := { k with threads := demote currentIdx k.threads }
    match nextIdx k.threads cpuId currentIdx with
    | some idx => k.switchTo cpuId currentIdx idx
    | none =>
      match k.threads[currentIdx]? with
      | some thread =>
        if thread.state = .terminated then
          let idleIdx := (k.get cpuId).idleThreadIdx
          if idleIdx < k.threads.length then k.switchTo cpuId currentIdx idleIdx
          else (k, none)
        else ({ k with threads := setState currentIdx .running k.threads }, none)
      | none => (k, none)

end Kernel

/-! ## Thread states under updates -/

section

variable {κ : Type} {ts : List (Thread κ)} {i c : Nat}

@[simp] theorem length_setState (i : Nat) (st : ThreadState) (ts : List (Thread κ)) :
    (setState i st ts).length = ts.length := by simp [setState]

@[simp] theorem length_demote (i : Nat) (ts : List (Thread κ)) :
    (demote i ts).length = ts.length := by simp [demote]

theorem stateOf_setState (i j : Nat) (st : ThreadState) (ts : List (Thread κ)) :
    stateOf (setState i st ts) j =
      if i = j then (stateOf ts j).map fun _ => st else stateOf ts j := by
  unfold stateOf setState
  rw [getElem?_modify]
  split
  · cases ts[j]? <;> rfl
  · simp

theorem stateOf_demote (i j : Nat) (ts : List (Thread κ)) :
    stateOf (demote i ts) j =
      if i = j then (stateOf ts j).map fun st => if st = .running then .ready else st
      else stateOf ts j := by
  unfold stateOf demote
  rw [getElem?_modify]
  split
  · cases ts[j]? with
    | none => rfl
    | some t => simp only [Option.map_some]; split <;> simp_all
  · simp

@[simp] theorem affinityOf_setState (i j : Nat) (st : ThreadState) (ts : List (Thread κ)) :
    affinityOf (setState i st ts) j = affinityOf ts j := by
  unfold affinityOf setState
  rw [getElem?_modify]
  cases ts[j]? <;> simp
  split <;> rfl

@[simp] theorem affinityOf_demote (i j : Nat) (ts : List (Thread κ)) :
    affinityOf (demote i ts) j = affinityOf ts j := by
  unfold affinityOf demote
  rw [getElem?_modify]
  cases ts[j]? <;> simp
  split <;> [split; skip] <;> rfl

theorem stateOf_append (t : Thread κ) (i : Nat) :
    stateOf (ts ++ [t]) i = if i = ts.length then some t.state else stateOf ts i := by
  unfold stateOf
  rw [getElem?_append]
  split
  · rw [if_neg (by omega)]
  · rename_i h
    by_cases hi : i = ts.length
    · simp [hi]
    · have : ts.length < i := by omega
      simp [hi, getElem?_eq_none (Nat.le_of_lt this), getElem?_cons]
      omega

theorem affinityOf_append (t : Thread κ) (i : Nat) :
    affinityOf (ts ++ [t]) i = if i = ts.length then some t.cpuAffinity else affinityOf ts i := by
  unfold affinityOf
  rw [getElem?_append]
  split
  · rw [if_neg (by omega)]
  · rename_i h
    by_cases hi : i = ts.length
    · simp [hi]
    · have : ts.length < i := by omega
      simp [hi, getElem?_eq_none (Nat.le_of_lt this), getElem?_cons]
      omega

theorem lt_of_stateOf {st : ThreadState} (h : stateOf ts i = some st) : i < ts.length := by
  unfold stateOf at h
  obtain ⟨t, ht, -⟩ := Option.map_eq_some_iff.1 h
  exact (List.getElem?_eq_some_iff.1 ht).1

theorem exists_stateOf (h : i < ts.length) : ∃ st, stateOf ts i = some st :=
  ⟨ts[i].state, by simp [stateOf, h]⟩

theorem setState_demote (h : stateOf ts i = some .running) :
    setState i .running (demote i ts) = ts := by
  refine ext_getElem? fun j => ?_
  unfold setState demote
  rw [getElem?_modify, getElem?_modify]
  by_cases hij : i = j
  · subst hij
    obtain ⟨t, ht, hst⟩ := Option.map_eq_some_iff.1 h
    obtain ⟨tid, name, state, context, aff⟩ := t
    simp only at hst
    subst hst
    simp [ht]
  · simp [hij]

/-- Thread `i` is ready and may run on CPU `c`. -/
def Runnable (ts : List (Thread κ)) (c i : Nat) : Prop :=
  stateOf ts i = some .ready ∧ (affinityOf ts i = some none ∨ affinityOf ts i = some (some c))

theorem runnable_iff : Runnable ts c i ↔ ∃ t, ts[i]? = some t ∧ runnable c t = true := by
  unfold Runnable stateOf affinityOf runnable
  cases ts[i]? with
  | none => simp
  | some t =>
    obtain ⟨tid, name, state, context, aff⟩ := t
    cases aff <;> simp

theorem nextIdx_some {cur j : Nat} (h : nextIdx ts c cur = some j) : Runnable ts c j := by
  have hj := find?_some h
  cases ht : ts[j]? with
  | none => simp [ht] at hj
  | some t => exact runnable_iff.2 ⟨t, ht, by simpa [ht] using hj⟩

theorem exists_nextIdx {cur : Nat} (hcur : cur < ts.length) (h : Runnable ts c i) :
    ∃ j, nextIdx ts c cur = some j := by
  obtain ⟨t, ht, hrun⟩ := runnable_iff.1 h
  have hi : i < ts.length := (List.getElem?_eq_some_iff.1 ht).1
  refine Option.isSome_iff_exists.1 (find?_isSome.2 ⟨i, mem_map.2 ?_, by simp [ht, hrun]⟩)
  by_cases hlt : cur < i
  · refine ⟨i - cur, by simp [mem_range'_1]; omega, ?_⟩
    rw [show cur + (i - cur) = i by omega, Nat.mod_eq_of_lt hi]
  · refine ⟨ts.length + i - cur, by simp [mem_range'_1]; omega, ?_⟩
    rw [show cur + (ts.length + i - cur) = i + ts.length by omega, Nat.add_mod_right,
      Nat.mod_eq_of_lt hi]

end

/-! ## Runs -/

/-- The kernel's data, the CPUs that have come up and the threads that have called `exit`. -/
structure World (κ : Type) where
  k : Kernel κ
  up : List Nat
  exited : List Nat

namespace World

variable {κ : Type} (w : World κ)

/-- `current_thread_idx` as CPU `c` reads it. -/
def current (c : Nat) : Nat := (w.k.get c).currentThreadIdx

/-- `idle_thread_idx` as CPU `c` reads it. -/
def idle (c : Nat) : Nat := (w.k.get c).idleThreadIdx

/-- Thread `i` is the current thread of some CPU. -/
def Current (i : Nat) : Prop := ∃ c ∈ w.up, w.current c = i

variable [Inhabited κ]

/-- After `proc::init`. -/
def start : World κ := ⟨Kernel.boot.init, [0], []⟩

/-- A secondary CPU runs `percpu::init_secondary` and `proc::init_on_secondary_cpu`. -/
def comeUp (c : Nat) : World κ :=
  { w with k := (w.k.initSecondary c).initOnSecondaryCpu c, up := c :: w.up }

omit [Inhabited κ] in
/-- The thread on CPU `c` runs `exit` up to its call of `schedule()`. -/
def exit (c : Nat) : World κ := { w with k := w.k.exit c, exited := w.current c :: w.exited }

end World

/-- The atomic steps. A CPU comes up at most once, idle threads do not exit, and the number of
threads stays below `u32::MAX`. -/
inductive Step {κ : Type} [Inhabited κ] (ok : Nat → Prop) : World κ → World κ → Prop
  | spawn (w : World κ) (name : String) (context : κ) :
      w.k.threads.length + 1 < noThread →
      Step ok w { w with k := (w.k.spawn name context).2 }
  | comeUp (w : World κ) (c : Nat) :
      c ∉ w.up → ok c → w.k.threads.length + 1 < noThread → Step ok w (w.comeUp c)
  | exit (w : World κ) (c : Nat) :
      c ∈ w.up → (∀ c' ∈ w.up, w.idle c' ≠ w.current c) → Step ok w (w.exit c)
  | schedule (w : World κ) (c : Nat) :
      c ∈ w.up → Step ok w { w with k := (w.k.select c).1 }

/-- A CPU has an entry of `PER_CPU` of its own. -/
def OwnEntry (c : Nat) : Prop := c < maxCpus

/-! ## The invariant -/

section

variable {κ : Type} {w : World κ} {i c c' : Nat} {k : Kernel κ}

structure Inv (w : World κ) : Prop where
  own : ∀ c ∈ w.up, c < maxCpus
  few : w.k.threads.length < noThread
  current_lt : ∀ c ∈ w.up, w.current c < w.k.threads.length
  current_inj : ∀ c ∈ w.up, ∀ c' ∈ w.up, w.current c = w.current c' → c = c'
  running : ∀ i, stateOf w.k.threads i = some .running ↔ w.Current i ∧ i ∉ w.exited
  terminated : ∀ i, stateOf w.k.threads i = some .terminated ↔ i ∈ w.exited
  not_blocked : ∀ i, stateOf w.k.threads i ≠ some .blocked
  pinned : ∀ c ∈ w.up, ∀ a, affinityOf w.k.threads (w.current c) = some (some a) → a = c
  idle : ∀ c ∈ w.up, affinityOf w.k.threads (w.idle c) = some (some c) ∧ w.idle c ∉ w.exited

theorem lt_of_affinityOf {ts : List (Thread κ)} {a : Option Nat} (h : affinityOf ts i = some a) :
    i < ts.length := by
  obtain ⟨t, ht, -⟩ := Option.map_eq_some_iff.1 h
  exact (List.getElem?_eq_some_iff.1 ht).1

theorem Inv.ready (hi : Inv w) {i : Nat} (hlt : i < w.k.threads.length) (hcur : ¬ w.Current i)
    (hex : i ∉ w.exited) : stateOf w.k.threads i = some .ready := by
  obtain ⟨st, hst⟩ := exists_stateOf hlt
  rw [hst]
  cases st with
  | ready => rfl
  | running => exact absurd ((hi.running i).1 hst).1 hcur
  | blocked => exact absurd hst (hi.not_blocked i)
  | terminated => exact absurd ((hi.terminated i).1 hst) hex

theorem Inv.of_ready (hi : Inv w) (h : stateOf w.k.threads i = some .ready) :
    ¬ w.Current i ∧ i ∉ w.exited := by
  have hex : i ∉ w.exited := fun hm => by simpa [h] using (hi.terminated i).2 hm
  exact ⟨fun hc => by simpa [h] using (hi.running i).2 ⟨hc, hex⟩, hex⟩

theorem Inv.idle_current (hi : Inv w) (hc : c ∈ w.up) (hc' : c' ∈ w.up)
    (h : w.current c' = w.idle c) : c' = c :=
  (hi.pinned c' hc' c (h ▸ (hi.idle c hc).1)).symm

theorem Inv.idle_runnable (hi : Inv w) (hc : c ∈ w.up) :
    Runnable (demote (w.current c) w.k.threads) c (w.idle c) := by
  obtain ⟨haff, hex⟩ := hi.idle c hc
  refine ⟨?_, .inr (by rw [affinityOf_demote, haff])⟩
  rw [stateOf_demote]
  by_cases he : w.current c = w.idle c
  · have hrun := (hi.running (w.idle c)).2 ⟨⟨c, hc, he⟩, hex⟩
    simp [he, hrun]
  · rw [if_neg he]
    refine hi.ready (lt_of_affinityOf haff) ?_ hex
    rintro ⟨c', hc', h'⟩
    obtain rfl := hi.idle_current hc hc' h'
    exact he h'

/-- The kernel after CPU `c` has switched to thread `j`. -/
def switched (k : Kernel κ) (c j : Nat) : Kernel κ :=
  ({ k with threads := setState j .running (demote (k.get c).currentThreadIdx k.threads) }).put c
    { k.get c with currentThreadIdx := j }

/-- **The locked part of `schedule()`**: the current thread goes on and nothing changes, or
another thread that is ready and may run here becomes current. In particular the loop always finds
a thread, at worst the idle thread of the CPU. -/
theorem select_cases (hi : Inv w) (hc : c ∈ w.up) :
    w.k.select c = (w.k, none) ∨
    ∃ j, j ≠ w.current c ∧
      Runnable w.k.threads c j ∧
      w.k.select c = (switched w.k c j, some (w.current c, j)) := by
  have hlt := hi.current_lt c hc
  have hfew := hi.few
  generalize hcur : w.current c = cur at hlt ⊢
  obtain ⟨j, hj⟩ := exists_nextIdx (by simpa using hlt) (hcur ▸ hi.idle_runnable hc)
  have hrunj := nextIdx_some hj
  have hsel : w.k.select c =
      ({ w.k with threads := demote cur w.k.threads }).switchTo c cur j := by
    unfold Kernel.select
    simp only [show (w.k.get c).currentThreadIdx = cur from hcur]
    rw [if_neg (by omega), if_neg (by omega)]
    simp only [hj]
  rw [hsel]
  unfold Kernel.switchTo
  by_cases he : j = cur
  · left
    rw [if_pos he]
    have hrun : stateOf w.k.threads cur = some .running := by
      refine (hi.running cur).2 ⟨⟨c, hc, hcur⟩, fun hm => ?_⟩
      have := hrunj.1
      rw [he, stateOf_demote, if_pos rfl, (hi.terminated cur).2 hm] at this
      simp at this
    simp only [setState_demote hrun]
  · right
    have hrun : Runnable w.k.threads c j := by
      have := hrunj
      unfold Runnable at this
      rwa [stateOf_demote, if_neg (Ne.symm he), affinityOf_demote] at this
    have hjlt := lt_of_stateOf hrun.1
    have hu : asU32 j = j := by
      unfold asU32
      unfold noThread at hfew
      omega
    refine ⟨j, he, hrun, ?_⟩
    rw [if_neg he, hu]
    subst hcur
    rfl

/-! ### Entries of `PER_CPU` -/

theorem get_put {pc : PerCpuData} (hc : c < maxCpus) (hc' : c' < maxCpus) :
    (k.put c pc).get c' = if c' = c then pc else k.get c' := by
  unfold Kernel.put Kernel.get
  by_cases h : c' = c
  · simp [h]
  · rw [if_neg h]
    exact Function.update_of_ne (fun he => h (slot_inj hc' hc he)) _ _

@[simp] theorem put_threads (k : Kernel κ) (c : Nat) (pc : PerCpuData) :
    (k.put c pc).threads = k.threads := rfl

theorem get_switched {j : Nat} (hc : c < maxCpus) (hc' : c' < maxCpus) :
    (switched k c j).get c' =
      if c' = c then { k.get c with currentThreadIdx := j } else k.get c' :=
  get_put hc hc'

theorem get_exit (k : Kernel κ) (c c' : Nat) : (k.exit c).get c' = k.get c' := by
  unfold Kernel.exit
  by_cases h : (k.get c).currentThreadIdx = noThread
  · simp [h]
  · simp only [ne_eq, h, not_false_iff, if_true]
    rfl

/-! ### One lemma per step -/

theorem Inv.retype {exited : List Nat} (hi : Inv w) (hper : k.perCpu = w.k.perCpu)
    (hlen : k.threads.length = w.k.threads.length)
    (haff : ∀ i, affinityOf k.threads i = affinityOf w.k.threads i)
    (hrun : ∀ i, stateOf k.threads i = some .running ↔ w.Current i ∧ i ∉ exited)
    (hterm : ∀ i, stateOf k.threads i = some .terminated ↔ i ∈ exited)
    (hblk : ∀ i, stateOf k.threads i ≠ some .blocked) (hidle : ∀ c ∈ w.up, w.idle c ∉ exited) :
    Inv ⟨k, w.up, exited⟩ := by
  have hget : ∀ c, k.get c = w.k.get c := fun c => by unfold Kernel.get; rw [hper]
  have hcur : ∀ c, World.current ⟨k, w.up, exited⟩ c = w.current c := fun c => by
    unfold World.current; rw [hget]
  have hid : ∀ c, World.idle ⟨k, w.up, exited⟩ c = w.idle c := fun c => by
    unfold World.idle; rw [hget]
  refine ⟨hi.own, by rw [hlen]; exact hi.few, ?_, ?_, ?_, hterm, hblk, ?_, ?_⟩
  · intro c hc
    rw [hcur, hlen]
    exact hi.current_lt c hc
  · intro c hc c' hc' h
    rw [hcur, hcur] at h
    exact hi.current_inj c hc c' hc' h
  · intro i
    simpa only [World.Current, hcur] using hrun i
  · intro c hc a h
    rw [hcur, haff] at h
    exact hi.pinned c hc a h
  · intro c hc
    rw [hid, haff]
    exact ⟨(hi.idle c hc).1, hidle c hc⟩

theorem Inv.exit (hi : Inv w) (hc : c ∈ w.up) (hidle : ∀ c' ∈ w.up, w.idle c' ≠ w.current c) :
    Inv (w.exit c) := by
  have hlt := hi.current_lt c hc
  have hex : (w.k.exit c) = { w.k with threads := setState (w.current c) .terminated w.k.threads } := by
    unfold Kernel.exit
    have hfew := hi.few
    have : w.current c ≠ noThread := by omega
    exact if_pos this
  obtain ⟨st, hst⟩ := exists_stateOf hlt
  have hstate : ∀ i, stateOf (w.k.exit c).threads i =
      if w.current c = i then some .terminated else stateOf w.k.threads i := by
    intro i
    rw [hex, stateOf_setState]
    split
    · rename_i he
      rw [← he, hst]
      rfl
    · rfl
  refine hi.retype (by rw [hex]) (by simp [hex]) (by simp [hex]) ?_ ?_ ?_ ?_
  · intro i
    rw [hstate]
    split
    · rename_i he
      simp [he]
    · rename_i he
      simp [hi.running i, Ne.symm he]
  · intro i
    rw [hstate]
    split
    · rename_i he
      simp [he]
    · rename_i he
      simp [hi.terminated i, Ne.symm he]
  · intro i
    rw [hstate]
    split
    · simp
    · exact hi.not_blocked i
  · intro c' hc' hm
    rcases mem_cons.1 hm with h | h
    · exact hidle c' hc' h
    · exact (hi.idle c' hc').2 h

theorem Inv.not_current_length (hi : Inv w) : ¬ w.Current w.k.threads.length := by
  rintro ⟨c, hc, h⟩
  exact absurd (hi.current_lt c hc) (by omega)

theorem Inv.not_exited_length (hi : Inv w) : w.k.threads.length ∉ w.exited := fun hm =>
  absurd (lt_of_stateOf ((hi.terminated _).2 hm)) (Nat.lt_irrefl _)

theorem Inv.spawn (hi : Inv w) (name : String) (context : κ)
    (hroom : w.k.threads.length + 1 < noThread) :
    Inv { w with k := (w.k.spawn name context).2 } := by
  set t : Thread κ := ⟨w.k.nextTid, name, .ready, context, none⟩ with ht
  have hts : (w.k.spawn name context).2.threads = w.k.threads ++ [t] := rfl
  have hstate : ∀ i, stateOf (w.k.spawn name context).2.threads i =
      if i = w.k.threads.length then some .ready else stateOf w.k.threads i :=
    fun i => stateOf_append t i
  have haff : ∀ i, i < w.k.threads.length →
      affinityOf (w.k.spawn name context).2.threads i = affinityOf w.k.threads i := by
    intro i hlt
    rw [hts, affinityOf_append, if_neg (by omega)]
  refine ⟨hi.own, ?_, ?_, hi.current_inj, ?_, ?_, ?_, ?_, ?_⟩
  · simpa [hts] using hroom
  · intro c hc
    have := hi.current_lt c hc
    simp only [hts, length_append, length_cons, length_nil]
    exact Nat.lt_succ_of_lt this
  · intro i
    simp only [hstate]
    split
    · rename_i he
      subst he
      change _ ↔ w.Current _ ∧ _
      simp [hi.not_current_length]
    · exact hi.running i
  · intro i
    simp only [hstate]
    split
    · rename_i he
      subst he
      simpa using hi.not_exited_length
    · exact hi.terminated i
  · intro i
    simp only [hstate]
    split
    · simp
    · exact hi.not_blocked i
  · intro c hc a h
    exact hi.pinned c hc a ((haff _ (hi.current_lt c hc)).symm.trans h)
  · intro c hc
    have hid := hi.idle c hc
    exact ⟨(haff _ (lt_of_affinityOf hid.1)).trans hid.1, hid.2⟩

section

variable [Inhabited κ] {c : Nat}

theorem comeUp_threads : (w.comeUp c).k.threads =
    w.k.threads ++ [(w.k.initSecondary c).idleForCpu c] := by
  unfold World.comeUp Kernel.initOnSecondaryCpu Kernel.initSecondary
  by_cases h : c ≥ maxCpus <;> simp [h]

theorem comeUp_get {c' : Nat} (hc : c < maxCpus) (hc' : c' < maxCpus)
    (hfew : w.k.threads.length < noThread) :
    (w.comeUp c).k.get c' =
      if c' = c then ⟨c, w.k.threads.length, w.k.threads.length, true⟩ else w.k.get c' := by
  have hu : asU32 w.k.threads.length = w.k.threads.length := by
    unfold asU32
    unfold noThread at hfew
    omega
  have hsec : w.k.initSecondary c =
      { w.k.put c (PerCpuData.init c).setOnline with numCpusOnline := w.k.numCpusOnline + 1 } := by
    unfold Kernel.initSecondary
    rw [if_neg (by omega)]
    rfl
  have hget : ∀ d, d < maxCpus → (w.k.initSecondary c).get d =
      if d = c then (PerCpuData.init c).setOnline else w.k.get d := by
    intro d hd
    rw [hsec]
    exact get_put hc hd
  have hlen : (w.k.initSecondary c).threads.length = w.k.threads.length := by rw [hsec]; rfl
  unfold World.comeUp Kernel.initOnSecondaryCpu
  simp only [hlen, hu]
  rw [get_put hc hc']
  split
  · change PerCpuData.mk ((w.k.initSecondary c).get c).cpuId _ _
      ((w.k.initSecondary c).get c).online = _
    rw [hget c hc, if_pos rfl]
    rfl
  · rename_i hne
    exact (hget c' hc').trans (if_neg hne)

theorem Inv.get_comeUp (hi : Inv w) (hnew : c ∉ w.up) (hc : c < maxCpus) {c' : Nat}
    (hc' : c' ∈ w.up) : (w.comeUp c).k.get c' = w.k.get c' := by
  have hne : c' ≠ c := fun h => hnew (h ▸ hc')
  rw [comeUp_get hc (hi.own c' hc') hi.few, if_neg hne]

theorem stateOf_comeUp (i : Nat) : stateOf (w.comeUp c).k.threads i =
    if i = w.k.threads.length then some .running else stateOf w.k.threads i := by
  rw [comeUp_threads, stateOf_append]
  rfl

theorem affinityOf_comeUp (i : Nat) : affinityOf (w.comeUp c).k.threads i =
    if i = w.k.threads.length then some (some c) else affinityOf w.k.threads i := by
  rw [comeUp_threads, affinityOf_append]
  rfl

theorem Inv.isCurrent_comeUp (hi : Inv w) (hnew : c ∉ w.up) (hc : c < maxCpus) (i : Nat) :
    (w.comeUp c).Current i ↔ i = w.k.threads.length ∨ w.Current i := by
  have hcur : ∀ c' ∈ w.up, (w.comeUp c).current c' = w.current c' := fun c' hc' =>
    congrArg PerCpuData.currentThreadIdx (hi.get_comeUp hnew hc hc')
  have hcurc : (w.comeUp c).current c = w.k.threads.length := by
    unfold World.current
    rw [comeUp_get hc hc hi.few, if_pos rfl]
  constructor
  · rintro ⟨c', hc', h⟩
    rcases mem_cons.1 hc' with rfl | hc'
    · exact .inl (h.symm.trans hcurc)
    · exact .inr ⟨c', hc', (hcur c' hc').symm.trans h⟩
  · rintro (rfl | ⟨c', hc', h⟩)
    · exact ⟨c, mem_cons_self, hcurc⟩
    · exact ⟨c', mem_cons_of_mem _ hc', (hcur c' hc').trans h⟩

theorem Inv.current_inj_comeUp (hi : Inv w) (hcurc : (w.comeUp c).current c = w.k.threads.length)
    (hcur : ∀ c' ∈ w.up, (w.comeUp c).current c' = w.current c') {c1 c2 : Nat}
    (hc1 : c1 ∈ (w.comeUp c).up) (hc2 : c2 ∈ (w.comeUp c).up)
    (h : (w.comeUp c).current c1 = (w.comeUp c).current c2) : c1 = c2 := by
  rcases mem_cons.1 hc1 with h1 | h1 <;> rcases mem_cons.1 hc2 with h2 | h2
  · rw [h1, h2]
  · rw [h1, hcurc, hcur c2 h2] at h
    exact absurd (hi.current_lt c2 h2) (by omega)
  · rw [h2, hcurc, hcur c1 h1] at h
    exact absurd (hi.current_lt c1 h1) (by omega)
  · rw [hcur c1 h1, hcur c2 h2] at h
    exact hi.current_inj c1 h1 c2 h2 h

theorem Inv.comeUp (hi : Inv w) (hnew : c ∉ w.up) (hc : c < maxCpus)
    (hroom : w.k.threads.length + 1 < noThread) : Inv (w.comeUp c) := by
  have hold := fun c' (hc' : c' ∈ w.up) => hi.get_comeUp hnew hc hc'
  have hcur : ∀ c' ∈ w.up, (w.comeUp c).current c' = w.current c' := fun c' hc' =>
    congrArg PerCpuData.currentThreadIdx (hold c' hc')
  have hcurc : (w.comeUp c).current c = w.k.threads.length := by
    unfold World.current
    rw [comeUp_get hc hc hi.few, if_pos rfl]
  have hCur := hi.isCurrent_comeUp hnew hc
  constructor
  case own =>
    intro c' hc'
    rcases mem_cons.1 hc' with rfl | hc'
    · exact hc
    · exact hi.own c' hc'
  case few => simpa [comeUp_threads] using hroom
  case current_lt =>
    intro c' hc'
    rw [comeUp_threads, length_append, length_singleton]
    rcases mem_cons.1 hc' with rfl | hc'
    · omega
    · have := hi.current_lt c' hc'
      rw [hcur c' hc']
      omega
  case current_inj =>
    intro c1 hc1 c2 hc2 h
    exact hi.current_inj_comeUp hcurc hcur hc1 hc2 h
  case running =>
    intro i
    rw [stateOf_comeUp, hCur]
    change _ ↔ _ ∧ i ∉ w.exited
    split
    · rename_i he
      simp [he, hi.not_exited_length]
    · rename_i he
      simp [he, hi.running i]
  case terminated =>
    intro i
    rw [stateOf_comeUp]
    change _ ↔ i ∈ w.exited
    split
    · rename_i he
      simp [he, hi.not_exited_length]
    · exact hi.terminated i
  case not_blocked =>
    intro i
    rw [stateOf_comeUp]
    split
    · simp
    · exact hi.not_blocked i
  case pinned =>
    intro c' hc' a h
    rw [affinityOf_comeUp] at h
    rcases mem_cons.1 hc' with rfl | hc'
    · simpa [hcurc, eq_comm] using h
    · have hlt := hi.current_lt c' hc'
      rw [hcur c' hc', if_neg (by omega)] at h
      exact hi.pinned c' hc' a h
  case idle =>
    intro c' hc'
    rw [affinityOf_comeUp]
    change _ ∧ _ ∉ w.exited
    rcases mem_cons.1 hc' with rfl | hc'
    · have hidc : (w.comeUp c').idle c' = w.k.threads.length := by
        unfold World.idle
        rw [comeUp_get hc hc hi.few, if_pos rfl]
      rw [hidc]
      exact ⟨if_pos rfl, hi.not_exited_length⟩
    · have hidle := hi.idle c' hc'
      have hlt := lt_of_affinityOf hidle.1
      have hid : (w.comeUp c).idle c' = w.idle c' :=
        congrArg PerCpuData.idleThreadIdx (hold c' hc')
      rw [hid, if_neg (by omega)]
      exact hidle

end

section

variable {c c' j : Nat}

theorem Inv.current_switched (hi : Inv w) (hc : c ∈ w.up) (hc' : c' ∈ w.up) :
    World.current { w with k := switched w.k c j } c' = if c' = c then j else w.current c' := by
  unfold World.current
  rw [get_switched (hi.own c hc) (hi.own c' hc')]
  split <;> rfl

theorem Inv.idle_switched (hi : Inv w) (hc : c ∈ w.up) (hc' : c' ∈ w.up) :
    World.idle { w with k := switched w.k c j } c' = w.idle c' := by
  unfold World.idle
  rw [get_switched (hi.own c hc) (hi.own c' hc')]
  split
  · rename_i h
    rw [h]
  · rfl

theorem length_switched (k : Kernel κ) (c j : Nat) :
    (switched k c j).threads.length = k.threads.length := by simp [switched]

theorem affinityOf_switched (k : Kernel κ) (c j i : Nat) :
    affinityOf (switched k c j).threads i = affinityOf k.threads i := by simp [switched]

theorem stateOf_switched (hj : j ≠ w.current c) (hready : stateOf w.k.threads j = some .ready)
    (i : Nat) : stateOf (switched w.k c j).threads i =
      if i = j then some .running
      else if i = w.current c then
        (stateOf w.k.threads i).map fun st => if st = .running then .ready else st
      else stateOf w.k.threads i := by
  change stateOf (setState j .running (demote (w.current c) w.k.threads)) i = _
  rw [stateOf_setState, stateOf_demote]
  by_cases he : i = j
  · rw [if_pos he.symm, if_pos he, he, if_neg hj.symm, hready]
    rfl
  · rw [if_neg (Ne.symm he), if_neg he]
    simp only [eq_comm]

theorem demoted_state (st : Option ThreadState) :
    (st.map fun st => if st = .running then ThreadState.ready else st) ≠ some .running ∧
      ((st.map fun st => if st = .running then ThreadState.ready else st) = some .terminated ↔
        st = some .terminated) ∧
      ((st.map fun st => if st = .running then ThreadState.ready else st) = some .blocked ↔
        st = some .blocked) := by
  cases st with
  | none => simp
  | some st => cases st <;> simp

theorem Inv.isCurrent_switched (hi : Inv w) (hc : c ∈ w.up) (i : Nat) :
    World.Current { w with k := switched w.k c j } i ↔
      i = j ∨ (i ≠ w.current c ∧ w.Current i) := by
  constructor
  · rintro ⟨c', hc', h⟩
    rw [hi.current_switched hc hc'] at h
    split at h
    · exact .inl h.symm
    · rename_i hne
      exact .inr ⟨fun he => hne (hi.current_inj c' hc' c hc (h.trans he)), c', hc', h⟩
  · rintro (rfl | ⟨hne, c', hc', h⟩)
    · exact ⟨c, hc, by rw [hi.current_switched hc hc, if_pos rfl]⟩
    · have hcc : c' ≠ c := fun he => hne (he ▸ h.symm)
      exact ⟨c', hc', by rw [hi.current_switched hc hc', if_neg hcc, h]⟩

theorem Inv.current_inj_switched (hi : Inv w) (hc : c ∈ w.up) (hnc : ¬ w.Current j) {c1 c2 : Nat}
    (hc1 : c1 ∈ w.up) (hc2 : c2 ∈ w.up)
    (h : World.current { w with k := switched w.k c j } c1 =
      World.current { w with k := switched w.k c j } c2) : c1 = c2 := by
  rw [hi.current_switched hc hc1, hi.current_switched hc hc2] at h
  by_cases h1 : c1 = c <;> by_cases h2 : c2 = c
  · rw [h1, h2]
  · rw [if_pos h1, if_neg h2] at h
    exact absurd ⟨c2, hc2, h.symm⟩ hnc
  · rw [if_neg h1, if_pos h2] at h
    exact absurd ⟨c1, hc1, h⟩ hnc
  · rw [if_neg h1, if_neg h2] at h
    exact hi.current_inj c1 hc1 c2 hc2 h

theorem Inv.switched (hi : Inv w) (hc : c ∈ w.up) (hj : j ≠ w.current c)
    (hrun : Runnable w.k.threads c j) : Inv { w with k := switched w.k c j } := by
  obtain ⟨hnc, hnex⟩ := hi.of_ready hrun.1
  have hcur := fun c' (hc' : c' ∈ w.up) => hi.current_switched (j := j) hc hc'
  have hlen := length_switched w.k c j
  have hstate := stateOf_switched hj hrun.1
  have hCur := hi.isCurrent_switched (j := j) hc
  constructor
  case own => exact hi.own
  case few => exact hlen ▸ hi.few
  case current_lt =>
    intro c' hc'
    rw [hcur c' hc', hlen]
    split
    · exact lt_of_stateOf hrun.1
    · exact hi.current_lt c' hc'
  case current_inj =>
    intro c1 hc1 c2 hc2 h
    exact hi.current_inj_switched hc hnc hc1 hc2 h
  case running =>
    intro i
    rw [hCur, hstate]
    change _ ↔ _ ∧ i ∉ w.exited
    by_cases hij : i = j
    · simp [hij, hnex]
    · by_cases hic : i = w.current c
      · rw [if_neg hij, if_pos hic]
        simp [(demoted_state _).1, hic, hj.symm]
      · simp [hij, hic, hi.running i]
  case terminated =>
    intro i
    rw [hstate]
    change _ ↔ i ∈ w.exited
    rw [← hi.terminated i]
    by_cases hij : i = j
    · simp [hij, hrun.1]
    · rw [if_neg hij]
      split
      · exact (demoted_state _).2.1
      · rfl
  case not_blocked =>
    intro i
    rw [hstate]
    by_cases hij : i = j
    · simp [hij]
    · rw [if_neg hij]
      split
      · exact fun h => hi.not_blocked i ((demoted_state _).2.2.1 h)
      · exact hi.not_blocked i
  case pinned =>
    intro c' hc' a h
    rw [affinityOf_switched, hcur c' hc'] at h
    split at h
    · rename_i he
      rcases hrun.2 with hnone | hsome
      · simp [hnone] at h
      · rw [hsome] at h
        simpa [he, eq_comm] using h
    · exact hi.pinned c' hc' a h
  case idle =>
    intro c' hc'
    rw [hi.idle_switched hc hc', affinityOf_switched]
    exact hi.idle c' hc'

end

variable [Inhabited κ]

theorem Inv.step {w' : World κ} (hi : Inv w) (h : Step OwnEntry w w') : Inv w' := by
  cases h with
  | spawn name context hroom => exact hi.spawn name context hroom
  | comeUp c hnew hok hroom => exact hi.comeUp hnew hok hroom
  | exit c hc hidle => exact hi.exit hc hidle
  | schedule c hc =>
    rcases select_cases hi hc with hsel | ⟨j, hj, hrun, hsel⟩
    · rw [hsel]
      exact hi
    · rw [hsel]
      exact hi.switched hc hj hrun

theorem Inv.start : Inv (World.start : World κ) := by
  have hts : (World.start : World κ).k.threads = [⟨0, "idle/0", .running, default, some 0⟩] := rfl
  have hcur : (World.start : World κ).current 0 = 0 := rfl
  have hup : ∀ c ∈ (World.start : World κ).up, c = 0 := fun c hc => mem_singleton.1 hc
  have hCur : ∀ i, (World.start : World κ).Current i ↔ i = 0 := by
    intro i
    constructor
    · rintro ⟨c, hc, h⟩
      rw [hup c hc, hcur] at h
      exact h.symm
    · rintro rfl
      exact ⟨0, mem_singleton.2 rfl, hcur⟩
  have hstate : ∀ i, stateOf (World.start : World κ).k.threads i =
      if i = 0 then some .running else none := by
    intro i
    rw [hts]
    cases i <;> simp [stateOf]
  refine ⟨?_, ?_, ?_, ?_, ?_, ?_, ?_, ?_, ?_⟩
  · intro c hc
    rw [hup c hc]
    decide
  · change 1 < noThread
    decide
  · intro c hc
    rw [hup c hc, hcur]
    exact Nat.one_pos
  · intro c hc c' hc' _
    rw [hup c hc, hup c' hc']
  · intro i
    rw [hstate, hCur]
    change _ ↔ _ ∧ i ∉ []
    split <;> simp_all
  · intro i
    rw [hstate]
    change _ ↔ i ∈ []
    split <;> simp
  · intro i
    rw [hstate]
    split <;> simp
  · intro c hc a h
    rw [hup c hc, hcur, hts] at h
    rw [hup c hc]
    simpa [affinityOf, eq_comm] using h
  · intro c hc
    rw [hup c hc]
    exact ⟨rfl, not_mem_nil⟩

theorem Inv.reach (h : Reach (Step OwnEntry) World.start w) : Inv w :=
  Reach.invariant Inv.start Inv.step h

theorem Inv.gone_step {w' : World κ} (hi : Inv w) (hg : i ∈ w.exited ∧ ¬ w.Current i)
    (h : Step OwnEntry w w') : i ∈ w'.exited ∧ ¬ w'.Current i := by
  cases h with
  | spawn name context hroom => exact hg
  | comeUp c hnew hok hroom =>
    refine ⟨hg.1, ?_⟩
    rintro ⟨c', hc', h'⟩
    unfold World.current at h'
    rcases mem_cons.1 hc' with rfl | hm
    · rw [comeUp_get hok hok hi.few, if_pos rfl] at h'
      subst h'
      exact hi.not_exited_length hg.1
    · have hne : c' ≠ c := fun he => hnew (he ▸ hm)
      rw [comeUp_get hok (hi.own c' hm) hi.few, if_neg hne] at h'
      exact hg.2 ⟨c', hm, h'⟩
  | exit c hc hidle =>
    refine ⟨mem_cons_of_mem _ hg.1, ?_⟩
    rintro ⟨c', hc', h'⟩
    refine hg.2 ⟨c', hc', ?_⟩
    rw [← h']
    unfold World.current
    rw [show (w.exit c).k = w.k.exit c from rfl, get_exit]
  | schedule c hc =>
    rcases select_cases hi hc with hsel | ⟨j, hj, hrun, hsel⟩
    · rw [hsel]
      exact hg
    · rw [hsel]
      refine ⟨hg.1, ?_⟩
      rintro ⟨c', hc', h'⟩
      change ((Proc.switched w.k c j).get c').currentThreadIdx = i at h'
      rw [get_switched (hi.own c hc) (hi.own c' hc')] at h'
      split at h'
      · have hji : j = i := h'
        exact (hi.of_ready hrun.1).2 (hji ▸ hg.1)
      · exact hg.2 ⟨c', hc', h'⟩

end

/-! ## Results -/

variable {κ : Type}

/-- What the CPUs run agrees with the states of the threads. -/
structure Consistent (w : World κ) : Prop where
  /-- Every initialised CPU's current thread exists. -/
  current_lt : ∀ c ∈ w.up, w.current c < w.k.threads.length
  /-- No two CPUs have the same current thread. -/
  current_inj : ∀ c ∈ w.up, ∀ c' ∈ w.up, w.current c = w.current c' → c = c'
  /-- A thread is running exactly when it is current somewhere and has not called `exit`. -/
  running : ∀ i, stateOf w.k.threads i = some .running ↔ w.Current i ∧ i ∉ w.exited
  /-- A pinned thread is current only where it is pinned. -/
  pinned : ∀ c ∈ w.up, ∀ a, affinityOf w.k.threads (w.current c) = some (some a) → a = c

/-- **While every CPU that comes up has an entry of `PER_CPU` of its own, the scheduler's data stay
consistent**, and a terminated thread that has been switched away from never becomes current
again. -/
theorem scheduler_consistent [Inhabited κ] (w : World κ)
    (h : Reach (Step OwnEntry) World.start w) :
    Consistent w ∧ ∀ w', Reach (Step OwnEntry) w w' → ∀ i,
      stateOf w.k.threads i = some .terminated → ¬ w.Current i → ¬ w'.Current i := by
  have hi := Inv.reach h
  refine ⟨⟨hi.current_lt, hi.current_inj, hi.running, hi.pinned⟩, ?_⟩
  intro w' hrun i hterm hcur
  have hgone := Reach.later (P := Inv) Inv.step (fun hi hg hs => hi.gone_step hg hs) hi
    ⟨(hi.terminated i).1 hterm, hcur⟩ hrun
  exact hgone.2

theorem scheduler_consistent_after_exit : ∃ w : World Unit, Reach (Step OwnEntry) World.start w ∧
    w.up = [1, 0] ∧ stateOf w.k.threads 2 = some .terminated ∧ Consistent w := by
  have h1 : Reach (Step OwnEntry) (World.start : World Unit) _ :=
    Reach.refl.tail (.comeUp _ 1 (by decide) (by decide : 1 < maxCpus) (by decide))
  have h2 := h1.tail (.spawn _ "worker" () (by decide))
  have h3 := h2.tail (.schedule _ 0 (by decide))
  have h4 := h3.tail (.exit _ 0 (by decide) (by decide))
  have h5 := h4.tail (.schedule _ 0 (by decide))
  exact ⟨_, h5, rfl, by decide, (scheduler_consistent _ h5).1⟩

/-- **CPU 8 has no entry of `PER_CPU` and overwrites that of CPU 0.** Both then have the new idle
thread as their current thread, and thread 0 is running but current nowhere. -/
theorem ninth_cpu_shares_current : ∃ w : World Unit,
    Reach (Step fun _ => True) World.start w ∧ w.up = [8, 0] ∧ w.current 0 = 1 ∧
      w.current 8 = 1 ∧ stateOf w.k.threads 0 = some .running ∧ ¬ Consistent w := by
  have h1 : Reach (Step fun _ => True) (World.start : World Unit) _ :=
    Reach.refl.tail (.comeUp _ 8 (by decide) trivial (by decide))
  refine ⟨_, h1, rfl, by decide, by decide, by decide, fun hcon => ?_⟩
  exact absurd (hcon.current_inj 8 (by decide) 0 (by decide) (by decide)) (by decide)

/-- **`schedule()` never leaves a CPU with a dead thread**: in every run the thread that is current
after the locked part is running, also when the one before it had called `exit`. -/
theorem schedule_leaves_running [Inhabited κ] {w : World κ} {c : Nat}
    (h : Reach (Step OwnEntry) World.start w) (hc : c ∈ w.up) :
    stateOf (w.k.select c).1.threads ((w.k.select c).1.get c).currentThreadIdx =
      some .running := by
  have hi := Inv.reach h
  have hi' := Inv.reach (h.tail (.schedule w c hc))
  refine (hi'.running _).2 ⟨⟨c, hc, rfl⟩, fun hex => ?_⟩
  obtain hsel | ⟨j, -, hrun, hsel⟩ := select_cases hi hc
  · -- A current thread that has exited is not its CPU's idle thread, so the search finds another.
    rw [hsel] at hex
    have hterm : stateOf w.k.threads (w.current c) = some .terminated := (hi.terminated _).2 hex
    have hlt := hi.current_lt c hc
    have hfew := hi.few
    obtain ⟨j, hj⟩ := exists_nextIdx (by simpa using hlt) (hi.idle_runnable hc)
    have hne : j ≠ w.current c := by
      rintro rfl
      simpa [stateOf_demote, hterm] using (nextIdx_some hj).1
    have hnone := congrArg Prod.snd hsel
    unfold Kernel.select at hnone
    simp only [show (w.k.get c).currentThreadIdx = w.current c from rfl] at hnone
    rw [if_neg (by omega), if_neg (by omega)] at hnone
    simp [hj, Kernel.switchTo, hne] at hnone
  · rw [hsel] at hex
    have hown := hi.own c hc
    rw [get_switched hown hown, if_pos rfl] at hex
    exact (hi.of_ready hrun.1).2 hex

theorem schedule_leaves_running_after_exit : ∃ w : World Unit,
    stateOf w.k.threads (w.current 0) = some .terminated ∧
      stateOf (w.k.select 0).1.threads ((w.k.select 0).1.get 0).currentThreadIdx =
        some .running := by
  have h1 : Reach (Step OwnEntry) (World.start : World Unit) _ :=
    Reach.refl.tail (.spawn _ "worker" () (by decide))
  have h2 := h1.tail (.schedule _ 0 (by decide))
  have h3 := h2.tail (.exit _ 0 (by decide) (by decide))
  refine ⟨_, ?_, schedule_leaves_running h3 (by decide)⟩
  decide

end Kerners.Proc
