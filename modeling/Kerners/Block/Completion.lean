import Kerners.Virtio.Queue

/-!
# Waiting for a VirtIO block request (`src/block/virtio_blk.rs`)

A call of `read_block` or `write_block` adds a request under the lock of the queue, notifies the
device and calls `wait_for_completion`, which polls the used ring until some completion comes out.
Then it looks at the status byte on its own stack. Any number of threads do this at once.

* `used` is the queue of completions nobody has polled; `rings_in_order` is why `poll_used` takes
  them in this order. `wait_for_completion` does not look at what it took.
* A request is an identity and the address of its status byte. Status bytes of calls in progress
  are apart (they are on the stacks of different calls); one of a call that has returned may be used
  again.
* `wait_for_completion` is modelled turn by turn: the interrupt flag, the two polls of a turn, the
  thousand turns of the first loop and the hundred thousand of the second. `wfi` is a pause of any
  length.
* A call that is refused before it adds a request changes nothing here.
-/

namespace Kerners.Block

open Lib Virtio Function List

/-! ## Calls -/

structure Request where
  id : Nat
  statusAddr : Nat
  deriving DecidableEq

inductive Wait where
  /-- Turn `i` of the first loop: the interrupt flag. -/
  | flag (i : Nat)
  /-- Turn `i`: the poll after an interrupt. -/
  | irqPoll (i : Nat)
  /-- Turn `i`: the direct poll. -/
  | direct (i : Nat)
  /-- The second loop, with its counter. -/
  | fallback (timeout : Nat)
  /-- `wait_for_completion` has returned `Ok`; the status byte is next. -/
  | check
  deriving DecidableEq

structure InProgress where
  req : Request
  pc : Wait
  deriving DecidableEq

structure Blk where
  calls : Nat → Option InProgress
  atDevice : List Request
  used : List Request
  mem : Nat → Nat
  interruptFlag : Bool
  nextId : Nat
  /-- The requests the device has completed, with the status. -/
  completed : List (Nat × Nat)
  /-- The calls that have returned after adding a request. -/
  returned : List (Request × Except VirtIOError Unit)

namespace Blk

def init : Blk := ⟨fun _ => none, [], [], fun _ => 0, false, 0, [], []⟩

variable (s : Blk) (t : Nat)

/-- `add_buffer_chain` and `notify_queue`, with a fresh status byte at `addr`. -/
def enqueue (addr : Nat) : Blk :=
  { s with
    calls := update s.calls t (some ⟨⟨s.nextId, addr⟩, .flag 0⟩)
    atDevice := s.atDevice ++ [⟨s.nextId, addr⟩]
    mem := update s.mem addr 0xFF
    nextId := s.nextId + 1 }

/-- The device writes the status byte of a request and returns it. -/
def complete (req : Request) (status : Nat) : Blk :=
  { s with
    atDevice := s.atDevice.erase req
    used := s.used ++ [req]
    mem := update s.mem req.statusAddr status
    completed := s.completed ++ [(req.id, status)] }

/-- The call goes on at `pc`. -/
def goto (req : Request) (pc : Wait) : Blk :=
  { s with calls := update s.calls t (some ⟨req, pc⟩) }

def ret (req : Request) (r : Except VirtIOError Unit) : Blk :=
  { s with calls := update s.calls t none, returned := s.returned ++ [(req, r)] }

/-- `poll_used().is_some()`: on to the status if a completion came out, else to `other`. -/
def poll (req : Request) (found : Blk → Blk) (other : Blk) : Blk :=
  match s.used with
  | [] => other
  | _ :: rest => found ({ s with used := rest }.goto t req .check)

def turn (req : Request) : Wait → Blk
  | .flag i =>
    if s.interruptFlag then { s with interruptFlag := false }.goto t req (.irqPoll i)
    else s.goto t req (.direct i)
  | .irqPoll i => s.poll t req id (s.goto t req (.direct i))
  | .direct i =>
    s.poll t req (fun s => { s with interruptFlag := false })
      (s.goto t req (if i + 1 < 1000 then .flag (i + 1) else .fallback 100000))
  | .fallback timeout =>
    s.poll t req (fun s => { s with interruptFlag := false })
      (if timeout - 1 = 0 then s.ret t req (.error .timeout)
       else s.goto t req (.fallback (timeout - 1)))
  | .check =>
    s.ret t req (if s.mem req.statusAddr ≠ 0 then .error .ioError else .ok ())

end Blk

inductive BlkStep (ok : Blk → Prop) : Blk → Blk → Prop
  | enqueue (s : Blk) (t addr : Nat) (hidle : s.calls t = none)
      (hfree : ∀ u c, s.calls u = some c → c.req.statusAddr ≠ addr) (hok : ok s) :
      BlkStep ok s (s.enqueue t addr)
  | turn (s : Blk) (t : Nat) (c : InProgress) (hc : s.calls t = some c) :
      BlkStep ok s (s.turn t c.req c.pc)
  | complete (s : Blk) (req : Request) (status : Nat) (hmem : req ∈ s.atDevice) :
      BlkStep ok s (s.complete req status)
  | interrupt (s : Blk) : BlkStep ok s { s with interruptFlag := true }

/-- No request is at the device and no completion waits to be polled. -/
def NoneOutstanding (s : Blk) : Prop := s.atDevice = [] ∧ s.used = []

/-- A call that has returned `Ok` had its own request completed with status 0, and one that has
returned `Ok` or `IoError` has left no request at the device. -/
def OwnCompletion (s : Blk) : Prop :=
  ∀ p ∈ s.returned, (p.2 = .ok () → (p.1.id, 0) ∈ s.completed) ∧
    (p.2 = .ok () ∨ p.2 = .error .ioError → p.1 ∉ s.atDevice)

/-! ## One request at a time -/

structure Waits (s : Blk) : Prop where
  call_id : ∀ {t c}, s.calls t = some c → c.req.id < s.nextId
  returned_id : ∀ {p}, p ∈ s.returned → p.1.id < s.nextId
  apart : ∀ {t u c c'}, s.calls t = some c → s.calls u = some c' →
    c.req.statusAddr = c'.req.statusAddr → t = u
  /-- The device writes to the status byte of a call only for its request. -/
  device_apart : ∀ {r t c}, r ∈ s.atDevice → s.calls t = some c →
    c.req.statusAddr = r.statusAddr → c.req = r
  /-- A call that still polls waits for the only request there is. -/
  polling : ∀ {t c}, s.calls t = some c → c.pc ≠ .check →
    s.atDevice = [c.req] ∧ s.used = [] ∨
      s.atDevice = [] ∧ s.used = [c.req] ∧ (c.req.id, s.mem c.req.statusAddr) ∈ s.completed
  /-- A call that looks at its status byte finds what the device wrote for its request. -/
  checking : ∀ {t c}, s.calls t = some c → c.pc = .check →
    c.req ∉ s.atDevice ∧ (c.req.id, s.mem c.req.statusAddr) ∈ s.completed
  own : OwnCompletion s

variable {s s' : Blk} {t addr status : Nat} {c : InProgress} {req : Request}

theorem call_cases {o : Option InProgress} {u : Nat} {c' : InProgress}
    (h : update s.calls t o u = some c') : u = t ∧ o = some c' ∨ u ≠ t ∧ s.calls u = some c' := by
  by_cases hu : u = t
  · subst hu
    rw [update_self] at h
    exact .inl ⟨rfl, h⟩
  · rw [update_of_ne hu] at h
    exact .inr ⟨hu, h⟩

namespace Waits

theorem start : Waits .init where
  call_id h := absurd h (by simp [Blk.init])
  returned_id h := absurd h (by simp [Blk.init])
  apart h := absurd h (by simp [Blk.init])
  device_apart h := absurd h (by simp [Blk.init])
  polling h := absurd h (by simp [Blk.init])
  checking h := absurd h (by simp [Blk.init])
  own p h := absurd h (by simp [Blk.init])

theorem setFlag (h : Waits s) (b : Bool) : Waits { s with interruptFlag := b } :=
  ⟨h.call_id, h.returned_id, h.apart, h.device_apart, h.polling, h.checking, h.own⟩

theorem check_of_none (h : Waits s) (hnone : NoneOutstanding s) (hc : s.calls t = some c) :
    c.pc = .check := by
  by_contra hpc
  rcases h.polling hc hpc with ⟨hdev, _⟩ | ⟨_, hused, _⟩
  · exact absurd (hnone.1.symm.trans hdev) (by simp)
  · exact absurd (hnone.2.symm.trans hused) (by simp)

theorem polling_unique (h : Waits s) {u : Nat} {c' : InProgress} (hc : s.calls t = some c)
    (hpc : c.pc ≠ .check) (hc' : s.calls u = some c') (hpc' : c'.pc ≠ .check) : t = u := by
  have hreq : c.req = c'.req := by
    rcases h.polling hc hpc with ⟨hd, hu⟩ | ⟨hd, hu, _⟩ <;>
      rcases h.polling hc' hpc' with ⟨hd', hu'⟩ | ⟨hd', hu', _⟩ <;> simp_all
  exact h.apart hc hc' (congrArg Request.statusAddr hreq)

theorem enqueue (h : Waits s) (hnone : NoneOutstanding s)
    (hfree : ∀ u c, s.calls u = some c → c.req.statusAddr ≠ addr) : Waits (s.enqueue t addr) := by
  have hdev : (s.enqueue t addr).atDevice = [⟨s.nextId, addr⟩] := by
    change s.atDevice ++ _ = _
    rw [hnone.1]
    rfl
  refine ⟨?_, ?_, ?_, ?_, ?_, ?_, ?_⟩
  · intro u c hc
    rcases call_cases hc with ⟨_, ⟨⟩⟩ | ⟨_, hc⟩
    · exact Nat.lt_succ_self _
    · exact Nat.lt_succ_of_lt (h.call_id hc)
  · exact fun hp => Nat.lt_succ_of_lt (h.returned_id hp)
  · intro u v c c' hc hc' he
    rcases call_cases hc with ⟨hu, ⟨⟩⟩ | ⟨_, hold⟩ <;>
      rcases call_cases hc' with ⟨hv, ⟨⟩⟩ | ⟨_, hold'⟩
    · exact hu.trans hv.symm
    · exact absurd he.symm (hfree _ _ hold')
    · exact absurd he (hfree _ _ hold)
    · exact h.apart hold hold' he
  · intro r u c hr hc he
    rw [hdev, mem_singleton] at hr
    subst hr
    rcases call_cases hc with ⟨_, ⟨⟩⟩ | ⟨_, hc⟩
    · rfl
    · exact absurd he (hfree _ _ hc)
  · intro u c hc hpc
    rcases call_cases hc with ⟨_, ⟨⟩⟩ | ⟨_, hc⟩
    · exact .inl ⟨hdev, hnone.2⟩
    · exact absurd (h.check_of_none hnone hc) hpc
  · intro u c hc hpc
    rcases call_cases hc with ⟨_, ⟨⟩⟩ | ⟨_, hc⟩
    · exact absurd hpc (by simp)
    · have hne := hfree _ _ hc
      have hmem : (s.enqueue t addr).mem c.req.statusAddr = s.mem c.req.statusAddr :=
        update_of_ne hne ..
      refine ⟨?_, hmem ▸ (h.checking hc hpc).2⟩
      rw [hdev, mem_singleton]
      exact fun he => hne (congrArg Request.statusAddr he)
  · intro p hp
    refine ⟨(h.own p hp).1, fun _ => ?_⟩
    rw [hdev, mem_singleton]
    intro he
    have hid := h.returned_id hp
    rw [he] at hid
    exact Nat.lt_irrefl _ hid

theorem complete (h : Waits s) (hreq : req ∈ s.atDevice) : Waits (s.complete req status) := by
  refine ⟨h.call_id, h.returned_id, h.apart,
    fun hr => h.device_apart (mem_of_mem_erase hr), ?_, ?_, ?_⟩
  · intro u c hc hpc
    rcases h.polling hc hpc with ⟨hdev, hused⟩ | ⟨hdev, _⟩
    · rw [hdev, mem_singleton] at hreq
      subst hreq
      refine .inr ⟨?_, ?_, ?_⟩
      · change s.atDevice.erase c.req = []
        rw [hdev, erase_cons_head]
      · change s.used ++ [c.req] = _
        rw [hused]
        rfl
      · change (_, update s.mem _ _ _) ∈ s.completed ++ _
        rw [update_self]
        exact mem_append_right _ mem_cons_self
    · exact absurd (hdev ▸ hreq) (by simp)
  · intro u c hc hpc
    obtain ⟨hnot, hcomp⟩ := h.checking hc hpc
    have hne : c.req.statusAddr ≠ req.statusAddr := fun he =>
      hnot (h.device_apart hreq hc he ▸ hreq)
    refine ⟨fun hm => hnot (mem_of_mem_erase hm), ?_⟩
    change (_, update s.mem _ _ _) ∈ s.completed ++ _
    rw [update_of_ne hne]
    exact mem_append_left _ hcomp
  · intro p hp
    obtain ⟨hok, hnot⟩ := h.own p hp
    exact ⟨fun he => mem_append_left _ (hok he),
      fun he hm => hnot he (mem_of_mem_erase hm)⟩

theorem goto (h : Waits s) (hc : s.calls t = some c) (hpc : c.pc ≠ .check) {pc : Wait}
    (hpc' : pc ≠ .check) : Waits (s.goto t c.req pc) := by
  have hcall : ∀ {u c'}, (s.goto t c.req pc).calls u = some c' →
      ∃ c0, s.calls u = some c0 ∧ c0.req = c'.req ∧ (c0.pc = .check ↔ c'.pc = .check) := by
    intro u c' h'
    rcases call_cases h' with ⟨rfl, ⟨⟩⟩ | ⟨_, h'⟩
    · exact ⟨c, hc, rfl, iff_of_false hpc hpc'⟩
    · exact ⟨c', h', rfl, Iff.rfl⟩
  refine ⟨?_, h.returned_id, ?_, ?_, ?_, ?_, h.own⟩
  · intro u c' h'
    obtain ⟨c0, h0, hr, _⟩ := hcall h'
    exact hr ▸ h.call_id h0
  · intro u v c' c'' h' h'' he
    obtain ⟨c0, h0, hr, _⟩ := hcall h'
    obtain ⟨c1, h₁, hr', _⟩ := hcall h''
    exact h.apart h0 h₁ (by rw [hr, hr', he])
  · intro r u c' hm h' he
    obtain ⟨c0, h0, hr, _⟩ := hcall h'
    exact hr ▸ h.device_apart hm h0 (by rw [hr, he])
  · intro u c' h' hp
    obtain ⟨c0, h0, hr, hiff⟩ := hcall h'
    exact hr ▸ h.polling h0 fun he => hp (hiff.1 he)
  · intro u c' h' hp
    obtain ⟨c0, h0, hr, hiff⟩ := hcall h'
    exact hr ▸ h.checking h0 (hiff.2 hp)

theorem found (h : Waits s) (hc : s.calls t = some c) (hpc : c.pc ≠ .check) {r : Request}
    {rest : List Request} (hused : s.used = r :: rest) :
    Waits ({ s with used := rest }.goto t c.req .check) := by
  rcases h.polling hc hpc with ⟨_, hnone⟩ | ⟨hdev, hown, hcomp⟩
  · exact absurd (hused.symm.trans hnone) (by simp)
  have hothers : ∀ {u c'}, u ≠ t → s.calls u = some c' → c'.pc = .check := by
    intro u c' hne hc'
    by_contra hp
    exact hne (h.polling_unique hc' hp hc hpc)
  refine ⟨?_, h.returned_id, ?_, ?_, ?_, ?_, h.own⟩
  · intro u c' h'
    rcases call_cases h' with ⟨_, ⟨⟩⟩ | ⟨_, h'⟩
    · exact (h.call_id hc : c.req.id < s.nextId)
    · exact h.call_id h'
  · intro u v c' c'' h' h'' he
    rcases call_cases h' with ⟨hu, ⟨⟩⟩ | ⟨_, hold⟩ <;>
      rcases call_cases h'' with ⟨hv, ⟨⟩⟩ | ⟨_, hold'⟩
    · exact hu.trans hv.symm
    · exact hu.trans (h.apart hc hold' he)
    · exact (h.apart hold hc he).trans hv.symm
    · exact h.apart hold hold' he
  · intro r u c' hm
    exact absurd (hdev ▸ hm) (by simp)
  · intro u c' h' hp
    rcases call_cases h' with ⟨_, ⟨⟩⟩ | ⟨hne, h'⟩
    · exact absurd rfl hp
    · exact absurd (hothers hne h') hp
  · intro u c' h' hp
    rcases call_cases h' with ⟨rfl, ⟨⟩⟩ | ⟨_, h'⟩
    · exact ⟨fun hm => absurd (hdev ▸ hm) (by simp), hcomp⟩
    · exact h.checking h' hp

theorem ret (h : Waits s) (hc : s.calls t = some c) {r : Except VirtIOError Unit}
    (hok : r = .ok () → (c.req.id, 0) ∈ s.completed)
    (hnot : r = .ok () ∨ r = .error .ioError → c.req ∉ s.atDevice) : Waits (s.ret t c.req r) := by
  have hcall : ∀ {u c'}, (s.ret t c.req r).calls u = some c' → s.calls u = some c' := by
    intro u c' h'
    rcases call_cases h' with ⟨_, ⟨⟩⟩ | ⟨_, h'⟩
    exact h'
  refine ⟨fun h' => h.call_id (hcall h'), ?_, fun h' h'' => h.apart (hcall h') (hcall h''),
    fun hm h' => h.device_apart hm (hcall h'), fun h' => h.polling (hcall h'),
    fun h' => h.checking (hcall h'), ?_⟩
  · intro p hp
    rcases mem_append.1 hp with hp | hp
    · exact h.returned_id hp
    · obtain rfl := mem_singleton.1 hp
      exact h.call_id hc
  · intro p hp
    rcases mem_append.1 hp with hp | hp
    · exact h.own p hp
    · obtain rfl := mem_singleton.1 hp
      exact ⟨hok, hnot⟩

theorem poll (h : Waits s) (hc : s.calls t = some c) (hpc : c.pc ≠ .check) {found : Blk → Blk}
    {other : Blk} (hfound : ∀ {s}, Waits s → Waits (found s)) (hother : Waits other) :
    Waits (s.poll t c.req found other) := by
  unfold Blk.poll
  split
  · exact hother
  · rename_i hused
    exact hfound (h.found hc hpc hused)

theorem turn (h : Waits s) (hc : s.calls t = some c) : Waits (s.turn t c.req c.pc) := by
  cases hpc : c.pc with
  | flag i =>
    have hne : c.pc ≠ .check := by simp [hpc]
    rw [Blk.turn]
    split
    · exact (h.setFlag false).goto hc hne (by simp)
    · exact h.goto hc hne (by simp)
  | irqPoll i =>
    have hne : c.pc ≠ .check := by simp [hpc]
    exact h.poll hc hne (fun h => h) (h.goto hc hne (by simp))
  | direct i =>
    have hne : c.pc ≠ .check := by simp [hpc]
    refine h.poll hc hne (fun h => h.setFlag false) (h.goto hc hne ?_)
    split <;> simp
  | fallback timeout =>
    have hne : c.pc ≠ .check := by simp [hpc]
    refine h.poll hc hne (fun h => h.setFlag false) ?_
    split
    · exact h.ret hc (by simp) (by simp)
    · exact h.goto hc hne (by simp)
  | check =>
    obtain ⟨hnot, hcomp⟩ := h.checking hc hpc
    refine h.ret hc ?_ fun _ => hnot
    intro hr
    by_cases hm : s.mem c.req.statusAddr = 0
    · exact hm ▸ hcomp
    · rw [if_pos hm] at hr
      exact absurd hr (by simp)

theorem step (h : Waits s) (hs : BlkStep NoneOutstanding s s') : Waits s' := by
  cases hs with
  | enqueue t addr _ hfree hok => exact h.enqueue hok hfree
  | turn t c hc => exact h.turn hc
  | complete req status hreq => exact h.complete hreq
  | interrupt => exact h.setFlag true

end Waits

/-- **A call returns with its own completion** in every run in which a request is added only while
no request is at the device and no completion waits in the used ring. -/
theorem own_completion (h : Reach (BlkStep NoneOutstanding) .init s) : OwnCompletion s :=
  (h.invariant Waits.start fun h hs => h.step hs).own

/-- Two calls one after the other; the device reports an error for the second. -/
theorem own_completion_two_calls :
    ∃ s, Reach (BlkStep NoneOutstanding) .init s ∧
      s.returned = [(⟨0, 0⟩, .ok ()), (⟨1, 1⟩, .error .ioError)] ∧
      OwnCompletion s := by
  let s1 := Blk.init.enqueue 0 0
  let s2 := s1.complete ⟨0, 0⟩ 0
  let s3 := s2.turn 0 ⟨0, 0⟩ (.flag 0)
  let s4 := s3.turn 0 ⟨0, 0⟩ (.direct 0)
  let s5 := s4.turn 0 ⟨0, 0⟩ .check
  have h2 : Reach (BlkStep NoneOutstanding) .init s2 :=
    (Reach.refl.tail (.enqueue .init 0 0 rfl (fun _ _ h => absurd h (by simp [Blk.init]))
      ⟨rfl, rfl⟩)).tail (.complete s1 ⟨0, 0⟩ 0 mem_cons_self)
  have h5 : Reach (BlkStep NoneOutstanding) .init s5 :=
    ((h2.tail (.turn s2 0 ⟨⟨0, 0⟩, .flag 0⟩ rfl)).tail (.turn s3 0 ⟨⟨0, 0⟩, .direct 0⟩ rfl)).tail
      (.turn s4 0 ⟨⟨0, 0⟩, .check⟩ rfl)
  have hidle : ∀ u, s5.calls u = none := by
    intro u
    by_cases hu : u = 0
    · subst hu
      rfl
    · have hinit : s5.calls u = Blk.init.calls u := by
        change update (update (update (update Blk.init.calls 0 _) 0 _) 0 _) 0 _ u = _
        simp only [update_of_ne hu]
      exact hinit
  let s6 := s5.enqueue 1 1
  let s7 := s6.complete ⟨1, 1⟩ 1
  let s8 := s7.turn 1 ⟨1, 1⟩ (.flag 0)
  let s9 := s8.turn 1 ⟨1, 1⟩ (.direct 0)
  let s10 := s9.turn 1 ⟨1, 1⟩ .check
  have h7 : Reach (BlkStep NoneOutstanding) .init s7 :=
    (h5.tail (.enqueue s5 1 1 (hidle 1) (fun u c h => absurd (hidle u ▸ h) (by simp))
      ⟨rfl, rfl⟩)).tail (.complete s6 ⟨1, 1⟩ 1 mem_cons_self)
  have h10 : Reach (BlkStep NoneOutstanding) .init s10 :=
    ((h7.tail (.turn s7 1 ⟨⟨1, 1⟩, .flag 0⟩ rfl)).tail (.turn s8 1 ⟨⟨1, 1⟩, .direct 0⟩ rfl)).tail
      (.turn s9 1 ⟨⟨1, 1⟩, .check⟩ rfl)
  exact ⟨s10, h10, rfl, own_completion h10⟩

/-- Two threads have a request each; the device completes the second one first. The first thread
polls that completion, finds its own status byte untouched and returns `IoError` while its request
is at the device. -/
theorem foreign_completion_taken :
    ∃ s, Reach (BlkStep fun _ => True) .init s ∧
      s.returned = [(⟨0, 0⟩, .error .ioError)] ∧ s.atDevice = [⟨0, 0⟩] ∧ ¬ OwnCompletion s := by
  let s1 := Blk.init.enqueue 0 0
  let s2 := s1.enqueue 1 1
  let s3 := s2.complete ⟨1, 1⟩ 0
  let s4 := s3.turn 0 ⟨0, 0⟩ (.flag 0)
  let s5 := s4.turn 0 ⟨0, 0⟩ (.direct 0)
  let s6 := s5.turn 0 ⟨0, 0⟩ .check
  have h1 : Reach (BlkStep fun _ => True) .init s1 :=
    Reach.refl.tail (.enqueue .init 0 0 rfl (fun _ _ h => absurd h (by simp [Blk.init])) trivial)
  have hfree : ∀ u c, s1.calls u = some c → c.req.statusAddr ≠ 1 := by
    intro u c hc
    rcases call_cases hc with ⟨_, ⟨⟩⟩ | ⟨_, hc⟩
    · decide
    · exact absurd hc (by simp [Blk.init])
  have h2 : Reach (BlkStep fun _ => True) .init s2 := h1.tail (.enqueue s1 1 1 rfl hfree trivial)
  have h3 : Reach (BlkStep fun _ => True) .init s3 :=
    h2.tail (.complete s2 ⟨1, 1⟩ 0 (mem_cons_of_mem _ mem_cons_self))
  have h4 : Reach (BlkStep fun _ => True) .init s4 := h3.tail (.turn s3 0 ⟨⟨0, 0⟩, .flag 0⟩ rfl)
  have h5 : Reach (BlkStep fun _ => True) .init s5 := h4.tail (.turn s4 0 ⟨⟨0, 0⟩, .direct 0⟩ rfl)
  have h6 : Reach (BlkStep fun _ => True) .init s6 := h5.tail (.turn s5 0 ⟨⟨0, 0⟩, .check⟩ rfl)
  refine ⟨s6, h6, rfl, rfl, fun hown => ?_⟩
  exact (hown (⟨0, 0⟩, .error .ioError) mem_cons_self).2 (.inr rfl) mem_cons_self

end Kerners.Block
