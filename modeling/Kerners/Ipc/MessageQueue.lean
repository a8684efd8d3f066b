import Kerners.Lib.Threads
import Kerners.Sync.Semaphore

/-!
# The unbounded message queue (`ipc/message_queue.rs`)

Model of `MessageQueue<T>` for calls one after the other. Its state is in four places: the deque,
the counter `count` that `len` and `is_empty` read, the flag `closed` and the permits `sem_items`.
`send` adds a permit and a receive takes one; `close` adds ten, to wake those who wait, and `clear`
takes one for each message it removes. A call that does not return is `none`.

`PrioritySpec` says what the queue is for, over the messages in the order they were sent.
-/

namespace Kerners.Ipc

open Lib Sync List

inductive Priority where
  | low
  | normal
  | high
  | urgent
  deriving DecidableEq

def Priority.rank : Priority → Nat
  | .low => 0
  | .normal => 1
  | .high => 2
  | .urgent => 3

instance : LT Priority := ⟨fun a b => a.rank < b.rank⟩

instance : DecidableRel (α := Priority) (· < ·) := fun a b =>
  inferInstanceAs (Decidable (a.rank < b.rank))

/-- `Message<T>`. -/
structure Message (T : Type*) where
  data : T
  priority : Priority
  senderId : Option Nat
  timestamp : Nat
  deriving DecidableEq

def Message.withPriority {T : Type*} (data : T) (priority : Priority) : Message T :=
  { data, priority, senderId := none, timestamp := 0 }

def Message.new {T : Type*} (data : T) : Message T := Message.withPriority data .normal

inductive MessageQueueError where
  | full
  | empty
  | closed
  | timeout
  deriving DecidableEq

/-- `MessageQueue<T>`. -/
structure MessageQueue (T : Type*) where
  queue : List (Message T)
  count : Nat
  closed : Bool
  semItems : Int

inductive MqCall (T : Type*) where
  | send (data : T)
  | sendPriority (data : T) (priority : Priority)
  | receive
  | tryReceive
  | clear
  | close
  deriving DecidableEq

inductive MqResult (T : Type*) where
  | ok
  | message (m : Message T)
  | error (e : MessageQueueError)
  deriving DecidableEq

open Semaphore

namespace MessageQueue

variable {T : Type*}

def new : MessageQueue T := ⟨[], 0, false, 0⟩

/-- `len`: what the counter says. -/
def len (q : MessageQueue T) : Nat := q.count

def isEmpty (q : MessageQueue T) : Bool := q.len == 0

def sendMessage (q : MessageQueue T) (m : Message T) : MqResult T × MessageQueue T :=
  if q.closed then (.error .closed, q)
  else (.ok, { q with
    queue := q.queue ++ [m], count := incWord q.count, semItems := Semaphore.release q.semItems })

theorem sendMessage_closed {q : MessageQueue T} (h : q.closed = true) (m : Message T) :
    q.sendMessage m = (.error .closed, q) := if_pos h

theorem sendMessage_open {q : MessageQueue T} (h : q.closed = false) (m : Message T) :
    q.sendMessage m = (.ok, { q with
      queue := q.queue ++ [m], count := incWord q.count,
      semItems := release q.semItems }) := if_neg (by simp [h])

/-- The loop of `find_highest_priority` from index `i` on, with the best index and priority. -/
def findLoop : List (Message T) → Nat → Nat → Priority → Nat
  | [], _, best, _ => best
  | m :: ms, i, best, priority =>
    if priority < m.priority then findLoop ms (i + 1) i m.priority
    else findLoop ms (i + 1) best priority

def findHighestPriority : List (Message T) → Option Nat
  | [] => none
  | m :: ms => some (findLoop (m :: ms) 0 0 m.priority)

/-- The end of `receive` and `try_receive`, with a permit in hand. -/
def takeHighest (q : MessageQueue T) : MqResult T × MessageQueue T :=
  match findHighestPriority q.queue with
  | none => (.error .empty, q)
  | some idx =>
    match q.queue[idx]? with
    | none => (.error .empty, q)
    | some m => (.message m, { q with queue := q.queue.eraseIdx idx, count := decWord q.count })

def tryReceive (q : MessageQueue T) : MqResult T × MessageQueue T :=
  if q.closed && q.isEmpty then (.error .closed, q)
  else
    match Semaphore.tryAcquire q.semItems with
    | (false, _) => (.error .empty, q)
    | (true, count) => takeHighest { q with semItems := count }

/-- `receive`; without a permit it does not return. -/
def receive (q : MessageQueue T) : Option (MqResult T × MessageQueue T) :=
  if q.closed && q.isEmpty then some (.error .closed, q)
  else
    (Semaphore.acquire q.semItems).map fun count =>
      if q.closed && q.isEmpty then (.error .closed, { q with semItems := count })
      else takeHighest { q with semItems := count }

def close (q : MessageQueue T) : MessageQueue T :=
  { q with closed := true, semItems := Semaphore.releaseN 10 q.semItems }

def clear (q : MessageQueue T) : MessageQueue T :=
  { q with
    queue := [], count := 0, semItems := Semaphore.tryAcquireN q.queue.length q.semItems }

def call (q : MessageQueue T) : MqCall T → Option (MqResult T × MessageQueue T)
  | .send data => some (q.sendMessage (Message.new data))
  | .sendPriority data priority => some (q.sendMessage (Message.withPriority data priority))
  | .receive => q.receive
  | .tryReceive => some q.tryReceive
  | .clear => some (.ok, q.clear)
  | .close => some (.ok, q.close)

end MessageQueue

/-! ## What the queue is for -/

/-- `m` is the oldest of the messages with the highest priority in `ms`, and `rest` are the
others. -/
def Highest {T : Type*} (ms : List (Message T)) (m : Message T) (rest : List (Message T)) : Prop :=
  ∃ older newer, ms = older ++ m :: newer ∧ rest = older ++ newer ∧
    (∀ x ∈ older, x.priority < m.priority) ∧ ∀ x ∈ newer, ¬ m.priority < x.priority

/-- The calls on a priority queue whose ties are served in the order of sending: messages and
closed flag before, call, result, messages and closed flag after. -/
inductive PrioritySpec {T : Type*} :
    List (Message T) → Bool → MqCall T → MqResult T → List (Message T) → Bool → Prop
  | send (ms : List (Message T)) (data : T) :
    PrioritySpec ms false (.send data) .ok (ms ++ [Message.new data]) false
  | sendPriority (ms : List (Message T)) (data : T) (priority : Priority) :
    PrioritySpec ms false (.sendPriority data priority) .ok
      (ms ++ [Message.withPriority data priority]) false
  | sendClosed (ms : List (Message T)) (data : T) :
    PrioritySpec ms true (.send data) (.error .closed) ms true
  | sendPriorityClosed (ms : List (Message T)) (data : T) (priority : Priority) :
    PrioritySpec ms true (.sendPriority data priority) (.error .closed) ms true
  | receive {ms rest : List (Message T)} {m : Message T} (closed : Bool) (h : Highest ms m rest) :
    PrioritySpec ms closed .receive (.message m) rest closed
  | tryReceive {ms rest : List (Message T)} {m : Message T} (closed : Bool)
    (h : Highest ms m rest) : PrioritySpec ms closed .tryReceive (.message m) rest closed
  | tryReceiveEmpty : PrioritySpec [] false .tryReceive (.error .empty) [] false
  | tryReceiveClosed : PrioritySpec [] true .tryReceive (.error .closed) [] true
  | receiveClosed : PrioritySpec [] true .receive (.error .closed) [] true
  | clear (ms : List (Message T)) (closed : Bool) : PrioritySpec ms closed .clear .ok [] closed
  | close (ms : List (Message T)) (closed : Bool) : PrioritySpec ms closed .close .ok ms true

/-! ## The loop -/

namespace MessageQueue

variable {T : Type*}

theorem findLoop_spec (ms : List (Message T)) :
    ∀ (older : List (Message T)) (best : Message T) (newer : List (Message T)),
      (∀ x ∈ older, x.priority < best.priority) → (∀ x ∈ newer, ¬ best.priority < x.priority) →
      ∃ older' m newer', older ++ best :: newer ++ ms = older' ++ m :: newer' ∧
        findLoop ms (older.length + 1 + newer.length) older.length best.priority = older'.length ∧
        (∀ x ∈ older', x.priority < m.priority) ∧ ∀ x ∈ newer', ¬ m.priority < x.priority := by
  induction ms with
  | nil =>
    intro older best newer ho hn
    exact ⟨older, best, newer, append_nil _, rfl, ho, hn⟩
  | cons y ms ih =>
    intro older best newer ho hn
    rw [findLoop]
    split_ifs with hlt
    · -- a higher priority: all before it are older and lower
      have hall : ∀ x ∈ older ++ best :: newer, x.priority < y.priority := by
        intro x hx
        simp only [mem_append, mem_cons] at hx
        rcases hx with hx | rfl | hx
        · exact Nat.lt_trans (ho x hx) hlt
        · exact hlt
        · exact Nat.lt_of_le_of_lt (Nat.le_of_not_lt (hn x hx)) hlt
      obtain ⟨o, m, n, heq, hidx, h⟩ := ih (older ++ best :: newer) y [] hall (by simp)
      refine ⟨o, m, n, ?_, ?_, h⟩
      · rw [← heq]
        simp
      · rw [← hidx]
        congr 1 <;> simp <;> omega
    · have hnew : ∀ x ∈ newer ++ [y], ¬ best.priority < x.priority := by
        intro x hx
        simp only [mem_append, mem_singleton] at hx
        rcases hx with hx | rfl
        · exact hn x hx
        · exact hlt
      obtain ⟨o, m, n, heq, hidx, h⟩ := ih older best (newer ++ [y]) ho hnew
      refine ⟨o, m, n, ?_, ?_, h⟩
      · rw [← heq]
        simp
      · rw [← hidx]
        congr 1
        simp
        omega

theorem findHighestPriority_spec {ms : List (Message T)} (h : ms ≠ []) :
    ∃ older m newer, ms = older ++ m :: newer ∧
      findHighestPriority ms = some older.length ∧
      (∀ x ∈ older, x.priority < m.priority) ∧
      ∀ x ∈ newer, ¬ m.priority < x.priority := by
  cases ms with
  | nil => exact absurd rfl h
  | cons m ms =>
    obtain ⟨o, y, n, heq, hidx, hs⟩ := findLoop_spec ms [] m [] (by simp) (by simp)
    refine ⟨o, y, n, heq, ?_, hs⟩
    rw [findHighestPriority, findLoop, ite_self, ← hidx]
    rfl

theorem takeHighest_spec {q : MessageQueue T} (h : q.queue ≠ []) :
    ∃ m rest, Highest q.queue m rest ∧ rest.length + 1 = q.queue.length ∧
      q.takeHighest = (.message m, { q with queue := rest, count := decWord q.count }) := by
  obtain ⟨o, m, n, heq, hfind, ho, hn⟩ := findHighestPriority_spec h
  refine ⟨m, o ++ n, ⟨o, n, heq, rfl, ho, hn⟩, ?_, ?_⟩
  · rw [heq]
    simp
    omega
  · have hget : q.queue[o.length]? = some m := by
      rw [heq]
      simp
    have hrest : q.queue.eraseIdx o.length = o ++ n := by
      rw [heq, eraseIdx_append_of_length_le (Nat.le_refl _)]
      simp
    simp only [takeHighest, hfind, hget, hrest]

end MessageQueue

/-! ## Runs -/

/-- The queue with the number of `close` calls so far. -/
structure MqWatch (T : Type*) where
  q : MessageQueue T
  closes : Nat

def MqCall.permits {T : Type*} : MqCall T → Nat
  | .send _ | .sendPriority _ _ => 1
  | .close => 10
  | .receive | .tryReceive | .clear => 0

/-- Whether a call is a `close`, as a number. -/
def MqCall.closes {T : Type*} : MqCall T → Nat
  | .close => 1
  | _ => 0

open MqWatch

variable {T : Type*} {x x' : MqWatch T} {c : MqCall T}

/-- One call, and the count of the `close` calls. -/
def MqWatch.next (x : MqWatch T) (c : MqCall T) : Option (MqWatch T) :=
  (x.q.call c).map fun r => ⟨r.2, x.closes + c.closes⟩

def MqWatch.new : MqWatch T := ⟨MessageQueue.new, 0⟩

/-- `receive` is called only on a queue that is not empty or closed. -/
def CanReceive (x : MqWatch T) (c : MqCall T) : Prop :=
  c = .receive → x.q.queue ≠ [] ∨ x.q.closed = true

/-- The queued messages and ten permits for each `close` fit into an `isize`. -/
def PermitsFit (x : MqWatch T) (c : MqCall T) : Prop :=
  CanReceive x c ∧ x.q.queue.length + 10 * x.closes + c.permits < 2 ^ 63

structure MqInv (x : MqWatch T) : Prop where
  count : x.q.count = x.q.queue.length
  semItems : x.q.semItems = x.q.queue.length + 10 * x.closes
  closed : x.q.closed = true ↔ 0 < x.closes
  fits : x.q.queue.length + 10 * x.closes < 2 ^ 63

theorem MqInv.new : MqInv (MqWatch.new : MqWatch T) :=
  ⟨rfl, rfl, by simp [MqWatch.new, MessageQueue.new], by simp [MqWatch.new, MessageQueue.new]⟩

theorem MqInv.isEmpty (h : MqInv x) : x.q.isEmpty = true ↔ x.q.queue = [] := by
  rw [MessageQueue.isEmpty, MessageQueue.len, h.count, beq_iff_eq, length_eq_zero_iff]

theorem MqInv.send (h : MqInv x) (m : Message T) (hc : x.q.closed = false)
    (hfit : x.q.queue.length + 10 * x.closes + 1 < 2 ^ 63) :
    ∃ q', x.q.sendMessage m = (.ok, q') ∧
      q'.queue = x.q.queue ++ [m] ∧
      q'.closed = false ∧
      MqInv ⟨q', x.closes⟩ := by
  refine ⟨_, MessageQueue.sendMessage_open hc m, rfl, hc, ?_, ?_, h.closed, ?_⟩
  · rw [incWord_of_lt (by rw [h.count]; omega), h.count]
    simp
  · have hs := h.semItems
    simp only [hs]
    rw [release_of_lt (by omega) (by omega)]
    simp
    omega
  · simp
    omega

theorem MqInv.take (h : MqInv x) (hq : x.q.queue ≠ []) :
    ∃ m q', ({ x.q with semItems := x.q.semItems - 1 } : MessageQueue T).takeHighest =
        (.message m, q') ∧ Highest x.q.queue m q'.queue ∧ q'.closed = x.q.closed ∧
      MqInv ⟨q', x.closes⟩ := by
  obtain ⟨m, rest, hh, hlen, ht⟩ := MessageQueue.takeHighest_spec
    (q := { x.q with semItems := x.q.semItems - 1 }) hq
  have hfits := h.fits
  have hs := h.semItems
  simp only at hlen
  refine ⟨m, _, ht, hh, rfl, ?_, ?_, h.closed, ?_⟩
  · rw [decWord_of_pos (by rw [h.count]; omega), h.count]
    simp only
    omega
  · simp only
    omega
  · simp only
    omega

theorem MqInv.close (h : MqInv x) (hfit : x.q.queue.length + 10 * x.closes + 10 < 2 ^ 63) :
    MqInv ⟨x.q.close, x.closes + 1⟩ := by
  have hs := h.semItems
  refine ⟨h.count, ?_, by simp [MessageQueue.close], ?_⟩
  · simp only [MessageQueue.close]
    rw [releaseN_of_lt (by omega) (by omega)]
    omega
  · simp only [MessageQueue.close]
    omega

theorem MqInv.clear (h : MqInv x) : MqInv ⟨x.q.clear, x.closes⟩ := by
  have hs := h.semItems
  have hfits := h.fits
  refine ⟨rfl, ?_, h.closed, ?_⟩
  · simp only [MessageQueue.clear]
    rw [tryAcquireN_of_le (by omega)]
    simp only [length_nil]
    omega
  · simp only [MessageQueue.clear, length_nil]
    omega

theorem MqInv.receive (h : MqInv x) (hq : x.q.queue ≠ []) :
    ∃ m q', x.q.receive = some (.message m, q') ∧ x.q.tryReceive = (.message m, q') ∧
      Highest x.q.queue m q'.queue ∧ q'.closed = x.q.closed ∧ MqInv ⟨q', x.closes⟩ := by
  obtain ⟨m, q', ht, hh, hc, hi⟩ := h.take hq
  have hlen : 0 < x.q.queue.length := length_pos_iff.mpr hq
  have hpos : 0 < x.q.semItems := by
    have := h.semItems
    omega
  have hempty : x.q.isEmpty = false := by
    rw [Bool.eq_false_iff]
    exact fun he => hq (h.isEmpty.mp he)
  refine ⟨m, q', ?_, ?_, hh, hc, hi⟩
  · simp [MessageQueue.receive, hempty, acquire, hpos, ht]
  · simp [MessageQueue.tryReceive, hempty, tryAcquire, hpos, ht]

theorem MqInv.noPermit (h : MqInv x) (hc : x.q.closed = false) (hq : x.q.queue = []) :
    x.q.semItems = 0 := by
  have hclosed := h.closed
  have hsem := h.semItems
  rw [hc] at hclosed
  rw [hq, length_nil] at hsem
  simp at hclosed
  omega

theorem MqInv.call (h : MqInv x) (hok : PermitsFit x c) : ∃ res q', x.q.call c = some (res, q') ∧
    PrioritySpec x.q.queue x.q.closed c res q'.queue q'.closed ∧ MqInv ⟨q', x.closes + c.closes⟩ :=
    by
  obtain ⟨hrec, hfit⟩ := hok
  cases c with
  | send data =>
    cases hc : x.q.closed with
    | true =>
      refine ⟨_, _, congrArg some (MessageQueue.sendMessage_closed hc _), ?_, h⟩
      rw [hc]
      exact .sendClosed _ _
    | false =>
      obtain ⟨q', hs, hq, hcl, hi⟩ := h.send (Message.new data) hc hfit
      refine ⟨_, q', congrArg some hs, ?_, hi⟩
      rw [hq, hcl]
      exact .send _ _
  | sendPriority data priority =>
    cases hc : x.q.closed with
    | true =>
      refine ⟨_, _, congrArg some (MessageQueue.sendMessage_closed hc _), ?_, h⟩
      rw [hc]
      exact .sendPriorityClosed _ _ _
    | false =>
      obtain ⟨q', hs, hq, hcl, hi⟩ := h.send (Message.withPriority data priority) hc hfit
      refine ⟨_, q', congrArg some hs, ?_, hi⟩
      rw [hq, hcl]
      exact .sendPriority _ _ _
  | receive =>
    by_cases hq : x.q.queue = []
    · have hc : x.q.closed = true := (hrec rfl).resolve_left (fun hne => hne hq)
      refine ⟨.error .closed, x.q, ?_, ?_, h⟩
      · simp [MessageQueue.call, MessageQueue.receive, hc, h.isEmpty.mpr hq]
      · rw [hq, hc]
        exact .receiveClosed
    · obtain ⟨m, q', hr, -, hh, hc, hi⟩ := h.receive hq
      refine ⟨_, q', hr, ?_, hi⟩
      rw [hc]
      exact .receive _ hh
  | tryReceive =>
    by_cases hq : x.q.queue = []
    · have hempty := h.isEmpty.mpr hq
      cases hc : x.q.closed with
      | true =>
        refine ⟨.error .closed, x.q, ?_, ?_, h⟩
        · simp [MessageQueue.call, MessageQueue.tryReceive, hc, hempty]
        · rw [hq, hc]
          exact .tryReceiveClosed
      | false =>
        have hzero := h.noPermit hc hq
        refine ⟨.error .empty, x.q, ?_, ?_, h⟩
        · simp [MessageQueue.call, MessageQueue.tryReceive, hc, tryAcquire, hzero]
        · rw [hq, hc]
          exact .tryReceiveEmpty
    · obtain ⟨m, q', -, hr, hh, hc, hi⟩ := h.receive hq
      refine ⟨_, q', congrArg some hr, ?_, hi⟩
      rw [hc]
      exact .tryReceive _ hh
  | clear => exact ⟨_, _, rfl, .clear _ _, h.clear⟩
  | close => exact ⟨_, _, rfl, .close _ _, h.close hfit⟩

/-- **A priority queue with FIFO ties**: in every run of calls, each call returns what the
specification says, and `len` is the number of queued messages after it. -/
theorem MessageQueue.run_priority_fifo (hr : Reach (Fires MqWatch.next PermitsFit) MqWatch.new x)
    (hok : PermitsFit x c) :
    ∃ res q', x.q.call c = some (res, q') ∧
      PrioritySpec x.q.queue x.q.closed c res q'.queue q'.closed ∧ q'.len = q'.queue.length := by
  have h : MqInv x := by
    refine Reach.invariant MqInv.new ?_ hr
    rintro x x' h ⟨c, hok, hn⟩
    obtain ⟨res, q', hcall, -, hi⟩ := h.call hok
    rw [MqWatch.next, hcall] at hn
    obtain rfl := Option.some.inj hn
    exact hi
  obtain ⟨res, q', hcall, hspec, hi⟩ := h.call hok
  exact ⟨res, q', hcall, hspec, hi.count⟩

instance [DecidableEq T] : ∀ (x : MqWatch T) (c : MqCall T), Decidable (PermitsFit x c) :=
  fun x c => inferInstanceAs (Decidable ((c = .receive → x.q.queue ≠ [] ∨ x.q.closed = true) ∧
    x.q.queue.length + 10 * x.closes + c.permits < 2 ^ 63))

theorem MessageQueue.run_priority_fifo_urgent :
    ∃ x : MqWatch Nat, x.q.queue.map (·.data) = [1, 2, 3] ∧ ∃ res q',
      x.q.call .tryReceive = some (res, q') ∧
      PrioritySpec x.q.queue x.q.closed .tryReceive res q'.queue q'.closed ∧
      q'.len = q'.queue.length := by
  obtain ⟨x, hr, hx, hok⟩ : ∃ x : MqWatch Nat, Reach (Fires MqWatch.next PermitsFit)
      MqWatch.new x ∧ x.q.queue.map (·.data) = [1, 2, 3] ∧ PermitsFit x .tryReceive :=
    exists_reach [.send 0, .receive, .send 1, .sendPriority 2 .urgent, .sendPriority 3 .urgent,
      .close] (by decide)
  exact ⟨x, hx, MessageQueue.run_priority_fifo hr hok⟩

theorem MqWatch.reach_closes (ms : List (Message T)) (count closes : Nat) (s : Int) (n : Nat) :
    Reach (Fires next CanReceive) ⟨⟨ms, count, true, wrapIsize s⟩, closes⟩
      ⟨⟨ms, count, true, wrapIsize (s + 10 * n)⟩, closes + n⟩ := by
  induction n with
  | zero =>
    rw [Int.natCast_zero, Int.mul_zero, Int.add_zero]
    exact Reach.refl
  | succ n ih =>
    refine ih.tail ⟨.close, nofun, ?_⟩
    have hsum : s + 10 * n + (10 : Nat) = s + 10 * (n + 1 : Nat) := by omega
    rw [← hsum, ← releaseN_wrapIsize]
    rfl

/-- After one message and more than `2^63 / 10` calls of `close`, the semaphore is negative and
`try_receive` says `Empty` although the message is there. -/
theorem MessageQueue.close_overflow :
    ∃ x : MqWatch Unit, Reach (Fires MqWatch.next CanReceive) MqWatch.new x ∧
      x.q.queue ≠ [] ∧ x.q.call .tryReceive = some (.error .empty, x.q) := by
  have h1 : MqWatch.next (MqWatch.new : MqWatch Unit) (.send ()) =
      some ⟨⟨[Message.new ()], 1, false, wrapIsize 1⟩, 0⟩ := rfl
  have h2 : MqWatch.next (⟨⟨[Message.new ()], 1, false, wrapIsize 1⟩, 0⟩ : MqWatch Unit) .close =
      some ⟨⟨[Message.new ()], 1, true, wrapIsize 11⟩, 1⟩ := rfl
  have hr : Reach (Fires MqWatch.next CanReceive) (MqWatch.new : MqWatch Unit)
      ⟨⟨[Message.new ()], 1, true, wrapIsize 11⟩, 1⟩ :=
    (Reach.refl.tail ⟨.send (), nofun, h1⟩).tail ⟨.close, nofun, h2⟩
  refine ⟨_, Relation.ReflTransGen.trans hr
    (MqWatch.reach_closes _ 1 1 11 922337203685477580), by simp, ?_⟩
  have hneg : wrapIsize (11 + 10 * (922337203685477580 : Nat)) = -9223372036854775805 := by
    decide
  rw [hneg]
  rfl

end Kerners.Ipc
