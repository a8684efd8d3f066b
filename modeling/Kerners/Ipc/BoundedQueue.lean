import Kerners.Ipc.MessageQueue

/-!
# The bounded message queue (`ipc/message_queue.rs`)

Model of `BoundedMessageQueue<T>` for calls side by side. A turn is one access to an atomic of the
queue or one operation on the deque, whose `Mutex` is held for that operation only:
* `send` tests `closed`, takes a permit of `sem_slots`, tests `closed` again (and gives the permit
  back if it is set), pushes, counts, and releases a permit of `sem_items`; `try_send` takes the
  permit or gives up, and does **not** test `closed` again;
* `receive` tests `closed` and `is_empty`, takes a permit of `sem_items`, tests both again, pops,
  counts, and releases a permit of `sem_slots`; `try_receive` takes the permit or gives up, and does
  not test again;
* `close` sets `closed` and then releases both semaphores `capacity` times.
-/

namespace Kerners.Ipc

open Lib Sync Semaphore Function List

structure BoundedMessageQueue (T : Type*) where
  queue : List (Message T)
  capacity : Nat
  count : Nat
  closed : Bool
  semSlots : Int
  semItems : Int

/-- Where a call stands. `blocking` tells `send` from `try_send` and `receive` from
`try_receive`; `left` are the rounds of `close` after the present one. -/
inductive BqPc (T : Type*) where
  | idle
  | slots (blocking : Bool) (m : Message T) (acq : AcqPc)
  | sendRecheck (m : Message T)
  | giveBack
  | push (m : Message T)
  | addCount
  | releaseItem
  | isEmpty (blocking : Bool)
  | items (blocking : Bool) (acq : AcqPc)
  | receiveRecheck
  | recheckEmpty
  | pop
  | subCount (m : Message T)
  | releaseSlot (m : Message T)
  | closeSlot (left : Nat)
  | closeItem (left : Nat)
  | returned (r : MqResult T)
  deriving DecidableEq

/-- The entry points, the next step of the call, an exchange of `acquire` that fails without cause,
and the end of a call. -/
inductive BqAct (T : Type*) where
  | send (m : Message T)
  | trySend (m : Message T)
  | receive
  | tryReceive
  | close
  | step
  | weakFail
  | leave
  deriving DecidableEq

namespace BoundedMessageQueue

variable {T : Type*}

/-- The state that `new` builds. -/
def init (capacity : Nat) : BoundedMessageQueue T :=
  ⟨[], capacity, 0, false, wrapIsize capacity, 0⟩

/-- `len`: what the counter says. -/
def len (q : BoundedMessageQueue T) : Nat := q.count

/-- `BoundedMessageQueue::new`, where a message takes `size` bytes: `VecDeque::with_capacity` does
not return when the buffer would exceed `isize::MAX` bytes. -/
def new (size capacity : Nat) : Option (BoundedMessageQueue T) :=
  if capacity * size < 2 ^ 63 then some (init capacity) else none

theorem new_eq_some {size cap : Nat} {q : BoundedMessageQueue T} (h : new size cap = some q) :
    cap * size < 2 ^ 63 ∧ q = init cap := by
  unfold new at h
  split_ifs at h with hfit
  exact ⟨hfit, (Option.some.inj h).symm⟩

/-- The loop of `close` with some rounds to go. -/
def closeLoop : Nat → BqPc T
  | 0 => .returned .ok
  | left + 1 => .closeSlot left

/-- One turn of a call: the queue afterwards, and where the call stands. -/
def turn (l : BoundedMessageQueue T) : BqPc T → BqAct T → Option (BoundedMessageQueue T × BqPc T)
  | .idle, .send m =>
    some (l, if l.closed then .returned (.error .closed) else .slots true m .load)
  | .idle, .trySend m =>
    some (l, if l.closed then .returned (.error .closed) else .slots false m .load)
  | .slots blocking m acq, .step =>
    match acquireTurn blocking l.semSlots acq with
    | .next acq => some (l, .slots blocking m acq)
    | .got count =>
      some ({ l with semSlots := count }, if blocking then .sendRecheck m else .push m)
    | .failed => some (l, .returned (.error .full))
  | .slots true m (.exchange _), .weakFail => some (l, .slots true m .load)
  | .sendRecheck m, .step => some (l, if l.closed then .giveBack else .push m)
  | .giveBack, .step =>
    some ({ l with semSlots := release l.semSlots }, .returned (.error .closed))
  | .push m, .step => some ({ l with queue := l.queue ++ [m] }, .addCount)
  | .addCount, .step => some ({ l with count := incWord l.count }, .releaseItem)
  | .releaseItem, .step => some ({ l with semItems := release l.semItems }, .returned .ok)
  | .idle, .receive => some (l, if l.closed then .isEmpty true else .items true .load)
  | .idle, .tryReceive => some (l, if l.closed then .isEmpty false else .items false .load)
  | .isEmpty blocking, .step =>
    some (l, if l.count = 0 then .returned (.error .closed) else .items blocking .load)
  | .items blocking acq, .step =>
    match acquireTurn blocking l.semItems acq with
    | .next acq => some (l, .items blocking acq)
    | .got count => some ({ l with semItems := count }, if blocking then .receiveRecheck else .pop)
    | .failed => some (l, .returned (.error .empty))
  | .items true (.exchange _), .weakFail => some (l, .items true .load)
  | .receiveRecheck, .step => some (l, if l.closed then .recheckEmpty else .pop)
  | .recheckEmpty, .step => some (l, if l.count = 0 then .returned (.error .closed) else .pop)
  | .pop, .step =>
    match l.queue with
    | [] => some (l, .returned (.error .empty))
    | m :: rest => some ({ l with queue := rest }, .subCount m)
  | .subCount m, .step => some ({ l with count := decWord l.count }, .releaseSlot m)
  | .releaseSlot m, .step =>
    some ({ l with semSlots := release l.semSlots }, .returned (.message m))
  | .idle, .close => some ({ l with closed := true }, closeLoop l.capacity)
  | .closeSlot left, .step => some ({ l with semSlots := release l.semSlots }, .closeItem left)
  | .closeItem left, .step =>
    some ({ l with semItems := release l.semItems }, closeLoop left)
  | .returned _, .leave => some (l, .idle)
  | _, _ => none

end BoundedMessageQueue

/-! ## What a turn does -/

structure InFlight where
  slotHeld : Nat
  pushing : Nat
  uncounted : Nat
  itemDue : Nat
  itemHeld : Nat
  popped : Nat
  slotDue : Nat
  /-- permits of `sem_slots` that `close` has still to release -/
  slotsLeft : Nat
  /-- permits of `sem_items` that `close` has still to release -/
  itemsLeft : Nat

def BqPc.part {T : Type*} : BqPc T → InFlight
  | .sendRecheck _ | .giveBack => ⟨1, 0, 0, 0, 0, 0, 0, 0, 0⟩
  | .push _ => ⟨1, 1, 0, 0, 0, 0, 0, 0, 0⟩
  | .addCount => ⟨0, 0, 1, 0, 0, 0, 0, 0, 0⟩
  | .releaseItem => ⟨0, 0, 0, 1, 0, 0, 0, 0, 0⟩
  | .receiveRecheck | .recheckEmpty | .pop => ⟨0, 0, 0, 0, 1, 0, 0, 0, 0⟩
  | .subCount _ => ⟨0, 0, 0, 0, 0, 1, 0, 0, 0⟩
  | .releaseSlot _ => ⟨0, 0, 0, 0, 0, 0, 1, 0, 0⟩
  | .closeSlot left => ⟨0, 0, 0, 0, 0, 0, 0, left + 1, left + 1⟩
  | .closeItem left => ⟨0, 0, 0, 0, 0, 0, 0, left, left + 1⟩
  | .idle | .slots .. | .isEmpty _ | .items .. | .returned _ => ⟨0, 0, 0, 0, 0, 0, 0, 0, 0⟩

def BqPc.onDeque {T : Type*} : BqPc T → Bool
  | .push _ | .pop => true
  | _ => false

section

variable {T : Type*}

theorem closeLoop_part (left : Nat) :
    (BoundedMessageQueue.closeLoop left : BqPc T).part = ⟨0, 0, 0, 0, 0, 0, 0, left, left⟩ := by
  cases left <;> rfl

theorem gotItem_part {blocking : Bool} {p : BqPc T}
    (h : p = if blocking then .receiveRecheck else .pop) :
    p.part = ⟨0, 0, 0, 0, 1, 0, 0, 0, 0⟩ := by
  subst h
  cases blocking <;> rfl

inductive BqEffect (l : BoundedMessageQueue T) :
    BqPc T → BqAct T → BoundedMessageQueue T → BqPc T → Prop
  | quiet {p p' : BqPc T} {a : BqAct T} (h : p'.part = p.part) (hd : p.onDeque = false) :
    BqEffect l p a l p'
  | takeSlot (m : Message T) (seen : { count : Int // 0 < count }) (h : l.semSlots = seen) :
    BqEffect l (.slots true m (.exchange seen)) .step { l with semSlots := l.semSlots - 1 }
      (.sendRecheck m)
  | trySlot (m : Message T) (seen : { count : Int // 0 < count }) (h : l.semSlots = seen) :
    BqEffect l (.slots false m (.exchange seen)) .step { l with semSlots := l.semSlots - 1 }
      (.push m)
  | commit (m : Message T) (h : l.closed = false) :
    BqEffect l (.sendRecheck m) .step l (.push m)
  | giveBack (r : MqResult T) :
    BqEffect l .giveBack .step { l with semSlots := release l.semSlots } (.returned r)
  | push (m : Message T) :
    BqEffect l (.push m) .step { l with queue := l.queue ++ [m] } .addCount
  | addCount : BqEffect l .addCount .step { l with count := incWord l.count } .releaseItem
  | releaseItem (r : MqResult T) :
    BqEffect l .releaseItem .step { l with semItems := release l.semItems } (.returned r)
  | takeItem (blocking : Bool) (seen : { count : Int // 0 < count }) (h : l.semItems = seen)
    {p' : BqPc T} (hp : p' = if blocking then .receiveRecheck else .pop) :
    BqEffect l (.items blocking (.exchange seen)) .step { l with semItems := l.semItems - 1 } p'
  | findEmpty (r : MqResult T) (h : l.count = 0) :
    BqEffect l .recheckEmpty .step l (.returned r)
  | popEmpty (r : MqResult T) (h : l.queue = []) : BqEffect l .pop .step l (.returned r)
  | pop (m : Message T) (rest : List (Message T)) (h : l.queue = m :: rest) :
    BqEffect l .pop .step { l with queue := rest } (.subCount m)
  | subCount (m : Message T) :
    BqEffect l (.subCount m) .step { l with count := decWord l.count } (.releaseSlot m)
  | releaseSlot (m : Message T) (r : MqResult T) :
    BqEffect l (.releaseSlot m) .step { l with semSlots := release l.semSlots } (.returned r)
  | setClosed :
    BqEffect l .idle .close { l with closed := true }
      (BoundedMessageQueue.closeLoop l.capacity)
  | closeSlot (left : Nat) :
    BqEffect l (.closeSlot left) .step { l with semSlots := release l.semSlots } (.closeItem left)
  | closeItem (left : Nat) :
    BqEffect l (.closeItem left) .step { l with semItems := release l.semItems }
      (BoundedMessageQueue.closeLoop left)

theorem BoundedMessageQueue.turn_effect {l l' : BoundedMessageQueue T} {p p' : BqPc T}
    {a : BqAct T} (h : l.turn p a = some (l', p')) : BqEffect l p a l' p' := by
  revert h
  fun_cases BoundedMessageQueue.turn l p a <;> intro h <;>
    simp only [Option.some.injEq, Prod.mk.injEq, reduceCtorEq] at h <;> obtain ⟨rfl, rfl⟩ := h
  case case4 hacq =>
    obtain ⟨seen, rfl, hseen, rfl⟩ := acquireTurn_got hacq
    split
    case isTrue hb =>
      subst hb
      exact .takeSlot _ _ hseen
    case isFalse hb =>
      obtain rfl := Bool.eq_false_iff.mpr hb
      exact .trySlot _ _ hseen
  case case7 =>
    split
    case isTrue => exact .quiet rfl rfl
    case isFalse hc => exact .commit _ (Bool.eq_false_iff.mpr hc)
  case case16 hacq =>
    obtain ⟨seen, rfl, hseen, rfl⟩ := acquireTurn_got hacq
    exact .takeItem _ _ hseen rfl
  case case20 =>
    split
    case isTrue hc => exact .findEmpty _ hc
    case isFalse => exact .quiet rfl rfl
  case case21 hq => exact .popEmpty _ hq
  case case22 hq => exact .pop _ _ hq
  case case8 => exact .giveBack _
  case case9 => exact .push _
  case case10 => exact .addCount
  case case11 => exact .releaseItem _
  case case23 => exact .subCount _
  case case24 => exact .releaseSlot _ _
  case case25 => exact .setClosed
  case case26 => exact .closeSlot _
  case case27 => exact .closeItem _
  all_goals first
    | exact .quiet rfl rfl
    | (split <;> exact .quiet rfl rfl)

end

/-! ## The balance of the semaphores -/

abbrev BqConf (ι T : Type*) := Conf ι (BoundedMessageQueue T) (BqPc T)

open InFlight

open BqPc

section

variable {ι T : Type*} [Fintype ι]

def inFlight (f : InFlight → Nat) (t : ι → BqPc T) : Nat := tally (fun p => f p.part) t

/-- Where the permits are. `extra` counts those that `close` adds to either semaphore; of the
permits of `sem_items` some are lost after a `close`, when a call that took one finds no message. -/
structure BqBalance (cap extra : Nat) (c : BqConf ι T) : Prop where
  capacity : c.shared.capacity = cap
  added : c.shared.closed = true ∧ extra = cap ∨ c.shared.closed = false ∧ extra = 0
  slots : c.shared.semSlots + (inFlight slotHeld c.thread + c.shared.queue.length + inFlight popped
    c.thread + inFlight slotDue c.thread + inFlight slotsLeft c.thread : Nat) = cap + extra
  slots_nonneg : 0 ≤ c.shared.semSlots
  items : c.shared.semItems + (inFlight uncounted c.thread + inFlight itemDue c.thread +
    inFlight itemHeld c.thread + inFlight itemsLeft c.thread : Nat) ≤
    c.shared.queue.length + extra
  items_nonneg : 0 ≤ c.shared.semItems

theorem BqBalance.extra_le {cap extra : Nat} {c : BqConf ι T} (h : BqBalance cap extra c) :
    extra ≤ cap := by
  rcases h.added with ⟨-, h⟩ | ⟨-, h⟩ <;> omega

variable [DecidableEq ι]

theorem inFlight_move {t : ι → BqPc T} {i : ι} {p : BqPc T} (hp : t i = p) (p' : BqPc T) :
    (inFlight slotHeld (update t i p') + p.part.slotHeld = inFlight slotHeld t + p'.part.slotHeld) ∧
    (inFlight pushing (update t i p') + p.part.pushing = inFlight pushing t + p'.part.pushing) ∧
    (inFlight uncounted (update t i p') + p.part.uncounted =
       inFlight uncounted t + p'.part.uncounted) ∧
    (inFlight itemDue (update t i p') + p.part.itemDue = inFlight itemDue t + p'.part.itemDue) ∧
    (inFlight itemHeld (update t i p') + p.part.itemHeld = inFlight itemHeld t + p'.part.itemHeld) ∧
    (inFlight popped (update t i p') + p.part.popped = inFlight popped t + p'.part.popped) ∧
    (inFlight slotDue (update t i p') + p.part.slotDue = inFlight slotDue t + p'.part.slotDue) ∧
    (inFlight slotsLeft (update t i p') + p.part.slotsLeft =
       inFlight slotsLeft t + p'.part.slotsLeft) ∧
    (inFlight itemsLeft (update t i p') + p.part.itemsLeft =
       inFlight itemsLeft t + p'.part.itemsLeft) := by
  subst hp
  have h : ∀ f : InFlight → Nat, inFlight f (update t i p') + f (t i).part =
      inFlight f t + f p'.part := fun f =>
    tally_update (fun p : BqPc T => f p.part) t i p'
  exact ⟨h _, h _, h _, h _, h _, h _, h _, h _, h _⟩

def BoundedMessageQueue.next : BqConf ι T → ι × BqAct T → Option (BqConf ι T) :=
  Conf.next BoundedMessageQueue.turn

theorem BqBalance.next {cap extra : Nat} {c c' : BqConf ι T} {i : ι} {a : BqAct T}
    (h : BqBalance cap extra c) (hn : BoundedMessageQueue.next c (i, a) = some c')
    (room : cap + 2 * extra < 2 ^ 63) (once : a = .close → c.shared.closed = false) :
    ∃ extra', BqBalance cap extra' c' := by
  obtain ⟨l', p', ht, rfl⟩ := Conf.exists_turn hn
  obtain ⟨p, hp⟩ : ∃ p, c.thread i = p := ⟨_, rfl⟩
  rw [hp] at ht
  have e := inFlight_move hp p'
  obtain ⟨hcap, hextra, hslots, hslots0, hitems, hitems0⟩ := h
  cases BoundedMessageQueue.turn_effect ht with
  | quiet h hd =>
    simp only [h] at e
    refine ⟨extra, hcap, hextra, ?_, hslots0, ?_, hitems0⟩ <;> simp only <;> omega
  | takeSlot m seen hseen | trySlot m seen hseen =>
    have hpos := seen.2
    simp only [part] at e
    refine ⟨extra, hcap, hextra, ?_, ?_, ?_, hitems0⟩ <;> simp only <;> omega
  | commit | addCount | findEmpty | popEmpty | subCount =>
    simp only [part] at e
    refine ⟨extra, hcap, hextra, ?_, hslots0, ?_, hitems0⟩ <;> simp only <;> omega
  | giveBack | releaseSlot | closeSlot =>
    simp only [part] at e
    have hrel : release c.shared.semSlots = c.shared.semSlots + 1 :=
      release_of_lt (by omega) (by omega)
    refine ⟨extra, hcap, hextra, ?_, ?_, ?_, hitems0⟩ <;> simp only [hrel] <;> omega
  | push m =>
    simp only [part] at e
    refine ⟨extra, hcap, hextra, ?_, hslots0, ?_, hitems0⟩ <;>
      simp only [length_append, length_singleton] <;> omega
  | releaseItem r =>
    simp only [part] at e
    have hrel : release c.shared.semItems = c.shared.semItems + 1 :=
      release_of_lt (by omega) (by omega)
    refine ⟨extra, hcap, hextra, ?_, hslots0, ?_, ?_⟩ <;> simp only [hrel] <;> omega
  | takeItem blocking seen hseen hp' =>
    have hpos := seen.2
    rw [gotItem_part hp'] at e
    simp only [part] at e
    refine ⟨extra, hcap, hextra, ?_, hslots0, ?_, ?_⟩ <;> simp only <;> omega
  | pop m rest hq =>
    simp only [part] at e
    rw [hq, length_cons] at hslots hitems
    refine ⟨extra, hcap, hextra, ?_, hslots0, ?_, hitems0⟩ <;> simp only <;> omega
  | setClosed =>
    have hopen := once rfl
    rw [closeLoop_part, hcap] at e
    simp only [part] at e
    simp only [hopen, Bool.false_eq_true, false_and, true_and, false_or] at hextra
    refine ⟨cap, hcap, .inl ⟨rfl, rfl⟩, ?_, hslots0, ?_, hitems0⟩ <;> simp only [hcap] <;> omega
  | closeItem left =>
    rw [closeLoop_part] at e
    simp only [part] at e
    have hrel : release c.shared.semItems = c.shared.semItems + 1 :=
      release_of_lt (by omega) (by omega)
    refine ⟨extra, hcap, hextra, ?_, hslots0, ?_, ?_⟩ <;> simp only [hrel] <;> omega

end

/-! ## Runs with their history -/

/-- The places that a call reaches only after it has seen `closed` set, or by closing. -/
def BqPc.sawClosed {T : Type*} : BqPc T → Bool
  | .giveBack | .isEmpty _ | .recheckEmpty | .closeSlot _ | .closeItem _ => true
  | _ => false

def BqPc.inCall {T : Type*} : BqPc T → Bool
  | .idle | .returned _ => false
  | _ => true

def BqPc.pushes {T : Type*} : BqPc T → List (Message T)
  | .push m => [m]
  | _ => []

/-- The message that the next turn pops from `queue`. -/
def BqPc.pops {T : Type*} (queue : List (Message T)) : BqPc T → List (Message T)
  | .pop => queue.take 1
  | _ => []

def BqAct.isCall {T : Type*} : BqAct T → Bool
  | .send _ | .trySend _ | .receive | .tryReceive | .close => true
  | .step | .weakFail | .leave => false

/-- The calls with their history. Of a thread, `call` is the present or last call. -/
structure BqWatch (ι T : Type*) where
  conf : BqConf ι T
  /-- The messages pushed, in order. -/
  pushed : List (Message T)
  /-- The messages popped, in order. -/
  popped : List (Message T)
  /-- The call took its first step with `closed` set. -/
  late : ι → Bool
  call : ι → Option (BqAct T)
  /-- The messages that the call has pushed or popped. -/
  moved : ι → List (Message T)

variable {ι T : Type*} [DecidableEq ι]

def BqWatch.next (x : BqWatch ι T) (ia : ι × BqAct T) : Option (BqWatch ι T) :=
  (BoundedMessageQueue.next x.conf ia).map fun c' =>
    { conf := c'
      pushed := x.pushed ++ (x.conf.thread ia.1).pushes
      popped := x.popped ++ (x.conf.thread ia.1).pops x.conf.shared.queue
      late := if ia.2.isCall then update x.late ia.1 x.conf.shared.closed else x.late
      call := if ia.2.isCall then update x.call ia.1 (some ia.2) else x.call
      moved := update x.moved ia.1 (if ia.2.isCall then [] else x.moved ia.1 ++
        ((x.conf.thread ia.1).pushes ++ (x.conf.thread ia.1).pops x.conf.shared.queue)) }

/-- No call on the queue `q`. -/
def BqWatch.start (q : BoundedMessageQueue T) : BqWatch ι T :=
  ⟨⟨q, fun _ => .idle⟩, [], [], fun _ => false, fun _ => none, fun _ => []⟩

variable {x x' : BqWatch ι T} {i : ι} {a : BqAct T}

theorem BqWatch.exists_turn (hn : x.next (i, a) = some x') :
    ∃ l' p', x.conf.shared.turn (x.conf.thread i) a = some (l', p') ∧
      BoundedMessageQueue.next x.conf (i, a) = some x'.conf ∧
      x'.conf = ⟨l', update x.conf.thread i p'⟩ ∧
      x'.pushed = x.pushed ++ (x.conf.thread i).pushes ∧
      x'.popped = x.popped ++ (x.conf.thread i).pops x.conf.shared.queue ∧
      x'.late = if a.isCall then update x.late i x.conf.shared.closed else x.late := by
  obtain ⟨c', hc, rfl⟩ := Option.map_eq_some_iff.mp hn
  obtain ⟨l', p', ht, rfl⟩ := Conf.exists_turn hc
  exact ⟨l', p', ht, hc, rfl, rfl, rfl, rfl⟩

variable {p : BqPc T}

theorem BqPc.pushes_eq_nil (h : p.onDeque = false) : p.pushes = [] := by
  cases p with
  | push m => cases h
  | _ => rfl

theorem BqPc.pops_eq_nil (h : p.onDeque = false) (queue : List (Message T)) :
    p.pops queue = [] := by
  cases p with
  | pop => cases h
  | _ => rfl

theorem BqWatch.pushed_next {ia : ι × BqAct T} (h : x.pushed = x.popped ++ x.conf.shared.queue)
    (hn : x.next ia = some x') : x'.pushed = x'.popped ++ x'.conf.shared.queue := by
  obtain ⟨i, a⟩ := ia
  obtain ⟨l', p', ht, -, hconf, hpush, hpop, -⟩ := BqWatch.exists_turn hn
  rw [hpush, hpop, hconf, h]
  generalize x.conf.thread i = p at ht
  cases BoundedMessageQueue.turn_effect ht with
  | quiet _ hd => rw [pushes_eq_nil hd, pops_eq_nil hd, append_nil, append_nil]
  | push m => simp [pushes, pops]
  | popEmpty _ hq | pop _ _ hq => simp [pushes, pops, hq]
  | _ => simp [pushes, pops]

variable [Fintype ι]

/-- The state of a queue that was never closed: beside the balance, no permit of `sem_items` is
lost, and `count` is the number of messages up to the calls that have not counted yet. -/
structure BqOpen (cap : Nat) (c : BqConf ι T) : Prop where
  balance : BqBalance cap 0 c
  closed : c.shared.closed = false
  unseen : ∀ i, (c.thread i).sawClosed = false
  items : c.shared.semItems + (inFlight uncounted c.thread + inFlight itemDue c.thread +
    inFlight itemHeld c.thread : Nat) = c.shared.queue.length
  count : c.shared.count + inFlight uncounted c.thread =
    c.shared.queue.length + inFlight popped c.thread

variable {t : ι → BqPc T}

omit [DecidableEq ι] in
theorem inFlight_eq_zero (h : ∀ i, (t i).part = ⟨0, 0, 0, 0, 0, 0, 0, 0, 0⟩) (f : InFlight → Nat)
    (hf : f ⟨0, 0, 0, 0, 0, 0, 0, 0, 0⟩ = 0) : inFlight f t = 0 :=
  tally_eq_zero.mpr fun i => by simp only [h i, hf]

variable {cap : Nat}

omit [DecidableEq ι] in
theorem BqOpen.start (hcap : cap < 2 ^ 63) :
    BqOpen cap (BqWatch.start (.init cap) : BqWatch ι T).conf := by
  have hslots : wrapIsize cap = cap := wrapIsize_of_lt (by omega) (by omega)
  have h := inFlight_eq_zero (t := (BqWatch.start (.init cap) : BqWatch ι T).conf.thread) fun _ => rfl
  refine ⟨⟨rfl, .inr ⟨rfl, rfl⟩, ?_, ?_, ?_, ?_⟩, rfl, fun _ => rfl, ?_, ?_⟩
  · rw [h _ rfl, h _ rfl, h _ rfl, h _ rfl]
    simp [BqWatch.start, BoundedMessageQueue.init, hslots]
  · simp only [BqWatch.start, BoundedMessageQueue.init, hslots]
    omega
  · rw [h _ rfl, h _ rfl, h _ rfl, h _ rfl]
    simp [BqWatch.start, BoundedMessageQueue.init]
  · exact Int.le_refl 0
  · rw [h _ rfl, h _ rfl, h _ rfl]
    rfl
  · rw [h _ rfl, h _ rfl]
    rfl

variable {l l' : BoundedMessageQueue T} {p' : BqPc T}

theorem BoundedMessageQueue.turn_unseen (h : l.turn p a = some (l', p')) (hc : l.closed = false)
    (ha : a ≠ .close) (hp : p.sawClosed = false) : l'.closed = false ∧ p'.sawClosed = false := by
  revert h
  fun_cases BoundedMessageQueue.turn l p a <;> intro h <;>
    grind [sawClosed]

variable {c : BqConf ι T}

theorem BqOpen.counters (h : BqOpen cap c) (ht : c.shared.turn (c.thread i) a = some (l', p'))
    (hcap : cap < 2 ^ 63) (ha : a ≠ .close) :
    l'.semItems +
      (inFlight uncounted (update c.thread i p') + inFlight itemDue (update c.thread i p') +
         inFlight itemHeld (update c.thread i p') : Nat) = l'.queue.length ∧
    l'.count + inFlight uncounted (update c.thread i p') =
      l'.queue.length + inFlight popped (update c.thread i p') := by
  obtain ⟨p, hp⟩ : ∃ p, c.thread i = p := ⟨_, rfl⟩
  rw [hp] at ht
  have hseen : p.sawClosed = false := hp ▸ h.unseen i
  have e := inFlight_move hp p'
  have hslots := h.balance.slots
  have hslots0 := h.balance.slots_nonneg
  have hitems0 := h.balance.items_nonneg
  have hi := h.items
  have hc := h.count
  cases BoundedMessageQueue.turn_effect ht with
  | quiet hq hd =>
    simp only [hq] at e
    omega
  | takeSlot m seen hseen | trySlot m seen hseen | commit m hc | releaseSlot m r =>
    simp only [part] at e ⊢
    omega
  | push m =>
    simp only [part, length_append, length_singleton] at e ⊢
    omega
  | addCount =>
    simp only [part] at e ⊢
    have hinc : incWord c.shared.count = c.shared.count + 1 := incWord_of_lt (by omega)
    rw [hinc]
    omega
  | releaseItem r =>
    simp only [part] at e ⊢
    have hrel : release c.shared.semItems = c.shared.semItems + 1 :=
      release_of_lt (by omega) (by omega)
    rw [hrel]
    omega
  | takeItem blocking seen hseen hp' =>
    have hpos := seen.2
    rw [gotItem_part hp'] at e
    simp only [part] at e ⊢
    omega
  | popEmpty r hq =>
    -- the permit in hand stands for a message
    simp only [part] at e
    rw [hq, length_nil] at hi
    omega
  | pop m rest hq =>
    simp only [part] at e ⊢
    rw [hq, length_cons] at hi hc
    omega
  | subCount m =>
    simp only [part] at e ⊢
    rw [decWord_of_pos (by omega)]
    omega
  | setClosed => exact absurd rfl ha
  | giveBack | findEmpty | closeSlot | closeItem => cases hseen

theorem BqOpen.next {c' : BqConf ι T} (h : BqOpen cap c)
    (hn : BoundedMessageQueue.next c (i, a) = some c') (hcap : cap < 2 ^ 63) (ha : a ≠ .close) :
    BqOpen cap c' := by
  have hunseen := Conf.forall_thread (Q := fun _ _ (p : BqPc T) => p.sawClosed = false) h.unseen hn
    (fun ht => (BoundedMessageQueue.turn_unseen ht h.closed ha (h.unseen i)).2) fun _ _ _ hj => hj
  obtain ⟨extra, hbal⟩ := h.balance.next hn (by omega) fun hc => absurd hc ha
  obtain ⟨l', p', ht, rfl⟩ := Conf.exists_turn hn
  have hclosed := (BoundedMessageQueue.turn_unseen ht h.closed ha (h.unseen i)).1
  obtain rfl : extra = 0 := by
    have := hbal.added
    simp only [hclosed, Bool.false_eq_true, false_and, true_and, false_or] at this
    exact this
  obtain ⟨hitems, hcount⟩ := h.counters ht hcap ha
  exact ⟨hbal, hclosed, hunseen, hitems, hcount⟩

/-- No call of `close` is made. -/
def NoClose (_ : BqWatch ι T) (ia : ι × BqAct T) : Prop := ia.2 ≠ .close

omit [DecidableEq ι] in
theorem inFlight_pos {f : InFlight → Nat} (h : 0 < f (t i).part) : 0 < inFlight f t :=
  Nat.lt_of_lt_of_le h (le_tally (fun p => f p.part) t i)

omit [DecidableEq ι] in
theorem inFlight_of_idle (h : ∀ i, (t i).inCall = false) :
    inFlight slotHeld t = 0 ∧
    inFlight uncounted t = 0 ∧
    inFlight itemDue t = 0 ∧
    inFlight itemHeld t = 0 ∧
    inFlight popped t = 0 ∧
    inFlight slotDue t = 0 ∧
    inFlight slotsLeft t = 0 := by
  have hpart : ∀ i, (t i).part = ⟨0, 0, 0, 0, 0, 0, 0, 0, 0⟩ := fun i => by
    have hi := h i
    generalize t i = p at hi
    cases p with
    | idle | returned r => rfl
    | _ => cases hi
  have hzero := inFlight_eq_zero hpart
  exact ⟨hzero _ rfl, hzero _ rfl, hzero _ rfl, hzero _ rfl, hzero _ rfl, hzero _ rfl, hzero _ rfl⟩

omit [DecidableEq ι] in
/-- A permit of `sem_items` in hand stands for a message in the deque. -/
theorem BqOpen.queue_ne_nil (h : BqOpen cap c) (hi : (c.thread i).part.itemHeld = 1) :
    c.shared.queue ≠ [] := by
  intro hnil
  have hpos : 0 < inFlight itemHeld c.thread := inFlight_pos (by rw [hi]; exact one_pos)
  have hitems := h.items
  have hitems0 := h.balance.items_nonneg
  rw [hnil, length_nil] at hitems
  omega

/-- What a call on an open queue returns, when it has pushed or popped `moved`. -/
def BqAnswer (moved : List (Message T)) (r : MqResult T) : BqAct T → Prop
  | .send m => r = .ok ∧ moved = [m]
  | .trySend m => r = .ok ∧ moved = [m] ∨ r = .error .full ∧ moved = []
  | .receive => ∃ m, r = .message m ∧ moved = [m]
  | .tryReceive => (∃ m, r = .message m ∧ moved = [m]) ∨ r = .error .empty ∧ moved = []
  | _ => False

/-- Where the call `a` can stand on an open queue, when it has pushed or popped `moved`. -/
def BqPc.within (a : BqAct T) (moved : List (Message T)) : BqPc T → Prop
  | .slots true m _ | .sendRecheck m => a = .send m ∧ moved = []
  | .slots false m _ => a = .trySend m ∧ moved = []
  | .push m => (a = .send m ∨ a = .trySend m) ∧ moved = []
  | .addCount | .releaseItem => ∃ m, (a = .send m ∨ a = .trySend m) ∧ moved = [m]
  | .items true _ | .receiveRecheck => a = .receive ∧ moved = []
  | .items false _ => a = .tryReceive ∧ moved = []
  | .pop => (a = .receive ∨ a = .tryReceive) ∧ moved = []
  | .subCount m | .releaseSlot m => (a = .receive ∨ a = .tryReceive) ∧ moved = [m]
  | .returned r => BqAnswer moved r a
  | _ => False

theorem BoundedMessageQueue.turn_begins {a : BqAct T} (h : l.turn p a = some (l', p'))
    (hc : l.closed = false) (ha : a ≠ .close) (hcall : a.isCall = true) : p'.within a [] := by
  revert h
  fun_cases BoundedMessageQueue.turn l p a <;> intro h <;>
    simp_all [BqAct.isCall]
  all_goals obtain ⟨rfl, rfl⟩ := h; simp [BqPc.within]

theorem BoundedMessageQueue.turn_goes_on {b : BqAct T} {moved : List (Message T)}
    (h : l.turn p a = some (l', p')) (hc : l.closed = false) (hcall : a.isCall = false)
    (hpop : p = .pop → l.queue ≠ []) (hp : p.within b moved) :
    p' = .idle ∨ p'.within b (moved ++ (p.pushes ++ p.pops l.queue)) := by
  revert h
  fun_cases BoundedMessageQueue.turn l p a <;> intro h <;>
    simp only [Option.some.injEq, Prod.mk.injEq, reduceCtorEq] at h <;> obtain ⟨rfl, rfl⟩ := h
  case case5 blocking m acq hacq =>
    cases blocking
    · simp_all [within, BqAnswer, pushes, pops]
    · exact absurd hacq (acquireTurn_ne_failed _ _)
  case case17 blocking acq hacq =>
    cases blocking
    · simp_all [within, BqAnswer, pushes, pops]
    · exact absurd hacq (acquireTurn_ne_failed _ _)
  case case3 blocking m _ _ _ | case4 blocking m _ _ _ | case15 blocking _ _ _ |
      case16 blocking _ _ _ => cases blocking <;> simp_all [within, pushes, pops]
  case case22 hq => simp_all [within, pushes, pops]
  case case11 =>
    obtain ⟨m, rfl | rfl, rfl⟩ := hp
    · exact .inr ⟨rfl, rfl⟩
    · exact .inr (.inl ⟨rfl, rfl⟩)
  case case24 m =>
    obtain ⟨rfl | rfl, rfl⟩ := hp
    · exact .inr ⟨m, rfl, rfl⟩
    · exact .inr (.inl ⟨m, rfl, rfl⟩)
  all_goals first
    | (cases hcall; done)
    | simp_all [within, BqAnswer, pushes, pops]

/-- Every call stands where it can stand on an open queue. -/
def BqPlaced (x : BqWatch ι T) : Prop :=
  ∀ i, x.conf.thread i = .idle ∨
    ∃ b, x.call i = some b ∧ (x.conf.thread i).within b (x.moved i)

theorem BqPlaced.next (h : BqPlaced x) (hopen : BqOpen cap x.conf) (ha : a ≠ .close)
    (hn : x.next (i, a) = some x') : BqPlaced x' := by
  obtain ⟨c', hc, rfl⟩ := Option.map_eq_some_iff.mp hn
  obtain ⟨l', p', ht, rfl⟩ := Conf.exists_turn hc
  intro j
  by_cases hj : j = i
  · subst hj
    simp only [update_self]
    by_cases hcall : a.isCall = true
    · simp only [hcall, if_true, update_self]
      exact .inr ⟨a, rfl, BoundedMessageQueue.turn_begins ht hopen.closed ha hcall⟩
    · rw [Bool.not_eq_true] at hcall
      simp only [hcall, Bool.false_eq_true, if_false]
      rcases h j with hidle | ⟨b, hb, hp⟩
      · rw [hidle] at ht
        cases a <;> first | (cases hcall; done) | cases ht
      · have hpop : x.conf.thread j = .pop → x.conf.shared.queue ≠ [] := by
          intro hpop
          exact hopen.queue_ne_nil (by rw [hpop]; rfl)
        exact (BoundedMessageQueue.turn_goes_on ht hopen.closed hcall hpop hp).imp_right
          fun hp' => ⟨b, hb, hp'⟩
  · have hold := h j
    simp only [update_of_ne hj]
    split
    · rw [update_of_ne hj]
      exact hold
    · exact hold

/-- **A bounded FIFO queue**, for any number of calls side by side, as long as none closes it: what
was pushed is what was popped, in that order, and what is still there; a `receive` returns the one
message that it popped; between calls the counters agree. -/
theorem BoundedMessageQueue.run_fifo {cap : Nat} (hcap : cap < 2 ^ 63) {x : BqWatch ι T}
    (hr : Reach (Fires BqWatch.next NoClose) (BqWatch.start (.init cap)) x) :
    x.conf.shared.queue.length ≤ cap ∧
      x.pushed = x.popped ++ x.conf.shared.queue ∧
      (∀ i, (x.conf.thread i).part.itemHeld = 1 →
        x.conf.thread i ≠ .recheckEmpty ∧ x.conf.shared.queue ≠ []) ∧
      (∀ i r, x.conf.thread i = .returned r →
        ∃ b, x.call i = some b ∧ BqAnswer (x.moved i) r b) ∧
      (∀ i m, x.conf.thread i = .subCount m → 0 < x.conf.shared.count) ∧
      ((∀ i, (x.conf.thread i).inCall = false) →
        x.conf.shared.semSlots + x.conf.shared.len = cap ∧
        x.conf.shared.semItems = x.conf.shared.len ∧
        x.conf.shared.len = x.conf.shared.queue.length) := by
  obtain ⟨h, hplaced, hfifo⟩ :
      BqOpen cap x.conf ∧ BqPlaced x ∧ x.pushed = x.popped ++ x.conf.shared.queue := by
    refine Reach.invariant (P := fun x : BqWatch ι T => BqOpen cap x.conf ∧ BqPlaced x ∧
      x.pushed = x.popped ++ x.conf.shared.queue) ⟨BqOpen.start hcap, fun _ => .inl rfl, rfl⟩ ?_ hr
    rintro x x' ⟨h, hplaced, hfifo⟩ ⟨⟨i, a⟩, hok, hn⟩
    obtain ⟨-, -, -, hc, -⟩ := BqWatch.exists_turn hn
    exact ⟨h.next hc hcap hok, hplaced.next h hok hn, BqWatch.pushed_next hfifo hn⟩
  have hslots := h.balance.slots
  have hslots0 := h.balance.slots_nonneg
  have hitems0 := h.balance.items_nonneg
  have hitems := h.items
  have hcount := h.count
  refine ⟨by omega, hfifo, ?_, ?_, ?_, ?_⟩
  · intro i hi
    refine ⟨?_, h.queue_ne_nil hi⟩
    intro hrec
    have hseen := h.unseen i
    rw [hrec] at hseen
    cases hseen
  · intro i r hi
    rcases hplaced i with hidle | ⟨b, hb, hp⟩
    · rw [hi] at hidle
      cases hidle
    · rw [hi] at hp
      exact ⟨b, hb, hp⟩
  · intro i m hi
    have hpos : 0 < inFlight InFlight.popped x.conf.thread :=
      inFlight_pos (by rw [hi]; exact one_pos)
    omega
  · intro hidle
    obtain ⟨z1, z2, z3, z4, z5, z6, z7⟩ := inFlight_of_idle hidle
    simp only [BoundedMessageQueue.len]
    omega

instance [DecidableEq T] : ∀ (x : BqWatch ι T) (ia : ι × BqAct T), Decidable (NoClose x ia) :=
  fun _ ia => inferInstanceAs (Decidable (ia.2 ≠ .close))

theorem BoundedMessageQueue.run_fifo_one :
    ∃ x : BqWatch (Fin 2) Nat,
      x.conf.thread 1 = .returned (.message (.new 1)) ∧
      x.pushed = [.new 1, .new 2] ∧
      x.popped = [.new 1] ∧
      x.conf.shared.queue = [.new 2] ∧
      x.moved 1 = [.new 1] := by
  obtain ⟨x, hr, h1, h2, h3, h4⟩ : ∃ x : BqWatch (Fin 2) Nat, Reach (Fires BqWatch.next NoClose)
      (BqWatch.start (.init 1)) x ∧ x.conf.thread 1 = .returned (.message (.new 1)) ∧
        x.pushed = [.new 1, .new 2] ∧ x.popped = [.new 1] ∧ x.call 1 = some .receive :=
    exists_reach [(0, .send (.new 1)), (0, .step), (0, .step), (0, .step), (0, .step), (0, .step),
      (0, .step), (0, .leave), (0, .send (.new 2)), (0, .step), (1, .receive), (1, .step),
      (1, .weakFail), (1, .step), (1, .step), (1, .step), (1, .step), (1, .step), (1, .step),
      (0, .step), (0, .step), (0, .step), (0, .step)] (by decide)
  obtain ⟨-, hfifo, -, hreturned, -⟩ := BoundedMessageQueue.run_fifo (by decide) hr
  obtain ⟨b, hb, hanswer⟩ := hreturned 1 _ h1
  obtain rfl : .receive = b := Option.some.inj (h4.symm.trans hb)
  obtain ⟨m, hm, hmoved⟩ := hanswer
  obtain rfl : .new 1 = m := MqResult.message.inj hm
  rw [h2, h3] at hfifo
  exact ⟨x, h1, h2, h3, (List.cons.inj hfifo).2.symm, hmoved⟩

/-! ## Closing -/

def BqPc.sending : BqPc T → Bool
  | .slots .. | .sendRecheck _ | .push _ => true
  | _ => false

theorem closeLoop_sending (left : Nat) :
    (BoundedMessageQueue.closeLoop left : BqPc T).sending = false := by
  cases left <;> rfl

theorem BoundedMessageQueue.turn_closed (h : l.turn p a = some (l', p')) (hc : l.closed = true) :
    l'.closed = true := by
  cases BoundedMessageQueue.turn_effect h with
  | setClosed => rfl
  | _ => exact hc

theorem BoundedMessageQueue.turn_close (h : l.turn p .close = some (l', p')) :
    p = .idle ∧ l' = { l with closed := true } ∧ p' = closeLoop l.capacity := by
  cases p with
  | idle =>
    obtain ⟨rfl, rfl⟩ := Prod.mk.inj (Option.some.inj h)
    exact ⟨rfl, rfl, rfl⟩
  | _ => cases h

theorem BoundedMessageQueue.turn_sending (h : l.turn p a = some (l', p')) (hp : p'.sending = true) :
    if a.isCall then l.closed = false else p.sending = true := by
  revert h
  fun_cases BoundedMessageQueue.turn l p a <;> intro h <;>
    grind [sending, BqAct.isCall, closeLoop_sending]

/-- The deque and those about to push stay within the capacity: before `closed` is set by the
balance, after it because nobody gets to a push any more. -/
structure BqCapped (cap : Nat) (x : BqWatch ι T) : Prop where
  isOpen : x.conf.shared.closed = false → BqOpen cap x.conf
  isClosed : x.conf.shared.closed = true →
    x.conf.shared.queue.length + inFlight pushing x.conf.thread ≤ cap
  late : ∀ i, (x.conf.thread i).sending = true → x.late i = false

/-- A `try_send` before an exchange on `sem_slots` that will succeed. -/
def BqPc.triesSlot (semSlots : Int) : BqPc T → Bool
  | .slots false _ (.exchange seen) => semSlots == seen
  | _ => false

/-- The exchange of a `try_send` on `sem_slots` does not succeed once `closed` is set. -/
def NoLateTry (x : BqWatch ι T) (ia : ι × BqAct T) : Prop :=
  ia.2 = .step → (x.conf.thread ia.1).triesSlot x.conf.shared.semSlots = true →
    x.conf.shared.closed = false

theorem BqCapped.closed_turn (h : BqCapped cap x) (hok : NoLateTry x (i, a))
    (ht : x.conf.shared.turn (x.conf.thread i) a = some (l', p'))
    (hc : x.conf.shared.closed = true) :
    l'.queue.length + inFlight pushing (update x.conf.thread i p') ≤ cap := by
  have hcap := h.isClosed hc
  obtain ⟨p, hp⟩ : ∃ p, x.conf.thread i = p := ⟨_, rfl⟩
  rw [hp] at ht
  have e := inFlight_move hp p'
  cases BoundedMessageQueue.turn_effect ht with
  | quiet hq hd =>
    simp only [hq] at e
    omega
  | trySlot m seen hseen =>
    have htry : (x.conf.thread i).triesSlot x.conf.shared.semSlots = true := by
      rw [hp]
      exact beq_iff_eq.mpr hseen
    rw [hok rfl htry] at hc
    cases hc
  | commit m hopen =>
    rw [hopen] at hc
    cases hc
  | push m =>
    simp only [part, length_append, length_singleton] at e ⊢
    omega
  | pop m rest hq =>
    rw [hq, length_cons] at hcap
    simp only [part] at e ⊢
    omega
  | takeItem blocking seen hseen hp' =>
    rw [gotItem_part hp'] at e
    simp only [part] at e ⊢
    omega
  | setClosed | closeItem =>
    rw [closeLoop_part] at e
    simp only [part] at e ⊢
    omega
  | _ =>
    simp only [part] at e ⊢
    omega

omit [DecidableEq ι] in
theorem BqOpen.pushing_le (h : BqOpen cap c) :
    c.shared.queue.length + inFlight pushing c.thread ≤ cap := by
  have hle : inFlight pushing c.thread ≤ inFlight slotHeld c.thread := by
    refine tally_mono (fun p => ?_) c.thread
    cases p <;> simp [part]
  have hslots := h.balance.slots
  have hslots0 := h.balance.slots_nonneg
  omega

theorem BqCapped.late_next (h : BqCapped cap x) (hn : x.next (i, a) = some x') (j : ι)
    (hj : (x'.conf.thread j).sending = true) : x'.late j = false := by
  obtain ⟨l', p', ht, -, hconf, -, -, hlate⟩ := BqWatch.exists_turn hn
  rw [hconf] at hj
  rw [hlate]
  by_cases hji : j = i
  · subst hji
    simp only [update_self] at hj
    have hs := BoundedMessageQueue.turn_sending ht hj
    split at hs
    case isTrue ha => simp only [ha, if_true, update_self, hs]
    case isFalse ha => simp only [ha, Bool.false_eq_true, if_false, h.late j hs]
  · simp only [update_of_ne hji] at hj
    split
    · rw [update_of_ne hji]
      exact h.late j hj
    · exact h.late j hj

theorem BqCapped.next {ia : ι × BqAct T} (h : BqCapped cap x) (hcap : cap < 2 ^ 63)
    (hok : NoLateTry x ia) (hn : x.next ia = some x') : BqCapped cap x' := by
  obtain ⟨i, a⟩ := ia
  obtain ⟨l', p', ht, hc, hconf, -⟩ := BqWatch.exists_turn hn
  refine ⟨?_, ?_, ?_⟩
  · intro hopen'
    rw [hconf] at hopen'
    have hopen : x.conf.shared.closed = false := by
      by_contra hcl
      rw [BoundedMessageQueue.turn_closed ht (by simpa using hcl)] at hopen'
      cases hopen'
    refine (h.isOpen hopen).next hc hcap ?_
    rintro rfl
    obtain ⟨-, rfl, -⟩ := BoundedMessageQueue.turn_close ht
    cases hopen'
  · intro hclosed'
    cases hcl : x.conf.shared.closed with
    | true =>
      rw [hconf]
      exact h.closed_turn hok ht hcl
    | false =>
      have hopen := h.isOpen hcl
      by_cases ha : a = .close
      · subst ha
        obtain ⟨hp, rfl, rfl⟩ := BoundedMessageQueue.turn_close ht
        have e := inFlight_move hp (BoundedMessageQueue.closeLoop x.conf.shared.capacity)
        rw [closeLoop_part] at e
        simp only [part] at e
        have hle := hopen.pushing_le
        rw [hconf]
        simp only
        omega
      · rw [(hopen.next hc hcap ha).closed] at hclosed'
        cases hclosed'
  · exact h.late_next hn

/-- **The capacity bound survives closing**, and no call that begins after `closed` was set gets to
a push, in every run in which no `try_send` takes its slot once `closed` is set. -/
theorem BoundedMessageQueue.run_within_capacity {size cap : Nat} (hsize : 0 < size)
    {q : BoundedMessageQueue T} (hq : BoundedMessageQueue.new size cap = some q)
    {x : BqWatch ι T} (hr : Reach (Fires BqWatch.next NoLateTry) (BqWatch.start q) x) :
    x.conf.shared.queue.length ≤ cap ∧ ∀ i m, x.conf.thread i = .push m → x.late i = false := by
  obtain ⟨hfit, rfl⟩ := BoundedMessageQueue.new_eq_some hq
  have hcap : cap < 2 ^ 63 := Nat.lt_of_le_of_lt (Nat.le_mul_of_pos_right cap hsize) hfit
  have h : BqCapped cap x := by
    refine Reach.invariant (P := BqCapped cap) ?_ (fun h ⟨_, hok, hn⟩ => h.next hcap hok hn) hr
    exact ⟨fun _ => BqOpen.start hcap, nofun, nofun⟩
  refine ⟨?_, fun i m hi => h.late i (by rw [hi]; rfl)⟩
  cases hc : x.conf.shared.closed with
  | true =>
    have := h.isClosed hc
    omega
  | false =>
    have := (h.isOpen hc).pushing_le
    omega

instance [DecidableEq T] : ∀ (x : BqWatch ι T) (ia : ι × BqAct T), Decidable (NoLateTry x ia) :=
  fun x ia => inferInstanceAs (Decidable (ia.2 = .step →
    (x.conf.thread ia.1).triesSlot x.conf.shared.semSlots = true →
      x.conf.shared.closed = false))

theorem BoundedMessageQueue.run_within_capacity_closed :
    ∃ x : BqWatch (Fin 2) Nat, x.conf.thread 0 = .giveBack ∧ x.conf.shared.queue.length ≤ 1 := by
  obtain ⟨x, hr, hx⟩ : ∃ x : BqWatch (Fin 2) Nat, Reach (Fires BqWatch.next NoLateTry)
      (BqWatch.start (.init 1)) x ∧ x.conf.thread 0 = .giveBack :=
    exists_reach [(0, .send (.new 1)), (0, .step), (1, .close), (0, .step), (1, .step), (0, .step)]
      (by decide)
  have hq : BoundedMessageQueue.new 32 1 = some (.init 1 : BoundedMessageQueue Nat) := rfl
  exact ⟨x, hx, (BoundedMessageQueue.run_within_capacity (by decide) hq hr).1⟩

/-- A queue of one is full; call 1, a `try_send`, has found `closed` clear; call 2 closes the queue
and releases a slot; call 1 takes it and pushes a second message. -/
theorem BoundedMessageQueue.late_try_send_overfills :
    ∃ q : BoundedMessageQueue Nat, BoundedMessageQueue.new 32 1 = some q ∧
      ∃ x : BqWatch (Fin 3) Nat, Reach (Fires BqWatch.next fun _ _ => True) (BqWatch.start q) x ∧
        x.conf.shared.queue.length = 2 :=
  ⟨.init 1, rfl, exists_reach [(0, .send (.new 1)), (0, .step), (0, .step), (0, .step), (0, .step),
    (0, .step), (0, .step), (1, .trySend (.new 2)), (2, .close), (2, .step), (1, .step),
    (1, .step), (1, .step)] (by decide)⟩

end Kerners.Ipc
