import Kerners.Ipc.BoundedQueue

/-!
# Closing and those who wait (`ipc/message_queue.rs`)

A `receive` that waits for a message spins in `Semaphore::acquire`; so does a `send` on a full
bounded queue. `close` sets `closed` and then releases permits: ten on a `MessageQueue`, `capacity`
of either kind on a `BoundedMessageQueue`. A `send` that is woken gives its permit back, so one
permit wakes all of them in turn; a `receive` that is woken and finds the queue empty does **not**,
so every waiting `receive` needs a permit of its own.

The first part is the `MessageQueue` for `receive` and `close` side by side, turn by turn: here the
`Mutex` around the deque is held from the search for the message to the update of `count`, so its
word is part of the model. The second part is about the `BoundedMessageQueue` of the previous
module.
-/

namespace Kerners.Ipc

open Lib Sync Semaphore InFlight Function

/-! ## `MessageQueue`: `receive` and `close` side by side -/

/-- The queue and the word of its `Mutex`. -/
structure MqShared (T : Type*) where
  q : MessageQueue T
  locked : Bool

/-- Where a call stands; `left` are the releases of `close` after the present one. -/
inductive MqPc (T : Type*) where
  | idle
  | isEmpty
  | items (acq : AcqPc)
  | recheck
  | recheckEmpty
  | locking
  | taking
  | subCount (m : Message T)
  | unlocking (r : MqResult T)
  | closing (left : Nat)
  | returned (r : MqResult T)
  deriving DecidableEq

/-- The entry points, the next step of the call, an exchange of `acquire` that fails without cause,
and the end of a call. -/
inductive MqAct where
  | receive
  | close
  | step
  | weakFail
  | leave
  deriving DecidableEq

namespace MqShared

variable {T : Type*}

def turn (l : MqShared T) : MqPc T → MqAct → Option (MqShared T × MqPc T)
  | .idle, .receive => some (l, if l.q.closed then .isEmpty else .items .load)
  | .isEmpty, .step =>
    some (l, if l.q.count = 0 then .returned (.error .closed) else .items .load)
  | .items acq, .step =>
    match acquireTurn true l.q.semItems acq with
    | .next acq => some (l, .items acq)
    | .got count => some ({ l with q.semItems := count }, .recheck)
    | .failed => none
  | .items (.exchange _), .weakFail => some (l, .items .load)
  | .recheck, .step => some (l, if l.q.closed then .recheckEmpty else .locking)
  | .recheckEmpty, .step =>
    some (l, if l.q.count = 0 then .returned (.error .closed) else .locking)
  | .locking, .step =>
    if l.locked then some (l, .locking) else some ({ l with locked := true }, .taking)
  | .taking, .step =>
    match MessageQueue.findHighestPriority l.q.queue with
    | none => some (l, .unlocking (.error .empty))
    | some idx =>
      match l.q.queue[idx]? with
      | none => some (l, .unlocking (.error .empty))
      | some m => some ({ l with q.queue := l.q.queue.eraseIdx idx }, .subCount m)
  | .subCount m, .step =>
    some ({ l with q.count := decWord l.q.count }, .unlocking (.message m))
  | .unlocking r, .step => some ({ l with locked := false }, .returned r)
  | .idle, .close => some ({ l with q.closed := true }, .closing 9)
  | .closing left, .step =>
    some ({ l with q.semItems := release l.q.semItems },
      match left with
      | 0 => .returned .ok
      | left + 1 => .closing left)
  | .returned _, .leave => some (l, .idle)
  | _, _ => none

end MqShared

namespace MqPc

variable {T : Type*}

def inCall : MqPc T → Bool
  | .idle | .returned _ => false
  | _ => true

/-- A `receive` between its first test and its permit counts one. -/
def waits : MqPc T → Nat
  | .items _ => 1
  | _ => 0

/-- The permits that `close` has still to release. -/
def itemsLeft : MqPc T → Nat
  | .closing left => left + 1
  | _ => 0

/-- Holding the `Mutex` counts one. -/
def holds : MqPc T → Nat
  | .taking | .subCount _ | .unlocking _ => 1
  | _ => 0

/-- Spinning in `acquire` without a permit. -/
def spins (semItems : Int) : MqPc T → Bool
  | .items .load => decide (semItems ≤ 0)
  | _ => false

end MqPc

section

variable {T : Type*} {l l' : MqShared T} {p p' : MqPc T} {a : MqAct}

/-- The kinds of turns, by what they do to the permits, the `Mutex` and those who wait. -/
inductive MqEffect (l : MqShared T) : MqPc T → MqAct → MqShared T → MqPc T → Prop
  | other {p p' : MqPc T} {a : MqAct} {l' : MqShared T} (hs : l'.q.semItems = l.q.semItems)
    (hc : l'.q.closed = l.q.closed) (hl : l'.locked = l.locked) (hw : p'.waits = p.waits)
    (hi : p'.itemsLeft = p.itemsLeft) (hh : p'.holds = p.holds) : MqEffect l p a l' p'
  | enter (hc : l.q.closed = false) : MqEffect l .idle .receive l (.items .load)
  | pass (hc : l.q.count ≠ 0) : MqEffect l .isEmpty .step l (.items .load)
  | takeItem (seen : { count : Int // 0 < count }) (h : l.q.semItems = seen) :
    MqEffect l (.items (.exchange seen)) .step { l with q.semItems := l.q.semItems - 1 } .recheck
  | lock (h : l.locked = false) : MqEffect l .locking .step { l with locked := true } .taking
  | unlock (r : MqResult T) :
    MqEffect l (.unlocking r) .step { l with locked := false } (.returned r)
  | setClosed : MqEffect l .idle .close { l with q.closed := true } (.closing 9)
  | closing (left : Nat) {p' : MqPc T} (hi : p'.itemsLeft = left) (hw : p'.waits = 0)
    (hh : p'.holds = 0) :
    MqEffect l (.closing left) .step { l with q.semItems := release l.q.semItems } p'

theorem MqShared.turn_effect (h : l.turn p a = some (l', p')) : MqEffect l p a l' p' := by
  revert h
  fun_cases MqShared.turn l p a <;> intro h <;>
    simp only [Option.some.injEq, Prod.mk.injEq, reduceCtorEq] at h <;> obtain ⟨rfl, rfl⟩ := h
  case case1 =>
    split
    case isTrue => exact .other rfl rfl rfl rfl rfl rfl
    case isFalse hc => exact .enter (Bool.eq_false_iff.mpr hc)
  case case2 =>
    split
    case isTrue => exact .other rfl rfl rfl rfl rfl rfl
    case isFalse hc => exact .pass hc
  case case4 hacq =>
    obtain ⟨seen, rfl, hseen, rfl⟩ := acquireTurn_got hacq
    exact .takeItem seen hseen
  case case7 | case8 => split <;> exact .other rfl rfl rfl rfl rfl rfl
  case case10 hl => exact .lock (Bool.eq_false_iff.mpr hl)
  case case15 => exact .unlock _
  case case16 => exact .setClosed
  case case17 left =>
    refine .closing left ?_ ?_ ?_ <;> cases left <;> rfl
  all_goals exact .other rfl rfl rfl rfl rfl rfl

theorem MqShared.turn_stays (hp : p.inCall = true)
    (h : ∀ {l' p'}, l.turn p .step = some (l', p') → l' = l ∧ p' = p) :
    p.spins l.q.semItems = true ∨ p = .locking ∧ l.locked = true := by
  cases p with
  | idle | returned r => cases hp
  | isEmpty | recheck | recheckEmpty =>
    have := (h rfl).2
    split at this <;> cases this
  | items acq =>
    cases hacq : acquireTurn true l.q.semItems acq with
    | next acq' =>
      have hstay := (h (by rw [turn, hacq])).2
      obtain rfl := MqPc.items.inj hstay
      obtain ⟨-, rfl, hzero⟩ := acquireTurn_stays hacq
      exact .inl (decide_eq_true hzero)
    | got count => cases (h (by rw [turn, hacq])).2
    | failed => exact absurd hacq (acquireTurn_ne_failed _ _)
  | locking =>
    cases hl : l.locked with
    | true => exact .inr ⟨rfl, rfl⟩
    | false => cases (h (by rw [turn, hl]; rfl)).2
  | taking =>
    cases hf : MessageQueue.findHighestPriority l.q.queue with
    | none => cases (h (by rw [turn, hf])).2
    | some idx =>
      cases hm : l.q.queue[idx]? with
      | none => cases (h (by rw [turn, hf]; simp only [hm]; rfl)).2
      | some m => cases (h (by rw [turn, hf]; simp only [hm]; rfl)).2
  | subCount m | unlocking r =>
    cases (h rfl).2
  | closing left =>
    have hstay := (h rfl).2
    cases left with
    | zero => cases hstay
    | succ left =>
      have := MqPc.closing.inj hstay
      omega

end

section

variable {ι T : Type*} [DecidableEq ι] [Fintype ι]

abbrev MqConf (ι T : Type*) := Conf ι (MqShared T) (MqPc T)

def MqShared.next : MqConf ι T → ι × MqAct → Option (MqConf ι T) := Conf.next MqShared.turn

/-- No call on the queue `q`. -/
def MqShared.start (q : MessageQueue T) : MqConf ι T := ⟨⟨q, false⟩, fun _ => .idle⟩

/-- `close` is called once, and the permits that are there and that it will release suffice for
those who wait; a `receive` that passes its first test later finds a permit to spare. -/
def MqEnough (c : MqConf ι T) (ia : ι × MqAct) : Prop :=
  (ia.2 = .close → c.shared.q.closed = false ∧
    (tally MqPc.waits c.thread : Int) ≤ c.shared.q.semItems + 10) ∧
  (ia.2 = .step → c.thread ia.1 = .isEmpty → c.shared.q.count ≠ 0 → (tally MqPc.waits c.thread :
    Int) < c.shared.q.semItems + tally MqPc.itemsLeft c.thread)

/-- The `Mutex` is held by one call at most, the permits fit, and once `closed` is set there is one
for each `receive` that waits. `n` is the number of messages at the start. -/
structure MqWakes (n : Nat) (c : MqConf ι T) : Prop where
  lock : tally MqPc.holds c.thread = c.shared.locked.toNat
  nonneg : 0 ≤ c.shared.q.semItems
  fits : c.shared.q.semItems + tally MqPc.itemsLeft c.thread ≤ n + 10 * c.shared.q.closed.toNat
  woken : c.shared.q.closed = true →
    (tally MqPc.waits c.thread : Int) ≤ c.shared.q.semItems + tally MqPc.itemsLeft c.thread

section

variable {n : Nat} {c : MqConf ι T} {i : ι} {a : MqAct} {l' : MqShared T} {p' : MqPc T}

theorem MqWakes.lock_turn (h : MqWakes n c) (he : MqEffect c.shared (c.thread i) a l' p') :
    tally MqPc.holds (update c.thread i p') = l'.locked.toNat := by
  have eh := tally_update MqPc.holds c.thread i p'
  have lock := h.lock
  generalize c.thread i = p at he eh
  cases he with
  | other _ _ hl _ _ hh =>
    rw [hl]
    omega
  | lock hl =>
    simp only [MqPc.holds, hl, Bool.toNat_true, Bool.toNat_false] at eh lock ⊢
    omega
  | unlock r =>
    have hbit : c.shared.locked.toNat ≤ 1 := Bool.toNat_le _
    simp only [MqPc.holds, Bool.toNat_false] at eh ⊢
    omega
  | closing left _ _ hh =>
    simp only [MqPc.holds] at eh hh ⊢
    omega
  | _ =>
    simp only [MqPc.holds] at eh ⊢
    omega

theorem MqWakes.permits_turn (h : MqWakes n c) (hn : n + 10 < 2 ^ 63)
    (hclose : a = .close → c.shared.q.closed = false)
    (he : MqEffect c.shared (c.thread i) a l' p') :
    0 ≤ l'.q.semItems ∧
    l'.q.semItems + tally MqPc.itemsLeft (update c.thread i p') ≤ n + 10 * l'.q.closed.toNat := by
  have ei := tally_update MqPc.itemsLeft c.thread i p'
  have nonneg := h.nonneg
  have fits := h.fits
  generalize c.thread i = p at he ei
  cases he with
  | other hs hcl _ _ hi _ =>
    rw [hs, hcl]
    omega
  | takeItem seen hseen =>
    have hpos := seen.2
    simp only [MqPc.itemsLeft] at ei ⊢
    omega
  | setClosed =>
    simp only [MqPc.itemsLeft, hclose rfl, Bool.toNat_true, Bool.toNat_false] at ei fits ⊢
    omega
  | closing left hi _ _ =>
    have hbit : c.shared.q.closed.toNat ≤ 1 := Bool.toNat_le _
    simp only [MqPc.itemsLeft] at ei hi ⊢
    rw [release_of_lt (by omega) (by omega)]
    omega
  | _ =>
    simp only [MqPc.itemsLeft] at ei ⊢
    omega

theorem MqWakes.woken_turn (h : MqWakes n c) (hn : n + 10 < 2 ^ 63) (hok : MqEnough c (i, a))
    (he : MqEffect c.shared (c.thread i) a l' p') (hclosed : l'.q.closed = true) :
    (tally MqPc.waits (update c.thread i p') : Int) ≤
      l'.q.semItems + tally MqPc.itemsLeft (update c.thread i p') := by
  have ew := tally_update MqPc.waits c.thread i p'
  have ei := tally_update MqPc.itemsLeft c.thread i p'
  obtain ⟨hclose, hpass⟩ := hok
  obtain ⟨-, nonneg, fits, woken⟩ := h
  simp only at hpass
  generalize c.thread i = p at he ew ei hpass
  cases he with
  | other hs hcl _ hw hi _ =>
    have := woken (hcl ▸ hclosed)
    rw [hs]
    omega
  | enter hcl =>
    rw [hcl] at hclosed
    cases hclosed
  | pass hcount =>
    have hspare := hpass rfl rfl hcount
    simp only [MqPc.waits, MqPc.itemsLeft] at ew ei ⊢
    omega
  | setClosed =>
    have henough := (hclose rfl).2
    simp only [MqPc.waits, MqPc.itemsLeft] at ew ei ⊢
    omega
  | closing left hi hw _ =>
    have := woken hclosed
    have hbit : c.shared.q.closed.toNat ≤ 1 := Bool.toNat_le _
    simp only [MqPc.waits, MqPc.itemsLeft] at ew ei hi hw ⊢
    rw [release_of_lt (by omega) (by omega)]
    omega
  | _ =>
    have := woken hclosed
    simp only [MqPc.waits, MqPc.itemsLeft] at ew ei ⊢
    omega

end

theorem MqWakes.next {n : Nat} {c c' : MqConf ι T} {ia : ι × MqAct} (h : MqWakes n c)
    (hn : n + 10 < 2 ^ 63) (hok : MqEnough c ia) (hc : MqShared.next c ia = some c') :
    MqWakes n c' := by
  obtain ⟨l', p', ht, rfl⟩ := Conf.exists_turn hc
  have he := MqShared.turn_effect ht
  obtain ⟨hnonneg, hfits⟩ := h.permits_turn hn (fun ha => (hok.1 ha).1) he
  exact ⟨h.lock_turn he, hnonneg, hfits, h.woken_turn hn hok he⟩

theorem MqWakes.not_stuck {n : Nat} {c : MqConf ι T} (h : MqWakes n c)
    (hc : c.shared.q.closed = true) : ¬ Conf.Stuck MqShared.turn MqPc.inCall .step c := by
  intro hs
  have hstay : ∀ i, (c.thread i).inCall = true → (c.thread i).spins c.shared.q.semItems = true ∨
      c.thread i = .locking ∧ c.shared.locked = true := fun i hi =>
    MqShared.turn_stays hi fun ht => hs.turn_eq hi ht
  -- whoever holds the `Mutex` can move, so nobody does
  have hfree : c.shared.locked = false := by
    by_contra hl
    have hlock := h.lock
    rw [Bool.not_eq_false] at hl
    rw [hl] at hlock
    obtain ⟨i, hi⟩ := exists_of_tally_pos (w := MqPc.holds) (t := c.thread) (by rw [hlock]; decide)
    have hbusy := hstay i
    generalize c.thread i = p at hi hbusy
    cases p with
    | taking | subCount m | unlocking r => simp [MqPc.inCall, MqPc.spins] at hbusy
    | _ => simp [MqPc.holds] at hi
  have hspin : ∀ i, (c.thread i).inCall = true → (c.thread i).spins c.shared.q.semItems = true :=
    fun i hi => (hstay i hi).resolve_right fun hl => by simp [hfree] at hl
  have hleft : tally MqPc.itemsLeft c.thread = 0 := tally_eq_zero.mpr fun i => by
    have hi := hspin i
    generalize c.thread i = p at hi
    cases p with
    | closing left => simp [MqPc.inCall, MqPc.spins] at hi
    | _ => rfl
  obtain ⟨i, hi⟩ := hs.1
  have hsp := hspin i hi
  have hw := le_tally MqPc.waits c.thread i
  have hwoken := h.woken hc
  generalize c.thread i = p at hi hsp hw
  cases p with
  | items acq =>
    cases acq with
    | load =>
      have hzero : c.shared.q.semItems ≤ 0 := of_decide_eq_true hsp
      simp only [MqPc.waits] at hw
      omega
    | exchange seen => cases hsp
  | _ => cases hsp

end

/-! ## `BoundedMessageQueue` -/

open BoundedMessageQueue

open BqPc

section

variable {ι T : Type*} [DecidableEq ι] [Fintype ι]

/-- A `receive` between its first test and its permit counts one. -/
def BqPc.waits : BqPc T → Nat
  | .items .. => 1
  | _ => 0

/-- Spinning in `acquire` without a permit. -/
def BqPc.spins (l : BoundedMessageQueue T) : BqPc T → Bool
  | .slots true _ .load => decide (l.semSlots ≤ 0)
  | .items true .load => decide (l.semItems ≤ 0)
  | _ => false

variable {l : BoundedMessageQueue T} {p : BqPc T}

theorem BoundedMessageQueue.turn_stays (hp : p.inCall = true)
    (h : ∀ {l' p'}, l.turn p .step = some (l', p') → l' = l ∧ p' = p) : p.spins l = true := by
  cases p with
  | idle | returned r => cases hp
  | slots blocking m acq =>
    cases hacq : acquireTurn blocking l.semSlots acq with
    | next acq' =>
      have hstay := (h (by rw [turn, hacq])).2
      obtain ⟨-, -, rfl⟩ := slots.inj hstay
      obtain ⟨rfl, rfl, hzero⟩ := acquireTurn_stays hacq
      exact decide_eq_true hzero
    | got count =>
      have hstay := (h (by rw [turn, hacq])).2
      split at hstay <;> cases hstay
    | failed => cases (h (by rw [turn, hacq])).2
  | items blocking acq =>
    cases hacq : acquireTurn blocking l.semItems acq with
    | next acq' =>
      have hstay := (h (by rw [turn, hacq])).2
      obtain ⟨-, rfl⟩ := items.inj hstay
      obtain ⟨rfl, rfl, hzero⟩ := acquireTurn_stays hacq
      exact decide_eq_true hzero
    | got count =>
      have hstay := (h (by rw [turn, hacq])).2
      split at hstay <;> cases hstay
    | failed => cases (h (by rw [turn, hacq])).2
  | pop =>
    cases hq : l.queue with
    | nil => cases (h (by rw [turn, hq])).2
    | cons m rest => cases (h (by rw [turn, hq])).2
  | closeItem left =>
    have hstay := (h rfl).2
    cases left <;> cases hstay
  | sendRecheck m | isEmpty b | receiveRecheck | recheckEmpty =>
    have := (h rfl).2
    split at this <;> cases this
  | _ => cases (h rfl).2

def BqAct.isTry : BqAct T → Bool
  | .trySend _ | .tryReceive => true
  | _ => false

/-- Only `send`, `receive` and `close` are called, `close` once, and the permits of `sem_items` that
are there and that `close` will release suffice for those who wait; a `receive` that passes its
first test later finds a permit to spare. -/
def BqEnough (x : BqWatch ι T) (ia : ι × BqAct T) : Prop :=
  (ia.2 = .close → x.conf.shared.closed = false ∧
    (tally BqPc.waits x.conf.thread : Int) ≤ x.conf.shared.semItems + x.conf.shared.capacity) ∧
  (ia.2 = .step → x.conf.thread ia.1 = .isEmpty true → x.conf.shared.count ≠ 0 → (tally BqPc.waits
    x.conf.thread : Int) < x.conf.shared.semItems + inFlight itemsLeft x.conf.thread) ∧
  ia.2.isTry = false

def BqPc.tries : BqPc T → Bool
  | .slots blocking .. => !blocking
  | .items blocking _ => !blocking
  | .isEmpty blocking => !blocking
  | _ => false

theorem closeLoop_tries (left : Nat) :
    (closeLoop left : BqPc T).tries = false := by
  cases left <;> rfl

variable {l' : BoundedMessageQueue T} {p' : BqPc T} {a : BqAct T}

theorem BoundedMessageQueue.turn_tries (h : l.turn p a = some (l', p')) (ha : a.isTry = false)
    (hp : p.tries = false) : p'.tries = false := by
  revert h
  fun_cases turn l p a <;> intro h <;>
    grind [tries, BqAct.isTry, closeLoop_tries]

theorem closeLoop_waits (left : Nat) : (closeLoop left : BqPc T).waits = 0 := by
  cases left <;> rfl

theorem gotItem_waits {blocking : Bool} (h : p = if blocking then .receiveRecheck else .pop) :
    p.waits = 0 := by
  subst h
  cases blocking <;> rfl

theorem BoundedMessageQueue.turn_waits (h : l.turn p a = some (l', p')) (hp : p.tries = false) :
    p'.waits ≤ p.waits ∨ l.closed = false ∨ a = .step ∧ p = .isEmpty true ∧ l.count ≠ 0 := by
  revert h
  fun_cases turn l p a <;> intro h <;>
    grind [waits, tries, closeLoop_waits]

/-- Beside the capacity bound and the balance, once `closed` is set there is a permit for each
`receive` that waits. -/
structure BqWakes (cap : Nat) (x : BqWatch ι T) : Prop where
  capped : BqCapped cap x
  balance : ∃ extra, BqBalance cap extra x.conf
  tries : ∀ i, (x.conf.thread i).tries = false
  woken : x.conf.shared.closed = true →
    (tally BqPc.waits x.conf.thread : Int) ≤
      x.conf.shared.semItems + inFlight itemsLeft x.conf.thread

variable {cap : Nat} {x : BqWatch ι T}

theorem BqWakes.woken_turn {i : ι} (h : BqWakes cap x) (hcap : cap * 32 < 2 ^ 63)
    (hok : BqEnough x (i, a)) (ht : x.conf.shared.turn (x.conf.thread i) a = some (l', p'))
    (hclosed : l'.closed = true) :
    (tally waits (update x.conf.thread i p') : Int) ≤
      l'.semItems + inFlight itemsLeft (update x.conf.thread i p') := by
  obtain ⟨-, ⟨extra, hbal⟩, htries, woken⟩ := h
  obtain ⟨hclose, hpass, -⟩ := hok
  obtain ⟨p, hp⟩ : ∃ p, x.conf.thread i = p := ⟨_, rfl⟩
  have ew := tally_update waits x.conf.thread i p'
  have e := inFlight_move hp p'
  have htry := htries i
  simp only [hp] at ht ew hpass htry
  have hslots := hbal.slots
  have hslots0 := hbal.slots_nonneg
  have hitems := hbal.items
  have hitems0 := hbal.items_nonneg
  have hextra := hbal.extra_le
  cases turn_effect ht with
  | quiet hq hd =>
    have := woken hclosed
    simp only [hq] at e
    rcases turn_waits ht htry with hle | hopen | ⟨rfl, rfl, hcount⟩
    · omega
    · rw [hopen] at hclosed
      cases hclosed
    · have hspare := hpass rfl rfl hcount
      have hone : p'.waits ≤ 1 := by
        cases p' <;> simp [waits]
      rw [show (isEmpty true : BqPc T).waits = 0 from rfl] at ew
      omega
  | takeItem blocking seen hseen hp' =>
    have := woken hclosed
    rw [gotItem_part hp'] at e
    rw [gotItem_waits hp'] at ew
    simp only [part, waits] at e ew ⊢
    omega
  | releaseItem r =>
    have := woken hclosed
    simp only [part, waits] at e ew ⊢
    rw [release_of_lt (by omega) (by omega)]
    omega
  | setClosed =>
    have henough := (hclose rfl).2
    rw [closeLoop_part] at e
    rw [closeLoop_waits] at ew
    simp only [part, waits] at e ew ⊢
    omega
  | closeItem left =>
    have := woken hclosed
    rw [closeLoop_part] at e
    rw [closeLoop_waits] at ew
    simp only [part, waits] at e ew ⊢
    rw [release_of_lt (by omega) (by omega)]
    omega
  | _ =>
    have := woken hclosed
    simp only [part, waits] at e ew ⊢
    omega

omit [DecidableEq ι] in
theorem BqWakes.noLateTry (h : BqWakes cap x) (ia : ι × BqAct T) : NoLateTry x ia := by
  intro _ htry
  have hi := h.tries ia.1
  generalize x.conf.thread ia.1 = p at hi htry
  cases p with
  | slots blocking m acq =>
    cases blocking with
    | true => cases htry
    | false => cases hi
  | _ => cases htry

theorem BqWakes.next {x' : BqWatch ι T} {ia : ι × BqAct T} (h : BqWakes cap x)
    (hcap : cap * 32 < 2 ^ 63) (hok : BqEnough x ia) (hn : x.next ia = some x') :
    BqWakes cap x' := by
  obtain ⟨i, a⟩ := ia
  obtain ⟨l', p', ht, hc, hconf, -⟩ := BqWatch.exists_turn hn
  obtain ⟨extra, hbal⟩ := h.balance
  have hextra := hbal.extra_le
  refine ⟨h.capped.next (by omega) (h.noLateTry _) hn, ?_, ?_, ?_⟩
  · exact hbal.next hc (by omega) fun ha => (hok.1 ha).1
  · exact Conf.forall_thread (Q := fun _ _ (p : BqPc T) => p.tries = false) h.tries hc
      (fun ht => turn_tries ht hok.2.2 (h.tries i))
      fun _ _ _ hj => hj
  · rw [hconf]
    exact h.woken_turn hcap hok ht

theorem BqWakes.not_stuck (h : BqWakes cap x) (hcap : 0 < cap) (hc : x.conf.shared.closed = true) :
    ¬ Conf.Stuck turn inCall .step x.conf := by
  intro hs
  have hspin : ∀ i, (x.conf.thread i).inCall = true →
      (x.conf.thread i).spins x.conf.shared = true := fun i hi =>
    turn_stays hi fun ht => hs.turn_eq hi ht
  have hpart : ∀ i, (x.conf.thread i).part = ⟨0, 0, 0, 0, 0, 0, 0, 0, 0⟩ := fun i => by
    have hi := hspin i
    generalize x.conf.thread i = p at hi
    cases p with
    | idle | slots blocking m acq | items blocking acq | isEmpty b | returned r => rfl
    | _ => simp [inCall, spins] at hi
  have hzero := inFlight_eq_zero hpart
  obtain ⟨extra, hbal⟩ := h.balance
  have hslots := hbal.slots
  rw [hzero _ rfl, hzero _ rfl, hzero _ rfl, hzero _ rfl] at hslots
  have hwoken := h.woken hc
  rw [hzero _ rfl] at hwoken
  have hlen := h.capped.isClosed hc
  have hextra : extra = cap := by
    rcases hbal.added with ⟨-, h⟩ | ⟨hopen, -⟩
    · exact h
    · rw [hc] at hopen
      cases hopen
  obtain ⟨i, hi⟩ := hs.1
  have hsp := hspin i hi
  have hw := le_tally waits x.conf.thread i
  generalize x.conf.thread i = p at hi hsp hw
  cases p with
  | slots blocking m acq =>
    have hnone : x.conf.shared.semSlots ≤ 0 := by
      cases blocking <;> cases acq <;> first | cases hsp | exact of_decide_eq_true hsp
    omega
  | items blocking acq =>
    have hnone : x.conf.shared.semItems ≤ 0 := by
      cases blocking <;> cases acq <;> first | cases hsp | exact of_decide_eq_true hsp
    simp only [waits] at hw
    omega
  | _ => cases hsp

end

/-! ## Both queues -/

variable {ι T : Type*} [DecidableEq ι] [Fintype ι]

omit [DecidableEq ι] in
theorem MqWakes.start {q : MessageQueue T} (hq : MqInv ⟨q, 0⟩) :
    MqWakes q.queue.length (MqShared.start q : MqConf ι T) := by
  have hsem : q.semItems = q.queue.length + 10 * (0 : Nat) := hq.semItems
  have hclosed := hq.closed
  have hzero : ∀ w : MqPc T → Nat, w .idle = 0 →
      tally w (MqShared.start q : MqConf ι T).thread = 0 := fun w hw => tally_eq_zero.mpr fun _ => hw
  simp only [Nat.lt_irrefl, iff_false] at hclosed
  refine ⟨hzero _ rfl, ?_, ?_, fun h => absurd h hclosed⟩
  · simp only [MqShared.start]
    omega
  · rw [hzero _ rfl]
    simp only [MqShared.start]
    omega

/-- **Closing wakes everyone that there is a permit for**: in every run in which the permits suffice
for the `receive` calls that wait, no state with `closed` set is stuck. -/
theorem close_wakes_waiting :
    (∀ {q : MessageQueue T} {c : MqConf ι T}, MqInv ⟨q, 0⟩ → q.queue.length + 10 < 2 ^ 63 →
       Reach (Fires MqShared.next MqEnough) (MqShared.start q) c → c.shared.q.closed = true →
       ¬ Conf.Stuck MqShared.turn MqPc.inCall .step c) ∧
    ∀ {size cap : Nat} {q : BoundedMessageQueue T} {x : BqWatch ι T},
      32 ≤ size → 0 < cap → BoundedMessageQueue.new size cap = some q →
      Reach (Fires BqWatch.next BqEnough) (BqWatch.start q) x → x.conf.shared.closed = true →
      ¬ Conf.Stuck BoundedMessageQueue.turn BqPc.inCall .step x.conf := by
  refine ⟨?_, ?_⟩
  · intro q c hq hlen hr hc
    have h : MqWakes q.queue.length c := Reach.invariant (MqWakes.start hq)
      (fun h ⟨_, hok, hn⟩ => h.next hlen hok hn) hr
    exact h.not_stuck hc
  · intro size cap q x hsize hcap hq hr hc
    obtain ⟨hfit, rfl⟩ := BoundedMessageQueue.new_eq_some hq
    have hroom : cap * 32 < 2 ^ 63 :=
      Nat.lt_of_le_of_lt (Nat.mul_le_mul_left cap hsize) hfit
    have hopen : BqOpen cap (BqWatch.start (.init cap) : BqWatch ι T).conf :=
      BqOpen.start (by omega)
    have h : BqWakes cap x := by
      refine Reach.invariant (P := BqWakes cap) ?_ (fun h ⟨_, hok, hn⟩ => h.next hroom hok hn) hr
      exact ⟨⟨fun _ => hopen, nofun, nofun⟩, ⟨0, hopen.balance⟩, fun _ => rfl, nofun⟩
    exact h.not_stuck hcap hc

instance [DecidableEq T] : ∀ (c : MqConf ι T) (ia : ι × MqAct), Decidable (MqEnough c ia) :=
  fun c ia => inferInstanceAs (Decidable ((ia.2 = .close → c.shared.q.closed = false ∧
    (tally MqPc.waits c.thread : Int) ≤ c.shared.q.semItems + 10) ∧
    (ia.2 = .step → c.thread ia.1 = .isEmpty → c.shared.q.count ≠ 0 →
      (tally MqPc.waits c.thread : Int) <
        c.shared.q.semItems + tally MqPc.itemsLeft c.thread)))

instance [DecidableEq T] : ∀ (x : BqWatch ι T) (ia : ι × BqAct T), Decidable (BqEnough x ia) :=
  fun x ia => inferInstanceAs (Decidable ((ia.2 = .close → x.conf.shared.closed = false ∧
    (tally waits x.conf.thread : Int) ≤ x.conf.shared.semItems + x.conf.shared.capacity) ∧
    (ia.2 = .step → x.conf.thread ia.1 = .isEmpty true → x.conf.shared.count ≠ 0 →
      (tally waits x.conf.thread : Int) <
        x.conf.shared.semItems + inFlight itemsLeft x.conf.thread) ∧ ia.2.isTry = false))

theorem close_wakes_waiting_one :
    (∃ c : MqConf (Fin 2) Nat, c.thread 0 = .items .load ∧ c.thread 1 = .returned .ok ∧
      ¬ Conf.Stuck MqShared.turn MqPc.inCall .step c) ∧
    ∃ x : BqWatch (Fin 2) Nat, x.conf.thread 0 = .items true .load ∧
      x.conf.thread 1 = .returned .ok ∧
      ¬ Conf.Stuck BoundedMessageQueue.turn BqPc.inCall .step x.conf := by
  obtain ⟨c, hr, h0, h1, hc⟩ : ∃ c : MqConf (Fin 2) Nat, Reach (Fires MqShared.next MqEnough)
      (MqShared.start .new) c ∧ c.thread 0 = .items .load ∧ c.thread 1 = .returned .ok ∧
        c.shared.q.closed = true :=
    exists_reach ([(0, .receive), (0, .step), (1, .close)] ++ List.replicate 10 (1, .step))
      (by decide)
  obtain ⟨x, hr', h0', h1', hc'⟩ : ∃ x : BqWatch (Fin 2) Nat, Reach (Fires BqWatch.next BqEnough)
      (BqWatch.start (.init 1)) x ∧ x.conf.thread 0 = .items true .load ∧
        x.conf.thread 1 = .returned .ok ∧ x.conf.shared.closed = true :=
    exists_reach [(0, .receive), (0, .step), (1, .close), (1, .step), (1, .step)] (by decide)
  have hq : BoundedMessageQueue.new 32 1 = some (.init 1 : BoundedMessageQueue Nat) := rfl
  exact ⟨⟨c, h0, h1, close_wakes_waiting.1 MqInv.new (by decide) hr hc⟩,
    ⟨x, h0', h1', close_wakes_waiting.2 (by decide) (by decide) hq hr' hc'⟩⟩

theorem MqShared.turn_spins {l : MqShared T} {p : MqPc T} (h : p.spins l.q.semItems = true) :
    l.turn p .step = some (l, p) := by
  cases p with
  | items acq =>
    cases acq with
    | load =>
      have hzero : ¬ 0 < l.q.semItems := Int.not_lt.mpr (of_decide_eq_true h)
      rw [turn, acquireTurn, dif_neg hzero]
      rfl
    | exchange seen => cases h
  | _ => cases h

theorem BoundedMessageQueue.turn_spins {l : BoundedMessageQueue T} {p : BqPc T}
    (h : p.spins l = true) : l.turn p .step = some (l, p) := by
  cases p with
  | slots blocking m acq =>
    cases blocking <;> cases acq <;> first | cases h | skip
    have hzero : ¬ 0 < l.semSlots := Int.not_lt.mpr (of_decide_eq_true h)
    rw [turn, acquireTurn, dif_neg hzero]
    rfl
  | items blocking acq =>
    cases blocking <;> cases acq <;> first | cases h | skip
    have hzero : ¬ 0 < l.semItems := Int.not_lt.mpr (of_decide_eq_true h)
    rw [turn, acquireTurn, dif_neg hzero]
    rfl
  | _ => cases h

/-- Eleven `receive` calls wait on an empty `MessageQueue`, or two on an empty bounded queue of
one; the permits of `close` wake all but one, and each of those returns without passing its permit
on. -/
theorem close_leaves_one_waiting :
    (∃ c : MqConf (Fin 12) Nat, Reach (Fires MqShared.next fun c ia => ia.2 = .close →
        c.shared.q.closed = false) (MqShared.start .new) c ∧ c.shared.q.closed = true ∧
      Conf.Stuck MqShared.turn MqPc.inCall .step c) ∧
    ∃ x : BqWatch (Fin 3) Nat, Reach (Fires BqWatch.next fun x ia => ia.2 = .close →
        x.conf.shared.closed = false) (BqWatch.start (.init 1)) x ∧ x.conf.shared.closed = true ∧
      Conf.Stuck BoundedMessageQueue.turn BqPc.inCall .step x.conf := by
  obtain ⟨c, hr, hc, hbusy, hspin⟩ : ∃ c : MqConf (Fin 12) Nat,
      Reach (Fires MqShared.next fun c ia => ia.2 = .close → c.shared.q.closed = false)
        (MqShared.start .new) c ∧ c.shared.q.closed = true ∧
        (∃ i, (c.thread i).inCall = true) ∧ ∀ i, (c.thread i).inCall = true →
          (c.thread i).spins c.shared.q.semItems = true :=
    exists_reach (((List.finRange 11).map fun i => (i.castSucc, .receive)) ++ (11, .close) ::
      List.replicate 10 (11, .step) ++
      (List.finRange 10).flatMap fun i => List.replicate 4 (i.castSucc.castSucc, .step)) (by decide)
  obtain ⟨x, hr', hc', hbusy', hspin'⟩ : ∃ x : BqWatch (Fin 3) Nat,
      Reach (Fires BqWatch.next fun x ia => ia.2 = .close → x.conf.shared.closed = false)
        (BqWatch.start (.init 1)) x ∧ x.conf.shared.closed = true ∧
        (∃ i, (x.conf.thread i).inCall = true) ∧ ∀ i, (x.conf.thread i).inCall = true →
          (x.conf.thread i).spins x.conf.shared = true :=
    exists_reach [(0, .receive), (1, .receive), (2, .close), (2, .step), (2, .step), (0, .step),
      (0, .step), (0, .step), (0, .step)] (by decide)
  exact ⟨⟨c, hr, hc, Conf.stuck_of_turn_eq hbusy fun i hi => MqShared.turn_spins (hspin i hi)⟩,
    ⟨x, hr', hc', Conf.stuck_of_turn_eq hbusy' fun i hi =>
      BoundedMessageQueue.turn_spins (hspin' i hi)⟩⟩

end Kerners.Ipc
