import Kerners.Ipc.Closing

/-!
# Clearing the queue (`ipc/message_queue.rs`, `MessageQueue::clear`)

`clear` empties the deque, sets the counter to zero and takes back one permit for each message it
removed, all with the `Mutex` held. A `send` holds the `Mutex` only while it pushes its message; it
counts the message and releases its permit afterwards. So `clear` can remove a message that has not
been counted, or whose permit is not there to be taken back.

* The model has any number of calls of `send`, `receive`, `try_receive` and `clear` on an open queue.
  A turn is one access to `closed`, `count`, the word of the `Mutex` or of `sem_items`, or one access
  to the deque, which happens under the `Mutex`. The turns of `receive` are those of
  `Kerners.Ipc.Closing`.
* A history beside the queue counts the calls that had a permit and found the deque empty
  (`empties`), the `try_acquire`s of `clear` that failed (`failed`), the sends that have pushed and not
  counted (`between`), and how many of those there were when `clear` last set the counter (`lost`).
-/

namespace Kerners.Ipc

open Lib Sync Semaphore Function

/-! ## The calls -/

/-- The queue with its history. -/
structure ClearShared (T : Type*) where
  mq : MqShared T
  empties : Nat
  failed : Nat
  between : Nat
  lost : Nat

/-- Where a call stands; `mq` has the places of `receive`, and those that all calls share. -/
inductive ClearPc (T : Type*) where
  | mq (p : MqPc T)
  | sendLock (m : Message T)
  | push (m : Message T)
  | pushed
  | count
  | release
  | tryIsEmpty
  | tryItems (acq : AcqPc)
  | clearLock
  | clearing
  /-- The deque is empty, `n` permits are to be taken back, the counter is not yet set. -/
  | zeroing (n : Nat)
  /-- In a `try_acquire` of `clear`, with `left` more to come. -/
  | draining (left : Nat) (acq : AcqPc)
  deriving DecidableEq

/-- The entry points of `send_message`, `try_receive` and `clear`; `mq` has that of `receive`, the
next step of a call and its end. -/
inductive ClearAct (T : Type*) where
  | send (m : Message T)
  | tryReceive
  | clear
  | mq (a : MqAct)

namespace ClearShared

variable {T : Type*}

def setQ (s : ClearShared T) (q : MessageQueue T) : ClearShared T :=
  { s with mq := { s.mq with q := q } }

/-- The word of the `Mutex` after a turn. -/
def setLocked (s : ClearShared T) (locked : Bool) : ClearShared T :=
  { s with mq := { s.mq with locked := locked } }

/-- `clear` with `n` permits to take back. -/
def drain : Nat → ClearPc T
  | 0 => .mq (.unlocking .ok)
  | left + 1 => .draining left .load

/-- One when a call with a permit finds the deque empty. -/
def foundEmpty : MqPc T → MqPc T → Nat
  | .taking, .unlocking _ => 1
  | _, _ => 0

def turn (s : ClearShared T) : ClearPc T → ClearAct T → Option (ClearShared T × ClearPc T)
  | .mq .idle, .send m =>
    some (s, if s.mq.q.closed then .mq (.returned (.error .closed)) else .sendLock m)
  | .sendLock m, .mq .step =>
    if s.mq.locked then some (s, .sendLock m) else some (s.setLocked true, .push m)
  | .push m, .mq .step =>
    some ({ s.setQ { s.mq.q with queue := s.mq.q.queue ++ [m] } with between := s.between + 1 },
      .pushed)
  | .pushed, .mq .step => some (s.setLocked false, .count)
  | .count, .mq .step =>
    some ({ s.setQ { s.mq.q with count := incWord s.mq.q.count } with between := s.between - 1 },
      .release)
  | .release, .mq .step =>
    some (s.setQ { s.mq.q with semItems := release s.mq.q.semItems }, .mq (.returned .ok))
  | .mq .idle, .tryReceive => some (s, if s.mq.q.closed then .tryIsEmpty else .tryItems .load)
  | .tryIsEmpty, .mq .step =>
    some (s, if s.mq.q.count = 0 then .mq (.returned (.error .closed)) else .tryItems .load)
  | .tryItems acq, .mq .step =>
    match acquireTurn false s.mq.q.semItems acq with
    | .next acq => some (s, .tryItems acq)
    | .got permits => some (s.setQ { s.mq.q with semItems := permits }, .mq .locking)
    | .failed => some (s, .mq (.returned (.error .empty)))
  | .mq .idle, .clear => some (s, .clearLock)
  | .clearLock, .mq .step =>
    if s.mq.locked then some (s, .clearLock) else some (s.setLocked true, .clearing)
  | .clearing, .mq .step =>
    some (s.setQ { s.mq.q with queue := [] }, .zeroing s.mq.q.queue.length)
  | .zeroing n, .mq .step =>
    some ({ s.setQ { s.mq.q with count := 0 } with lost := s.between }, drain n)
  | .draining left acq, .mq .step =>
    match acquireTurn false s.mq.q.semItems acq with
    | .next acq => some (s, .draining left acq)
    | .got permits => some (s.setQ { s.mq.q with semItems := permits }, drain left)
    | .failed => some ({ s with failed := s.failed + 1 }, drain left)
  | .mq _, .mq .close => none
  | .mq p, .mq a =>
    (s.mq.turn p a).map fun r =>
      ({ s with mq := r.1, empties := s.empties + foundEmpty p r.2 }, .mq r.2)
  | _, _ => none

end ClearShared

/-! ## The books -/

/-- What the books are kept of. -/
structure QueueView where
  len : Nat
  count : Nat
  permits : Int
  locked : Bool
  empties : Nat
  failed : Nat
  between : Nat
  lost : Nat

/-- What a call contributes to the books at its place. -/
structure Weights where
  holds : Nat := 0
  /-- Has pushed a message and not released its permit. -/
  owes : Nat := 0
  /-- Has a permit and has not looked at the deque. -/
  permit : Nat := 0
  /-- The permits that `clear` has still to take back. -/
  drain : Nat := 0
  uncounted : Nat := 0
  removed : Nat := 0
  zeroing : Nat := 0

/-- How a turn changes the books. -/
inductive Books (v : QueueView) : Weights → QueueView → Weights → Prop
  | other {w} : Books v w v w
  | lock {w} (hfree : v.locked = false) (hw : w.holds = 0) :
    Books v w { v with locked := true } { w with holds := 1 }
  | unlock {w} (hw : w.holds = 1) : Books v w { v with locked := false } { w with holds := 0 }
  | push : Books v { holds := 1 } { v with len := v.len + 1, between := v.between + 1 }
    { holds := 1, owes := 1, uncounted := 1 }
  | count : Books v { owes := 1, uncounted := 1 }
    { v with count := incWord v.count, between := v.between - 1 } { owes := 1 }
  | release (hfits : v.permits + 1 < 2 ^ 63) :
    Books v { owes := 1 } { v with permits := release v.permits } {}
  | takeItem (hpos : 0 < v.permits) :
    Books v {} { v with permits := v.permits - 1 } { permit := 1 }
  | remove (hlen : 0 < v.len) : Books v { holds := 1, permit := 1 } { v with len := v.len - 1 }
    { holds := 1, removed := 1 }
  | empty (hlen : v.len = 0) : Books v { holds := 1, permit := 1 }
    { v with empties := v.empties + 1 } { holds := 1 }
  | subCount : Books v { holds := 1, removed := 1 } { v with count := decWord v.count }
    { holds := 1 }
  | clear : Books v { holds := 1 } { v with len := 0 }
    { holds := 1, drain := v.len, zeroing := 1 }
  | zero (n : Nat) : Books v { holds := 1, drain := n, zeroing := 1 }
    { v with count := 0, lost := v.between } { holds := 1, drain := n }
  | drainGot (n : Nat) (hpos : 0 < v.permits) : Books v { holds := 1, drain := n + 1 }
    { v with permits := v.permits - 1 } { holds := 1, drain := n }
  | drainFailed (n : Nat) : Books v { holds := 1, drain := n + 1 }
    { v with failed := v.failed + 1 } { holds := 1, drain := n }

def ClearShared.view {T : Type*} (s : ClearShared T) : QueueView where
  len := s.mq.q.queue.length
  count := s.mq.q.count
  permits := s.mq.q.semItems
  locked := s.mq.locked
  empties := s.empties
  failed := s.failed
  between := s.between
  lost := s.lost

namespace ClearPc

variable {T : Type*}

def weigh : ClearPc T → Weights
  | mq .recheck | mq .locking => { permit := 1 }
  | mq .taking => { holds := 1, permit := 1 }
  | mq (.subCount _) => { holds := 1, removed := 1 }
  | mq (.unlocking _) => { holds := 1 }
  | mq _ => {}
  | sendLock _ => {}
  | push _ => { holds := 1 }
  | pushed => { holds := 1, owes := 1, uncounted := 1 }
  | count => { owes := 1, uncounted := 1 }
  | release => { owes := 1 }
  | tryIsEmpty | tryItems _ | clearLock => {}
  | clearing => { holds := 1 }
  | zeroing n => { holds := 1, drain := n, zeroing := 1 }
  | draining left _ => { holds := 1, drain := left + 1 }

/-- The places that only calls on a closed queue, and `close`, come to. -/
def stray : ClearPc T → Bool
  | mq .isEmpty | mq .recheckEmpty | mq (.closing _) | tryIsEmpty => true
  | _ => false

def releases : ClearPc T → Bool
  | release => true
  | _ => false

def inCall : ClearPc T → Bool
  | mq p => p.inCall
  | _ => true

end ClearPc

open ClearPc

open List

section

variable {T : Type*} {s s' : ClearShared T} {p p' : ClearPc T} {a : ClearAct T}

theorem weigh_drain (n : Nat) :
    (ClearShared.drain n : ClearPc T).weigh = { holds := 1, drain := n } := by
  cases n <;> rfl

theorem stray_drain (n : Nat) : (ClearShared.drain n : ClearPc T).stray = false := by
  cases n <;> rfl

theorem length_of_taking {ms : List (Message T)} {idx : Nat}
    (h : MessageQueue.findHighestPriority ms = some idx) : idx < ms.length := by
  have hne : ms ≠ [] := by
    rintro rfl
    cases h
  obtain ⟨older, m, newer, heq, hfind, _⟩ := MessageQueue.findHighestPriority_spec hne
  obtain rfl : older.length = idx := Option.some.inj (hfind.symm.trans h)
  rw [heq, length_append, length_cons]
  omega

theorem receive_books {l' : MqShared T} {q q' : MqPc T} {b : MqAct} (hopen : s.mq.q.closed = false)
    (hstray : (mq q).stray = false) (hb : b ≠ .close)
    (h : s.mq.turn q b = some (l', q')) :
    Books s.view (mq q).weigh
        (ClearShared.view { s with
          mq := l'
          empties := s.empties + ClearShared.foundEmpty q q' })
        (mq q').weigh ∧
      l'.q.closed = false ∧ (mq q').stray = false := by
  revert h hstray hb
  fun_cases MqShared.turn s.mq q b <;> intro hstray hb h <;>
    simp only [Option.some.injEq, Prod.mk.injEq, reduceCtorEq] at h <;> obtain ⟨rfl, rfl⟩ := h
  case case1 =>
    rw [hopen]
    exact ⟨.other, rfl, rfl⟩
  case case2 | case8 | case17 => cases hstray
  case case4 hacq =>
    obtain ⟨seen, rfl, hseen, rfl⟩ := acquireTurn_got hacq
    have hpos : 0 < s.view.permits := by
      change 0 < s.mq.q.semItems
      rw [hseen]
      exact seen.2
    exact ⟨.takeItem hpos, hopen, rfl⟩
  case case7 =>
    rw [hopen]
    exact ⟨.other, rfl, rfl⟩
  case case10 hl => exact ⟨.lock (Bool.eq_false_iff.mpr hl) rfl, hopen, rfl⟩
  case case11 hfind =>
    have hnil : s.mq.q.queue = [] := by
      by_contra hne
      obtain ⟨_, _, _, _, hsome, _⟩ := MessageQueue.findHighestPriority_spec hne
      cases hfind.symm.trans hsome
    exact ⟨.empty (congrArg List.length hnil), hopen, rfl⟩
  case case12 idx hfind hget =>
    have hlt := length_of_taking hfind
    have hge := getElem?_eq_none_iff.mp hget
    omega
  case case13 idx hfind m hget =>
    have hlt := length_of_taking hfind
    have hlen : (s.mq.q.queue.eraseIdx idx).length = s.mq.q.queue.length - 1 :=
      length_eraseIdx_of_lt hlt
    have hremove := Books.remove (v := s.view) (show 0 < s.mq.q.queue.length by omega)
    refine ⟨?_, hopen, rfl⟩
    rw [show s.view.len - 1 = (s.mq.q.queue.eraseIdx idx).length from hlen.symm] at hremove
    exact hremove
  case case14 => exact ⟨.subCount, hopen, rfl⟩
  case case15 => exact ⟨.unlock rfl, hopen, rfl⟩
  case case16 => exact absurd rfl hb
  all_goals exact ⟨.other, hopen, rfl⟩

theorem permits_of_got {acq : AcqPc} {permits : Int}
    (h : acquireTurn false s.mq.q.semItems acq = .got permits) :
    0 < s.view.permits ∧ permits = s.view.permits - 1 := by
  obtain ⟨seen, _, hseen, rfl⟩ := acquireTurn_got h
  refine ⟨?_, rfl⟩
  change 0 < s.mq.q.semItems
  rw [hseen]
  exact seen.2

theorem ClearShared.turn_books (hopen : s.mq.q.closed = false) (hstray : p.stray = false)
    (hfits : p.releases = true → s.mq.q.semItems + 1 < 2 ^ 63) (h : s.turn p a = some (s', p')) :
    Books s.view p.weigh s'.view p'.weigh ∧ s'.mq.q.closed = false ∧ p'.stray = false := by
  revert h hstray hfits
  fun_cases ClearShared.turn s p a <;> intro hstray hfits h
  case case21 | case23 => cases h
  case case22 q b hb =>
    obtain ⟨⟨l', q'⟩, hturn, hr⟩ := Option.map_eq_some_iff.mp h
    obtain ⟨rfl, rfl⟩ := Prod.mk.inj hr
    exact receive_books hopen hstray hb hturn
  all_goals obtain ⟨rfl, rfl⟩ := Prod.mk.inj (Option.some.inj h)
  case case1 =>
    rw [hopen]
    exact ⟨.other, rfl, rfl⟩
  case case3 hfree => exact ⟨.lock (Bool.eq_false_iff.mpr hfree) rfl, hopen, rfl⟩
  case case4 m =>
    have hpush := Books.push (v := s.view)
    have hlen : s.view.len + 1 = (s.mq.q.queue ++ [m]).length := by simp [ClearShared.view]
    rw [hlen] at hpush
    exact ⟨hpush, hopen, rfl⟩
  case case5 => exact ⟨.unlock rfl, hopen, rfl⟩
  case case6 => exact ⟨.count, hopen, rfl⟩
  case case7 => exact ⟨.release (hfits rfl), hopen, rfl⟩
  case case8 =>
    rw [hopen]
    exact ⟨.other, rfl, rfl⟩
  case case9 => cases hstray
  case case11 hgot =>
    obtain ⟨hpos, rfl⟩ := permits_of_got hgot
    exact ⟨.takeItem hpos, hopen, rfl⟩
  case case15 hfree => exact ⟨.lock (Bool.eq_false_iff.mpr hfree) rfl, hopen, rfl⟩
  case case16 => exact ⟨.clear, hopen, rfl⟩
  case case17 n =>
    rw [weigh_drain]
    exact ⟨.zero n, hopen, stray_drain n⟩
  case case19 left _ _ hgot =>
    obtain ⟨hpos, rfl⟩ := permits_of_got hgot
    rw [weigh_drain]
    exact ⟨.drainGot left hpos, hopen, stray_drain left⟩
  case case20 left _ _ =>
    rw [weigh_drain]
    exact ⟨.drainFailed left, hopen, stray_drain left⟩
  all_goals exact ⟨.other, hopen, rfl⟩

end

/-! ## The invariant -/

open Weights

section

variable {ι T : Type*} [DecidableEq ι] [Fintype ι]

abbrev ClearConf (ι T : Type*) := Conf ι (ClearShared T) (ClearPc T)

def ClearShared.next : ClearConf ι T → ι × ClearAct T → Option (ClearConf ι T) :=
  Conf.next ClearShared.turn

def ClearShared.start : ClearConf ι T :=
  ⟨⟨⟨MessageQueue.new, false⟩, 0, 0, 0, 0⟩, fun _ => .mq .idle⟩

/-- A release does not overflow the word of `sem_items`. -/
def PermitFits (c : ClearConf ι T) (ia : ι × ClearAct T) : Prop :=
  (c.thread ia.1).releases = true → c.shared.mq.q.semItems + 1 < 2 ^ 63

instance (c : ClearConf ι T) (ia : ι × ClearAct T) : Decidable (PermitFits c ia) :=
  inferInstanceAs (Decidable (_ → _))

def ClearPc.sum (f : Weights → Nat) (t : ι → ClearPc T) : Nat := tally (fun p => f p.weigh) t

structure Balanced (v : QueueView) (t : ι → ClearPc T) : Prop where
  lock : ClearPc.sum Weights.holds t = v.locked.toNat
  permits : v.permits + ClearPc.sum Weights.owes t + ClearPc.sum Weights.permit t + v.empties =
    v.len + ClearPc.sum Weights.drain t + v.failed
  fits : 0 ≤ v.permits ∧ v.permits < 2 ^ 63
  between : ClearPc.sum Weights.uncounted t = v.between
  zeroed : 0 < ClearPc.sum Weights.zeroing t → v.len = 0
  counted : ClearPc.sum Weights.zeroing t = 0 → ∃ z : Int,
    (v.count : Int) = v.len - v.between + ClearPc.sum Weights.removed t + v.lost + 2 ^ 64 * z
  word : v.count < 2 ^ 64
  empties : v.empties ≤ v.failed

omit [DecidableEq ι] in
theorem sum_of_holder {t : ι → ClearPc T} {i : ι} {f : Weights → Nat} (hle : sum holds t ≤ 1)
    (hi : (t i).weigh.holds = 1) (hf : ∀ p : ClearPc T, p.weigh.holds = 0 → f p.weigh = 0) :
    sum f t = f (t i).weigh :=
  tally_of_alone (u := fun p : ClearPc T => p.weigh.holds) hle hi hf

theorem only_holder (p : ClearPc T) (h : p.weigh.holds = 0) :
    p.weigh.drain = 0 ∧ p.weigh.removed = 0 ∧ p.weigh.zeroing = 0 := by
  cases p with
  | mq q => cases q <;> first | exact ⟨rfl, rfl, rfl⟩ | cases h
  | zeroing n => cases h
  | draining left acq => cases h
  | _ => exact ⟨rfl, rfl, rfl⟩

variable {v v' : QueueView} {t : ι → ClearPc T} {i : ι} {p : ClearPc T}

theorem sum_update (f : Weights → Nat) (t : ι → ClearPc T) (i : ι) (p : ClearPc T) :
    sum f (update t i p) + f (t i).weigh = sum f t + f p.weigh :=
  tally_update (fun p : ClearPc T => f p.weigh) t i p

omit [DecidableEq ι] in
theorem Balanced.alone (h : Balanced v t) (hi : (t i).weigh.holds = 1) :
    sum drain t = (t i).weigh.drain ∧
    sum removed t = (t i).weigh.removed ∧
    sum zeroing t = (t i).weigh.zeroing := by
  have hle : sum holds t ≤ 1 := by
    rw [h.lock]
    exact Bool.toNat_le _
  exact ⟨sum_of_holder hle hi fun p hp => (only_holder p hp).1,
    sum_of_holder hle hi fun p hp => (only_holder p hp).2.1,
    sum_of_holder hle hi fun p hp => (only_holder p hp).2.2⟩

theorem Balanced.lock_step (h : Balanced v t) (hb : Books v (t i).weigh v' p.weigh) :
    sum holds (update t i p) = v'.locked.toNat := by
  have hu := sum_update holds t i p
  have hlock := h.lock
  generalize (t i).weigh = w at hb hu
  generalize p.weigh = w' at hb hu
  cases hb with
  | other => omega
  | lock hfree hw =>
    rw [hfree] at hlock
    simp only [Bool.toNat_false, Bool.toNat_true] at hu hlock ⊢
    omega
  | unlock hw =>
    have hbit := Bool.toNat_le v.locked
    simp only [Bool.toNat_false] at hu ⊢
    omega
  | _ =>
    simp only at hu ⊢
    omega

theorem Balanced.permits_step (h : Balanced v t) (hb : Books v (t i).weigh v' p.weigh) :
    v'.permits + sum owes (update t i p) + sum permit (update t i p) + v'.empties =
      v'.len + sum drain (update t i p) + v'.failed ∧
    (0 ≤ v'.permits ∧ v'.permits < 2 ^ 63) ∧
    v'.empties ≤ v'.failed := by
  have ho := sum_update owes t i p
  have hp := sum_update permit t i p
  have hd := sum_update drain t i p
  have hle : (t i).weigh.permit ≤ sum permit t :=
    le_tally (fun p : ClearPc T => p.weigh.permit) t i
  have halone := h.alone (i := i)
  obtain ⟨_, hbal, hfits, _, _, _, _, hempties⟩ := h
  generalize (t i).weigh = w at hb ho hp hd hle halone
  generalize p.weigh = w' at hb ho hp hd
  cases hb with
  | other => omega
  | release hfit =>
    rw [release_of_lt (by omega) (by omega)]
    simp only at ho hp hd ⊢
    omega
  | empty hlen =>
    have hdrain := (halone rfl).1
    simp only at ho hp hd hle hdrain ⊢
    omega
  | clear =>
    have hdrain := (halone rfl).1
    simp only at ho hp hd hdrain ⊢
    omega
  | _ =>
    simp only at ho hp hd ⊢
    omega

theorem Balanced.between_step (h : Balanced v t) (hb : Books v (t i).weigh v' p.weigh) :
    sum uncounted (update t i p) = v'.between := by
  have hu := sum_update uncounted t i p
  have hbetween := h.between
  generalize (t i).weigh = w at hb hu
  generalize p.weigh = w' at hb hu
  cases hb with
  | other => omega
  | _ =>
    simp only at hu ⊢
    omega

theorem Balanced.count_step (h : Balanced v t) (hb : Books v (t i).weigh v' p.weigh) :
    (0 < sum zeroing (update t i p) → v'.len = 0) ∧
    (sum zeroing (update t i p) = 0 →
       ∃ z : Int, (v'.count : Int) =
           v'.len - v'.between + sum removed (update t i p) + v'.lost + 2 ^ 64 * z) ∧
    v'.count < 2 ^ 64 := by
  have hu := sum_update uncounted t i p
  have hr := sum_update removed t i p
  have hz := sum_update zeroing t i p
  have hle : (t i).weigh.uncounted ≤ sum uncounted t :=
    le_tally (fun p : ClearPc T => p.weigh.uncounted) t i
  have halone := h.alone (i := i)
  have hbetween := h.between
  obtain ⟨_, _, _, _, hzeroed, hcounted, hword, _⟩ := h
  generalize (t i).weigh = w at hb hu hr hz hle halone
  generalize p.weigh = w' at hb hu hr hz
  cases hb with
  | other =>
    refine ⟨fun hpos => hzeroed (by omega), fun hzero => ?_, hword⟩
    obtain ⟨z, hcount⟩ := hcounted (by omega)
    exact ⟨z, by omega⟩
  | count =>
    simp only at hu hr hz hle ⊢
    refine ⟨fun hpos => hzeroed (by omega), fun hzero => ?_, Nat.mod_lt _ (by decide)⟩
    obtain ⟨z, hcount⟩ := hcounted (by omega)
    by_cases hwrap : v.count + 1 < 2 ^ 64
    · rw [incWord_of_lt hwrap]
      exact ⟨z, by omega⟩
    · have hinc : incWord v.count = 0 := by
        unfold incWord
        omega
      rw [hinc]
      exact ⟨z - 1, by omega⟩
  | subCount =>
    obtain ⟨_, _, hzero⟩ := halone rfl
    simp only at hu hr hz hzero ⊢
    obtain ⟨z, hcount⟩ := hcounted hzero
    refine ⟨fun hpos => by omega, fun _ => ?_, ?_⟩
    · by_cases hc : v.count = 0
      · rw [hc] at hcount ⊢
        exact ⟨z + 1, by simp only [decWord]; omega⟩
      · rw [decWord_of_pos (by omega)]
        exact ⟨z, by omega⟩
    · cases hc : v.count with
      | zero => decide
      | succ k =>
        change k < 2 ^ 64
        omega
  | zero k =>
    obtain ⟨_, hremoved, hone⟩ := halone rfl
    simp only at hu hr hz hremoved hone ⊢
    have hlen := hzeroed (by omega)
    exact ⟨fun _ => hlen, fun _ => ⟨0, by omega⟩, by decide⟩
  | clear =>
    simp only at hu hr hz ⊢
    exact ⟨fun _ => trivial, fun hzero => by omega, hword⟩
  | push | remove =>
    obtain ⟨_, _, hzero⟩ := halone rfl
    simp only at hu hr hz hzero ⊢
    obtain ⟨z, hcount⟩ := hcounted hzero
    exact ⟨fun hpos => by omega, fun _ => ⟨z, by omega⟩, hword⟩
  | _ =>
    simp only at hu hr hz ⊢
    refine ⟨fun hpos => hzeroed (by omega), fun hzero => ?_, hword⟩
    obtain ⟨z, hcount⟩ := hcounted (by omega)
    exact ⟨z, by omega⟩

theorem Balanced.step (h : Balanced v t) (hb : Books v (t i).weigh v' p.weigh) :
    Balanced v' (update t i p) := by
  obtain ⟨hpermits, hfits, hempties⟩ := h.permits_step hb
  obtain ⟨hzeroed, hcounted, hword⟩ := h.count_step hb
  exact ⟨h.lock_step hb, hpermits, hfits, h.between_step hb, hzeroed, hcounted, hword, hempties⟩

structure ClearInv (c : ClearConf ι T) : Prop where
  isOpen : c.shared.mq.q.closed = false
  places : ∀ i, (c.thread i).stray = false
  balanced : Balanced c.shared.view c.thread

omit [DecidableEq ι] in
theorem ClearInv.start : ClearInv (ClearShared.start : ClearConf ι T) := by
  have hzero : ∀ f : Weights → Nat, f {} = 0 →
      sum f (fun _ : ι => (.mq .idle : ClearPc T)) = 0 :=
    fun f hf => tally_eq_zero.mpr fun _ => hf
  refine ⟨rfl, fun _ => rfl, ?_⟩
  constructor
  case counted =>
    refine fun _ => ⟨0, ?_⟩
    simp [hzero, ClearShared.start, ClearShared.view, MessageQueue.new]
  all_goals simp [hzero, ClearShared.start, ClearShared.view, MessageQueue.new]

theorem ClearInv.next {c c' : ClearConf ι T} {ia : ι × ClearAct T} (h : ClearInv c)
    (hok : PermitFits c ia) (hc : ClearShared.next c ia = some c') : ClearInv c' := by
  obtain ⟨s', p', hturn, rfl⟩ := Conf.exists_turn hc
  obtain ⟨hbooks, hopen, hstray⟩ := ClearShared.turn_books h.isOpen (h.places ia.1) hok hturn
  refine ⟨hopen, fun j => ?_, h.balanced.step hbooks⟩
  by_cases hj : j = ia.1
  · subst hj
    simpa only [update_self] using hstray
  · simpa only [update_of_ne hj] using h.places j

/-! ## When no call is in progress -/

/-- No call is in progress. -/
def Quiet (c : ClearConf ι T) : Prop := ∀ i, (c.thread i).inCall = false

instance (c : ClearConf ι T) : Decidable (Quiet c) :=
  inferInstanceAs (Decidable (∀ i, (c.thread i).inCall = false))

/-- No call with a permit has found the deque empty, and the counter and the permits agree with the
deque. -/
structure Consistent (s : ClearShared T) : Prop where
  empties : s.empties = 0
  count : s.mq.q.count = s.mq.q.queue.length
  permits : s.mq.q.semItems = s.mq.q.queue.length

end

end Kerners.Ipc
