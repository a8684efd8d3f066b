import Mathlib.Data.Fintype.Card
import Kerners.Lib.Machine

/-!
# The ticket lock (`sync/spinlock.rs`)

Model of `TicketLock` with any number of threads, each of which locks and drops again and again. A
turn is one access to a counter: the `fetch_add` that draws a ticket, one test of `now_serving`, or
the `fetch_add` of the drop. Both counters are words of 32 bits and wrap.

Two histories, `taken` and `granted`, list the threads in the order of their `fetch_add` on
`next_ticket` and of their successful tests.

The threads that wait or hold form a queue (`Served`): the one at index `k` has the ticket
`now_serving + k`, as a word, and since the queue is shorter than `2 ^ 32` these are all different.
-/

namespace Kerners.Sync

open Lib Function

variable {ι : Type*}

inductive TicketPc where
  | idle
  | waiting (ticket : Nat)
  | holding
  deriving DecidableEq

structure TicketLock (ι : Type*) where
  nextTicket : Nat
  nowServing : Nat
  pc : ι → TicketPc
  taken : List ι
  granted : List ι

namespace TicketLock

def new : TicketLock ι := ⟨0, 0, fun _ => .idle, [], []⟩

/-- The next turn of thread `i`. -/
def turn [DecidableEq ι] (s : TicketLock ι) (i : ι) : TicketLock ι :=
  match s.pc i with
  -- `lock`
  | .idle =>
    { s with
      nextTicket := (s.nextTicket + 1) % 2 ^ 32
      pc := update s.pc i (.waiting s.nextTicket)
      taken := s.taken ++ [i] }
  | .waiting ticket =>
    if s.nowServing ≠ ticket then s
    else { s with pc := update s.pc i .holding, granted := s.granted ++ [i] }
  -- `drop`
  | .holding =>
    { s with nowServing := (s.nowServing + 1) % 2 ^ 32, pc := update s.pc i .idle }

/-- Fewer than `2 ^ 32` threads wait or hold. -/
def Few (s : TicketLock ι) : Prop :=
  ∀ l : List ι, l.Nodup → (∀ i ∈ l, s.pc i ≠ .idle) → l.length < 2 ^ 32

def Step [DecidableEq ι] (s s' : TicketLock ι) : Prop := ∃ i, s' = s.turn i ∧ s'.Few

/-- The threads in `past` are done; those in `queue` wait or hold, in this order, and the first `held`
of them hold. -/
structure Served (s : TicketLock ι) (past queue : List ι) (held : Nat) : Prop where
  taken : s.taken = past ++ queue
  granted : s.granted = past ++ queue.take held
  nodup : queue.Nodup
  idle : ∀ i, s.pc i = .idle ↔ i ∉ queue
  place : ∀ k i, queue[k]? = some i →
    s.pc i = if k < held then .holding else .waiting ((s.nowServing + k) % 2 ^ 32)
  next : s.nextTicket = (s.nowServing + queue.length) % 2 ^ 32
  serving : s.nowServing < 2 ^ 32
  held_le : held ≤ 1 ∧ held ≤ queue.length
  few : queue.length < 2 ^ 32

namespace Served

variable {s : TicketLock ι} {past queue : List ι} {held : Nat} {i : ι}

theorem new : Served (new : TicketLock ι) [] [] 0 := by
  refine ⟨rfl, rfl, .nil, fun i => ?_, nofun, rfl, ?_, by simp, by simp⟩
  · simp [TicketLock.new]
  · simp [TicketLock.new]

theorem index (h : Served s past queue held) (hi : s.pc i ≠ .idle) :
    ∃ k, queue[k]? = some i ∧ k < queue.length ∧
      s.pc i = if k < held then .holding else .waiting ((s.nowServing + k) % 2 ^ 32) := by
  have hmem : i ∈ queue := by
    by_contra hn
    exact hi ((h.idle i).mpr hn)
  obtain ⟨k, hk⟩ := List.mem_iff_getElem?.mp hmem
  exact ⟨k, hk, (List.getElem?_eq_some_iff.mp hk).1, h.place k i hk⟩

theorem of_serving (h : Served s past queue held) (hi : s.pc i = .waiting s.nowServing) :
    ∃ rest, queue = i :: rest ∧ held = 0 := by
  obtain ⟨k, hk, hlt, hp⟩ := h.index (by rw [hi]; nofun)
  rw [hi] at hp
  split at hp
  case isTrue => cases hp
  case isFalse hheld =>
    have hserving := h.serving
    have hfew := h.few
    rw [TicketPc.waiting.injEq] at hp
    obtain rfl : k = 0 := by omega
    rw [← List.head?_eq_getElem?] at hk
    obtain ⟨rest, rfl⟩ := List.head?_eq_some_iff.mp hk
    exact ⟨rest, rfl, by omega⟩

theorem of_holding (h : Served s past queue held) (hi : s.pc i = .holding) :
    ∃ rest, queue = i :: rest ∧ held = 1 := by
  obtain ⟨k, hk, hlt, hp⟩ := h.index (by rw [hi]; nofun)
  rw [hi] at hp
  split at hp
  case isTrue hheld =>
    have hle := h.held_le
    obtain rfl : k = 0 := by omega
    rw [← List.head?_eq_getElem?] at hk
    obtain ⟨rest, rfl⟩ := List.head?_eq_some_iff.mp hk
    exact ⟨rest, rfl, by omega⟩
  case isFalse => cases hp

variable [DecidableEq ι]

theorem draw (h : Served s past queue held) (hi : s.pc i = .idle) (hfew : (s.turn i).Few) :
    Served (s.turn i) past (queue ++ [i]) held := by
  have hn : i ∉ queue := (h.idle i).mp hi
  have hne : ∀ j ∈ queue, j ≠ i := fun j hj heq => hn (heq ▸ hj)
  have hnodup : (queue ++ [i]).Nodup := List.nodup_append.mpr
    ⟨h.nodup, List.pairwise_singleton _ i, fun a ha b hb => List.mem_singleton.mp hb ▸ hne a ha⟩
  have hidle : ∀ j, (s.turn i).pc j = .idle ↔ j ∉ queue ++ [i] := by
    intro j
    by_cases hj : j = i
    · subst hj
      simp [turn, hi]
    · simp [turn, hi, hj, h.idle j]
  have hlen := hfew _ hnodup fun j hj hj' => (hidle j).mp hj' hj
  obtain ⟨hone, hheld⟩ := h.held_le
  have hheld' : held ≤ (queue ++ [i]).length := by
    rw [List.length_append]
    omega
  refine ⟨?_, ?_, hnodup, hidle, fun k j hk => ?_, ?_, ?_, ⟨hone, hheld'⟩, hlen⟩ <;>
    simp only [turn, hi]
  · rw [h.taken, List.append_assoc]
  · rw [h.granted, List.take_append_of_le_length hheld]
  · rcases Nat.lt_trichotomy k queue.length with hlt | rfl | hgt
    · rw [List.getElem?_append_left hlt] at hk
      rw [update_of_ne (hne j (List.mem_of_getElem? hk))]
      exact h.place k j hk
    · rw [List.getElem?_concat_length] at hk
      obtain rfl := Option.some.inj hk
      rw [update_self, h.next, if_neg (by omega)]
    · rw [List.getElem?_eq_none (by rw [List.length_append]; exact hgt)] at hk
      cases hk
  · rw [h.next, List.length_append, List.length_singleton]
    omega
  · exact h.serving

theorem grant (h : Served s past queue held) (hi : s.pc i = .waiting s.nowServing) :
    Served (s.turn i) past queue 1 := by
  obtain ⟨rest, rfl, rfl⟩ := h.of_serving hi
  have hn := (List.nodup_cons.mp h.nodup).1
  have hturn : s.turn i = { s with pc := update s.pc i .holding, granted := s.granted ++ [i] } := by
    simp only [turn, hi, ne_eq, not_true_eq_false, if_false]
  rw [hturn]
  refine ⟨h.taken, ?_, h.nodup, fun j => ?_, fun k j hk => ?_, h.next, h.serving, ?_, h.few⟩
  · simp [h.granted]
  · by_cases hj : j = i
    · subst hj
      simp
    · simp [hj, h.idle j]
  · cases k with
    | zero =>
      obtain rfl : i = j := Option.some.inj hk
      simp
    | succ k =>
      have hj : j ≠ i := fun heq => hn (heq ▸ List.mem_of_getElem? hk)
      simpa [hj] using h.place (k + 1) j hk
  · simp

theorem release (h : Served s past queue held) (hi : s.pc i = .holding) :
    Served (s.turn i) (past ++ [i]) queue.tail 0 := by
  obtain ⟨rest, rfl, rfl⟩ := h.of_holding hi
  obtain ⟨hn, hnodup⟩ := List.nodup_cons.mp h.nodup
  have hfew := h.few
  have hnext := h.next
  rw [List.length_cons] at hfew hnext
  refine ⟨?_, ?_, hnodup, fun j => ?_, fun k j hk => ?_, ?_, ?_, by simp, Nat.lt_of_succ_lt hfew⟩ <;>
    simp only [turn, hi, List.tail_cons]
  · simp [h.taken]
  · simp [h.granted]
  · by_cases hj : j = i
    · subst hj
      simp [hn]
    · simp [hj, h.idle j]
  · have hj : j ≠ i := fun heq => hn (heq ▸ List.mem_of_getElem? hk)
    rw [update_of_ne hj, h.place (k + 1) j hk, if_neg (by omega), if_neg (by omega),
      TicketPc.waiting.injEq]
    omega
  · omega
  · exact Nat.mod_lt _ (by decide)

theorem step {s' : TicketLock ι} (h : ∃ past queue held, Served s past queue held)
    (hs : Step s s') : ∃ past queue held, Served s' past queue held := by
  obtain ⟨past, queue, held, h⟩ := h
  obtain ⟨i, rfl, hfew⟩ := hs
  cases hp : s.pc i with
  | idle => exact ⟨_, _, _, h.draw hp hfew⟩
  | holding => exact ⟨_, _, _, h.release hp⟩
  | waiting ticket =>
    by_cases ht : s.nowServing = ticket
    · subst ht
      exact ⟨_, _, _, h.grant hp⟩
    · have hturn : s.turn i = s := by simp only [turn, hp, ne_eq, ht, not_false_eq_true, if_true]
      rw [hturn]
      exact ⟨_, _, _, h⟩

end Served

variable [DecidableEq ι]

/-- **The lock is exclusive and fair**, however often the counters have wrapped. -/
theorem fair {s : TicketLock ι} (h : Reach Step new s) :
    (∀ i j, s.pc i = .holding → s.pc j = .holding → i = j) ∧ s.granted <+: s.taken ∧
      ((∀ i, s.pc i ≠ .holding) → (∃ i ticket, s.pc i = .waiting ticket) →
        ∃! i, (∃ ticket, s.pc i = .waiting ticket) ∧ (s.turn i).pc i = .holding) := by
  obtain ⟨past, queue, held, hq⟩ := Reach.invariant (P := fun s : TicketLock ι =>
    ∃ past queue held, Served s past queue held) ⟨_, _, _, Served.new⟩ Served.step h
  refine ⟨fun i j hi hj => ?_, ?_, fun hno ⟨i, ticket, hi⟩ => ?_⟩
  · obtain ⟨rest, rfl, -⟩ := hq.of_holding hi
    obtain ⟨rest', heq, -⟩ := hq.of_holding hj
    exact (List.cons.inj heq).1
  · rw [hq.granted, hq.taken, List.prefix_append_right_inj]
    exact List.take_prefix held queue
  · have hserved : ∀ j, (∃ ticket, s.pc j = .waiting ticket) → (s.turn j).pc j = .holding →
        s.pc j = .waiting s.nowServing := by
      rintro j ⟨t, hj⟩ hturn
      by_cases ht : s.nowServing = t
      · rw [hj, ht]
      · simp only [turn, hj, ne_eq, ht, not_false_eq_true, if_true] at hturn
        cases hturn
    obtain ⟨k, hk, hlt, -⟩ := hq.index (i := i) (by rw [hi]; nofun)
    obtain ⟨first, rest, rfl⟩ := List.exists_cons_of_length_pos (Nat.zero_lt_of_lt hlt)
    have hfirst := hq.place 0 first rfl
    split at hfirst
    case isTrue => exact absurd hfirst (hno first)
    case isFalse =>
      rw [Nat.add_zero, Nat.mod_eq_of_lt hq.serving] at hfirst
      refine ⟨first, ⟨⟨_, hfirst⟩, by simp [turn, hfirst]⟩, fun j ⟨hj, hturn⟩ => ?_⟩
      obtain ⟨rest', heq, -⟩ := hq.of_serving (hserved j hj hturn)
      exact (List.cons.inj heq).1.symm

theorem reach_bool (l : List Bool) {s : TicketLock Bool} (h : Reach Step new s) :
    Reach Step new (l.foldl turn s) := by
  induction l generalizing s with
  | nil => exact h
  | cons i l ih =>
    refine ih (h.tail ⟨i, rfl, fun l hl _ => ?_⟩)
    have hle : l.length ≤ 2 := hl.length_le_card
    omega

theorem fair_two : ∃ s : TicketLock Bool, s.pc true = .holding ∧ s.granted = [false, true] ∧
    s.granted <+: s.taken :=
  ⟨_, rfl, rfl, (fair (reach_bool [false, true, false, false, true] Reach.refl)).2.1⟩

end TicketLock

end Kerners.Sync
