import Mathlib.Data.Fin.VecNotation
import Kerners.Lib.Word
import Kerners.Lib.Threads

/-!
# The sequence lock (`sync/seqlock.rs`)

Model of `SeqLock` over data of `n` words. A turn is one access to `sequence` or to the word of the
`Spinlock` inside, or the copy or the store of **one** word of the data:
* `read` loads `sequence` (`read_begin`), copies the words one at a time, in any order, and loads
  `sequence` again (`read_validate`); it begins again when the first load is odd or the second
  differs;
* `write` takes the lock, increments `sequence` (`write_begin`), stores the words one at a time, in
  any order, increments `sequence` again (`write_end`) and releases the lock;
* `write_guard` takes the lock and increments `sequence`; while the guard lives its holder stores
  any words; dropping it increments `sequence`, then drops the lock's guard.

`sequence` is a `u64` and wraps. A history beside the lock counts the writes and keeps, for each
`read`, the values that the data had at the moments since its call at which no write was in
progress, that is with no thread between its `write_begin` and its `write_end`.
-/

namespace Kerners.Sync

open Lib Function

structure SeqWord (n : Nat) (W : Type*) where
  sequence : Nat
  writeLock : Bool
  data : Fin n → W

/-- Where a call stands. `job` is the value that `write` stores; `write_guard` has none. -/
inductive SeqPc (n : Nat) (W : Type*) where
  | idle
  | readBegin
  | copying (seq1 : Nat) (done : Fin n → Bool) (buf : Fin n → W)
  | returned (value : Fin n → W)
  | locking (job : Option (Fin n → W))
  | spinning (job : Option (Fin n → W))
  | locked (job : Option (Fin n → W))
  | storing (value : Fin n → W) (done : Fin n → Bool)
  | guard
  | unlocking

/-- The entry points, the copy and the store of one word, a store through a guard and its drop, the
next step of the call, an exchange that fails without cause, and the end of a `read`. -/
inductive SeqAct (n : Nat) (W : Type*) where
  | read
  | write (value : Fin n → W)
  | writeGuard
  | copy (k : Fin n)
  | store (k : Fin n)
  | poke (k : Fin n) (w : W)
  | drop
  | step
  | weakFail
  | leave

def SeqAct.isRead {n : Nat} {W : Type*} : SeqAct n W → Bool
  | .read => true
  | _ => false

/-- `u64::MAX`, which `read_begin` returns while a write is in progress. -/
def u64Max : Nat := 2 ^ 64 - 1

/-- What `read_begin` makes of the load. -/
def SeqLock.readBegin (seq : Nat) : Nat := if seq % 2 ≠ 0 then u64Max else seq

open SeqPc

section

variable {n : Nat} {W : Type*} [Inhabited W]

/-- One turn of a call; the buffer of a copy begins with no word of the data. -/
def SeqLock.turn (l : SeqWord n W) : SeqPc n W → SeqAct n W → Option (SeqWord n W × SeqPc n W)
  | .idle, .read => some (l, .readBegin)
  | .readBegin, .step =>
    if SeqLock.readBegin l.sequence = u64Max then some (l, .readBegin)
    else some (l, .copying (SeqLock.readBegin l.sequence) (fun _ => false) fun _ => default)
  | .copying seq1 done buf, .copy k =>
    some (l, .copying seq1 (update done k true) (update buf k (l.data k)))
  | .copying seq1 done buf, .step =>
    if ∀ k, done k = true then
      if l.sequence = seq1 then some (l, .returned buf) else some (l, .readBegin)
    else none
  | .returned _, .leave => some (l, .idle)
  | .idle, .write value => some (l, .locking (some value))
  | .idle, .writeGuard => some (l, .locking none)
  | .locking job, .step =>
    if l.writeLock then some (l, .spinning job)
    else some ({ l with writeLock := true }, .locked job)
  | .locking job, .weakFail => some (l, .spinning job)
  | .spinning job, .step => if l.writeLock then some (l, .spinning job) else some (l, .locking job)
  | .locked (some value), .step =>
    some ({ l with sequence := incWord l.sequence }, .storing value fun _ => false)
  | .locked none, .step => some ({ l with sequence := incWord l.sequence }, .guard)
  | .storing value done, .store k =>
    some ({ l with data := update l.data k (value k) }, .storing value (update done k true))
  | .storing _ done, .step =>
    if ∀ k, done k = true then some ({ l with sequence := incWord l.sequence }, .unlocking)
    else none
  | .guard, .poke k w => some ({ l with data := update l.data k w }, .guard)
  | .guard, .drop => some ({ l with sequence := incWord l.sequence }, .unlocking)
  | .unlocking, .step => some ({ l with writeLock := false }, .idle)
  | _, _ => none

def SeqPc.holds : SeqPc n W → Nat
  | .locked _ | .storing _ _ | .guard | .unlocking => 1
  | _ => 0

/-- A write in progress counts one: between `write_begin` and `write_end`. -/
def SeqPc.writing : SeqPc n W → Nat
  | .storing _ _ | .guard => 1
  | _ => 0

/-- A `read` that has not returned. -/
def SeqPc.inRead : SeqPc n W → Bool
  | .readBegin | .copying _ _ _ => true
  | _ => false

omit [Inhabited W] in
theorem SeqPc.writing_le_holds (p : SeqPc n W) : p.writing ≤ p.holds := by
  cases p <;> simp [writing, holds]

/-! ## What a turn does -/

inductive SeqEffect (l : SeqWord n W) (p : SeqPc n W) : SeqWord n W → SeqPc n W → Prop
  | other {p' : SeqPc n W} (hh : p'.holds = p.holds) (hw : p'.writing = p.writing) :
    SeqEffect l p l p'
  | acquire {p' : SeqPc n W} (hfree : l.writeLock = false) (hh : p.holds = 0 ∧ p'.holds = 1)
    (hw : p.writing = 0 ∧ p'.writing = 0) : SeqEffect l p { l with writeLock := true } p'
  | writeBegin {p' : SeqPc n W} (hh : p.holds = 1 ∧ p'.holds = 1)
    (hw : p.writing = 0 ∧ p'.writing = 1) :
    SeqEffect l p { l with sequence := incWord l.sequence } p'
  | modify {p' : SeqPc n W} (data : Fin n → W) (hh : p'.holds = p.holds)
    (hw : p.writing = 1 ∧ p'.writing = 1) : SeqEffect l p { l with data } p'
  | writeEnd {p' : SeqPc n W} (hh : p.holds = 1 ∧ p'.holds = 1)
    (hw : p.writing = 1 ∧ p'.writing = 0) :
    SeqEffect l p { l with sequence := incWord l.sequence } p'
  | release {p' : SeqPc n W} (hh : p.holds = 1 ∧ p'.holds = 0)
    (hw : p.writing = 0 ∧ p'.writing = 0) : SeqEffect l p { l with writeLock := false } p'

/-- What a turn does to a `read`. -/
inductive SeqReadEffect (l : SeqWord n W) : SeqPc n W → SeqWord n W → SeqPc n W → Prop
  | sample (heven : l.sequence % 2 = 0) :
    SeqReadEffect l .readBegin l (.copying l.sequence (fun _ => false) fun _ => default)
  | copy (seq1 : Nat) (done : Fin n → Bool) (buf : Fin n → W) (k : Fin n) :
    SeqReadEffect l (.copying seq1 done buf) l
      (.copying seq1 (update done k true) (update buf k (l.data k)))
  | accept (seq1 : Nat) (done : Fin n → Bool) (buf : Fin n → W) (hdone : ∀ k, done k = true)
    (hseq : l.sequence = seq1) : SeqReadEffect l (.copying seq1 done buf) l (.returned buf)
  | other {p p' : SeqPc n W} {l' : SeqWord n W} (hc : ∀ s d b, p' ≠ .copying s d b)
    (hv : ∀ v, p' ≠ .returned v) : SeqReadEffect l p l' p'

variable {l l' : SeqWord n W} {p p' : SeqPc n W} {a : SeqAct n W}

theorem SeqLock.turn_effect (h : SeqLock.turn l p a = some (l', p')) : SeqEffect l p l' p' := by
  revert h
  fun_cases SeqLock.turn l p a <;> intro h <;>
    simp only [Option.some.injEq, Prod.mk.injEq, reduceCtorEq] at h <;> obtain ⟨rfl, rfl⟩ := h
  all_goals first
    | exact .other rfl rfl
    | exact .writeBegin ⟨rfl, rfl⟩ ⟨rfl, rfl⟩
    | exact .modify _ rfl ⟨rfl, rfl⟩
    | exact .writeEnd ⟨rfl, rfl⟩ ⟨rfl, rfl⟩
    | exact .release ⟨rfl, rfl⟩ ⟨rfl, rfl⟩
    | exact .acquire (by simpa using ‹¬ l.writeLock = true›) ⟨rfl, rfl⟩ ⟨rfl, rfl⟩

theorem SeqLock.readBegin_eq {seq : Nat} (h : SeqLock.readBegin seq ≠ u64Max) :
    seq % 2 = 0 ∧ SeqLock.readBegin seq = seq := by
  unfold SeqLock.readBegin at h ⊢
  split_ifs at h ⊢ with hodd
  · exact absurd rfl h
  · exact ⟨by omega, rfl⟩

theorem SeqLock.turn_read (h : SeqLock.turn l p a = some (l', p')) : SeqReadEffect l p l' p' := by
  revert h
  fun_cases SeqLock.turn l p a <;> intro h <;>
    simp only [Option.some.injEq, Prod.mk.injEq, reduceCtorEq] at h <;> obtain ⟨rfl, rfl⟩ := h
  case case3 hb =>
    obtain ⟨heven, hseq⟩ := SeqLock.readBegin_eq hb
    rw [hseq]
    exact .sample heven
  case case4 => exact .copy _ _ _ _
  case case5 hdone => exact .accept _ _ _ hdone rfl
  all_goals exact .other (fun _ _ _ => nofun) fun _ => nofun

theorem SeqLock.turn_called (h : SeqLock.turn l p a = some (l', p')) (ha : a.isRead = true) :
    p = .idle := by
  revert h
  fun_cases SeqLock.turn l p a <;> intro h <;> grind [SeqAct.isRead]

theorem SeqLock.turn_inRead (h : SeqLock.turn l p a = some (l', p')) (hp : p'.inRead = true) :
    p.inRead = true ∨ a = .read := by
  revert h
  fun_cases SeqLock.turn l p a <;> intro h <;> grind [inRead]

end

/-! ## The history of a run -/

variable {ι : Type*} [DecidableEq ι] [Fintype ι] {n : Nat} {W : Type*} [Inhabited W]

abbrev SeqConf (ι : Type*) (n : Nat) (W : Type*) := Conf ι (SeqWord n W) (SeqPc n W)

def SeqLock.next : SeqConf ι n W → ι × SeqAct n W → Option (SeqConf ι n W) := Conf.next SeqLock.turn

def SeqConf.Quiet (c : SeqConf ι n W) : Prop := ∀ i, (c.thread i).writing = 0

instance : DecidablePred (SeqConf.Quiet : SeqConf ι n W → Prop) := fun c =>
  inferInstanceAs (Decidable (∀ i, (c.thread i).writing = 0))

/-- The calls with their history: how many writes have begun, how many of them before the call of
each `read`, and the values that the data had, with no write in progress, since that call and
before its return. -/
structure SeqWatch (ι : Type*) (n : Nat) (W : Type*) where
  conf : SeqConf ι n W
  writes : Nat
  since : ι → Nat
  stable : ι → List (Fin n → W)

/-- The values recorded for `j` when call `i` does `a` and `c'` is reached. -/
def SeqWatch.record (x : SeqWatch ι n W) (i : ι) (a : SeqAct n W) (c' : SeqConf ι n W) (j : ι) :
    List (Fin n → W) :=
  let old := if j = i ∧ a.isRead = true then [] else x.stable j
  if (c'.thread j).inRead = true ∧ SeqConf.Quiet c' then c'.shared.data :: old else old

def SeqWatch.next (x : SeqWatch ι n W) (ia : ι × SeqAct n W) : Option (SeqWatch ι n W) :=
  (SeqLock.next x.conf ia).map fun c' =>
    { conf := c'
      writes := x.writes + ((c'.thread ia.1).writing - (x.conf.thread ia.1).writing)
      since := fun j => if j = ia.1 ∧ ia.2.isRead = true then x.writes else x.since j
      stable := x.record ia.1 ia.2 c' }

def SeqWatch.new (data : Fin n → W) : SeqWatch ι n W :=
  ⟨⟨⟨0, false, data⟩, fun _ => .idle⟩, 0, fun _ => 0, fun _ => []⟩

/-- A step that begins a write leaves every `read` in progress with fewer than `2^63` of them. -/
def FewWrites (x : SeqWatch ι n W) (ia : ι × SeqAct n W) : Prop :=
  ∀ x' ∈ x.next ia, ∀ j, (x'.conf.thread j).inRead = true → x'.writes < x'.since j + 2 ^ 63

/-- What the samples and the copies of call `j` still mean: `v` was the data at the sample, and as
long as no write has begun it is the data now. -/
def Snapshot (x : SeqWatch ι n W) (j : ι) (seq1 : Nat) (done : Fin n → Bool) (buf : Fin n → W) :
    Prop :=
  ∃ m v, x.since j ≤ m ∧ m ≤ x.writes ∧ seq1 = 2 * m % 2 ^ 64 ∧ v ∈ x.stable j ∧
    (x.writes = m → SeqConf.Quiet x.conf ∧ x.conf.shared.data = v ∧ ∀ k, done k = true → buf k = v k)

/-- The lock is held by one thread at most, `sequence` counts the begins and the ends of writes,
and every `read` has a snapshot or a recorded value. -/
structure SeqInv (x : SeqWatch ι n W) : Prop where
  lock : tally SeqPc.holds x.conf.thread = x.conf.shared.writeLock.toNat
  sequence : x.conf.shared.sequence =
    (2 * x.writes - tally SeqPc.writing x.conf.thread) % 2 ^ 64
  began : tally SeqPc.writing x.conf.thread ≤ x.writes
  since : ∀ j, (x.conf.thread j).inRead = true →
    x.since j ≤ x.writes ∧ x.writes < x.since j + 2 ^ 63
  copying : ∀ j s d b, x.conf.thread j = .copying s d b → Snapshot x j s d b
  returned : ∀ j v, x.conf.thread j = .returned v → v ∈ x.stable j

variable {x x' : SeqWatch ι n W} {i : ι} {a : SeqAct n W}

/-- A step of the lock with its history, by what the invariant needs of it. -/
structure SeqMove (x : SeqWatch ι n W) (i : ι) (a : SeqAct n W) (l' : SeqWord n W) (p' : SeqPc n W)
    (x' : SeqWatch ι n W) : Prop where
  turn : SeqLock.turn x.conf.shared (x.conf.thread i) a = some (l', p')
  conf : x'.conf = ⟨l', update x.conf.thread i p'⟩
  writes : x'.writes = x.writes + (p'.writing - (x.conf.thread i).writing)
  called : a.isRead = true → x'.since i = x.writes
  since : ∀ j, (j = i → a.isRead = false) → x'.since j = x.since j
  stable : ∀ j, (j = i → a.isRead = false) → ∀ v ∈ x.stable j, v ∈ x'.stable j
  recorded : ∀ j, (x'.conf.thread j).inRead = true → SeqConf.Quiet x'.conf →
    x'.conf.shared.data ∈ x'.stable j

theorem SeqWatch.exists_move (hn : x.next (i, a) = some x') : ∃ l' p', SeqMove x i a l' p' x' := by
  obtain ⟨c', hc, rfl⟩ := Option.map_eq_some_iff.mp hn
  obtain ⟨l', p', ht, rfl⟩ := Conf.exists_turn hc
  refine ⟨l', p', ht, rfl, ?_, ?_, ?_, ?_, ?_⟩
  · simp only [update_self]
  · intro ha
    exact if_pos ⟨rfl, ha⟩
  · intro j hj
    exact if_neg fun h => by simp [hj h.1] at h
  · intro j hj v hv
    have hold : ¬ (j = i ∧ a.isRead = true) := fun h => by simp [hj h.1] at h
    simp only [SeqWatch.record, if_neg hold]
    split
    · exact List.mem_cons_of_mem _ hv
    · exact hv
  · intro j hj hq
    simp only [SeqWatch.record]
    rw [if_pos ⟨hj, hq⟩]
    exact List.mem_cons_self

omit [DecidableEq ι] [Inhabited W] in
theorem SeqInv.quiet_of_even (h : SeqInv x) (heven : x.conf.shared.sequence % 2 = 0) :
    SeqConf.Quiet x.conf := by
  have hle := tally_mono writing_le_holds x.conf.thread
  have hbit : x.conf.shared.writeLock.toNat ≤ 1 := Bool.toNat_le _
  have hlock := h.lock
  have hseq := h.sequence
  have hbegan := h.began
  exact tally_eq_zero.mp (by omega)

omit [DecidableEq ι] [Inhabited W] in
theorem SeqInv.no_write_since (h : SeqInv x) {m j : Nat}
    (hseq : x.conf.shared.sequence = 2 * m % 2 ^ 64) (hm : m ≤ x.writes) (hj : j ≤ m)
    (hlt : x.writes < j + 2 ^ 63) : x.writes = m := by
  have hquiet := tally_eq_zero.mpr (h.quiet_of_even (by omega))
  have heq := h.sequence
  rw [hquiet] at heq
  omega

namespace SeqMove

variable {l' : SeqWord n W} {p' : SeqPc n W} (m : SeqMove x i a l' p' x') {j : ι} {s : Nat}
  {d : Fin n → Bool} {b : Fin n → W}

include m

omit [Fintype ι] in
theorem thread_self : x'.conf.thread i = p' := by
  rw [m.conf]
  exact update_self ..

omit [Fintype ι] in
theorem thread_of_ne (hj : j ≠ i) : x'.conf.thread j = x.conf.thread j := by
  rw [m.conf]
  exact update_of_ne hj ..

omit [Fintype ι] in
theorem shared : x'.conf.shared = l' := by
  rw [m.conf]

omit [Fintype ι] in
theorem quiet (hq : SeqConf.Quiet x.conf) (hw : x'.writes = x.writes) :
    SeqConf.Quiet x'.conf ∧ x'.conf.shared.data = x.conf.shared.data := by
  have hi := hq i
  have hwr := m.writes
  have hp' : p'.writing = 0 := by omega
  constructor
  · intro j
    by_cases hj : j = i
    · rw [hj, m.thread_self, hp']
    · rw [m.thread_of_ne hj]
      exact hq j
  · rw [m.shared]
    cases SeqLock.turn_effect m.turn with
    | other | acquire | writeBegin | writeEnd | release => rfl
    | modify data hh hw => omega

theorem counters (h : SeqInv x) :
    tally holds x'.conf.thread = x'.conf.shared.writeLock.toNat ∧
    x'.conf.shared.sequence = (2 * x'.writes - tally writing x'.conf.thread) % 2 ^ 64 ∧
    tally writing x'.conf.thread ≤ x'.writes := by
  obtain ⟨hlock, hseq, hbegan, -, -, -⟩ := h
  have eh := tally_update holds x.conf.thread i p'
  have ew := tally_update writing x.conf.thread i p'
  have hle := tally_mono writing_le_holds x'.conf.thread
  have hw := m.writes
  have hbit : x.conf.shared.writeLock.toNat ≤ 1 := Bool.toNat_le _
  rw [m.conf] at hle ⊢
  simp only at hle ⊢
  cases SeqLock.turn_effect m.turn with
  | other hh hp =>
    refine ⟨by omega, ?_, by omega⟩
    rw [hseq]
    congr 1
    omega
  | modify data hh hp =>
    refine ⟨by simp only; omega, ?_, by omega⟩
    simp only [hseq]
    congr 1
    omega
  | acquire hfree hh hp =>
    rw [hfree] at hlock
    refine ⟨?_, ?_, by omega⟩
    · simp only [Bool.toNat_true, Bool.toNat_false] at hlock ⊢
      omega
    · simp only [hseq]
      congr 1
      omega
  | writeBegin hh hp | writeEnd hh hp =>
    -- the lock makes this the only write in progress
    refine ⟨by simp only; omega, ?_, by omega⟩
    simp only [hseq, incWord]
    omega
  | release hh hp =>
    refine ⟨?_, ?_, by omega⟩
    · simp only [Bool.toNat_false]
      omega
    · simp only [hseq]
      congr 1
      omega

theorem sinces (h : SeqInv x)
    (few : ∀ j, (x'.conf.thread j).inRead = true → x'.writes < x'.since j + 2 ^ 63) (j : ι)
    (hj : (x'.conf.thread j).inRead = true) :
    x'.since j ≤ x'.writes ∧ x'.writes < x'.since j + 2 ^ 63 := by
  refine ⟨?_, few j hj⟩
  have hw := m.writes
  by_cases hji : j = i
  · subst hji
    rw [m.thread_self] at hj
    cases ha : a.isRead with
    | true =>
      rw [m.called ha]
      omega
    | false =>
      rw [m.since j fun _ => ha]
      rcases SeqLock.turn_inRead m.turn hj with hp | rfl
      · have := (h.since j hp).1
        omega
      · cases ha
  · rw [m.since j fun hi => absurd hi hji]
    rw [m.thread_of_ne hji] at hj
    have := (h.since j hj).1
    omega

omit [Fintype ι] in
theorem snapshot (ha : j = i → a.isRead = false) (h : Snapshot x j s d b) :
    Snapshot x' j s d b := by
  obtain ⟨k, v, hk, hle, hs, hv, hsame⟩ := h
  have hw := m.writes
  refine ⟨k, v, ?_, by omega, hs, m.stable j ha v hv, ?_⟩
  · rw [m.since j ha]
    exact hk
  · intro heq
    obtain ⟨hq, hd, hb⟩ := hsame (by omega)
    obtain ⟨hq', hd'⟩ := m.quiet hq (by omega)
    exact ⟨hq', hd'.trans hd, hb⟩

omit [Fintype ι] in
theorem isRead_of_ne_idle (hp : x.conf.thread i ≠ .idle) : a.isRead = false := by
  cases ha : a.isRead with
  | false => rfl
  | true => exact absurd (SeqLock.turn_called m.turn ha) hp

theorem copied (h : SeqInv x) (hp' : p' = .copying s d b) : Snapshot x' i s d b := by
  have hr := SeqLock.turn_read m.turn
  generalize hp : x.conf.thread i = p at hr
  cases hr with
  | sample heven =>
    obtain ⟨rfl, rfl, rfl⟩ := copying.inj hp'
    have hq := h.quiet_of_even heven
    have hw : x'.writes = x.writes := by
      have := m.writes
      rw [hp] at this
      simpa [writing] using this
    obtain ⟨hq', hd'⟩ := m.quiet hq hw
    have ha := m.isRead_of_ne_idle (by rw [hp]; nofun)
    refine ⟨x.writes, x'.conf.shared.data, ?_, hw.ge, ?_, ?_, fun _ => ⟨hq', rfl, ?_⟩⟩
    · rw [m.since i fun _ => ha]
      exact (h.since i (by rw [hp]; rfl)).1
    · rw [h.sequence, tally_eq_zero.mpr hq, Nat.sub_zero]
    · exact m.recorded i (by rw [m.thread_self]; rfl) hq'
    · intro k hk
      cases hk
  | copy seq1 done buf k =>
    obtain ⟨rfl, rfl, rfl⟩ := copying.inj hp'
    have ha := m.isRead_of_ne_idle (by rw [hp]; nofun)
    obtain ⟨k0, v, hk, hle, hs, hv, hsame⟩ := m.snapshot (fun _ => ha) (h.copying i _ _ _ hp)
    refine ⟨k0, v, hk, hle, hs, hv, fun heq => ?_⟩
    obtain ⟨hq, hd, hb⟩ := hsame heq
    refine ⟨hq, hd, fun j hj => ?_⟩
    by_cases hjk : j = k
    · subst hjk
      rw [update_self, ← hd, m.shared]
    · rw [update_of_ne hjk]
      rw [update_of_ne hjk] at hj
      exact hb j hj
  | accept seq1 done buf hdone hseq => cases hp'
  | other hc hv => exact absurd hp' (hc s d b)

theorem accepted (h : SeqInv x) {v : Fin n → W} (hp' : p' = .returned v) : v ∈ x'.stable i := by
  have hr := SeqLock.turn_read m.turn
  generalize hp : x.conf.thread i = p at hr
  cases hr with
  | sample heven => cases hp'
  | copy seq1 done buf k => cases hp'
  | accept seq1 done buf hdone hseq =>
    obtain rfl := returned.inj hp'
    obtain ⟨k, u, hk, hle, hs, hu, hsame⟩ := h.copying i _ _ _ hp
    have heq : x.writes = k :=
      h.no_write_since (hseq.trans hs) hle hk (h.since i (by rw [hp]; rfl)).2
    obtain ⟨-, -, hb⟩ := hsame heq
    have hbuf : buf = u := by
      funext j
      exact hb j (hdone j)
    rw [hbuf]
    exact m.stable i (fun _ => m.isRead_of_ne_idle (by rw [hp]; nofun)) u hu
  | other hc hv => exact absurd hp' (hv v)

end SeqMove

theorem SeqInv.next {ia : ι × SeqAct n W} (h : SeqInv x) (hok : FewWrites x ia)
    (hn : x.next ia = some x') : SeqInv x' := by
  obtain ⟨i, a⟩ := ia
  obtain ⟨l', p', m⟩ := SeqWatch.exists_move hn
  obtain ⟨hlock, hseq, hbegan⟩ := m.counters h
  refine ⟨hlock, hseq, hbegan, m.sinces h (hok x' hn), ?_, ?_⟩
  · intro j s d b hj
    by_cases hji : j = i
    · subst hji
      rw [m.thread_self] at hj
      exact m.copied h hj
    · rw [m.thread_of_ne hji] at hj
      exact m.snapshot (fun hi => absurd hi hji) (h.copying j s d b hj)
  · intro j v hj
    by_cases hji : j = i
    · subst hji
      rw [m.thread_self] at hj
      exact m.accepted h hj
    · rw [m.thread_of_ne hji] at hj
      exact m.stable j (fun hi => absurd hi hji) v (h.returned j v hj)

omit [DecidableEq ι] [Inhabited W] in
theorem SeqInv.new (data : Fin n → W) : SeqInv (SeqWatch.new data : SeqWatch ι n W) where
  lock := tally_eq_zero.mpr fun _ => rfl
  sequence := by
    have : tally writing (SeqWatch.new data : SeqWatch ι n W).conf.thread = 0 :=
      tally_eq_zero.mpr fun _ => rfl
    rw [this]
    rfl
  began := (tally_eq_zero.mpr fun _ => rfl).le
  since := nofun
  copying := nofun
  returned := nofun

/-- **No torn value**: what `read` returns is a value that the data had between the call and the
return, at a moment with no write in progress. -/
theorem SeqLock.run_untorn {data : Fin n → W}
    (hr : Reach (Fires SeqWatch.next FewWrites) (SeqWatch.new data) x) :
    ∀ i v, x.conf.thread i = .returned v → v ∈ x.stable i := by
  have h : SeqInv x := Reach.invariant (SeqInv.new data) (fun h ⟨_, hok, hn⟩ => h.next hok hn) hr
  exact h.returned

instance : ∀ (x : SeqWatch ι n W) (ia : ι × SeqAct n W), Decidable (FewWrites x ia) := fun x ia =>
  inferInstanceAs (Decidable (∀ x' ∈ x.next ia, ∀ j, (x'.conf.thread j).inRead = true →
    x'.writes < x'.since j + 2 ^ 63))

/-- What a finished `read` returned. -/
def SeqPc.result : SeqPc n W → Option (Fin n → W)
  | .returned v => some v
  | _ => none

omit [Inhabited W] in
theorem SeqPc.eq_returned {p : SeqPc n W} {v : Fin n → W} (h : p.result = some v) :
    p = .returned v := by
  cases p with
  | returned u => exact congrArg _ (Option.some.inj h)
  | _ => cases h

theorem SeqLock.run_untorn_retry :
    ∃ x : SeqWatch (Fin 2) 2 Nat, x.conf.thread 0 = .returned ![3, 4] ∧ ![3, 4] ∈ x.stable 0 := by
  obtain ⟨x, hr, hx⟩ : ∃ x : SeqWatch (Fin 2) 2 Nat, Reach (Fires SeqWatch.next FewWrites)
      (SeqWatch.new ![1, 2]) x ∧ (x.conf.thread 0).result = some ![3, 4] :=
    exists_reach [(0, .read), (0, .step), (0, .copy 1), (1, .write ![3, 4]), (1, .step), (1, .step),
      (1, .store 0), (0, .copy 0), (0, .step), (1, .store 1), (0, .step), (1, .step), (1, .step),
      (0, .step), (0, .copy 0), (0, .copy 1), (0, .step)] (by decide)
  have hv := SeqPc.eq_returned hx
  exact ⟨x, hv, SeqLock.run_untorn hr 0 ![3, 4] hv⟩

end Kerners.Sync
