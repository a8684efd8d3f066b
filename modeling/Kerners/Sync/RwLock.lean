import Mathlib.Algebra.BigOperators.Group.Finset.Piecewise
import Kerners.Lib.Word
import Kerners.Lib.Threads

/-!
# The reader-writer lock (`sync/rwlock.rs`)

Model of `RwLock`. A turn is one access to `state` or to `writer_waiting`:
* `read` loads `writer_waiting`, then `state`, then exchanges `state` for `state + 1`, and begins
  again when the flag is set, a writer holds the lock or the exchange fails (it is a
  `compare_exchange_weak`); `try_read` does the same once and gives up;
* `write` sets `writer_waiting`, exchanges 0 for `WRITER` until that succeeds, and then clears
  `writer_waiting`; `try_write` is the exchange alone;
* `try_upgrade` exchanges 1 for `WRITER`; when that fails the caller keeps its `ReadGuard`;
* dropping a `ReadGuard` is a `fetch_sub`, dropping a `WriteGuard` a store of 0.

A thread of the model is a call with the guard it returns, so a kernel thread that holds several
guards is several of them.
-/

namespace Kerners.Sync

open Lib Function

structure RwWord where
  state : Int
  writerWaiting : Bool
  deriving DecidableEq

/-- `const WRITER: i32 = -1`. -/
def writer : Int := -1

/-- Where a call stands. `spin` tells `read` from `try_read`; `seen` is the local `state`. -/
inductive RwPc where
  | idle
  | readFlag
  | readState (spin : Bool)
  | readExchange (spin : Bool) (seen : Nat)
  | reading
  | writeExchange
  | writeClear
  | writing
  deriving DecidableEq

/-- The entry points, the drop of a guard, the next step of the call, and an exchange that fails
without cause. -/
inductive RwAct where
  | read
  | tryRead
  | write
  | tryWrite
  | tryUpgrade
  | drop
  | step
  | weakFail
  deriving DecidableEq

/-- Where `read` goes on and `try_read` gives up. -/
def RwPc.again (spin : Bool) : RwPc := if spin then .readFlag else .idle

def RwLock.turn (l : RwWord) : RwPc → RwAct → Option (RwWord × RwPc)
  | .idle, .read => some (l, if l.writerWaiting then .readFlag else .readState true)
  | .idle, .tryRead => some (l, if l.writerWaiting then .idle else .readState false)
  | .idle, .write => some ({ l with writerWaiting := true }, .writeExchange)
  | .idle, .tryWrite =>
    if l.state = 0 then some ({ l with state := writer }, .writing) else some (l, .idle)
  | .readFlag, .step => some (l, if l.writerWaiting then .readFlag else .readState true)
  | .readState spin, .step =>
    some (l, if l.state < 0 then .again spin else .readExchange spin l.state.toNat)
  | .readExchange spin seen, .step =>
    if l.state = seen then some ({ l with state := wrapI32 (seen + 1) }, .reading)
    else some (l, .again spin)
  | .readExchange true _, .weakFail => some (l, .readFlag)
  | .reading, .tryUpgrade =>
    if l.state = 1 then some ({ l with state := writer }, .writing) else some (l, .reading)
  | .reading, .drop => some ({ l with state := wrapI32 (l.state - 1) }, .idle)
  | .writeExchange, .step =>
    if l.state = 0 then some ({ l with state := writer }, .writeClear) else some (l, .writeExchange)
  | .writeExchange, .weakFail => some (l, .writeExchange)
  | .writeClear, .step => some ({ l with writerWaiting := false }, .writing)
  | .writing, .drop => some ({ l with state := 0 }, .idle)
  | _, _ => none

abbrev RwConf (ι : Type*) := Conf ι RwWord RwPc

variable {ι : Type*}

def RwLock.new : RwConf ι := ⟨⟨0, false⟩, fun _ => .idle⟩

/-- A live `WriteGuard`: the one that `write` is about to return counts from its exchange on. -/
def RwPc.HasWrite (p : RwPc) : Prop := p = .writeClear ∨ p = .writing

instance : DecidablePred RwPc.HasWrite := fun p =>
  inferInstanceAs (Decidable (p = .writeClear ∨ p = .writing))

/-- A live `ReadGuard` counts one. -/
def RwPc.reads (p : RwPc) : Nat := if p = .reading then 1 else 0

/-- A live `WriteGuard` counts one. -/
def RwPc.writes (p : RwPc) : Nat := if p.HasWrite then 1 else 0

theorem RwPc.writes_eq_one {p : RwPc} (h : p.HasWrite) : p.writes = 1 := if_pos h

/-! ## What a turn does to `state` -/

/-- The kinds of turns, by what they do to `state` and to the live guards. -/
inductive RwEffect (l : RwWord) (p : RwPc) : RwWord → RwPc → Prop
  | other {l' : RwWord} {p' : RwPc} (hs : l'.state = l.state) (hr : p'.reads = p.reads)
    (hw : p'.writes = p.writes) : RwEffect l p l' p'
  | readAcquire {l' : RwWord} {p' : RwPc} {seen : Nat} (hseen : l.state = seen)
    (hs : l'.state = wrapI32 (seen + 1)) (hr : p.reads = 0 ∧ p'.reads = 1)
    (hw : p.writes = 0 ∧ p'.writes = 0) : RwEffect l p l' p'
  | readRelease {l' : RwWord} {p' : RwPc} (hs : l'.state = wrapI32 (l.state - 1))
    (hr : p.reads = 1 ∧ p'.reads = 0) (hw : p.writes = 0 ∧ p'.writes = 0) : RwEffect l p l' p'
  | writeAcquire {l' : RwWord} {p' : RwPc} (hfree : l.state = 0) (hs : l'.state = writer)
    (hr : p.reads = 0 ∧ p'.reads = 0) (hw : p.writes = 0 ∧ p'.writes = 1) : RwEffect l p l' p'
  | upgrade {l' : RwWord} {p' : RwPc} (hone : l.state = 1) (hs : l'.state = writer)
    (hr : p.reads = 1 ∧ p'.reads = 0) (hw : p.writes = 0 ∧ p'.writes = 1) : RwEffect l p l' p'
  | writeRelease {l' : RwWord} {p' : RwPc} (hs : l'.state = 0) (hr : p.reads = 0 ∧ p'.reads = 0)
    (hw : p.writes = 1 ∧ p'.writes = 0) : RwEffect l p l' p'

open RwPc

theorem RwPc.again_reads (spin : Bool) : (again spin).reads = 0 := by
  cases spin <;> rfl

theorem RwPc.again_writes (spin : Bool) : (again spin).writes = 0 := by
  cases spin <;> rfl

theorem RwLock.turn_effect {l l' : RwWord} {p p' : RwPc} {a : RwAct}
    (h : RwLock.turn l p a = some (l', p')) : RwEffect l p l' p' := by
  revert h
  fun_cases RwLock.turn l p a <;> intro h <;>
    simp only [Option.some.injEq, Prod.mk.injEq, reduceCtorEq] at h <;> obtain ⟨rfl, rfl⟩ := h
  -- the entry points
  · split <;> exact .other rfl rfl rfl
  · split <;> exact .other rfl rfl rfl
  · exact .other rfl rfl rfl
  · exact .writeAcquire ‹_› rfl ⟨rfl, rfl⟩ ⟨rfl, rfl⟩
  · exact .other rfl rfl rfl
  -- `read` and `try_read`
  · split <;> exact .other rfl rfl rfl
  · split
    · exact .other rfl (again_reads _) (again_writes _)
    · exact .other rfl rfl rfl
  · next hseen => exact .readAcquire hseen (by simp only) ⟨rfl, rfl⟩ ⟨rfl, rfl⟩
  · exact .other rfl (again_reads _) (again_writes _)
  · exact .other rfl rfl rfl
  -- a `ReadGuard`
  · exact .upgrade ‹_› rfl ⟨rfl, rfl⟩ ⟨rfl, rfl⟩
  · exact .other rfl rfl rfl
  · exact .readRelease rfl ⟨rfl, rfl⟩ ⟨rfl, rfl⟩
  -- `write` and its guard
  · exact .writeAcquire ‹_› rfl ⟨rfl, rfl⟩ ⟨rfl, rfl⟩
  · exact .other rfl rfl rfl
  · exact .other rfl rfl rfl
  · exact .other rfl rfl rfl
  · exact .writeRelease rfl ⟨rfl, rfl⟩ ⟨rfl, rfl⟩

/-! ## Exclusion -/

section

variable [DecidableEq ι] [Fintype ι] {c c' : RwConf ι}

def RwLock.next : RwConf ι → ι × RwAct → Option (RwConf ι) := Conf.next RwLock.turn

/-- The live `ReadGuard`s. -/
def RwConf.readers (c : RwConf ι) : Finset ι := Finset.univ.filter fun i => c.thread i = .reading

omit [DecidableEq ι] in
theorem RwConf.card_readers (c : RwConf ι) : c.readers.card = tally reads c.thread :=
  Finset.card_filter _ _

/-- The step leads to fewer than `2^31 - 1` simultaneous readers. -/
def FewReaders (c : RwConf ι) (ia : ι × RwAct) : Prop :=
  ∀ c' ∈ RwLock.next c ia, (RwConf.readers c').card < 2 ^ 31 - 1

/-- What `state` says about the live guards. -/
structure RwExclusive (c : RwConf ι) : Prop where
  state : c.shared.state = tally RwPc.reads c.thread - tally RwPc.writes c.thread
  apart : tally RwPc.writes c.thread = 0 ∨
    tally RwPc.writes c.thread = 1 ∧ tally RwPc.reads c.thread = 0
  few : tally RwPc.reads c.thread < 2 ^ 31 - 1

omit [DecidableEq ι] in
theorem RwExclusive.new : RwExclusive (RwLock.new : RwConf ι) := by
  have hr : tally reads (RwLock.new : RwConf ι).thread = 0 := tally_eq_zero.mpr fun _ => rfl
  have hw : tally writes (RwLock.new : RwConf ι).thread = 0 := tally_eq_zero.mpr fun _ => rfl
  refine ⟨?_, .inl hw, ?_⟩
  · rw [hr, hw]
    rfl
  · omega

theorem RwExclusive.next {ia : ι × RwAct} (h : RwExclusive c) (hok : FewReaders c ia)
    (hn : RwLock.next c ia = some c') : RwExclusive c' := by
  have few : tally reads c'.thread < 2 ^ 31 - 1 := by
    rw [← RwConf.card_readers]
    exact hok c' hn
  obtain ⟨i, a⟩ := ia
  obtain ⟨l', p', ht, rfl⟩ := Conf.exists_turn hn
  have er := tally_update reads c.thread i p'
  have ew := tally_update writes c.thread i p'
  have lr := le_tally reads c.thread i
  have lw := le_tally writes c.thread i
  obtain ⟨state, apart, few0⟩ := h
  cases RwLock.turn_effect ht with
  | other hs hr hw => exact ⟨by simp only [hs]; omega, by simp only; omega, few⟩
  | readAcquire hseen hs hr hw =>
    -- a writer would have left `-1`, which is no count of readers
    refine ⟨?_, by simp only; omega, few⟩
    simp only [hs]
    rw [wrapI32_of_lt (by omega) (by omega)]
    omega
  | readRelease hs hr hw =>
    refine ⟨?_, by simp only; omega, few⟩
    simp only [hs]
    rw [wrapI32_of_lt (by omega) (by omega)]
    omega
  | writeAcquire hfree hs hr hw | upgrade hone hs hr hw | writeRelease hs hr hw =>
    refine ⟨?_, by simp only; omega, few⟩
    simp only [hs, writer]
    omega

/-- **Reader-writer exclusion**; a `try_upgrade` that fails changes nothing. -/
theorem RwLock.run_exclusive (hr : Reach (Fires RwLock.next FewReaders) RwLock.new c) :
    (∀ i, (c.thread i).HasWrite → ∀ j, ((c.thread j).HasWrite → j = i) ∧ c.thread j ≠ .reading) ∧
      (c.shared.state = -1 ↔ ∃ i, (c.thread i).HasWrite) ∧
      ((¬ ∃ i, (c.thread i).HasWrite) → c.shared.state = c.readers.card) ∧
      ∀ i, c.thread i = .reading → c.shared.state ≠ 1 → RwLock.next c (i, .tryUpgrade) = some c := by
  obtain ⟨state, apart, few⟩ : RwExclusive c :=
    Reach.invariant RwExclusive.new (fun h ⟨_, hok, hn⟩ => h.next hok hn) hr
  have hwrite : ∀ i, (c.thread i).HasWrite → 1 ≤ tally RwPc.writes c.thread := fun i hi => by
    have := le_tally RwPc.writes c.thread i
    rwa [RwPc.writes_eq_one hi] at this
  have hnone : (¬ ∃ i, (c.thread i).HasWrite) → tally RwPc.writes c.thread = 0 := fun h =>
    tally_eq_zero.mpr fun i => if_neg fun hi => h ⟨i, hi⟩
  refine ⟨?_, ?_, ?_, ?_⟩
  · intro i hi j
    have h1 := hwrite i hi
    constructor
    · intro hj
      by_contra hji
      have := add_le_tally RwPc.writes c.thread hji
      rw [RwPc.writes_eq_one hi, RwPc.writes_eq_one hj] at this
      omega
    · intro hj
      have := le_tally RwPc.reads c.thread j
      rw [hj, show RwPc.reading.reads = 1 from rfl] at this
      omega
  · constructor
    · intro hs
      by_contra h
      have := hnone h
      omega
    · rintro ⟨i, hi⟩
      have := hwrite i hi
      omega
  · intro h
    have := hnone h
    rw [RwConf.card_readers]
    omega
  · intro i hi hs
    have ht : RwLock.turn c.shared (c.thread i) .tryUpgrade = some (c.shared, .reading) := by
      rw [hi]
      exact if_neg hs
    simp only [RwLock.next, Conf.next, ht, Option.map_some, Option.some.injEq]
    rw [← hi, update_eq_self]

instance : ∀ (c : RwConf ι) (ia : ι × RwAct), Decidable (FewReaders c ia) := fun c ia =>
  inferInstanceAs (Decidable (∀ c' ∈ RwLock.next c ia, (RwConf.readers c').card < 2 ^ 31 - 1))

theorem RwLock.run_exclusive_upgrade :
    ∃ c : RwConf (Fin 2), c.thread 0 = .writing ∧ c.shared.state = -1 := by
  obtain ⟨c, hr, hc⟩ : ∃ c : RwConf (Fin 2), Reach (Fires RwLock.next FewReaders) RwLock.new c ∧
      c.thread 0 = .writing :=
    exists_reach [(0, .read), (1, .tryRead), (0, .step), (0, .step), (1, .step), (1, .step),
      (0, .tryUpgrade), (1, .drop), (0, .tryUpgrade)] (by decide)
  exact ⟨c, hc, (RwLock.run_exclusive hr).2.1.mpr ⟨0, .inr hc⟩⟩

end

/-! ## Writer preference

Beside the lock, a history: for each reader the `write` calls that were waiting at its first step
and have not acquired since. -/

variable [DecidableEq ι] [Fintype ι]

structure RwWatch (ι : Type*) where
  conf : RwConf ι
  behind : ι → Finset ι

/-- The `write` calls that have set `writer_waiting` and have not acquired yet. -/
def RwConf.waiting (c : RwConf ι) : Finset ι :=
  Finset.univ.filter fun i => c.thread i = .writeExchange

/-- A call to `read` or `try_read` begins behind those that wait; one that acquires leaves every
such set. -/
def RwWatch.record (x : RwWatch ι) (i : ι) (a : RwAct) (c' : RwConf ι) (j : ι) : Finset ι :=
  if j = i ∧ (a = .read ∨ a = .tryRead) then x.conf.waiting
  else if c'.thread i = .writeClear then (x.behind j).erase i else x.behind j

def RwWatch.next (x : RwWatch ι) (ia : ι × RwAct) : Option (RwWatch ι) :=
  (RwLock.next x.conf ia).map fun c' => ⟨c', x.record ia.1 ia.2 c'⟩

def RwWatch.new : RwWatch ι := ⟨RwLock.new, fun _ => ∅⟩

/-- The steps after which a reader has not been held up by `writer_waiting`. -/
def RwPc.Past : RwPc → Prop
  | .readState _ | .readExchange _ _ | .reading => True
  | _ => False

/-! The turns that matter here: a call waits once it has set `writer_waiting`, only `write` clears the
flag, a waiting call goes nowhere but to its guard, and a reader passes only a clear flag. -/

section

variable {l l' : RwWord} {p p' : RwPc} {a : RwAct}

theorem RwLock.turn_waits (h : RwLock.turn l p a = some (l', p')) (hp : p' = .writeExchange) :
    p = .writeExchange ∨ l'.writerWaiting = true := by
  revert h
  fun_cases RwLock.turn l p a <;> intro h <;> grind [again]

theorem RwLock.turn_flag (h : RwLock.turn l p a = some (l', p')) (hl : l.writerWaiting = true) :
    l'.writerWaiting = true ∨ p = .writeClear ∧ a = .step := by
  revert h
  fun_cases RwLock.turn l p a <;> intro h <;> grind

theorem RwLock.turn_acquires (h : RwLock.turn l p a = some (l', p')) (hp : p = .writeExchange) :
    p' = .writeExchange ∨ p' = .writeClear := by
  revert h
  fun_cases RwLock.turn l p a <;> intro h <;> grind

theorem RwLock.turn_past (h : RwLock.turn l p a = some (l', p')) (hp : p'.Past) :
    p.Past ∨ l.writerWaiting = false := by
  revert h
  fun_cases RwLock.turn l p a <;> intro h <;> grind [again, RwPc.Past]

theorem RwLock.turn_begins (h : RwLock.turn l p a = some (l', p')) (ha : a = .read ∨ a = .tryRead) :
    p = .idle := by
  revert h
  fun_cases RwLock.turn l p a <;> intro h <;> grind

end

omit [DecidableEq ι] in
theorem RwConf.mem_waiting {c : RwConf ι} {w : ι} :
    w ∈ c.waiting ↔ c.thread w = .writeExchange := by
  simp [RwConf.waiting]

theorem RwWatch.mem_record {x : RwWatch ι} {i r w : ι} {a : RwAct} {c' : RwConf ι}
    (h : w ∈ x.record i a c' r) :
    (r = i ∧ (a = .read ∨ a = .tryRead) ∧ w ∈ x.conf.waiting) ∨
    w ∈ x.behind r ∧ (c'.thread i = .writeClear → w ≠ i) := by
  unfold RwWatch.record at h
  split_ifs at h with hb hc
  · exact .inl ⟨hb.1, hb.2, h⟩
  · exact .inr ⟨Finset.mem_of_mem_erase h, fun _ => Finset.ne_of_mem_erase h⟩
  · exact .inr ⟨h, fun hc' => absurd hc' hc⟩

/-- `writer_waiting` is set while a call waits, and a reader behind a waiting call stands before
its test of the flag. -/
structure WritersFirst (x : RwWatch ι) : Prop where
  flag : ∀ j, x.conf.thread j = .writeExchange → x.conf.shared.writerWaiting = true
  behind : ∀ r, ∀ w ∈ x.behind r, x.conf.thread w = .writeExchange ∧ ¬ (x.conf.thread r).Past

/-- A `write` clears `writer_waiting` only when no other has set it and still waits. -/
def ClearsAlone (x : RwWatch ι) (ia : ι × RwAct) : Prop :=
  ia.2 = .step → x.conf.thread ia.1 = .writeClear → ∀ j, x.conf.thread j ≠ .writeExchange

omit [DecidableEq ι] [Fintype ι] in
theorem WritersFirst.new : WritersFirst (RwWatch.new : RwWatch ι) where
  flag := by
    intro j h
    cases h
  behind := by
    intro r w h
    cases h

theorem WritersFirst.next {x x' : RwWatch ι} {ia : ι × RwAct} (h : WritersFirst x)
    (hok : ClearsAlone x ia) (hn : x.next ia = some x') : WritersFirst x' := by
  obtain ⟨i, a⟩ := ia
  obtain ⟨c', hc, rfl⟩ := Option.map_eq_some_iff.mp hn
  constructor
  · refine Conf.forall_thread (Q := fun l _ p => p = .writeExchange → l.writerWaiting = true)
      h.flag hc ?_ ?_
    · intro l' p' ht hp
      rcases RwLock.turn_waits ht hp with hi | hl
      · rcases RwLock.turn_flag ht (h.flag i hi) with hl | ⟨hp, -⟩
        · exact hl
        · rw [hi] at hp
          cases hp
      · exact hl
    · intro l' p' ht j _ hj hw
      rcases RwLock.turn_flag ht (hj hw) with hl | ⟨hp, ha⟩
      · exact hl
      · exact absurd hw (hok ha hp j)
  · intro r w hw
    obtain ⟨l', p', ht, rfl⟩ := Conf.exists_turn hc
    have hpass : ∀ w, x.conf.thread w = .writeExchange → p'.Past → (x.conf.thread i).Past := by
      intro w hwx hpast
      rcases RwLock.turn_past ht hpast with hp | hl
      · exact hp
      · rw [h.flag w hwx] at hl
        cases hl
    rcases RwWatch.mem_record hw with ⟨rfl, ha, hwait⟩ | ⟨hmem, herase⟩
    · -- the reader begins: the flag that it tests is set
      have hwx := RwConf.mem_waiting.mp hwait
      have hidle := RwLock.turn_begins ht ha
      have hwr : w ≠ r := by
        rintro rfl
        rw [hwx] at hidle
        cases hidle
      refine ⟨?_, ?_⟩
      · simpa only [update_of_ne hwr] using hwx
      · simp only [update_self]
        intro hpast
        have hp := hpass w hwx hpast
        rwa [hidle] at hp
    · obtain ⟨hwx, hnot⟩ := h.behind r w hmem
      refine ⟨?_, ?_⟩
      · by_cases hwi : w = i
        · subst hwi
          simp only [update_self] at herase ⊢
          rcases RwLock.turn_acquires ht hwx with hp | hp
          · exact hp
          · exact absurd rfl (herase hp)
        · simpa only [update_of_ne hwi] using hwx
      · by_cases hri : r = i
        · subst hri
          simp only [update_self]
          exact fun hpast => hnot (hpass w hwx hpast)
        · simpa only [update_of_ne hri] using hnot

/-- **Writers go first**: a reader whose first step came while a `write` call waited has not
acquired as long as that call has not, in every run in which no call clears `writer_waiting` while
another waits. -/
theorem RwLock.run_writers_first {x : RwWatch ι}
    (hr : Reach (Fires RwWatch.next ClearsAlone) RwWatch.new x) :
    ∀ r, ∀ w ∈ x.behind r, x.conf.thread r ≠ .reading := by
  have h : WritersFirst x := Reach.invariant WritersFirst.new
    (fun h ⟨_, hok, hn⟩ => h.next hok hn) hr
  intro r w hw hread
  have hnot := (h.behind r w hw).2
  rw [hread] at hnot
  exact hnot trivial

instance : ∀ (x : RwWatch ι) (ia : ι × RwAct), Decidable (ClearsAlone x ia) := fun x ia =>
  inferInstanceAs (Decidable (ia.2 = .step → x.conf.thread ia.1 = .writeClear →
    ∀ j, x.conf.thread j ≠ .writeExchange))

theorem RwLock.run_writers_first_behind :
    ∃ x : RwWatch (Fin 3), x.behind 1 = {0} ∧ x.conf.thread 1 ≠ .reading := by
  obtain ⟨x, hr, hb⟩ : ∃ x : RwWatch (Fin 3), Reach (Fires RwWatch.next ClearsAlone)
      RwWatch.new x ∧ x.behind 1 = {0} :=
    exists_reach [(2, .read), (2, .step), (2, .step), (0, .write), (1, .read), (0, .step),
      (1, .step), (2, .drop), (1, .step)] (by decide)
  exact ⟨x, hb, RwLock.run_writers_first hr 1 0 (by rw [hb]; exact Finset.mem_singleton_self 0)⟩

/-- Calls 0 and 1 wait; 0 acquires, clears the flag and drops its guard; reader 2, which begins
only now, acquires before call 1. -/
theorem RwLock.reader_overtakes :
    ∃ x : RwWatch (Fin 3), Reach (Fires RwWatch.next fun _ _ => True) RwWatch.new x ∧
      1 ∈ x.behind 2 ∧ x.conf.thread 2 = .reading :=
  exists_reach [(0, .write), (1, .write), (0, .step), (0, .step), (0, .drop), (2, .read),
    (2, .step), (2, .step)] (by decide)

end Kerners.Sync
