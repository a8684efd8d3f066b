import Mathlib.Data.Fintype.Pi
import Kerners.Lib.Word
import Kerners.Lib.Threads

/-!
# Sleepable RCU (`sync/rcu.rs`)

Model of `SrcuDomain`. A turn is one access to an atomic of the domain:
* `read_lock` loads `epoch` and then counts itself in the counter of that epoch's parity, whose index
  it returns; `read_unlock` takes the count back;
* `synchronize` adds one to `epoch` and then loads the counter of the old parity until it is zero.

A thread of the model is one read-side section or one call of `synchronize`; the turn `synchronize`
is the call itself, before its first access.
-/

namespace Kerners.Sync

open Lib Function

/-- The atomics of `SrcuDomain`. -/
structure SrcuDomain where
  counters : Fin 2 → Nat
  epoch : Nat
  deriving DecidableEq

/-- `epoch & 1`. -/
def SrcuDomain.idx (d : SrcuDomain) : Fin 2 := Fin.ofNat 2 d.epoch

/-- Where a section or a call stands. `idx` is the index that `read_lock` returns and the old one of
`synchronize`. -/
inductive SrcuPc where
  | start
  | locking (idx : Fin 2)
  | locked (idx : Fin 2)
  | unlocked
  | syncing
  | waiting (idx : Fin 2)
  | synced
  deriving DecidableEq

inductive SrcuAct where
  | readLock
  | readUnlock
  | synchronize
  | step
  deriving DecidableEq

def Srcu.turn (d : SrcuDomain) : SrcuPc → SrcuAct → Option (SrcuDomain × SrcuPc)
  | .start, .readLock => some (d, .locking d.idx)
  | .locking idx, .step =>
    some ({ d with counters := update d.counters idx (incWord (d.counters idx)) },
      .locked idx)
  | .locked idx, .readUnlock =>
    some ({ d with counters := update d.counters idx (decWord (d.counters idx)) },
      .unlocked)
  | .start, .synchronize => some (d, .syncing)
  | .syncing, .step => some ({ d with epoch := incWord d.epoch }, .waiting d.idx)
  | .waiting idx, .step => some (d, if 0 < d.counters idx then .waiting idx else .synced)
  | _, _ => none

abbrev SrcuConf (ι : Type*) := Conf ι SrcuDomain SrcuPc

variable {ι : Type*}

/-- `SrcuDomain::new`, with no call on it. -/
def Srcu.new : SrcuConf ι := ⟨⟨fun _ => 0, 0⟩, fun _ => .start⟩

def SrcuPc.reads (k : Fin 2) (p : SrcuPc) : Nat := if p = .locked k then 1 else 0

variable [DecidableEq ι]

open Srcu

def Srcu.next : SrcuConf ι → ι × SrcuAct → Option (SrcuConf ι) := Conf.next Srcu.turn

/-- A counter does not overflow, and the counter that a `synchronize` is not going to wait for is zero
when it adds to `epoch`. -/
structure SrcuOk (c : SrcuConf ι) (ia : ι × SrcuAct) : Prop where
  few : ∀ k, c.thread ia.1 = .locking k → ia.2 = .step → c.shared.counters k + 1 < 2 ^ 64
  flips : c.thread ia.1 = .syncing → ia.2 = .step → ∀ k, k ≠ c.shared.idx → c.shared.counters k = 0

open SrcuPc

variable [Fintype ι] {c c' : SrcuConf ι}

def SrcuCounts (c : SrcuConf ι) : Prop :=
  ∀ k, c.shared.counters k = tally (SrcuPc.reads k) c.thread

variable {j : ι} {k : Fin 2}

omit [DecidableEq ι] in
theorem SrcuCounts.pos (h : SrcuCounts c) (hj : c.thread j = .locked k) :
    0 < c.shared.counters k := by
  have hle := le_tally (reads k) c.thread j
  rw [hj, reads, if_pos rfl] at hle
  rw [h k]
  exact hle

omit [DecidableEq ι] in
theorem SrcuCounts.new : SrcuCounts (Srcu.new : SrcuConf ι) :=
  fun _ => (tally_eq_zero.mpr fun _ => rfl).symm

inductive SrcuEffect (d : SrcuDomain) (p : SrcuPc) : SrcuDomain → SrcuPc → Prop
  | locks {d' : SrcuDomain} {k : Fin 2} (hp : p = .locking k)
    (hd : d'.counters = update d.counters k (incWord (d.counters k))) :
    SrcuEffect d p d' (.locked k)
  | unlocks {d' : SrcuDomain} {k : Fin 2} (hp : p = .locked k)
    (hd : d'.counters = update d.counters k (decWord (d.counters k))) :
    SrcuEffect d p d' .unlocked
  | other {d' : SrcuDomain} {p' : SrcuPc} (hd : d'.counters = d.counters)
    (hp : ∀ k, p.reads k = 0 ∧ p'.reads k = 0) : SrcuEffect d p d' p'

variable {d d' : SrcuDomain} {p p' : SrcuPc} {a : SrcuAct}

theorem Srcu.turn_effect (h : turn d p a = some (d', p')) :
    SrcuEffect d p d' p' ∧ (∀ k, p = .locking k → a = .step) := by
  revert h
  fun_cases turn d p a <;> intro h <;>
    simp only [Option.some.injEq, Prod.mk.injEq, reduceCtorEq] at h <;> obtain ⟨rfl, rfl⟩ := h
  · exact ⟨.other rfl fun _ => ⟨rfl, rfl⟩, nofun⟩
  · exact ⟨.locks rfl rfl, fun _ _ => rfl⟩
  · exact ⟨.unlocks rfl rfl, nofun⟩
  · exact ⟨.other rfl fun _ => ⟨rfl, rfl⟩, nofun⟩
  · exact ⟨.other rfl fun _ => ⟨rfl, rfl⟩, nofun⟩
  · refine ⟨.other rfl fun _ => ⟨rfl, ?_⟩, nofun⟩
    split <;> rfl

theorem SrcuPc.reads_locked (k idx : Fin 2) :
    (locked idx).reads k = if k = idx then 1 else 0 := by
  simp [reads, eq_comm]

theorem SrcuCounts.next {ia : ι × SrcuAct} (h : SrcuCounts c) (hok : SrcuOk c ia)
    (hn : next c ia = some c') : SrcuCounts c' := by
  obtain ⟨i, a⟩ := ia
  obtain ⟨d', p', ht, rfl⟩ := Conf.exists_turn hn
  intro k
  have hup := tally_update (reads k) c.thread i p'
  have hle := le_tally (reads k) c.thread i
  have hk := h k
  obtain ⟨heff, hstep⟩ := turn_effect ht
  cases heff with
  | @locks idx hp hd =>
    have hfew := hok.few idx hp (hstep idx hp)
    rw [hp, reads_locked] at hup
    have h0 : (locking idx).reads k = 0 := rfl
    simp only [hd]
    by_cases hidx : k = idx
    · subst hidx
      rw [update_self, incWord_of_lt hfew]
      rw [if_pos rfl] at hup
      omega
    · rw [update_of_ne hidx]
      rw [if_neg hidx] at hup
      omega
  | @unlocks idx hp hd =>
    rw [hp, reads_locked] at hup hle
    have h0 : unlocked.reads k = 0 := rfl
    simp only [hd]
    by_cases hidx : k = idx
    · subst hidx
      rw [if_pos rfl] at hup hle
      rw [update_self, decWord_of_pos (by omega)]
      omega
    · rw [update_of_ne hidx]
      rw [if_neg hidx] at hup
      omega
  | other hd hp =>
    have := hp k
    simp only [hd]
    omega

/-! ## A grace period -/

/-- The reader `j` is covered by the call `i`: it is in the counter that `i` waits for, or gone when
`i` has returned. -/
structure Covered (i j : ι) (c : SrcuConf ι) : Prop where
  reader : (∃ k, c.thread j = .locked k) ∨ c.thread j = .unlocked
  caller : c.thread i = .syncing ∨ (∃ k, c.thread i = .waiting k) ∨ c.thread i = .synced
  waits : ∀ k, c.thread i = .waiting k → ∀ k', c.thread j = .locked k' → k' = k
  done : c.thread i = .synced → c.thread j = .unlocked

theorem Srcu.turn_locked (h : turn d (.locked k) a = some (d', p')) : p' = .unlocked := by
  cases a <;> simp_all [turn]

theorem Srcu.turn_unlocked : turn d .unlocked a = none := by
  cases a <;> rfl

theorem Srcu.turn_synced : turn d .synced a = none := by
  cases a <;> rfl

theorem Srcu.turn_syncing (h : turn d .syncing a = some (d', p')) :
    a = .step ∧ p' = .waiting d.idx := by
  cases a <;> simp_all [turn]

theorem Srcu.turn_waiting (h : turn d (.waiting k) a = some (d', p')) :
    p' = .waiting k ∨ p' = .synced ∧ d.counters k = 0 := by
  cases a <;> simp only [turn, reduceCtorEq, Option.some.injEq, Prod.mk.injEq] at h
  obtain ⟨-, rfl⟩ := h
  split_ifs with hpos
  · exact .inl rfl
  · exact .inr ⟨rfl, by omega⟩

/-- **A turn keeps the reader covered.** The call looks at the right counter because the other one was
zero when it began to wait, and a counter it finds at zero has no reader. -/
theorem Covered.next {i : ι} {ma : ι × SrcuAct} (h : Covered i j c) (hcounts : SrcuCounts c)
    (hok : SrcuOk c ma) (hn : next c ma = some c') : Covered i j c' := by
  have hij : i ≠ j := by
    rintro rfl
    rcases h.reader with ⟨k, hk⟩ | hk <;> rcases h.caller with hc | ⟨_, hc⟩ | hc <;>
      (rw [hk] at hc; cases hc)
  obtain ⟨m, a⟩ := ma
  obtain ⟨d', p', ht, rfl⟩ := Conf.exists_turn hn
  by_cases hmj : m = j
  · -- the reader leaves
    subst hmj
    have hi : update c.thread m p' i = c.thread i := update_of_ne hij _ _
    have hleft : p' = .unlocked := by
      rcases h.reader with ⟨k, hk⟩ | hk
      · rw [hk] at ht
        exact turn_locked ht
      · rw [hk, turn_unlocked] at ht
        cases ht
    have hm : update c.thread m p' m = .unlocked := by rw [update_self, hleft]
    exact ⟨.inr hm, by simpa only [hi] using h.caller, fun _ _ _ hk' => by
      simp only [hm, reduceCtorEq] at hk', fun _ => hm⟩
  by_cases hmi : m = i
  · subst hmi
    have hj : update c.thread m p' j = c.thread j :=
      update_of_ne (Ne.symm hmj) _ _
    have hm : update c.thread m p' m = p' := update_self _ _ _
    rcases h.caller with hc | ⟨k, hc⟩ | hc
    · -- the call adds to `epoch` and begins to wait
      rw [hc] at ht
      obtain ⟨ha, hp⟩ := turn_syncing ht
      refine ⟨by simpa only [hj] using h.reader, .inr (.inl ⟨_, hm.trans hp⟩), ?_, ?_⟩
      · intro k hk k' hk'
        have hpk : waiting c.shared.idx = .waiting k := hp.symm.trans (hm.symm.trans hk)
        obtain rfl := waiting.inj hpk
        simp only [hj] at hk'
        by_contra hne
        have hzero := hok.flips hc ha k' hne
        have hpos := hcounts.pos hk'
        omega
      · intro hsync
        cases (hm.trans hp).symm.trans hsync
    · -- the call waits
      rw [hc] at ht
      rcases turn_waiting ht with hp | ⟨hp, hzero⟩
      · refine ⟨by simpa only [hj] using h.reader, .inr (.inl ⟨_, hm.trans hp⟩), ?_, ?_⟩
        · intro k1 hk1 k' hk'
          have hpk : waiting k = .waiting k1 := hp.symm.trans (hm.symm.trans hk1)
          obtain rfl := waiting.inj hpk
          simp only [hj] at hk'
          exact h.waits k hc k' hk'
        · intro hsync
          cases (hm.trans hp).symm.trans hsync
      · have hgone : c.thread j = .unlocked := by
          rcases h.reader with ⟨k', hk'⟩ | hk'
          · have hpos := hcounts.pos hk'
            rw [h.waits k hc k' hk'] at hpos
            omega
          · exact hk'
        have hj' : update c.thread m p' j = .unlocked := hj.trans hgone
        exact ⟨.inr hj', .inr (.inr (hm.trans hp)), fun _ _ _ hk' => by
          simp only [hj', reduceCtorEq] at hk', fun _ => hj'⟩
    · rw [hc, turn_synced] at ht
      cases ht
  · have hi : update c.thread m p' i = c.thread i := update_of_ne (Ne.symm hmi) _ _
    have hj : update c.thread m p' j = c.thread j := update_of_ne (Ne.symm hmj) _ _
    exact ⟨by simpa only [hj] using h.reader, by simpa only [hi] using h.caller,
      by simpa only [hi, hj] using h.waits, by simpa only [hi, hj] using h.done⟩

theorem Srcu.turn_synchronize (h : turn d p .synchronize = some (d', p')) :
    p = .start ∧ p' = .syncing := by
  cases p <;> simp_all [turn]

/-- **A grace period covers the readers that were there before it.** -/
theorem Srcu.run_covers {c0 c1 c2 : SrcuConf ι} {i j : ι} {k : Fin 2}
    (h₀ : Reach (Fires Srcu.next SrcuOk) Srcu.new c0) (hj : c0.thread j = .locked k)
    (hcall : Srcu.next c0 (i, .synchronize) = some c1) (h₁ : Reach (Fires Srcu.next SrcuOk) c1 c2)
    (hi : c2.thread i = .synced) : c2.thread j = .unlocked := by
  have hstep : ∀ {c c' : SrcuConf ι}, SrcuCounts c → Fires Srcu.next SrcuOk c c' → SrcuCounts c' :=
    fun h ⟨_, hok, hn⟩ => h.next hok hn
  have hquiet : SrcuOk c0 (i, .synchronize) := by
    refine ⟨fun _ _ h => ?_, fun _ h => ?_⟩ <;> cases h
  have hcounts : SrcuCounts c1 :=
    (Reach.invariant SrcuCounts.new hstep h₀).next hquiet hcall
  have hcovered : Covered i j c1 := by
    obtain ⟨d', p', ht, rfl⟩ := Conf.exists_turn hcall
    obtain ⟨hstart, rfl⟩ := Srcu.turn_synchronize ht
    have hne : j ≠ i := by
      rintro rfl
      rw [hj] at hstart
      cases hstart
    have hj' : update c0.thread i .syncing j = .locked k := by
      rw [update_of_ne hne, hj]
    have hi' : update c0.thread i .syncing i = .syncing := update_self _ _ _
    refine ⟨.inl ⟨k, hj'⟩, .inl hi', fun _ hw => ?_, fun hs => ?_⟩
    · cases hi'.symm.trans hw
    · cases hi'.symm.trans hs
  have hlast : Covered i j c2 :=
    Reach.later (P := SrcuCounts) hstep (fun hc h ⟨_, hok, hn⟩ => h.next hc hok hn) hcounts
      hcovered h₁
  exact hlast.done hi

instance (c : SrcuConf ι) (ia : ι × SrcuAct) : Decidable (SrcuOk c ia) :=
  decidable_of_iff
    ((∀ k, c.thread ia.1 = .locking k → ia.2 = .step → c.shared.counters k + 1 < 2 ^ 64) ∧ (c.thread
      ia.1 = .syncing → ia.2 = .step → ∀ k, k ≠ c.shared.idx → c.shared.counters k = 0))
    ⟨fun h => ⟨h.1, h.2⟩, fun h => ⟨h.few, h.flips⟩⟩

/-- The steps of `acts` after the call of `synchronize` by `i` lead to its return; what the reader `j`
is then. -/
def SrcuConf.afterSync (ok : SrcuConf ι → ι × SrcuAct → Prop) [∀ c ia, Decidable (ok c ia)]
    (c0 : SrcuConf ι) (i j : ι) (acts : List (ι × SrcuAct)) : Option SrcuPc :=
  (Srcu.next c0 (i, .synchronize)).bind fun c1 =>
    (play Srcu.next ok c1 acts).bind fun c2 =>
      if c2.thread i = .synced then some (c2.thread j) else none

omit [Fintype ι] in
theorem SrcuConf.exists_of_afterSync {ok : SrcuConf ι → ι × SrcuAct → Prop}
    [∀ c ia, Decidable (ok c ia)] {c0 : SrcuConf ι} {i : ι} {acts : List (ι × SrcuAct)}
    (h : c0.afterSync ok i j acts = some p) :
    ∃ c1 c2, next c0 (i, .synchronize) = some c1 ∧
      Reach (Fires next ok) c1 c2 ∧
      c2.thread i = .synced ∧
      c2.thread j = p := by
  obtain ⟨c1, h1, h⟩ := Option.bind_eq_some_iff.mp h
  obtain ⟨c2, h2, h⟩ := Option.bind_eq_some_iff.mp h
  split_ifs at h with hsync
  exact ⟨c1, c2, h1, play_reach h2, hsync, Option.some.inj h⟩

theorem Srcu.run_covers_one : ∃ c0 c2 : SrcuConf (Fin 2), c0.thread 0 = .locked 0 ∧ c2.thread 1 =
    .synced ∧ c2.thread 0 = .unlocked := by
  obtain ⟨c0, h₀, hj, hsync⟩ : ∃ c0 : SrcuConf (Fin 2),
      Reach (Fires Srcu.next SrcuOk) Srcu.new c0 ∧ c0.thread 0 = .locked 0 ∧
        (c0.afterSync SrcuOk 1 0 [(1, .step), (1, .step), (0, .readUnlock), (1, .step)]).isSome :=
    exists_reach [(0, .readLock), (0, .step)] (by decide)
  obtain ⟨p, hp⟩ := Option.isSome_iff_exists.mp hsync
  obtain ⟨c1, c2, hcall, h₁, hi, -⟩ := SrcuConf.exists_of_afterSync hp
  exact ⟨c0, c2, hj, hi, Srcu.run_covers h₀ hj hcall h₁ hi⟩

/-- **A late reader is missed.** It loads `epoch` before a first grace period and counts itself after
it, in the counter that the second one does not look at. -/
theorem Srcu.reader_not_covered :
    ∃ c0 c1 c2 : SrcuConf (Fin 3), Reach (Fires Srcu.next fun _ _ => True) Srcu.new c0 ∧
      c0.thread 0 = .locked 0 ∧ Srcu.next c0 (2, .synchronize) = some c1 ∧
      Reach (Fires Srcu.next fun _ _ => True) c1 c2 ∧ c2.thread 2 = .synced ∧
      c2.thread 0 = .locked 0 := by
  obtain ⟨c0, h₀, hj, hsync⟩ : ∃ c0 : SrcuConf (Fin 3),
      Reach (Fires Srcu.next fun _ _ => True) Srcu.new c0 ∧ c0.thread 0 = .locked 0 ∧
        c0.afterSync (fun _ _ => True) 2 0 [(2, .step), (2, .step)] = some (.locked 0) :=
    exists_reach [(0, .readLock), (1, .synchronize), (1, .step), (1, .step), (0, .step)]
      (by decide)
  obtain ⟨c1, c2, hcall, h₁, hi, hj'⟩ := SrcuConf.exists_of_afterSync hsync
  exact ⟨c0, c1, c2, h₀, hj, hcall, h₁, hi, hj'⟩

end Kerners.Sync
