import Kerners.Lib.Threads

/-!
# The table of VirtIO interrupts (`virtio/irq.rs`)

`register_irq` fills an entry of `IRQ_TABLE` and stores `irq_num` last, with release;
`handle_virtio_irq` loads `irq_num` first, with acquire. A turn is one such load or store, one read
of a device's status, or the store to the flag. One CPU registers, and any number handle interrupts
meanwhile. The callers keep the number 0 away from the handler; `unregister_irq` has no caller.
-/

namespace Kerners.Virtio

open Lib Function

def maxVirtioDevices : Nat := 8

structure IrqEntry where
  irqNum : BitVec 32
  mmioBase : BitVec 32
  flag : BitVec 32
  flagHigh : BitVec 32

def IrqEntry.new : IrqEntry := ⟨0, 0, 0, 0⟩

/-- The arguments of `register_irq`, with the address of the flag. -/
structure IrqRequest where
  irqNum : BitVec 32
  mmioBase : BitVec 64
  flag : BitVec 64
  deriving DecidableEq

/-- The next access of a CPU to the table, or to what it found there. -/
inductive IrqPlace where
  | idle
  | isUsed (r : IrqRequest) (k : Nat)
  | storeBase (r : IrqRequest) (k : Nat)
  | storeFlag (r : IrqRequest) (k : Nat)
  | storeHigh (r : IrqRequest) (k : Nat)
  | storeNum (r : IrqRequest) (k : Nat)
  | loadNum (irq : BitVec 32) (k : Nat)
  | loadBase (irq : BitVec 32) (k : Nat)
  | status (irq : BitVec 32) (k : Nat) (base : BitVec 32)
  | loadFlag (irq : BitVec 32) (k : Nat) (base : BitVec 32)
  | loadHigh (irq : BitVec 32) (k : Nat) (base lo : BitVec 32)
  | signal (irq base : BitVec 32) (ptr : BitVec 64)
  deriving DecidableEq

inductive IrqAct where
  | register (r : IrqRequest)
  | handle (irq : BitVec 32)
  | access
  | interruptStatus (pending : Bool)

abbrev IrqTable := Nat → IrqEntry

def IrqTable.turn (t : IrqTable) : IrqPlace → IrqAct → Option (IrqTable × IrqPlace)
  | .idle, .register r => some (t, if r.irqNum = 0 then .idle else .isUsed r 0)
  | .isUsed r k, .access => some (t,
      if k ≥ maxVirtioDevices then .idle
      else if (t k).irqNum ≠ 0 then .isUsed r (k + 1) else .storeBase r k)
  | .storeBase r k, .access =>
    some (update t k { t k with mmioBase := r.mmioBase.setWidth 32 }, .storeFlag r k)
  | .storeFlag r k, .access =>
    some (update t k { t k with flag := r.flag.setWidth 32 }, .storeHigh r k)
  | .storeHigh r k, .access =>
    some (update t k { t k with flagHigh := (r.flag >>> 32).setWidth 32 }, .storeNum r k)
  | .storeNum r k, .access => some (update t k { t k with irqNum := r.irqNum }, .idle)
  | .idle, .handle irq => some (t, .loadNum irq 0)
  | .loadNum irq k, .access => some (t,
      if k ≥ maxVirtioDevices then .idle
      else if (t k).irqNum = irq then .loadBase irq k else .loadNum irq (k + 1))
  | .loadBase irq k, .access => some (t, .status irq k (t k).mmioBase)
  | .status irq k base, .interruptStatus pending =>
    some (t, if pending then .loadFlag irq k base else .loadNum irq (k + 1))
  | .loadFlag irq k base, .access => some (t, .loadHigh irq k base (t k).flag)
  | .loadHigh irq k base lo, .access =>
    let ptr := lo.setWidth 64 ||| (t k).flagHigh.setWidth 64 <<< 32
    some (t, if ptr = 0 then .idle else .signal irq base ptr)
  | .signal _ _ _, .access => some (t, .idle)
  | _, _ => none

variable {ι : Type*} {boot i : ι} {rs : List IrqRequest} {t t' : IrqTable}
  {p p' : IrqPlace} {a : IrqAct} {c c' : Conf ι IrqTable IrqPlace}

def irqStart : Conf ι IrqTable IrqPlace := ⟨fun _ => .new, fun _ => .idle⟩

/-- Only `boot` registers, with a request of the list, and no interrupt has the number 0. -/
def IrqCalls (boot : ι) (rs : List IrqRequest) (_ : Conf ι IrqTable IrqPlace) : ι × IrqAct → Prop
  | (i, .register r) => i = boot ∧ r ∈ rs
  | (_, .handle irq) => irq ≠ 0
  | _ => True

/-! ## The invariant -/

/-- The entry when all stores are done: the base loses its upper half. -/
def IrqRequest.entry (r : IrqRequest) : IrqEntry :=
  ⟨r.irqNum, r.mmioBase.setWidth 32, r.flag.setWidth 32, (r.flag >>> 32).setWidth 32⟩

theorem IrqRequest.entry_ptr (r : IrqRequest) :
    r.entry.flag.setWidth 64 ||| r.entry.flagHigh.setWidth 64 <<< 32 = r.flag := by
  ext j hj
  simp only [IrqRequest.entry, BitVec.getElem_or, BitVec.getElem_setWidth, BitVec.getLsbD_setWidth,
    BitVec.getElem_shiftLeft, BitVec.getLsbD_ushiftRight]
  by_cases hlo : j < 32
  · simp [hlo, BitVec.getLsbD_eq_getElem hj]
  · have hsub : 32 + (j - 32) = j := by omega
    simp [hlo, hsub, BitVec.getLsbD_eq_getElem hj, show j - 32 < 32 by omega]

/-- A used entry, with the request that filled it. -/
structure Serves (rs : List IrqRequest) (t : IrqTable) (irq : BitVec 32) (k : Nat)
    (r : IrqRequest) : Prop where
  mem : r ∈ rs
  num : r.irqNum = irq
  used : r.irqNum ≠ 0
  entry : t k = r.entry

/-- What a CPU has found out or written when it stands at a place. -/
def PlaceOk (boot : ι) (rs : List IrqRequest) (t : IrqTable) (i : ι) : IrqPlace → Prop
  | .idle => True
  | .isUsed r _ => i = boot ∧ r ∈ rs ∧ r.irqNum ≠ 0
  | .storeBase r k => i = boot ∧ r ∈ rs ∧ r.irqNum ≠ 0 ∧ (t k).irqNum = 0
  | .storeFlag r k => i = boot ∧ r ∈ rs ∧ r.irqNum ≠ 0 ∧ (t k).irqNum = 0 ∧
      (t k).mmioBase = r.entry.mmioBase
  | .storeHigh r k => i = boot ∧ r ∈ rs ∧ r.irqNum ≠ 0 ∧ (t k).irqNum = 0 ∧
      (t k).mmioBase = r.entry.mmioBase ∧ (t k).flag = r.entry.flag
  | .storeNum r k => i = boot ∧ r ∈ rs ∧ r.irqNum ≠ 0 ∧ t k = { r.entry with irqNum := 0 }
  | .loadNum irq _ => irq ≠ 0
  | .loadBase irq k => ∃ r, Serves rs t irq k r
  | .status irq k base | .loadFlag irq k base => ∃ r, Serves rs t irq k r ∧ base = r.entry.mmioBase
  | .loadHigh irq k base lo =>
    ∃ r, Serves rs t irq k r ∧ base = r.entry.mmioBase ∧ lo = r.entry.flag
  | .signal irq base ptr => ∃ r ∈ rs, r.irqNum = irq ∧ base = r.entry.mmioBase ∧ ptr = r.flag

structure IrqInv (boot : ι) (rs : List IrqRequest) (c : Conf ι IrqTable IrqPlace) : Prop where
  table : ∀ k, (c.shared k).irqNum ≠ 0 → ∃ r ∈ rs, c.shared k = r.entry
  places : ∀ i, PlaceOk boot rs c.shared i (c.thread i)

/-- What a turn may do to the table: nothing, or `boot` writes an unused entry, which stays unused
or is now filled for a request. -/
structure Fills (rs : List IrqRequest) (t t' : IrqTable) : Prop where
  kept : ∀ k, (t k).irqNum ≠ 0 → t' k = t k
  filled : ∀ k, (t' k).irqNum ≠ 0 → t' k = t k ∨ ∃ r ∈ rs, t' k = r.entry

theorem Fills.update {k : Nat} {e : IrqEntry} (hk : (t k).irqNum = 0)
    (he : e.irqNum = 0 ∨ ∃ r ∈ rs, e = r.entry) : Fills rs t (update t k e) := by
  constructor
  · intro j hj
    exact update_of_ne (fun heq : j = k => hj (heq ▸ hk)) e t
  · intro j hj
    by_cases hjk : j = k
    · subst hjk
      rw [update_self] at hj ⊢
      exact .inr (he.resolve_left hj)
    · exact .inl (update_of_ne hjk e t)

theorem PlaceOk.turn_fills (h : PlaceOk boot rs t i p) (ht : t.turn p a = some (t', p')) :
    t' = t ∨ i = boot ∧ Fills rs t t' := by
  revert ht
  fun_cases IrqTable.turn t p a <;> intro ht <;> cases ht <;> try exact .inl rfl
  case case3 r k => exact .inr ⟨h.1, .update h.2.2.2 (.inl h.2.2.2)⟩
  case case4 r k | case5 r k => exact .inr ⟨h.1, .update h.2.2.2.1 (.inl h.2.2.2.1)⟩
  case case6 r k =>
    obtain ⟨hboot, hr, -, hk⟩ := h
    exact .inr ⟨hboot, .update (by rw [hk]) (.inr ⟨r, hr, by rw [hk]; rfl⟩)⟩

theorem PlaceOk.turn (h : PlaceOk boot rs t i p) (ht : t.turn p a = some (t', p'))
    (htable : ∀ k, (t k).irqNum ≠ 0 → ∃ r ∈ rs, t k = r.entry)
    (hok : IrqCalls boot rs c (i, a)) : PlaceOk boot rs t' i p' := by
  revert ht
  fun_cases IrqTable.turn t p a <;> intro ht <;> cases ht
  case case1 r =>
    split_ifs with hr
    · trivial
    · exact ⟨hok.1, hok.2, hr⟩
  case case2 r k =>
    split_ifs with hk hused
    · trivial
    · exact h
    · exact ⟨h.1, h.2.1, h.2.2, not_not.mp hused⟩
  case case3 r k | case4 r k => simpa [PlaceOk, IrqRequest.entry] using h
  case case5 r k =>
    obtain ⟨hboot, hr, hne, h1, h2, h3⟩ := h
    exact ⟨hboot, hr, hne, by simp [h1, h2, h3, IrqRequest.entry]⟩
  case case6 | case13 => trivial
  case case7 irq => exact hok
  case case8 irq k =>
    split_ifs with hk hnum
    · trivial
    · obtain ⟨r, hr, he⟩ := htable k (hnum ▸ h)
      have hirq : r.irqNum = irq := by rw [← hnum, he]; rfl
      exact ⟨r, hr, hirq, hirq ▸ h, he⟩
    · exact h
  case case9 irq k =>
    obtain ⟨r, hs⟩ := h
    exact ⟨r, hs, by rw [hs.entry]⟩
  case case10 irq k base pending =>
    split_ifs
    · exact h
    · obtain ⟨r, hs, -⟩ := h
      exact hs.num ▸ hs.used
  case case11 irq k base =>
    obtain ⟨r, hs, hbase⟩ := h
    exact ⟨r, hs, hbase, by rw [hs.entry]⟩
  case case12 irq k base lo ptr =>
    obtain ⟨r, hs, hbase, hlo⟩ := h
    split_ifs
    · trivial
    · refine ⟨r, hs.mem, hs.num, hbase, ?_⟩
      rw [← r.entry_ptr, ← hlo, ← hs.entry]

theorem PlaceOk.fills (h : PlaceOk boot rs t i p) (hi : i ≠ boot) (hf : Fills rs t t') :
    PlaceOk boot rs t' i p := by
  have hserves : ∀ {irq k r}, Serves rs t irq k r → Serves rs t' irq k r := by
    intro irq k r hs
    have hused : (t k).irqNum ≠ 0 := by rw [hs.entry]; exact hs.used
    exact ⟨hs.mem, hs.num, hs.used, (hf.kept k hused).trans hs.entry⟩
  cases p with
  | idle => trivial
  | loadNum irq k => exact h
  | signal irq base ptr => exact h
  | loadBase irq k => exact h.imp fun r hs => hserves hs
  | status irq k base | loadFlag irq k base | loadHigh irq k base lo =>
    exact h.imp fun r hs => ⟨hserves hs.1, hs.2⟩
  | isUsed r k | storeBase r k | storeFlag r k | storeHigh r k | storeNum r k => exact absurd h.1 hi

theorem IrqInv.start : IrqInv boot rs irqStart :=
  ⟨fun _ h => absurd rfl h, fun _ => trivial⟩

variable [DecidableEq ι]

theorem IrqInv.step (h : IrqInv boot rs c)
    (hs : Fires (Conf.next IrqTable.turn) (IrqCalls boot rs) c c') : IrqInv boot rs c' := by
  obtain ⟨⟨i, a⟩, hok, hn⟩ := hs
  refine ⟨?_, Conf.forall_thread h.places hn (fun ht => (h.places i).turn ht h.table hok) ?_⟩
  · obtain ⟨t', p', ht, rfl⟩ := Conf.exists_turn hn
    obtain rfl | ⟨-, hf⟩ := (h.places i).turn_fills ht
    · exact h.table
    · intro k hk
      obtain heq | hr := hf.filled k hk
      · change ∃ r ∈ rs, t' k = r.entry
        rw [heq]
        exact h.table k (heq ▸ hk)
      · exact hr
  · intro t' p' ht j hji hj
    obtain rfl | ⟨rfl, hf⟩ := (h.places i).turn_fills ht
    · exact hj
    · exact hj.fills hji hf

/-- **A handler uses what was registered for its interrupt**, however the calls interleave: the
device whose status it reads and the flag that it sets are of one request with its number. Of the
device's address it has the lower 32 bits. -/
theorem handler_uses_registered
    (hr : Reach (Fires (Conf.next IrqTable.turn) (IrqCalls boot rs)) irqStart c) (i : ι) :
    (∀ irq k base,
       c.thread i = .status irq k base → ∃ r ∈ rs, r.irqNum = irq ∧ base = r.mmioBase.setWidth 32) ∧
    ∀ irq base ptr, c.thread i = .signal irq base ptr →
      ∃ r ∈ rs, r.irqNum = irq ∧ base = r.mmioBase.setWidth 32 ∧ ptr = r.flag := by
  have hi := (Reach.invariant IrqInv.start IrqInv.step hr).places i
  constructor
  · intro irq k base hp
    rw [hp] at hi
    obtain ⟨r, hs, hbase⟩ := hi
    exact ⟨r, hs.mem, hs.num, hbase⟩
  · intro irq base ptr hp
    rw [hp] at hi
    exact hi

instance : ∀ (c : Conf ι IrqTable IrqPlace) (ia : ι × IrqAct), Decidable (IrqCalls boot rs c ia)
  | _, (_, .register _) => inferInstanceAs (Decidable (_ ∧ _))
  | _, (_, .handle _) => inferInstanceAs (Decidable (_ ≠ _))
  | _, (_, .access) | _, (_, .interruptStatus _) => .isTrue trivial

theorem handler_uses_registered_two : ∃ c : Conf (Fin 2) IrqTable IrqPlace,
    c.thread 1 = .signal 33 0xa000000 0x1000040010 ∧
      ∃ r ∈ [IrqRequest.mk 33 0xa000000 0x1000040010], r.irqNum = 33 ∧
        0xa000000 = r.mmioBase.setWidth 32 ∧ 0x1000040010 = r.flag := by
  obtain ⟨c, hr, hc⟩ : ∃ c : Conf (Fin 2) IrqTable IrqPlace,
      Reach (Fires (Conf.next IrqTable.turn) (IrqCalls 0 [⟨33, 0xa000000, 0x1000040010⟩]))
        irqStart c ∧ c.thread 1 = .signal 33 0xa000000 0x1000040010 :=
    exists_reach [(0, .register ⟨33, 0xa000000, 0x1000040010⟩), (0, .access), (0, .access),
      (0, .access), (0, .access), (1, .handle 33), (0, .access), (1, .access), (1, .access),
      (1, .interruptStatus true), (1, .access), (1, .access)] (by decide)
  exact ⟨c, hc, (handler_uses_registered hr 1).2 _ _ _ hc⟩

end Kerners.Virtio
