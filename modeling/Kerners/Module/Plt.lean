import Kerners.Lib.A64
import Kerners.Lib.Rv64
import Kerners.Mm.Page
import Kerners.Module.Elf

/-!
# The PLT of a module (`src/module/loader.rs`)

Calls that do not reach their target go through a stub in the module's PLT page. `PltTable` hands out
the stubs, one for each target, and `create_stub` writes them.

Addresses are words of 64 bits; `self.base + self.count * PLT_ENTRY_SIZE` wraps as in the release
build.
-/

namespace Kerners.Module

open Lib List

/-! ## The table -/

def pltEntrySize : Nat := 16

def maxPltEntries : Nat := Mm.pageSize / pltEntrySize

/-- `PltTable`: the entries are pairs of target and stub address. -/
structure PltTable where
  base : BitVec 64
  count : Nat
  entries : List (BitVec 64 × BitVec 64)
deriving DecidableEq

def PltTable.new (base : BitVec 64) : PltTable := ⟨base, 0, []⟩

/-- `create_stub`. The RISC-V target is stored over the third and fourth instruction. -/
def createStub (arch : Arch) (m : ByteMem) (pltAddr target : BitVec 64) : ByteMem :=
  match arch with
  | .aarch64 =>
    ((m.store pltAddr 0x58000050#32).store (pltAddr + 4#64) 0xd61f0200#32).store
      (pltAddr + 8#64) target
  | .riscv64 =>
    ((((m.store pltAddr 0x00000e17#32).store (pltAddr + 4#64) 0x008e3e03#32).store
      (pltAddr + 8#64) 0x000e0067#32).store (pltAddr + 12#64) 0x00000013#32).store
      (pltAddr + 8#64) target

def PltTable.getOrCreate (arch : Arch) (t : PltTable) (m : ByteMem) (target : BitVec 64) :
    Option (BitVec 64) × PltTable × ByteMem :=
  match t.entries.find? fun e => e.1 == target with
  | some (_, pltAddr) => (some pltAddr, t, m)
  | none =>
    if t.count ≥ maxPltEntries then (none, t, m)
    else
      let pltAddr := t.base + BitVec.ofNat 64 (t.count * pltEntrySize)
      (some pltAddr, { t with count := t.count + 1, entries := t.entries ++ [(target, pltAddr)] },
        createStub arch m pltAddr target)

/-- What `get_or_create` keeps: the `k`-th entry has the `k`-th slot of the page, and each target has
one entry. -/
structure PltTable.Valid (t : PltTable) : Prop where
  count_eq : t.count = t.entries.length
  count_le : t.count ≤ maxPltEntries
  slot : ∀ k e, t.entries[k]? = some e → e.2 = t.base + BitVec.ofNat 64 (k * pltEntrySize)
  targets : (t.entries.map Prod.fst).Nodup

theorem PltTable.valid_new (base : BitVec 64) : (PltTable.new base).Valid where
  count_eq := rfl
  count_le := Nat.zero_le _
  slot := fun k e h => by simp [new] at h
  targets := nodup_nil

theorem PltTable.getOrCreate_cases (arch : Arch) (t : PltTable) (m : ByteMem) (target : BitVec 64) :
    (∃ a, (target, a) ∈ t.entries ∧ t.getOrCreate arch m target = (some a, t, m)) ∨
    (target ∉ t.entries.map Prod.fst ∧
     maxPltEntries ≤ t.count ∧
     t.getOrCreate arch m target = (none, t, m)) ∨
    (target ∉ t.entries.map Prod.fst ∧
     t.count < maxPltEntries ∧
     t.getOrCreate arch m target =
       (some (t.base + BitVec.ofNat 64 (t.count * pltEntrySize)), ⟨t.base, t.count + 1, t.entries ++
          [(target, t.base + BitVec.ofNat 64 (t.count * pltEntrySize))]⟩, createStub arch m (t.base
          + BitVec.ofNat 64 (t.count * pltEntrySize)) target)) := by
  cases hf : t.entries.find? fun e => e.1 == target with
  | some e =>
    have h1 : e.1 = target := by simpa using find?_some hf
    refine .inl ⟨e.2, ?_, ?_⟩
    · rw [← h1]
      exact mem_of_find?_eq_some hf
    · rw [getOrCreate, hf]
  | none =>
    have hn : target ∉ t.entries.map Prod.fst := by
      intro hm
      obtain ⟨e, he, rfl⟩ := mem_map.mp hm
      have := find?_eq_none.mp hf e he
      simp at this
    by_cases hc : t.count ≥ maxPltEntries
    · exact .inr (.inl ⟨hn, hc, by rw [getOrCreate, hf]; exact if_pos hc⟩)
    · exact .inr (.inr ⟨hn, Nat.lt_of_not_le hc, by rw [getOrCreate, hf]; exact if_neg hc⟩)

variable {t : PltTable} {target : BitVec 64} {a : BitVec 64} {j : Nat}

theorem PltTable.Valid.push (h : t.Valid) (hn : target ∉ t.entries.map Prod.fst)
    (hc : t.count < maxPltEntries) :
    PltTable.Valid ⟨t.base, t.count + 1, t.entries ++
      [(target, t.base + BitVec.ofNat 64 (t.count * pltEntrySize))]⟩ where
  count_eq := by simp [h.count_eq]
  count_le := hc
  slot := by
    intro k e hk
    by_cases hlt : k < t.entries.length
    · exact h.slot k e (by rwa [getElem?_append_left hlt] at hk)
    · rw [getElem?_append_right (Nat.le_of_not_lt hlt), getElem?_singleton] at hk
      have hk0 : k = t.count := by
        rw [h.count_eq]
        by_contra hne
        rw [if_neg (by omega)] at hk
        cases hk
      rw [if_pos (by rw [hk0, h.count_eq]; omega)] at hk
      cases hk
      rw [hk0]
  targets := by
    rw [map_append]
    refine nodup_append.mpr ⟨h.targets, nodup_singleton _, ?_⟩
    intro x hx y hy hxy
    have : y = target := by simpa using hy
    exact hn (by rw [← this, ← hxy]; exact hx)

theorem PltTable.Valid.getOrCreate (h : t.Valid) (arch : Arch) (m : ByteMem) (target : BitVec 64) :
    (t.getOrCreate arch m target).2.1.Valid := by
  rcases t.getOrCreate_cases arch m target with ⟨_, _, he⟩ | ⟨_, _, he⟩ | ⟨hn, hc, he⟩
  · rw [he]; exact h
  · rw [he]; exact h
  · rw [he]; exact h.push hn hc

theorem PltTable.Valid.mem_slot (h : t.Valid) (hm : (target, a) ∈ t.entries) :
    ∃ k < maxPltEntries, a = t.base + BitVec.ofNat 64 (k * pltEntrySize) := by
  obtain ⟨k, hk⟩ := mem_iff_getElem?.mp hm
  obtain ⟨hlt, _⟩ := List.getElem?_eq_some_iff.mp hk
  exact ⟨k, lt_of_lt_of_le (h.count_eq ▸ hlt) h.count_le, h.slot k _ hk⟩

theorem slot_apart (base : BitVec 64) {k : Nat} (hj : j < maxPltEntries) (hk : k < maxPltEntries)
    (hne : j ≠ k) :
    Apart (base + BitVec.ofNat 64 (j * pltEntrySize)) 16 (base + BitVec.ofNat 64 (k * pltEntrySize))
      16 := by
  have e : base + BitVec.ofNat 64 (k * pltEntrySize) - (base + BitVec.ofNat 64 (j * pltEntrySize))
      = BitVec.ofNat 64 (k * pltEntrySize) - BitVec.ofNat 64 (j * pltEntrySize) := by grind
  rw [Apart, e, BitVec.toNat_sub, BitVec.toNat_ofNat, BitVec.toNat_ofNat]
  simp only [maxPltEntries, pltEntrySize, Mm.pageSize] at hj hk ⊢
  omega

theorem slot_inj (base : BitVec 64) {k : Nat} (hj : j < maxPltEntries) (hk : k < maxPltEntries)
    (h : base + BitVec.ofNat 64 (j * pltEntrySize) = base + BitVec.ofNat 64 (k * pltEntrySize)) :
    j = k := by
  by_contra hne
  have hap := (slot_apart base hj hk hne).1
  rw [h, BitVec.sub_self] at hap
  exact absurd hap (by decide)

/-! ## The AArch64 stub -/

/-- The stub at `a` for a target: `ldr x16, [pc, #8]`, `br x16` and the target. -/
structure Holds (m : ByteMem) (a target : BitVec 64) : Prop where
  ldr : m.load32 a = 0x58000050#32
  br : m.load32 (a + 4#64) = 0xd61f0200#32
  literal : m.load64 (a + 8#64) = target

open ByteMem

theorem holds_createStub (m : ByteMem) (a target : BitVec 64) :
    Holds (createStub .aarch64 m a target) a target where
  ldr := by
    have h4 : Apart (a + 4#64) 4 a 4 := by constructor <;> bv_omega
    have h8 : Apart (a + 8#64) 8 a 4 := by constructor <;> bv_omega
    rw [createStub, load32_store_apart _ _ h8, load32_store_apart _ _ h4,
      load32_store_self]
  br := by
    have h8 : Apart (a + 8#64) 8 (a + 4#64) 4 := by constructor <;> bv_omega
    rw [createStub, load32_store_apart _ _ h8, load32_store_self]
  literal := by rw [createStub, load64_store_self]

variable {m : ByteMem}

theorem load32_createStub_apart {b : BitVec 64} (h : Apart a 16 b 4) :
    (createStub .aarch64 m a target).load32 b = m.load32 b := by
  have h0 : Apart (a + 0#64) 4 (b + 0#64) 4 := h.sub (by decide) (by decide) (by decide)
  have h4 : Apart (a + 4#64) 4 (b + 0#64) 4 := h.sub (by decide) (by decide) (by decide)
  have h8 : Apart (a + 8#64) 8 (b + 0#64) 4 := h.sub (by decide) (by decide) (by decide)
  rw [BitVec.add_zero] at h0 h4 h8
  rw [BitVec.add_zero] at h0
  rw [createStub, load32_store_apart _ _ h8, load32_store_apart _ _ h4,
    load32_store_apart _ _ h0]

theorem Holds.createStub {m : ByteMem} {a b target target' : BitVec 64} (h : Holds m b target')
    (hab : Apart a 16 b 16) : Holds (createStub .aarch64 m a target) b target' := by
  have h0 : Apart a 16 b 4 := ⟨hab.1, by have := hab.2; omega⟩
  have part : ∀ j, j + 4 ≤ 16 → Apart a 16 (b + BitVec.ofNat 64 j) 4 := by
    intro j hj
    have hp : Apart (a + 0#64) 16 (b + BitVec.ofNat 64 j) 4 := hab.sub (by decide) hj (by decide)
    rwa [BitVec.add_zero] at hp
  have e : b + 8#64 + 4#64 = b + 12#64 := by rw [BitVec.add_assoc]; rfl
  constructor
  · rw [load32_createStub_apart h0, h.ldr]
  · rw [load32_createStub_apart (part 4 (by decide)), h.br]
  · rw [← h.literal, load64, load64, e, load32_createStub_apart (part 8 (by decide)),
      load32_createStub_apart (part 12 (by decide))]

theorem Holds.run {mem : ByteMem} (h : Holds mem a target) (m : A64.Machine) (hm : m.mem = mem)
    (hpc : m.pc = a) : ∃ m1 m2, m.step = some m1 ∧ m1.step = some m2 ∧ m2.pc = target := by
  subst hm hpc
  have h1 : m.step = some (m.exec (.ldrLit64 2#19 16#5)) :=
    A64.Machine.step_of_decode h.ldr (by decide)
  have e : A64.wordOffset 2#19 = 8#64 := by decide
  have hex : m.exec (.ldrLit64 2#19 16#5)
      = { m with pc := m.pc + 4#64, x := fun i => if i = 16#5 then target else m.x i } := by
    rw [A64.Machine.exec, A64.Machine.address, e, h.literal]
    rfl
  rw [hex] at h1
  refine ⟨_, _, h1, A64.Machine.step_of_decode (i := .br 16#5) h.br (by decide), ?_⟩
  rfl

/-! ## Sequences of requests -/

def PltTable.requests (arch : Arch) : PltTable → ByteMem → List (BitVec 64) →
    List (Option (BitVec 64)) × PltTable × ByteMem
  | t, m, [] => ([], t, m)
  | t, m, target :: rest =>
    let r := t.getOrCreate arch m target
    let run := requests arch r.2.1 r.2.2 rest
    (r.1 :: run.1, run.2)

def PltTable.known (t : PltTable) : List (BitVec 64) := t.entries.map Prod.fst

structure Agrees (t : PltTable) (m : ByteMem) : Prop extends t.Valid where
  holds : ∀ target a, (target, a) ∈ t.entries → Holds m a target

open PltTable

theorem agrees_new (base : BitVec 64) (m : ByteMem) : Agrees (PltTable.new base) m where
  toValid := valid_new base
  holds := fun target a h => by simp [PltTable.new] at h

theorem Agrees.getOrCreate (h : Agrees t m) (target : BitVec 64) :
    Agrees (t.getOrCreate .aarch64 m target).2.1 (t.getOrCreate .aarch64 m target).2.2 := by
  rcases t.getOrCreate_cases .aarch64 m target with ⟨_, _, he⟩ | ⟨_, _, he⟩ | ⟨hn, hc, he⟩
  · rw [he]; exact h
  · rw [he]; exact h
  · rw [he]
    refine ⟨h.toValid.push hn hc, ?_⟩
    intro target' a hm
    rcases mem_append.mp hm with hm | hm
    · -- an older stub: its slot is another one
      obtain ⟨k, hk⟩ := mem_iff_getElem?.mp hm
      obtain ⟨hlt, _⟩ := List.getElem?_eq_some_iff.mp hk
      have hkc : k < t.count := h.count_eq ▸ hlt
      have ha : a = _ := h.slot k _ hk
      have hap := slot_apart t.base hc (Nat.lt_trans hkc hc) (Nat.ne_of_gt hkc)
      rw [← ha] at hap
      exact (h.holds target' a hm).createStub hap
    · obtain ⟨rfl, rfl⟩ : target' = target ∧ a = _ := by simpa using hm
      exact holds_createStub ..

/-- A request for `target` that was answered with `r` and led from `t` to `t'`. -/
structure Answered (t t' : PltTable) (target : BitVec 64) (r : Option (BitVec 64)) : Prop where
  base : t'.base = t.base
  entries : t.entries ⊆ t'.entries
  known : ∀ u ∈ t'.known, u ∈ t.known ∨ u = target
  found : ∀ a, r = some a → (target, a) ∈ t'.entries
  refused : r = none → maxPltEntries ≤ t.count ∧ target ∉ t.known
  full : maxPltEntries ≤ t.count → t' = t

theorem PltTable.answered (arch : Arch) (t : PltTable) (m : ByteMem) (target : BitVec 64) :
    Answered t (t.getOrCreate arch m target).2.1 target (t.getOrCreate arch m target).1 := by
  rcases t.getOrCreate_cases arch m target with ⟨a, ha, he⟩ | ⟨hn, hc, he⟩ | ⟨hn, hc, he⟩
  · rw [he]
    refine ⟨rfl, fun _ h => h, fun _ h => .inl h, ?_, ?_, fun _ => rfl⟩
    · rintro _ ⟨⟩
      exact ha
    · intro h
      cases h
  · rw [he]
    refine ⟨rfl, fun _ h => h, fun _ h => .inl h, ?_, fun _ => ⟨hc, hn⟩, fun _ => rfl⟩
    intro a h
    cases h
  · rw [he]
    refine ⟨rfl, fun _ h => mem_append_left _ h, ?_, ?_, ?_, ?_⟩
    · intro u hu
      simpa [known] using hu
    · rintro _ ⟨⟩
      exact mem_append_right _ (mem_singleton.mpr rfl)
    · intro h
      cases h
    · intro h
      exact absurd h (Nat.not_le_of_lt hc)

theorem Agrees.requests (h : Agrees t m) (xs : List (BitVec 64)) :
    Agrees (t.requests .aarch64 m xs).2.1 (t.requests .aarch64 m xs).2.2 := by
  induction xs generalizing t m with
  | nil => exact h
  | cons x xs ih => exact ih (h.getOrCreate x)

theorem PltTable.requests_base (arch : Arch) (t : PltTable) (m : ByteMem) (xs : List (BitVec 64)) :
    (t.requests arch m xs).2.1.base = t.base := by
  induction xs generalizing t m with
  | nil => rfl
  | cons x xs ih => exact (ih ..).trans (t.answered arch m x).base

theorem PltTable.requests_entries (arch : Arch) (t : PltTable) (m : ByteMem)
    (xs : List (BitVec 64)) : t.entries ⊆ (t.requests arch m xs).2.1.entries := by
  induction xs generalizing t m with
  | nil => exact fun _ h => h
  | cons x xs ih => exact fun _ h => ih _ _ ((t.answered arch m x).entries h)

variable {arch : Arch}

theorem PltTable.requests_full (h : maxPltEntries ≤ t.count) (xs : List (BitVec 64)) :
    (t.requests arch m xs).2.1 = t := by
  induction xs generalizing t m with
  | nil => rfl
  | cons x xs ih =>
    have he : (t.getOrCreate arch m x).2.1 = t := (t.answered arch m x).full h
    calc (t.requests arch m (x :: xs)).2.1
        = ((t.getOrCreate arch m x).2.1.requests arch (t.getOrCreate arch m x).2.2 xs).2.1 := rfl
      _ = t := by rw [he]; exact ih h

variable {xs : List (BitVec 64)} {i : Nat} {x : BitVec 64}

theorem PltTable.requests_some (hx : xs[i]? = some x)
    (hr : (t.requests arch m xs).1[i]? = some (some a)) :
    (x, a) ∈ (t.requests arch m xs).2.1.entries := by
  induction xs generalizing t m i with
  | nil => simp at hx
  | cons y xs ih =>
    cases i with
    | zero =>
      obtain rfl : y = x := by simpa using hx
      have ha : (t.getOrCreate arch m y).1 = some a := Option.some.inj hr
      exact requests_entries arch _ _ xs ((t.answered arch m y).found a ha)
    | succ i => exact ih hx hr

theorem PltTable.requests_none (hv : t.Valid) (hx : xs[i]? = some x)
    (hr : (t.requests arch m xs).1[i]? = some none) :
    x ∉ (t.requests arch m xs).2.1.known ∧
    ∃ others : List (BitVec 64), others.length = maxPltEntries ∧
      others.Nodup ∧
      x ∉ others ∧
      ∀ u ∈ others, u ∈ t.known ∨
        ∃ j < i, xs[j]? = some u ∧ ∃ a, (t.requests arch m xs).1[j]? = some (some a) := by
  induction xs generalizing t m i with
  | nil => simp at hx
  | cons y xs ih =>
    cases i with
    | zero =>
      obtain rfl : y = x := by simpa using hx
      have hn : (t.getOrCreate arch m y).1 = none := Option.some.inj hr
      obtain ⟨hfull, hy⟩ := (t.answered arch m y).refused hn
      refine ⟨by rw [requests_full hfull]; exact hy, t.known, ?_, hv.targets, hy, fun _ h => .inl h⟩
      rw [known, length_map, ← hv.count_eq]
      exact Nat.le_antisymm hv.count_le hfull
    | succ i =>
      obtain ⟨h1, others, hlen, hnd, hno, hmem⟩ := ih (hv.getOrCreate arch m y) hx hr
      refine ⟨h1, others, hlen, hnd, hno, fun u hu => ?_⟩
      rcases hmem u hu with h | ⟨j, hj, hju, hja⟩
      · cases hans : (t.getOrCreate arch m y).1 with
        | none =>
          rw [(t.answered arch m y).full ((t.answered arch m y).refused hans).1] at h
          exact .inl h
        | some a =>
          rcases (t.answered arch m y).known u h with h | rfl
          · exact .inl h
          · exact .inr ⟨0, Nat.succ_pos i, rfl, a, congrArg some hans⟩
      · exact .inr ⟨j + 1, Nat.succ_lt_succ hj, hju, hja⟩

theorem PltTable.requests_length (arch : Arch) (t : PltTable) (m : ByteMem)
    (xs : List (BitVec 64)) : (t.requests arch m xs).1.length = xs.length := by
  induction xs generalizing t m with
  | nil => rfl
  | cons x xs ih => exact congrArg Nat.succ (ih ..)

/-- What a run of requests for `xs`, with the answers `rs` and the memory `mem` at its end, has to
give, for a table whose page starts at `base`. -/
structure ServesAll (base : BitVec 64) (xs : List (BitVec 64)) (rs : List (Option (BitVec 64)))
    (mem : ByteMem) : Prop where
  length : rs.length = xs.length
  same : ∀ (i j : Nat) (x), xs[i]? = some x → xs[j]? = some x → rs[i]? = rs[j]?
  distinct : ∀ (i j : Nat) (x y a b), xs[i]? = some x → xs[j]? = some y → rs[i]? = some (some a) →
    rs[j]? = some (some b) → x ≠ y → a ≠ b
  slot : ∀ (i : Nat) (a), rs[i]? = some (some a) → ∃ k < 256, a = base + BitVec.ofNat 64 (16 * k)
  refused : ∀ (i : Nat) (x), xs[i]? = some x → rs[i]? = some none → ∃ others : List (BitVec 64),
    others.length = 256 ∧ others.Nodup ∧ x ∉ others ∧
      ∀ u ∈ others, ∃ j < i, xs[j]? = some u ∧ ∃ a, rs[j]? = some (some a)
  stub : ∀ (i : Nat) (x a), xs[i]? = some x → rs[i]? = some (some a) → Holds mem a x
  jumps : ∀ (i : Nat) (x a), xs[i]? = some x → rs[i]? = some (some a) →
    ∀ m : A64.Machine, m.mem = mem → m.pc = a →
      ∃ m1 m2, m.step = some m1 ∧ m1.step = some m2 ∧ m2.pc = x

theorem PltTable.Valid.entry_unique (h : t.Valid) {b : BitVec 64} (ha : (x, a) ∈ t.entries)
    (hb : (x, b) ∈ t.entries) : a = b := by
  have := inj_on_of_nodup_map h.targets ha hb rfl
  exact congrArg Prod.snd this

theorem PltTable.Valid.target_unique (h : t.Valid) {y : BitVec 64} (hx : (x, a) ∈ t.entries)
    (hy : (y, a) ∈ t.entries) : x = y := by
  obtain ⟨j, hj⟩ := mem_iff_getElem?.mp hx
  obtain ⟨k, hk⟩ := mem_iff_getElem?.mp hy
  have lt : ∀ {i : Nat} {e}, t.entries[i]? = some e → i < maxPltEntries := fun hi =>
    lt_of_lt_of_le (h.count_eq ▸ (List.getElem?_eq_some_iff.mp hi).1) h.count_le
  have ha : a = _ := h.slot j (x, a) hj
  have ha' : a = _ := h.slot k (y, a) hk
  have hjk : j = k := slot_inj t.base (lt hj) (lt hk) (ha.symm.trans ha')
  rw [hjk, hk] at hj
  exact (congrArg Prod.fst (Option.some.inj hj)).symm

theorem PltTable.requests_same (hv : t.Valid) (hend : (t.requests arch m xs).2.1.Valid)
    (hi : xs[i]? = some x) (hj : xs[j]? = some x) :
    (t.requests arch m xs).1[i]? = (t.requests arch m xs).1[j]? := by
  have answer : ∀ {k : Nat}, xs[k]? = some x → ∃ r, (t.requests arch m xs).1[k]? = some r := by
    intro k hk
    have hlt := (List.getElem?_eq_some_iff.mp hk).1
    exact ⟨_, getElem?_eq_getElem (by rw [requests_length]; exact hlt)⟩
  have known : ∀ {a}, (x, a) ∈ (t.requests arch m xs).2.1.entries →
      x ∈ (t.requests arch m xs).2.1.known := fun h => mem_map.mpr ⟨_, h, rfl⟩
  obtain ⟨r, hr⟩ := answer hi
  obtain ⟨r', hr'⟩ := answer hj
  rw [hr, hr']
  cases r with
  | none =>
    cases r' with
    | none => rfl
    | some b => exact absurd (known (requests_some hj hr')) (requests_none hv hi hr).1
  | some a =>
    cases r' with
    | none => exact absurd (known (requests_some hi hr)) (requests_none hv hj hr').1
    | some b => rw [hend.entry_unique (requests_some hi hr) (requests_some hj hr')]

/-- **The AArch64 PLT over any sequence of requests.** Whatever is requested of a new table, the
answers and the memory at the end are as `ServesAll` says. -/
theorem requests_correct (base : BitVec 64) (m : ByteMem) (xs : List (BitVec 64)) :
    ServesAll base xs ((PltTable.new base).requests .aarch64 m xs).1
      ((PltTable.new base).requests .aarch64 m xs).2.2 := by
  have hnew := PltTable.valid_new base
  have hend := (agrees_new base m).requests xs
  refine
    { length := PltTable.requests_length ..
      same := fun i j x hi hj => PltTable.requests_same hnew hend.toValid hi hj
      distinct := ?_
      slot := ?_
      refused := ?_
      stub := fun i x a hi hr => hend.holds x a (PltTable.requests_some hi hr)
      jumps := fun i x a hi hr => (hend.holds x a (PltTable.requests_some hi hr)).run }
  · intro i j x y a b hi hj hr hr' hne hab
    subst hab
    exact hne (hend.target_unique (PltTable.requests_some hi hr) (PltTable.requests_some hj hr'))
  · intro i a hr
    have hlt := (List.getElem?_eq_some_iff.mp hr).1
    rw [PltTable.requests_length] at hlt
    obtain ⟨k, hk, ha⟩ := hend.mem_slot (PltTable.requests_some (getElem?_eq_getElem hlt) hr)
    rw [PltTable.requests_base] at ha
    exact ⟨k, hk, by rw [ha, Nat.mul_comm]; rfl⟩
  · intro i x hi hr
    obtain ⟨_, others, hlen, hnd, hno, hmem⟩ := PltTable.requests_none hnew hi hr
    refine ⟨others, hlen, hnd, hno, fun u hu => ?_⟩
    exact (hmem u hu).resolve_left (by simp [PltTable.known, PltTable.new])

/-! ## The RISC-V stub -/

structure HoldsRiscv (m : ByteMem) (a target : BitVec 64) : Prop where
  auipc : m.load32 a = 0x00000e17#32
  ld : m.load32 (a + 4#64) = 0x008e3e03#32
  third : m.load32 (a + 8#64) = target.extractLsb' 0 32
  literal : m.load64 (a + 8#64) = target

theorem holdsRiscv_createStub (m : ByteMem) (a target : BitVec 64) :
    HoldsRiscv (createStub .riscv64 m a target) a target where
  auipc := by
    have h4 : Apart (a + 4#64) 4 a 4 := by constructor <;> bv_omega
    have h8 : Apart (a + 8#64) 4 a 4 := by constructor <;> bv_omega
    have h12 : Apart (a + 12#64) 4 a 4 := by constructor <;> bv_omega
    have h8' : Apart (a + 8#64) 8 a 4 := by constructor <;> bv_omega
    rw [createStub, load32_store_apart _ _ h8', load32_store_apart _ _ h12,
      load32_store_apart _ _ h8, load32_store_apart _ _ h4,
      load32_store_self]
  ld := by
    have h8 : Apart (a + 8#64) 4 (a + 4#64) 4 := by constructor <;> bv_omega
    have h12 : Apart (a + 12#64) 4 (a + 4#64) 4 := by constructor <;> bv_omega
    have h8' : Apart (a + 8#64) 8 (a + 4#64) 4 := by constructor <;> bv_omega
    rw [createStub, load32_store_apart _ _ h8', load32_store_apart _ _ h12,
      load32_store_apart _ _ h8, load32_store_self]
  third := by
    rw [createStub]
    exact load32_store_start _ _ _ (by decide)
  literal := by rw [createStub, load64_store_self]

open Rv64.Machine

/-- The third instruction of the RISC-V stub, whatever the registers hold, sends control to the
target. -/
def RiscvStubJumps (m : ByteMem) (pltAddr target : BitVec 64) : Prop :=
  ∀ x : BitVec 5 → BitVec 64, ∃ m1 m2 : Rv64.Machine,
    Rv64.Machine.step ⟨x, pltAddr, createStub .riscv64 m pltAddr target⟩ = some m1 ∧
      m1.step = some m2 ∧ m2.transfer = some target

/-- The registers after the two instructions: `t3` holds the target. -/
def loaded (x : BitVec 5 → BitVec 64) (target : BitVec 64) : BitVec 5 → BitVec 64 :=
  fun i => if i = 28#5 then target else x i

theorem riscvStub_run (m : ByteMem) (a target : BitVec 64) (x : BitVec 5 → BitVec 64) : ∃ m1 :
    Rv64.Machine, step ⟨x, a, createStub .riscv64 m a target⟩ = some m1 ∧ m1.step =
    some ⟨loaded x target, a + 8#64, createStub .riscv64 m a target⟩ := by
  have hs := holdsRiscv_createStub m a target
  generalize createStub .riscv64 m a target = mem at hs ⊢
  have e0 : (0#20 ++ 0#12 : BitVec 32).signExtend 64 = 0#64 := by decide
  have e8 : (8#12 : BitVec 12).signExtend 64 = 8#64 := by decide
  have d1 : Rv64.decode 0x00000e17#32 = some (.auipc 0#20 28#5) := by decide
  have d2 : Rv64.decode 0x008e3e03#32 = some (.ld 8#12 28#5 28#5) := by decide
  have h1 : step ⟨x, a, mem⟩ = some ⟨loaded x a, a + 4#64, mem⟩ := by
    simp only [step, hs.auipc, d1, Option.bind_some, exec, e0,
      BitVec.add_zero, setReg]
    rfl
  have hx : (fun i => if i = 28#5 then target else loaded x a i) = loaded x target := by
    funext i
    simp only [loaded]
    split <;> rfl
  have hpc : a + 4#64 + 4#64 = a + 8#64 := by rw [BitVec.add_assoc]; rfl
  have hreg : reg ⟨loaded x a, a + 4#64, mem⟩ 28#5 = a := by
    simp [reg, loaded]
  have h2 : step ⟨loaded x a, a + 4#64, mem⟩
      = some ⟨loaded x target, a + 8#64, mem⟩ := by
    simp only [step, hs.ld, d2, Option.bind_some, exec, hreg, e8,
      hs.literal, setReg, hpc, hx]
  exact ⟨_, h1, h2⟩

theorem riscvStubJumps_iff_decode (m : ByteMem) (a target : BitVec 64) : RiscvStubJumps m a target ↔
    ∀ x, (Rv64.decode (target.extractLsb' 0 32)).bind (dest ⟨loaded x target, a + 8#64,
    createStub .riscv64 m a target⟩) = some target := by
  refine forall_congr' fun x => ?_
  obtain ⟨m1, h1, h2⟩ := riscvStub_run m a target x
  have ht : transfer ⟨loaded x target, a + 8#64, createStub .riscv64 m a target⟩
      = (Rv64.decode (target.extractLsb' 0 32)).bind
        (dest ⟨loaded x target, a + 8#64, createStub .riscv64 m a target⟩) := by
    rw [transfer, (holdsRiscv_createStub m a target).third]
  constructor
  · rintro ⟨n1, n2, g1, g2, g3⟩
    rw [h1] at g1
    cases g1
    rw [h2] at g2
    cases g2
    rwa [ht] at g3
  · intro h
    exact ⟨m1, _, h1, h2, by rw [ht, h]⟩

theorem loaded_other {r : BitVec 5} {pc target : BitVec 64} {mem : ByteMem} (h0 : r ≠ 0#5)
    (h : ∀ x, reg ⟨loaded x target, pc, mem⟩ r &&& ~~~1#64 = target) : r = 28#5 := by
  by_contra hr
  have hx : ∀ v : BitVec 64, reg ⟨loaded (fun _ => v) target, pc, mem⟩ r = v := by
    intro v
    simp [reg, loaded, hr, h0]
  have h1 := h fun _ => 0#64
  have h2 := h fun _ => 2#64
  rw [hx] at h1 h2
  rw [← h1] at h2
  exact absurd h2 (by decide)

theorem cjump_t3 {h : BitVec 16} (hop : h.extractLsb' 0 2 = 0b10#2)
    (hf : h.extractLsb' 13 3 = 0b100#3) (h2 : h.extractLsb' 2 5 = 0#5)
    (h7 : h.extractLsb' 7 5 = 28#5) : h = 0x8e02#16 ∨ h = 0x9e02#16 := by
  have hlt := h.isLt
  have field : ∀ {lo len : Nat} {v : BitVec len}, h.extractLsb' lo len = v →
      h.toNat / 2 ^ lo % 2 ^ len = v.toNat := by
    rintro lo len _ rfl
    rw [BitVec.extractLsb'_toNat, Nat.shiftRight_eq_div_pow]
  have e0 := field hop
  have e13 := field hf
  have e2 := field h2
  have e7 := field h7
  simp at e0 e13 e2 e7
  simp only [← BitVec.toNat_inj, BitVec.toNat_ofNat]
  omega

theorem low_half (target : BitVec 64) :
    (target.extractLsb' 0 32).extractLsb' 0 16 = target.extractLsb' 0 16 :=
  field_field target (by decide)

theorem decode_low_even {i : Rv64.Insn} (heven : Rv64.Even target)
    (h : Rv64.decode (target.extractLsb' 0 32) = some i) :
    Rv64.decode16 (target.extractLsb' 0 16) = some i := by
  have hlong : ¬ (target.extractLsb' 0 32).extractLsb' 0 2 = 0b11#2 := by
    intro h3
    have hb : Rv64.Even ((target.extractLsb' 0 32).extractLsb' 0 2) :=
      (Rv64.even_field (by decide)).mpr ((Rv64.even_field (by decide)).mpr heven)
    rw [h3] at hb
    exact absurd hb (by decide)
  rwa [Rv64.decode, if_neg hlong, low_half] at h

theorem decode_low_jump
    (h : target.extractLsb' 0 16 = 0x8e02#16 ∨ target.extractLsb' 0 16 = 0x9e02#16) :
    Rv64.decode (target.extractLsb' 0 32) = some (.cjr 28#5) ∨
    Rv64.decode (target.extractLsb' 0 32) = some (.cjalr 28#5) := by
  have hop : (target.extractLsb' 0 32).extractLsb' 0 2
      = (target.extractLsb' 0 16).extractLsb' 0 2 := by
    rw [field_field target (by decide), field_field target (by decide)]
  rcases h with h | h
  · left
    rw [Rv64.decode, hop, low_half, h, if_neg (by decide)]
    decide
  · right
    rw [Rv64.decode, hop, low_half, h, if_neg (by decide)]
    decide

/-- **When the RISC-V stub works**: its third instruction is the low word of the target, so exactly
when the low half of that encodes `c.jr t3` or `c.jalr t3`. -/
theorem riscvStub_jumps_iff (m : ByteMem) (pltAddr target : BitVec 64)
    (hslot : pltAddr.toNat % 16 = 0) :
    RiscvStubJumps m pltAddr target ↔
      target.extractLsb' 0 16 = 0x8e02#16 ∨ target.extractLsb' 0 16 = 0x9e02#16 := by
  rw [riscvStubJumps_iff_decode]
  generalize createStub .riscv64 m pltAddr target = mem
  constructor
  · intro h
    -- control goes to even addresses, so the low word is a compressed jump to a register
    have hpc : Rv64.Even (pltAddr + 8#64) := by
      rw [Rv64.Even, BitVec.getLsbD, BitVec.toNat_add, Nat.testBit_zero]
      exact decide_eq_false (by simp; omega)
    obtain ⟨i, hi, hd⟩ := Option.bind_eq_some_iff.mp (h fun _ => 0#64)
    have heven : Rv64.Even target := Rv64.Machine.dest_even hpc hi hd
    obtain ⟨h10, h100, hrs2, hrs1, hjump⟩ :=
      Rv64.decode16_even ((Rv64.even_field (by decide)).mpr heven) (decode_low_even heven hi)
    have h28 : (target.extractLsb' 0 16).extractLsb' 7 5 = 28#5 := by
      refine @loaded_other _ (pltAddr + 8#64) target mem hrs1 fun x => ?_
      have hx := h x
      rw [hi, Option.bind_some] at hx
      rcases hjump with rfl | rfl
      · exact Option.some.inj hx
      · exact Option.some.inj hx
    exact cjump_t3 h10 h100 hrs2 h28
  · intro h x
    have heven : Rv64.Even target := by
      have hb : Rv64.Even (target.extractLsb' 0 16) := by
        rcases h with h | h <;> rw [h] <;> decide
      exact (Rv64.even_field (by decide)).mp hb
    have hreg : Rv64.Machine.reg ⟨loaded x target, pltAddr + 8#64, mem⟩ 28#5 &&& ~~~1#64
        = target := heven.and_not_one
    rcases decode_low_jump h with hdec | hdec
    · rw [hdec, Option.bind_some, Rv64.Machine.dest, hreg]
    · rw [hdec, Option.bind_some, Rv64.Machine.dest, hreg]

theorem riscvStub_jumps_to_jr : RiscvStubJumps (fun _ => 0#8) 0x80400000#64 0x80208e02#64 :=
  (riscvStub_jumps_iff _ 0x80400000#64 0x80208e02#64 (by decide)).mpr (.inl (by decide))

/-- The stub for an ordinary function does not: its low word is not a jump. -/
theorem riscvStub_falls : ¬ RiscvStubJumps (fun _ => 0#8) 0x80400000#64 0x80200000#64 := by
  intro h
  have hdec : Rv64.decode ((0x80200000#64 : BitVec 64).extractLsb' 0 32) = none := by decide
  have hx := (riscvStubJumps_iff_decode _ _ _).mp h fun _ => 0#64
  rw [hdec] at hx
  cases hx

end Kerners.Module
