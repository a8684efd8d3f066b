import Kerners.Lib.Chain

/-!
# Boxes on a heap

A heap of boxes with data and a link to another box. A box has an identity, which is never used
again, and an address, which is given out again once the box is freed: a pointer names the box it
was made for, and two pointers compare equal when their addresses do.
-/

namespace Kerners.Lib

open Function

structure Node (T : Type*) where
  data : T
  next : Option Nat

/-- The boxes that are not freed, and the addresses of all boxes made so far. -/
structure Boxes (T : Type*) where
  box : Nat → Option (Node T)
  addr : Nat → Nat
  made : Nat
  unmade : ∀ b, made ≤ b → box b = none
  apart : ∀ b b', (box b).isSome → (box b').isSome → addr b = addr b' → b = b'

namespace Boxes

variable {T : Type*} (h : Boxes T)

def empty : Boxes T := ⟨fun _ => none, fun _ => 0, 0, fun _ _ => rfl, fun _ _ h => by cases h⟩

def Live (b : Nat) : Prop := (h.box b).isSome

instance (b : Nat) : Decidable (h.Live b) := inferInstanceAs (Decidable (_ = true))

def Used (a : Nat) : Prop := ∃ b < h.made, h.Live b ∧ h.addr b = a

instance (a : Nat) : Decidable (h.Used a) := inferInstanceAs (Decidable (∃ b < h.made, _))

theorem lt_of_live {b : Nat} (hb : h.Live b) : b < h.made := by
  by_contra hlt
  rw [Live, h.unmade b (Nat.not_lt.1 hlt)] at hb
  cases hb

/-- A new box at the address `a`. -/
def alloc (a : Nat) (n : Node T) (ha : ¬ h.Used a) : Boxes T where
  box := update h.box h.made (some n)
  addr := update h.addr h.made a
  made := h.made + 1
  unmade := fun b hb => by
    rw [update_of_ne (by omega), h.unmade b (by omega)]
  apart := by
    have hold : ∀ b, b ≠ h.made → (update h.box h.made (some n) b).isSome →
        update h.addr h.made a b ≠ a := fun b hne hb heq => by
      rw [update_of_ne hne] at hb heq
      exact ha ⟨b, h.lt_of_live hb, hb, heq⟩
    intro b b' hb hb' heq
    by_cases hbm : b = h.made <;> by_cases hbm' : b' = h.made
    · rw [hbm, hbm']
    · subst hbm
      rw [update_self] at heq
      exact absurd heq.symm (hold b' hbm' hb')
    · subst hbm'
      rw [update_self] at heq
      exact absurd heq (hold b hbm hb)
    · rw [update_of_ne hbm] at hb heq
      rw [update_of_ne hbm'] at hb' heq
      exact h.apart b b' hb hb' heq

def free (b : Nat) : Boxes T where
  box := update h.box b none
  addr := h.addr
  made := h.made
  unmade := fun x hx => by
    by_cases hxb : x = b
    · rw [hxb, update_self]
    · rw [update_of_ne hxb, h.unmade x hx]
  apart := by
    have hold : ∀ x, (update h.box b none x).isSome → (h.box x).isSome := fun x hx => by
      by_cases hxb : x = b
      · rw [hxb, update_self] at hx
        cases hx
      · rwa [update_of_ne hxb] at hx
    exact fun x x' hx hx' => h.apart x x' (hold x hx) (hold x' hx')

def setNext (b : Nat) (p : Option Nat) : Boxes T where
  box := update h.box b ((h.box b).map fun n => { n with next := p })
  addr := h.addr
  made := h.made
  unmade := fun x hx => by
    by_cases hxb : x = b
    · rw [hxb, update_self, h.unmade b (hxb ▸ hx)]
      rfl
    · rw [update_of_ne hxb, h.unmade x hx]
  apart := by
    have hold : ∀ x, (update h.box b ((h.box b).map fun n => { n with next := p }) x).isSome →
        (h.box x).isSome := fun x hx => by
      by_cases hxb : x = b
      · rw [hxb, update_self, Option.isSome_map] at hx
        rwa [hxb]
      · rwa [update_of_ne hxb] at hx
    exact fun x x' hx hx' => h.apart x x' (hold x hx) (hold x' hx')

def sameAddr : Option Nat → Option Nat → Bool
  | none, none => true
  | some b, some b' => h.addr b == h.addr b'
  | _, _ => false

def nextOf (p : Option Nat) : Option Nat := p.bind fun b => (h.box b).bind Node.next

def Cell (p : Option Nat) : Prop := ∃ b, p = some b ∧ h.Live b

/-- **From `p` the links go through the boxes `l` to null**, and none of them is freed. -/
def Leads (p : Option Nat) (l : List (Option Nat)) : Prop := Walk h.nextOf h.Cell (· = none) p l

variable {h} {p q : Option Nat} {l l' : List (Option Nat)} {b x a : Nat} {n : Node T}
  (ha : ¬ h.Used a)

theorem cell_ne_none (p : Option Nat) (hp : h.Cell p) : ¬ p = none := by
  obtain ⟨b, rfl, -⟩ := hp
  exact Option.some_ne_none b

theorem leads_none : h.Leads none [] := .done rfl

theorem leads_single (hb : h.Live b) (hn : h.nextOf (some b) = none) : h.Leads (some b) [some b] :=
  .step ⟨b, rfl, hb⟩ (.done hn)

theorem Leads.live (hl : h.Leads p l) (hb : some b ∈ l) : h.Live b := by
  obtain ⟨b', heq, hb'⟩ := Walk.cells hl _ hb
  rwa [Option.some.inj heq]

theorem Leads.step (hl : h.Leads (some b) l) :
    ∃ l', l = some b :: l' ∧ h.Leads (h.nextOf (some b)) l' ∧ some b ∉ l' := by
  have hnd := Walk.nodup cell_ne_none hl
  cases hl with
  | done hs => cases hs
  | @step _ l' _ hr => exact ⟨l', rfl, hr, (List.nodup_cons.1 hnd).1⟩

theorem eq_of_sameAddr (hl : h.Leads p l) (hl' : h.Leads q l') (hs : h.sameAddr p q = true) :
    p = q := by
  cases p with
  | none =>
    cases q with
    | none => rfl
    | some b => cases hs
  | some b =>
    cases q with
    | none => cases hs
    | some b' =>
      obtain ⟨m, rfl, -⟩ := hl.step
      obtain ⟨m', rfl, -⟩ := hl'.step
      have heq := h.apart b b' (hl.live List.mem_cons_self) (hl'.live List.mem_cons_self)
        (beq_iff_eq.1 hs)
      rw [heq]

/-! ## Changes -/

theorem live_alloc : (h.alloc a n ha).Live x ↔ x = h.made ∨ h.Live x := by
  by_cases hx : x = h.made
  · simp [Live, alloc, hx]
  · simp [Live, alloc, hx, update_of_ne]

theorem not_live_made : ¬ h.Live h.made := fun hl => Nat.lt_irrefl _ (h.lt_of_live hl)

theorem nextOf_alloc (hx : x ≠ h.made) : (h.alloc a n ha).nextOf (some x) = h.nextOf (some x) := by
  simp only [nextOf, alloc, Option.bind_some]
  rw [update_of_ne hx]

theorem nextOf_alloc_self : (h.alloc a n ha).nextOf (some h.made) = n.next := by
  simp [nextOf, alloc]

theorem Leads.alloc (hl : h.Leads p l) : (h.alloc a n ha).Leads p l := by
  refine Walk.transfer hl (fun y hy => ?_) fun y hy ⟨b, hb, hlive⟩ =>
    ⟨b, hb, (live_alloc ha).2 (.inr hlive)⟩
  obtain ⟨b, rfl, hb⟩ := Walk.cells hl y hy
  exact nextOf_alloc ha fun heq => not_live_made (heq ▸ hb)

theorem live_free : (h.free b).Live x ↔ x ≠ b ∧ h.Live x := by
  by_cases hx : x = b
  · simp [Live, free, hx]
  · simp [Live, free, hx, update_of_ne]

theorem nextOf_free (hx : x ≠ b) : (h.free b).nextOf (some x) = h.nextOf (some x) := by
  simp only [nextOf, free, Option.bind_some]
  rw [update_of_ne hx]

theorem Leads.free (hl : h.Leads p l) (hb : some b ∉ l) : (h.free b).Leads p l := by
  have hne : ∀ {x}, some x ∈ l → x ≠ b := fun hx heq => hb (heq ▸ hx)
  refine Walk.transfer hl (fun y hy => ?_) ?_
  · obtain ⟨x, rfl, -⟩ := Walk.cells hl y hy
    exact nextOf_free (hne hy)
  · rintro y hy ⟨x, rfl, hx⟩
    exact ⟨x, rfl, live_free.2 ⟨hne hy, hx⟩⟩

theorem live_setNext : (h.setNext b q).Live x ↔ h.Live x := by
  by_cases hx : x = b
  · simp [Live, setNext, hx]
  · simp [Live, setNext, update_of_ne hx]

theorem nextOf_setNext (hx : x ≠ b) : (h.setNext b q).nextOf (some x) = h.nextOf (some x) := by
  simp only [nextOf, setNext, Option.bind_some]
  rw [update_of_ne hx]

theorem nextOf_setNext_self (hb : h.Live b) : (h.setNext b q).nextOf (some b) = q := by
  obtain ⟨n, hn⟩ := Option.isSome_iff_exists.1 hb
  simp [nextOf, setNext, hn]

theorem Leads.setNext (hl : h.Leads p l) (hb : some b ∉ l) : (h.setNext b q).Leads p l := by
  refine Walk.transfer hl (fun y hy => ?_) fun y _ ⟨x, hx, hlive⟩ => ⟨x, hx, live_setNext.2 hlive⟩
  obtain ⟨x, rfl, -⟩ := Walk.cells hl y hy
  exact nextOf_setNext fun heq => hb (heq ▸ hy)

end Boxes

end Kerners.Lib
