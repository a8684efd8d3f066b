import Kerners.Lib.Boxes
import Kerners.Lib.Threads
import Kerners.Lib.Word

/-!
# Read-copy-update (`sync/rcu.rs`)

One `RcuCell` and one `RcuList`, and any number of guards, iterators and calls on them, interleaved
at their accesses. `rcu_read_lock` and `rcu_read_unlock` are fences, and `synchronize_rcu` adds to a
counter that nobody reads: neither is more than a turn here.

Boxes have identities and addresses (`Lib.Boxes`); a `compare_exchange` compares addresses, and a
freed address may be given out again. `compare_exchange_weak` may fail without a reason.
-/

namespace Kerners.Sync

open Lib Function List

variable {T : Type*}

/-- The boxes, `RcuCell.ptr`, `RcuList.head` and `RCU_GLOBAL_EPOCH`. -/
structure Rcu (T : Type*) where
  heap : Boxes T
  cell : Nat
  head : Option Nat
  epoch : Nat

/-- Where a guard, an iterator or a call stands. An iterator has returned the data of the box `item`
and goes on at `current`. -/
inductive RcuPc (T : Type*) where
  | start
  | guard (ptr : Nat)
  | cloning (f : T → T) (oldPtr : Nat)
  | boxing (newData : T)
  | swapping (newPtr : Nat)
  | walking (item current : Option Nat)
  | pushBoxing (data : T)
  | pushing (newNode : Nat)
  | storing (newNode : Nat) (head : Option Nat)
  | linking (newNode : Nat) (head : Option Nat)
  | popping
  | popHead (head : Nat)
  | unlinking (head : Nat) (next : Option Nat)
  | syncing (old : Nat)
  | freeing (old : Nat)
  | done

/-- The entry points, and how a call goes on: with its next access, with a look at the data that a
guard or an iterator has given out, with the end of a guard or an iterator, with `Box::new` at an
address, or with a `compare_exchange_weak` that fails by itself. -/
inductive RcuAct (T : Type*) where
  | read
  | update (f : T → T)
  | replace (newData : T)
  | iter
  | pushFront (data : T)
  | popFront
  | step
  | look
  | drop
  | boxAt (addr : Nat)
  | spurious

/-- `Box::into_raw(Box::new(..))` at the address `addr`. -/
def Rcu.boxNew (s : Rcu T) (data : T) (addr : Nat) (pc : Nat → RcuPc T) : Option (Rcu T × RcuPc T) :=
  if h : s.heap.Used addr then none
  else some ({ s with heap := s.heap.alloc addr ⟨data, none⟩ h }, pc s.heap.made)

def Rcu.turn (s : Rcu T) : RcuPc T → RcuAct T → Option (Rcu T × RcuPc T)
  -- `RcuCell::read`
  | .start, .read => some (s, .guard s.cell)
  | .guard p, .look => if s.heap.Live p then some (s, .guard p) else none
  | .guard _, .drop => some (s, .done)
  -- `RcuCell::update` and `replace`
  | .start, .update f => some (s, .cloning f s.cell)
  | .cloning f p, .step => (s.heap.box p).map fun n => (s, .boxing (f n.data))
  | .start, .replace newData => some (s, .boxing newData)
  | .boxing newData, .boxAt addr => s.boxNew newData addr .swapping
  | .swapping newPtr, .step => some ({ s with cell := newPtr }, .syncing s.cell)
  -- `RcuList::iter` and `RcuListIter::next`
  | .start, .iter => some (s, .walking none s.head)
  | .walking item none, .step => some (s, .walking item none)
  | .walking _ (some p), .step => (s.heap.box p).map fun n => (s, .walking (some p) n.next)
  | .walking (some p) current, .look =>
    if s.heap.Live p then some (s, .walking (some p) current) else none
  | .walking _ _, .drop => some (s, .done)
  -- `RcuList::push_front`
  | .start, .pushFront data => some (s, .pushBoxing data)
  | .pushBoxing data, .boxAt addr => s.boxNew data addr .pushing
  | .pushing newNode, .step => some (s, .storing newNode s.head)
  | .storing newNode head, .step =>
    if s.heap.Live newNode then
      some ({ s with heap := s.heap.setNext newNode head }, .linking newNode head)
    else none
  | .linking newNode head, .step =>
    if s.heap.sameAddr s.head head then some ({ s with head := some newNode }, .done)
    else some (s, .pushing newNode)
  | .linking newNode _, .spurious => some (s, .pushing newNode)
  -- `RcuList::pop_front`
  | .start, .popFront => some (s, .popping)
  | .popping, .step => some (s, s.head.elim .done .popHead)
  | .popHead head, .step => (s.heap.box head).map fun n => (s, .unlinking head n.next)
  | .unlinking head next, .step =>
    if s.heap.sameAddr s.head (some head) then some ({ s with head := next }, .syncing head)
    else some (s, .popping)
  | .unlinking _ _, .spurious => some (s, .popping)
  -- `synchronize_rcu` and `Box::from_raw`
  | .syncing old, .step => some ({ s with epoch := incWord s.epoch }, .freeing old)
  | .freeing old, .step =>
    if s.heap.Live old then some ({ s with heap := s.heap.free old }, .done) else none
  | _, _ => none

namespace RcuPc

def touches : RcuPc T → RcuAct T → Option Nat
  | .guard p, .look => some p
  | .cloning _ p, .step => some p
  | .walking _ current, .step => current
  | .walking item _, .look => item
  | .storing newNode _, .step => some newNode
  | .popHead head, .step => some head
  | .freeing old, .step => some old
  | _, _ => none

def held : RcuPc T → List (Option Nat)
  | .guard p => [some p]
  | .cloning _ p => [some p]
  | .walking item current => [item, current]
  | .storing _ head => [head]
  | .linking _ head => [head]
  | .popHead head => [some head]
  | .unlinking head _ => [some head]
  | _ => []

def own : RcuPc T → Option Nat
  | .swapping b => some b
  | .pushing b => some b
  | .storing b _ => some b
  | .linking b _ => some b
  | .syncing b => some b
  | .freeing b => some b
  | _ => none

def fresh : RcuPc T → Option Nat
  | .swapping b => some b
  | .pushing b => some b
  | .storing b _ => some b
  | .linking b _ => some b
  | _ => none

theorem own_of_fresh {p : RcuPc T} {b : Nat} (h : p.fresh = some b) : p.own = some b := by
  cases p <;> first | exact h | cases h

def Fits (h : Boxes T) : RcuPc T → Prop
  | .swapping b => h.nextOf (some b) = none
  | .linking b head => h.nextOf (some b) = head
  | .unlinking head next => h.nextOf (some head) = next
  | _ => True

end RcuPc

/-! ## What a turn does -/

inductive RcuEffect (s : Rcu T) : RcuPc T → Rcu T → RcuPc T → Prop
  | quiet {p p' : RcuPc T} {epoch : Nat}
      (hheld : ∀ q ∈ p'.held, q ∈ p.held ∨ q = s.head ∨ q = some s.cell ∨ q = none ∨
        ∃ x ∈ p.held, q = s.heap.nextOf x)
      (hown : p'.own = p.own) (hfresh : p'.fresh = p.fresh) (hfits : p'.Fits s.heap) :
      RcuEffect s p { s with epoch := epoch } p'
  | boxed {p p' : RcuPc T} {data : T} {addr : Nat} {hu : ¬ s.heap.Used addr} (hheld : p'.held = [])
      (hown : p'.own = some s.heap.made) (hfits : p'.Fits (s.heap.alloc addr ⟨data, none⟩ hu)) :
      RcuEffect s p { s with heap := s.heap.alloc addr ⟨data, none⟩ hu } p'
  | stored (b : Nat) (head : Option Nat) :
      RcuEffect s (.storing b head) { s with heap := s.heap.setNext b head } (.linking b head)
  | swapped (b : Nat) : RcuEffect s (.swapping b) { s with cell := b } (.syncing s.cell)
  | linked (b : Nat) (head : Option Nat) (hsame : s.heap.sameAddr s.head head = true) :
      RcuEffect s (.linking b head) { s with head := some b } .done
  | unlinked (b : Nat) (next : Option Nat) (hsame : s.heap.sameAddr s.head (some b) = true) :
      RcuEffect s (.unlinking b next) { s with head := next } (.syncing b)
  | freed (b : Nat) : RcuEffect s (.freeing b) { s with heap := s.heap.free b } .done

open Boxes

section

variable {s s' : Rcu T} {p p' : RcuPc T} {a : RcuAct T}

theorem Rcu.boxNew_effect {data : T} {addr : Nat} {pc : Nat → RcuPc T}
    (h : s.boxNew data addr pc = some (s', p')) (hheld : ∀ b, (pc b).held = [])
    (hown : ∀ b, (pc b).own = some b)
    (hfits : ∀ (heap : Boxes T) b, heap.nextOf (some b) = none → (pc b).Fits heap) :
    RcuEffect s p s' p' := by
  unfold Rcu.boxNew at h
  split_ifs at h with hu
  obtain ⟨rfl, rfl⟩ := Prod.mk.inj (Option.some.inj h)
  exact .boxed (hheld _) (hown _) (hfits _ _ (nextOf_alloc_self hu))

theorem RcuEffect.still
    (hheld : ∀ q ∈ p'.held,
        q ∈ p.held ∨ q = s.head ∨ q = some s.cell ∨ q = none ∨ ∃ x ∈ p.held, q = s.heap.nextOf x)
    (hown : p'.own = p.own) (hfresh : p'.fresh = p.fresh) (hfits : p'.Fits s.heap) :
    RcuEffect s p s p' := .quiet hheld hown hfresh hfits

theorem Rcu.turn_effect (h : s.turn p a = some (s', p')) : RcuEffect s p s' p' := by
  have hnext : ∀ {b n}, s.heap.box b = some n → s.heap.nextOf (some b) = n.next := fun hn => by
    simp [nextOf, hn]
  revert h
  fun_cases Rcu.turn s p a <;> intro h
  case case6 | case12 | case26 =>
    -- a box is read
    obtain ⟨n, hn, heq⟩ := Option.map_eq_some_iff.1 h
    obtain ⟨rfl, rfl⟩ := Prod.mk.inj heq
    exact .still (by simp [RcuPc.held, hnext hn]) rfl rfl (by simp [RcuPc.Fits, hnext hn])
  case case8 | case17 =>
    exact Rcu.boxNew_effect h (fun _ => rfl) (fun _ => rfl) fun _ _ hn => by
      first | exact hn | trivial
  case case25 =>
    obtain ⟨rfl, rfl⟩ := Prod.mk.inj (Option.some.inj h)
    cases hhead : s.head with
    | none => exact .still (fun _ hq => absurd hq not_mem_nil) rfl rfl trivial
    | some b => exact .still (by simp [RcuPc.held, hhead]) rfl rfl trivial
  all_goals first
    | cases h; done
    | obtain ⟨rfl, rfl⟩ := Prod.mk.inj (Option.some.inj h)
  case case9 => exact .swapped _
  case case19 => exact .stored _ _
  case case21 hsame => exact .linked _ _ hsame
  case case27 hsame => exact .unlinked _ _ hsame
  case case30 => exact .quiet (fun _ hq => absurd hq not_mem_nil) rfl rfl trivial
  case case31 => exact .freed _
  all_goals exact .still (by simp [RcuPc.held]) rfl rfl trivial

end

/-! ## Runs -/

abbrev RcuConf (ι T : Type*) := Conf ι (Rcu T) (RcuPc T)

variable {ι : Type*}

/-- `RcuCell::new(data)`, with the box at the address `addr`, and `RcuList::new()`. -/
def Rcu.new (data : T) (addr : Nat) : RcuConf ι T where
  shared := ⟨Boxes.empty.alloc addr ⟨data, none⟩ (fun ⟨_, h, _⟩ => by cases h), 0, none, 0⟩
  thread := fun _ => .start

/-- What keeps the boxes apart, with the calls at the places `t`. -/
structure RcuInv (s : Rcu T) (t : ι → RcuPc T) : Prop where
  cell : s.heap.Live s.cell ∧ s.heap.nextOf (some s.cell) = none
  head : ∃ l, s.heap.Leads s.head l ∧ some s.cell ∉ l ∧ ∀ j b, (t j).own = some b → some b ∉ l
  held : ∀ j, ∀ p ∈ (t j).held, ∃ l, s.heap.Leads p l ∧ ∀ k b, (t k).fresh = some b → some b ∉ l
  own : ∀ j b, (t j).own = some b → s.heap.Live b ∧ b ≠ s.cell
  apart : ∀ j k b, (t j).own = some b → (t k).own = some b → j = k
  fits : ∀ j, (t j).Fits s.heap

theorem RcuInv.new (data : T) (addr : Nat) :
    RcuInv (Rcu.new data addr : RcuConf ι T).shared (Rcu.new data addr : RcuConf ι T).thread := by
  have hu : ¬ (Boxes.empty : Boxes T).Used addr := fun ⟨_, h, _⟩ => by cases h
  refine ⟨⟨?_, ?_⟩, ⟨[], leads_none, nofun, nofun⟩, nofun, nofun, nofun, fun _ => trivial⟩
  · exact (live_alloc hu).2 (.inl rfl)
  · exact nextOf_alloc_self hu

variable [DecidableEq ι]

def Rcu.next : RcuConf ι T → ι × RcuAct T → Option (RcuConf ι T) := Conf.next Rcu.turn

/-- A box is freed only when no other guard, iterator or call holds a pointer that leads to it. -/
def RcuOk (c : RcuConf ι T) (ia : ι × RcuAct T) : Prop :=
  ∀ b, c.thread ia.1 = .freeing b → ∀ j, j ≠ ia.1 → ∀ p ∈ (c.thread j).held, ∀ l,
    c.shared.heap.Leads p l → some b ∉ l

section

variable {s s' : Rcu T} {t : ι → RcuPc T} {i : ι} {p' : RcuPc T} {b : Nat}

theorem update_cases {Q : RcuPc T → Prop} {j : ι} (h : Q (update t i p' j)) :
    j = i ∧ Q p' ∨ j ≠ i ∧ Q (t j) := by
  by_cases hj : j = i
  · rw [hj, update_self] at h
    exact .inl ⟨hj, h⟩
  · rw [update_of_ne hj] at h
    exact .inr ⟨hj, h⟩

theorem RcuPc.Fits.congr {h h' : Boxes T} {p : RcuPc T} (hf : p.Fits h)
    (heq : ∀ b, p.own = some b ∨ some b ∈ p.held → h'.nextOf (some b) = h.nextOf (some b)) :
    p.Fits h' := by
  cases p with
  | swapping b => exact (heq b (.inl rfl)).trans hf
  | linking b head => exact (heq b (.inl rfl)).trans hf
  | unlinking head next => exact (heq head (.inr mem_cons_self)).trans hf
  | _ => trivial

omit [DecidableEq ι] in
theorem RcuInv.live_or (h : RcuInv s t) {j : ι} (hb : (t j).own = some b ∨ some b ∈ (t j).held) :
    s.heap.Live b ∧ ∀ k, k ≠ j → (t k).fresh ≠ some b := by
  rcases hb with hb | hb
  · exact ⟨(h.own j b hb).1, fun k hk hf => hk (h.apart k j b (RcuPc.own_of_fresh hf) hb)⟩
  · obtain ⟨l, hl, hf⟩ := h.held j _ hb
    obtain ⟨l', rfl, -⟩ := hl.step
    exact ⟨hl.live mem_cons_self, fun k _ hk => hf k b hk mem_cons_self⟩

theorem RcuInv.quiet (h : RcuInv s t) {epoch : Nat}
    (hheld : ∀ q ∈ p'.held, q ∈ (t i).held ∨ q = s.head ∨ q = some s.cell ∨ q = none ∨
      ∃ x ∈ (t i).held, q = s.heap.nextOf x)
    (hown : p'.own = (t i).own) (hfresh : p'.fresh = (t i).fresh) (hfits : p'.Fits s.heap) :
    RcuInv { s with epoch := epoch } (update t i p') := by
  have hown' : ∀ j, (update t i p' j).own = (t j).own :=
    forall_update_iff t (fun j p => p.own = (t j).own) |>.2 ⟨hown, fun _ _ => rfl⟩
  have hfresh' : ∀ j, (update t i p' j).fresh = (t j).fresh :=
    forall_update_iff t (fun j p => p.fresh = (t j).fresh) |>.2 ⟨hfresh, fun _ _ => rfl⟩
  obtain ⟨l, hl, hcell, hlown⟩ := h.head
  refine ⟨h.cell, ⟨l, hl, hcell, fun j b hb => hlown j b ((hown' j).symm.trans hb)⟩, ?_,
    fun j b hb => h.own j b ((hown' j).symm.trans hb),
    fun j k b hj hk => h.apart j k b ((hown' j).symm.trans hj) ((hown' k).symm.trans hk), ?_⟩
  · simp only [hfresh']
    intro j q hq
    rcases update_cases (Q := fun p => q ∈ p.held) hq with ⟨-, hq⟩ | ⟨-, hq⟩
    · rcases hheld q hq with hq | rfl | rfl | rfl | ⟨x, hx, rfl⟩
      · exact h.held i q hq
      · exact ⟨l, hl, fun k b hb => hlown k b (RcuPc.own_of_fresh hb)⟩
      · refine ⟨_, leads_single h.cell.1 h.cell.2, fun k b hb hmem => ?_⟩
        exact (h.own k b (RcuPc.own_of_fresh hb)).2 (Option.some.inj (mem_singleton.1 hmem))
      · exact ⟨[], leads_none, fun _ _ _ => not_mem_nil⟩
      · obtain ⟨m, hm, hmf⟩ := h.held i x hx
        cases x with
        | none => exact ⟨[], leads_none, fun _ _ _ => not_mem_nil⟩
        | some b =>
          obtain ⟨m', rfl, hm', -⟩ := hm.step
          exact ⟨m', hm', fun k b' hb' hmem => hmf k b' hb' (mem_cons_of_mem _ hmem)⟩
    · exact h.held j q hq
  · exact forall_update_iff t (fun _ p => p.Fits s.heap) |>.2 ⟨hfits, fun j _ => h.fits j⟩

theorem RcuInv.of_turn (h : RcuInv s t) (hheld : p'.held = [])
    (hfresh : ∀ b, p'.fresh = some b → ∀ q l, s.heap.Leads q l → some b ∉ l)
    (hfits : p'.Fits s'.heap)
    (hcell : s'.heap.Live s'.cell ∧ s'.heap.nextOf (some s'.cell) = none)
    (hhead : ∃ l, s'.heap.Leads s'.head l ∧
        some s'.cell ∉ l ∧
        (∀ b, p'.own = some b → some b ∉ l) ∧
        ∀ j b, j ≠ i → (t j).own = some b → some b ∉ l)
    (hleads : ∀ j q l, j ≠ i → q ∈ (t j).held → s.heap.Leads q l → s'.heap.Leads q l)
    (hnext : ∀ j b, j ≠ i → (t j).own = some b ∨ some b ∈ (t j).held →
        s'.heap.nextOf (some b) = s.heap.nextOf (some b))
    (hmine : ∀ b, p'.own = some b → s'.heap.Live b ∧ b ≠ s'.cell ∧ ∀ j, j ≠ i → (t j).own ≠ some b)
    (hothers : ∀ j b, j ≠ i → (t j).own = some b → s'.heap.Live b ∧ b ≠ s'.cell) :
    RcuInv s' (update t i p') := by
  obtain ⟨l, hl, hcl, hil, hjl⟩ := hhead
  refine ⟨hcell, ⟨l, hl, hcl, fun j b hb => ?_⟩, fun j q hq => ?_, fun j b hb => ?_,
    fun j k b hj hk => ?_, ?_⟩
  · rcases update_cases (Q := fun p => p.own = some b) hb with ⟨-, hb⟩ | ⟨hj, hb⟩
    · exact hil b hb
    · exact hjl j b hj hb
  · rcases update_cases (Q := fun p => q ∈ p.held) hq with ⟨-, hq⟩ | ⟨hj, hq⟩
    · rw [hheld] at hq
      cases hq
    · obtain ⟨m, hm, hmf⟩ := h.held j q hq
      refine ⟨m, hleads j q m hj hq hm, fun k b hb => ?_⟩
      rcases update_cases (Q := fun p => p.fresh = some b) hb with ⟨-, hb⟩ | ⟨-, hb⟩
      · exact hfresh b hb q m hm
      · exact hmf k b hb
  · rcases update_cases (Q := fun p => p.own = some b) hb with ⟨-, hb⟩ | ⟨hj, hb⟩
    · exact ⟨(hmine b hb).1, (hmine b hb).2.1⟩
    · exact hothers j b hj hb
  · rcases update_cases (Q := fun p => p.own = some b) hj with ⟨hji, hj'⟩ | ⟨hji, hj'⟩ <;>
      rcases update_cases (Q := fun p => p.own = some b) hk with ⟨hki, hk'⟩ | ⟨hki, hk'⟩
    · exact hji.trans hki.symm
    · exact absurd hk' ((hmine b hj').2.2 k hki)
    · exact absurd hj' ((hmine b hk').2.2 j hji)
    · exact h.apart j k b hj' hk'
  · exact forall_update_iff t (fun _ p => p.Fits s'.heap) |>.2
      ⟨hfits, fun j hj => (h.fits j).congr fun b hb => hnext j b hj hb⟩

theorem RcuInv.boxed (h : RcuInv s t) {n : Node T} {addr : Nat} {hu : ¬ s.heap.Used addr}
    (hheld : p'.held = []) (hown : p'.own = some s.heap.made)
    (hfits : p'.Fits (s.heap.alloc addr n hu)) :
    RcuInv { s with heap := s.heap.alloc addr n hu } (update t i p') := by
  have hne : ∀ {b}, s.heap.Live b → b ≠ s.heap.made := fun hb heq => not_live_made (heq ▸ hb)
  have hmade : ∀ {b}, p'.own = some b → b = s.heap.made := fun hb =>
    Option.some.inj (hb.symm.trans hown)
  obtain ⟨l, hl, hcell, hlown⟩ := h.head
  refine h.of_turn hheld (fun b hb q m hm hmem => ?_) hfits
    ⟨(live_alloc hu).2 (.inr h.cell.1), (nextOf_alloc hu (hne h.cell.1)).trans h.cell.2⟩
    ⟨l, hl.alloc hu, hcell, fun b hb hmem => hne (hl.live hmem) (hmade hb), fun j b _ => hlown j b⟩
    (fun _ _ _ _ _ hl => hl.alloc hu)
    (fun j b _ hb => nextOf_alloc hu (hne (h.live_or hb).1)) (fun b hb => ?_)
    fun j b _ hb => ⟨(live_alloc hu).2 (.inr (h.own j b hb).1), (h.own j b hb).2⟩
  · exact hne (hm.live hmem) (hmade (RcuPc.own_of_fresh hb))
  · obtain rfl := hmade hb
    exact ⟨(live_alloc hu).2 (.inl rfl), (hne h.cell.1).symm,
      fun j _ hj => hne (h.own j _ hj).1 rfl⟩

theorem RcuInv.stored (h : RcuInv s t) {head : Option Nat} (hi : t i = .storing b head) :
    RcuInv { s with heap := s.heap.setNext b head } (update t i (.linking b head)) := by
  have hown' : ∀ j, (update t i (.linking b head) j).own = (t j).own :=
    forall_update_iff t (fun j p => p.own = (t j).own) |>.2
      ⟨by rw [hi]; rfl, fun _ _ => rfl⟩
  have hfresh' : ∀ j, (update t i (.linking b head) j).fresh = (t j).fresh :=
    forall_update_iff t (fun j p => p.fresh = (t j).fresh) |>.2
      ⟨by rw [hi]; rfl, fun _ _ => rfl⟩
  have hheld' : ∀ j, (update t i (.linking b head) j).held = (t j).held :=
    forall_update_iff t (fun j p => p.held = (t j).held) |>.2
      ⟨by rw [hi]; rfl, fun _ _ => rfl⟩
  have hif : (t i).fresh = some b := by rw [hi]; rfl
  have hio := RcuPc.own_of_fresh hif
  obtain ⟨l, hl, hcell, hlown⟩ := h.head
  refine ⟨⟨live_setNext.2 h.cell.1, ?_⟩, ⟨l, hl.setNext (hlown i b hio), hcell, ?_⟩, ?_, ?_,
    ?_, ?_⟩
  · exact (nextOf_setNext (h.own i b hio).2.symm).trans h.cell.2
  · exact fun j b hb => hlown j b ((hown' j).symm.trans hb)
  · simp only [hfresh', hheld']
    intro j q hq
    obtain ⟨m, hm, hmf⟩ := h.held j q hq
    exact ⟨m, hm.setNext (hmf i b hif), hmf⟩
  · simp only [hown', live_setNext]
    exact h.own
  · simpa only [hown'] using h.apart
  · refine forall_update_iff t (fun _ p => p.Fits (s.heap.setNext b head)) |>.2
      ⟨nextOf_setNext_self (h.own i b hio).1, fun j hj => (h.fits j).congr fun b' hb' => ?_⟩
    refine nextOf_setNext fun heq => (h.live_or hb').2 i hj.symm ?_
    rw [hif, heq]

theorem RcuInv.swapped (h : RcuInv s t) (hi : t i = .swapping b) :
    RcuInv { s with cell := b } (update t i (.syncing s.cell)) := by
  have hio : (t i).own = some b := by rw [hi]; rfl
  have hfits : s.heap.nextOf (some b) = none := by
    have := h.fits i
    rwa [hi] at this
  obtain ⟨l, hl, hcell, hlown⟩ := h.head
  refine h.of_turn rfl nofun trivial ⟨(h.own i b hio).1, hfits⟩
    ⟨l, hl, hlown i b hio, ?_, fun j b _ => hlown j b⟩ (fun _ _ _ _ _ hl => hl)
    (fun _ _ _ _ => rfl) ?_ fun j b' hj hb' => ⟨(h.own j b' hb').1, ?_⟩
  · rintro _ ⟨⟩
    exact hcell
  · rintro _ ⟨⟩
    exact ⟨h.cell.1, (h.own i b hio).2.symm, fun j _ hb' => (h.own j _ hb').2 rfl⟩
  · rintro rfl
    exact hj (h.apart j i _ hb' hio)

theorem RcuInv.linked (h : RcuInv s t) {b : Nat} {head : Option Nat} (hi : t i = .linking b head)
    (hsame : s.heap.sameAddr s.head head = true) :
    RcuInv { s with head := some b } (update t i .done) := by
  have hio : (t i).own = some b := by rw [hi]; rfl
  have hfits : s.heap.nextOf (some b) = head := by
    have := h.fits i
    rwa [hi] at this
  obtain ⟨l, hl, hcell, hlown⟩ := h.head
  obtain ⟨m, hm, -⟩ := h.held i head (by rw [hi]; exact mem_cons_self)
  obtain rfl := eq_of_sameAddr hl hm hsame
  have hb := h.own i b hio
  refine h.of_turn rfl nofun trivial h.cell
    ⟨some b :: l, Walk.step ⟨b, rfl, hb.1⟩ (hfits ▸ hl), ?_, nofun, fun j b' hj hb' hmem => ?_⟩
    (fun _ _ _ _ _ hl => hl) (fun _ _ _ _ => rfl) nofun fun j b' _ => h.own j b'
  · intro hmem
    rcases mem_cons.1 hmem with heq | hmem
    · exact hb.2 (Option.some.inj heq).symm
    · exact hcell hmem
  · rcases mem_cons.1 hmem with heq | hmem
    · exact hj (h.apart j i b (Option.some.inj heq ▸ hb') hio)
    · exact hlown j b' hb' hmem

theorem RcuInv.unlinked (h : RcuInv s t) {next : Option Nat} (hi : t i = .unlinking b next)
    (hsame : s.heap.sameAddr s.head (some b) = true) :
    RcuInv { s with head := next } (update t i (.syncing b)) := by
  have hfits : s.heap.nextOf (some b) = next := by
    have := h.fits i
    rwa [hi] at this
  obtain ⟨l, hl, hcell, hlown⟩ := h.head
  obtain ⟨m, hm, -⟩ := h.held i (some b) (by rw [hi]; exact mem_cons_self)
  have heq := eq_of_sameAddr hl hm hsame
  rw [heq] at hl
  obtain ⟨l', rfl, hl', hnot⟩ := hl.step
  rw [hfits] at hl'
  refine h.of_turn rfl nofun trivial h.cell
    ⟨l', hl', fun hmem => hcell (mem_cons_of_mem _ hmem), ?_,
      fun j b' _ hb' hmem => hlown j b' hb' (mem_cons_of_mem _ hmem)⟩
    (fun _ _ _ _ _ hl => hl) (fun _ _ _ _ => rfl) ?_ fun j b' _ => h.own j b'
  · rintro _ ⟨⟩
    exact hnot
  · rintro _ ⟨⟩
    refine ⟨hl.live mem_cons_self, fun heq => hcell (heq ▸ mem_cons_self), ?_⟩
    exact fun j _ hb' => hlown j b hb' mem_cons_self

theorem RcuInv.freed (h : RcuInv s t) (hi : t i = .freeing b)
    (hok : ∀ j, j ≠ i → ∀ p ∈ (t j).held, ∀ l, s.heap.Leads p l → some b ∉ l) :
    RcuInv { s with heap := s.heap.free b } (update t i .done) := by
  have hio : (t i).own = some b := by rw [hi]; rfl
  have hb := h.own i b hio
  have hne : ∀ {j b'}, j ≠ i → (t j).own = some b' → b' ≠ b := fun hj hb' heq =>
    hj (h.apart _ i b (heq ▸ hb') hio)
  obtain ⟨l, hl, hcell, hlown⟩ := h.head
  refine h.of_turn rfl nofun trivial
    ⟨live_free.2 ⟨hb.2.symm, h.cell.1⟩, (nextOf_free hb.2.symm).trans h.cell.2⟩
    ⟨l, hl.free (hlown i b hio), hcell, nofun, fun j b' _ => hlown j b'⟩
    (fun j q l hj hq hl => hl.free (hok j hj q hq l hl)) (fun j b' hj hb' => ?_) nofun
    fun j b' hj hb' => ⟨live_free.2 ⟨hne hj hb', (h.own j b' hb').1⟩, (h.own j b' hb').2⟩
  rcases hb' with hb' | hb'
  · exact nextOf_free (hne hj hb')
  · obtain ⟨m, hm, -⟩ := h.held j _ hb'
    refine nextOf_free fun heq => hok j hj _ hb' m hm ?_
    obtain ⟨m', rfl, -⟩ := hm.step
    rw [heq]
    exact mem_cons_self

theorem RcuInv.next {c c' : RcuConf ι T} {ia : ι × RcuAct T} (h : RcuInv c.shared c.thread)
    (hok : RcuOk c ia) (hn : Rcu.next c ia = some c') : RcuInv c'.shared c'.thread := by
  obtain ⟨i, a⟩ := ia
  obtain ⟨s', p', ht, rfl⟩ := Conf.exists_turn hn
  have heff := Rcu.turn_effect ht
  generalize hi : c.thread i = p at heff
  cases heff with
  | quiet hheld hown hfresh hfits =>
    subst hi
    exact h.quiet hheld hown hfresh hfits
  | boxed hheld hown hfits => exact h.boxed hheld hown hfits
  | stored b head => exact h.stored hi
  | swapped b => exact h.swapped hi
  | linked b head hsame => exact h.linked hi hsame
  | unlinked b next hsame => exact h.unlinked hi hsame
  | freed b => exact h.freed hi (hok b hi)

omit [DecidableEq ι] in
theorem RcuPc.held_of_touches {p : RcuPc T} {a : RcuAct T} (h : p.touches a = some b) :
    p.own = some b ∨ some b ∈ p.held := by
  revert h
  fun_cases RcuPc.touches p a <;> intro h
  all_goals first
    | cases h; done
    | obtain rfl := Option.some.inj h; simp [RcuPc.own, RcuPc.held]
    | simp [RcuPc.held, h]

end

/-- **No turn reads or frees a box that has been freed**, in every run in which a box is freed only
when no other guard, iterator or call holds a pointer that leads to it. -/
theorem Rcu.run_touches_live {data : T} {addr : Nat} {c : RcuConf ι T}
    (hr : Reach (Fires Rcu.next RcuOk) (Rcu.new data addr) c) :
    ∀ i a b, (c.thread i).touches a = some b → c.shared.heap.Live b := by
  have hinv : RcuInv c.shared c.thread :=
    Reach.invariant (P := fun c : RcuConf ι T => RcuInv c.shared c.thread) (RcuInv.new data addr)
      (fun hc ⟨_, hok, hn⟩ => hc.next hok hn) hr
  intro i a b hb
  exact (hinv.live_or (RcuPc.held_of_touches hb)).1

theorem Rcu.run_touches_live_replaced :
    ∃ c : RcuConf (Fin 2) Nat, ¬ c.shared.heap.Live 0 ∧ (c.thread 1).touches .look = some 1 ∧
      c.shared.heap.Live 1 := by
  obtain ⟨c, hr, hc, hlook⟩ : ∃ c : RcuConf (Fin 2) Nat,
      Reach (Fires Rcu.next fun c ia => ∀ j, j ≠ ia.1 → (c.thread j).held = []) (Rcu.new 7 64) c ∧
        ¬ c.shared.heap.Live 0 ∧ (c.thread 1).touches .look = some 1 :=
    exists_reach [(0, .replace 8), (0, .boxAt 72), (0, .step), (0, .step), (0, .step), (1, .read)]
      (by decide)
  have hr' : Reach (Fires Rcu.next RcuOk) (Rcu.new 7 64) c := by
    refine Relation.ReflTransGen.mono ?_ _ _ hr
    rintro _ _ ⟨ia, hnone, hn⟩
    refine ⟨ia, fun _ _ j hj p hp => ?_, hn⟩
    rw [hnone j hj] at hp
    cases hp
  exact ⟨c, hc, hlook, Rcu.run_touches_live hr' 1 .look 1 hlook⟩

/-- **`replace` frees the box of a live guard.** The guard was taken before; the grace period does not
wait for it, and its next look is at a freed box. -/
theorem Rcu.guard_reads_freed :
    ∃ c : RcuConf (Fin 2) Nat, Reach (Fires Rcu.next fun _ _ => True) (Rcu.new 7 64) c ∧
      (c.thread 0).touches .look = some 0 ∧ ¬ c.shared.heap.Live 0 :=
  exists_reach [(0, .read), (0, .look), (1, .replace 8), (1, .boxAt 72), (1, .step), (1, .step),
    (1, .step)] (by decide)

end Kerners.Sync
