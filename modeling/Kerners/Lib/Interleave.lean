import Kerners.Lib.Guarantee
import Kerners.Lib.Threads

/-!
# Operations side by side

Each thread runs an operation made of calls on one device; a turn is one command or one mark. The
turns of the threads are interleaved in any way. `WholeCalls` is the condition that a call begins
only while no thread is inside a call (and in a state that the protocol admits for it): then the
commands of one call are not mixed with those of another.
-/

namespace Kerners.Lib

open Function

variable {C : Type} {R : C → Type} {κ ν α δ τ : Type}

/-- Where a thread stands: the rest of its operation, whether it is inside a call, and the items
that its calls have returned. -/
structure Running (C : Type) (R : C → Type) (κ ν α : Type) where
  prog : Prog C R (Mark κ ν) α
  inCall : Bool
  got : List ν

namespace Running

def start (p : Prog C R (Mark κ ν) α) : Running C R κ ν α := ⟨p, false, []⟩

def turn (h : Handler C R δ) (d : δ) (t : Running C R κ ν α) (_ : Unit) :
    Option (δ × Running C R κ ν α) :=
  match t.prog with
  | .pure _ => none
  | .op c k => some ((h c d).2, { t with prog := k (h c d).1 })
  | .mark (.enter _) k => some (d, ⟨k, true, t.got⟩)
  | .mark (.leave evs) k => some (d, ⟨k, false, t.got ++ evs⟩)

def result (t : Running C R κ ν α) : Option α :=
  match t.prog with
  | .pure a => some a
  | _ => none

theorem prog_of_result {t : Running C R κ ν α} {a : α} (h : t.result = some a) :
    t.prog = .pure a := by
  unfold result at h
  split at h
  · next hp => rw [hp, Option.some.inj h]
  · cases h

end Running

namespace Protocol

variable {P : Protocol C R κ ν}

structure Stable (P : Protocol C R κ ν) (Apart : P.Own → P.Own → Prop) : Prop where
  symm : ∀ {o1 o2}, Apart o1 o2 → Apart o2 o1
  keep : ∀ {o1 o1' o2 evs s s'}, Apart o1 o2 → P.Compat o1 s → P.Compat o2 s →
    P.Guar o1 o1' evs s s' → P.Compat o1' s' → P.Compat o2 s' ∧ Apart o1' o2

/-- A call begins only while nobody is inside one, in a state that its kind admits. -/
def WholeCalls (P : Protocol C R κ ν) (c : Conf τ P.State (Running C R κ ν α)) (ia : τ × Unit) :
    Prop :=
  ∀ kind k, (c.thread ia.1).prog = .mark (.enter kind) k →
    (∀ j, (c.thread j).inCall = false) ∧ P.cond kind c.shared

instance [Fintype τ] [∀ kind s, Decidable (P.cond kind s)]
    {c : Conf τ P.State (Running C R κ ν α)} {ia : τ × Unit} : Decidable (P.WholeCalls c ia) :=
  match hp : (c.thread ia.1).prog with
  | .mark (.enter kind) _ =>
    decidable_of_iff ((∀ j, (c.thread j).inCall = false) ∧ P.cond kind c.shared)
      ⟨fun h _ _ hk => by rw [hp] at hk; cases hk; exact h, fun h => h kind _ hp⟩
  | .mark (.leave _) _ | .op _ _ | .pure _ => isTrue fun _ _ hk => by rw [hp] at hk; cases hk

/-- The mode of a thread that owns `o`, when the last boundary between calls was `b`. -/
def Mode.of (o : P.Own) (b s : P.State) : Bool → P.Mode
  | true => .inside o b s
  | false => .out o

@[simp] theorem Mode.of_true (o : P.Own) (b s : P.State) : Mode.of o b s true = .inside o b s := rfl

@[simp] theorem Mode.of_false (o : P.Own) (b s : P.State) : Mode.of o b s false = .out o := rfl

def ends (Q : α → P.Own → Prop) (a : α) : P.Mode → Prop
  | .out o => Q a o
  | .inside _ _ _ => False

/-- A thread that owns `o` and stands at `t`, in the state `s`; `b` is the last state between
calls. -/
structure Stands (P : Protocol C R κ ν) (Has : P.Own → List ν → Prop) (Q : α → P.Own → Prop)
    (b s : P.State) (o : P.Own) (t : Running C R κ ν α) : Prop where
  compat : P.Compat o b
  has : Has o t.got
  safe : P.Wp t.prog (Mode.of o b s t.inCall) (ends Q)

/-- **Operations side by side**: thread `i` owns `o i`, and only one thread is inside a call. -/
structure Interleaved (P : Protocol C R κ ν) (Apart : P.Own → P.Own → Prop)
    (Has : P.Own → List ν → Prop) (Q : τ → α → P.Own → Prop)
    (c : Conf τ P.State (Running C R κ ν α)) (o : τ → P.Own) (b : P.State) : Prop where
  stands : ∀ i, Stands P Has (Q i) b c.shared (o i) (c.thread i)
  apart : ∀ i j, i ≠ j → Apart (o i) (o j)
  one : ∀ i j, (c.thread i).inCall = true → (c.thread j).inCall = true → i = j
  between : (∀ i, (c.thread i).inCall = false) → c.shared = b

section

variable {Apart : P.Own → P.Own → Prop} {Has : P.Own → List ν → Prop} {Q : τ → α → P.Own → Prop}
  {c c' : Conf τ P.State (Running C R κ ν α)} {o : τ → P.Own} {b : P.State}

theorem Interleaved.ended (h : Interleaved P Apart Has Q c o b) {i : τ} {a : α}
    (hend : (c.thread i).result = some a) : (c.thread i).inCall = false ∧ Q i a (o i) := by
  have hsafe := (h.stands i).safe
  rw [Running.prog_of_result hend] at hsafe
  cases hin : (c.thread i).inCall with
  | true =>
    rw [hin] at hsafe
    exact hsafe.elim
  | false =>
    rw [hin] at hsafe
    exact ⟨rfl, hsafe⟩

theorem Interleaved.safe_of_out (h : Interleaved P Apart Has Q c o b) {i j : τ}
    (hi : (c.thread i).inCall = true) (hj : j ≠ i) :
    (c.thread j).inCall = false ∧ P.Wp (c.thread j).prog (.out (o j)) (ends (Q j)) := by
  have hout : (c.thread j).inCall = false := by
    by_contra hin
    exact hj (h.one j i (by simpa using hin) hi)
  have hsafe := (h.stands j).safe
  rw [hout] at hsafe
  exact ⟨hout, hsafe⟩

variable [DecidableEq τ] {i : τ}

theorem forall_update₂ {β γ : Type*} {p : τ → β → γ → Prop} {f : τ → β} {g : τ → γ} {x : β} {y : γ}
    (hi : p i x y) (hj : ∀ j, j ≠ i → p j (f j) (g j)) (j : τ) :
    p j (update f i x j) (update g i y j) := by
  by_cases hji : j = i
  · subst hji
    rwa [update_self, update_self]
  · rw [update_of_ne hji, update_of_ne hji]
    exact hj j hji

theorem Interleaved.command (h : Interleaved P Apart Has Q c o b) {cmd : C}
    {k : R cmd → Prog C R (Mark κ ν) α} (hp : (c.thread i).prog = .op cmd k) :
    Interleaved P Apart Has Q ⟨(P.handler cmd c.shared).2, update c.thread i
      { c.thread i with prog := k (P.handler cmd c.shared).1 }⟩ o b := by
  have hsafe := (h.stands i).safe
  rw [hp] at hsafe
  obtain ⟨hin, hallowed, hrest⟩ : (c.thread i).inCall = true ∧ P.allowed cmd c.shared ∧
      P.Wp (k (P.handler cmd c.shared).1) (.inside (o i) b (P.handler cmd c.shared).2)
        (ends (Q i)) := by
    cases hin : (c.thread i).inCall with
    | true =>
      rw [hin] at hsafe
      exact ⟨rfl, hsafe⟩
    | false =>
      rw [hin] at hsafe
      exact hsafe.elim
  have hcall : ∀ j, (update c.thread i
      { c.thread i with prog := k (P.handler cmd c.shared).1 } j).inCall = (c.thread j).inCall :=
    (forall_update_iff _ fun j (t : Running C R κ ν α) =>
      t.inCall = (c.thread j).inCall).2 ⟨rfl, fun _ _ => rfl⟩
  refine ⟨?_, h.apart, fun j j' => ?_, fun hout => ?_⟩
  · refine (forall_update_iff _ fun j t => Stands P Has (Q j) b _ (o j) t).2
      ⟨⟨(h.stands i).compat, (h.stands i).has, ?_⟩, fun j hj => ⟨(h.stands j).compat,
        (h.stands j).has, ?_⟩⟩
    · rwa [hin]
    · obtain ⟨hout, hsafe⟩ := h.safe_of_out hin hj
      rwa [hout]
  · simp only [hcall]
    exact h.one j j'
  · have := hout i
    rw [hcall, hin] at this
    cases this

theorem Interleaved.enter (h : Interleaved P Apart Has Q c o b) {kind : κ}
    {k : Prog C R (Mark κ ν) α} (hp : (c.thread i).prog = .mark (.enter kind) k)
    (hout : ∀ j, (c.thread j).inCall = false) (hcond : P.cond kind c.shared) :
    Interleaved P Apart Has Q ⟨c.shared, update c.thread i ⟨k, true, (c.thread i).got⟩⟩ o b := by
  have hb := h.between hout
  have hsafe := (h.stands i).safe
  rw [hp, hout i] at hsafe
  have hrest : P.Wp k (.inside (o i) b b) (ends (Q i)) := hsafe b (h.stands i).compat (hb ▸ hcond)
  have hcall : ∀ j, (update c.thread i ⟨k, true, (c.thread i).got⟩ j).inCall = true →
      j = i := (forall_update_iff _ fun j (t : Running C R κ ν α) =>
      t.inCall = true → j = i).2 ⟨fun _ => rfl, fun j _ hj => absurd (hout j) (by simp [hj])⟩
  refine ⟨?_, h.apart, fun j j' hj hj' => ?_, fun hnone => ?_⟩
  · refine (forall_update_iff _ fun j t => Stands P Has (Q j) b _ (o j) t).2
      ⟨⟨(h.stands i).compat, (h.stands i).has, ?_⟩, fun j _ => h.stands j⟩
    rwa [hb]
  · exact (hcall j hj).trans (hcall j' hj').symm
  · have := hnone i
    simp only [update_self, Bool.true_eq_false] at this

theorem Interleaved.leave (hst : P.Stable Apart)
    (hhas : ∀ {o1 o2 e evs s s'}, Has o1 e → P.Guar o1 o2 evs s s' → Has o2 (e ++ evs))
    (h : Interleaved P Apart Has Q c o b) {evs : List ν} {k : Prog C R (Mark κ ν) α}
    (hp : (c.thread i).prog = .mark (.leave evs) k) :
    ∃ o',
      Interleaved P Apart Has Q ⟨c.shared, update c.thread i ⟨k, false, (c.thread i).got ++ evs⟩⟩
        (update o i o') c.shared := by
  have hsafe := (h.stands i).safe
  rw [hp] at hsafe
  obtain ⟨hin, o', hguar, hcompat, hrest⟩ : (c.thread i).inCall = true ∧
      ∃ o', P.Guar (o i) o' evs b c.shared ∧ P.Compat o' c.shared ∧
        P.Wp k (.out o') (ends (Q i)) := by
    cases hin : (c.thread i).inCall with
    | true =>
      rw [hin] at hsafe
      exact ⟨rfl, hsafe⟩
    | false =>
      rw [hin] at hsafe
      exact hsafe.elim
  have hkeep : ∀ j, j ≠ i → P.Compat (o j) c.shared ∧ Apart o' (o j) := fun j hj =>
    hst.keep (h.apart i j hj.symm) (h.stands i).compat (h.stands j).compat hguar hcompat
  have hcall : ∀ j, (update c.thread i ⟨k, false, (c.thread i).got ++ evs⟩ j).inCall =
      false := (forall_update_iff _ fun _ (t : Running C R κ ν α) =>
      t.inCall = false).2 ⟨rfl, fun j hj => (h.safe_of_out hin hj).1⟩
  refine ⟨o', ?_, ?_, fun j j' hj => ?_, fun _ => rfl⟩
  · refine forall_update₂ (p := fun j o t => Stands P Has (Q j) c.shared c.shared o t)
      ⟨hcompat, hhas (h.stands i).has hguar, hrest⟩
      fun j hj => ⟨(hkeep j hj).1, (h.stands j).has, ?_⟩
    obtain ⟨hout, hsafe⟩ := h.safe_of_out hin hj
    rwa [hout]
  · refine (forall_update_iff _ fun j oj => ∀ j', j ≠ j' →
      Apart oj (update o i o' j')).2 ⟨fun j' hj => ?_, fun j hj => ?_⟩
    · rw [update_of_ne hj.symm]
      exact (hkeep j' hj.symm).2
    · refine (forall_update_iff _ fun j' oj' => j ≠ j' → Apart (o j) oj').2
        ⟨fun _ => hst.symm (hkeep j hj).2, fun j' _ => h.apart j j'⟩
  · rw [hcall j] at hj
    cases hj

theorem Interleaved.next (hst : P.Stable Apart)
    (hhas : ∀ {o1 o2 e evs s s'}, Has o1 e → P.Guar o1 o2 evs s s' → Has o2 (e ++ evs))
    (h : Interleaved P Apart Has Q c o b) {ia : τ × Unit} (hok : P.WholeCalls c ia)
    (hn : c.next (Running.turn P.handler) ia = some c') :
    ∃ o' b', Interleaved P Apart Has Q c' o' b' := by
  obtain ⟨i, u⟩ := ia
  obtain ⟨s, t, ht, rfl⟩ := Conf.exists_turn hn
  unfold Running.turn at ht
  cases hp : (c.thread i).prog with
  | pure a => simp [hp] at ht
  | op cmd k =>
    rw [hp] at ht
    obtain ⟨rfl, rfl⟩ := Prod.mk.inj (Option.some.inj ht)
    exact ⟨o, b, h.command hp⟩
  | mark m k =>
    cases m with
    | enter kind =>
      rw [hp] at ht
      obtain ⟨rfl, rfl⟩ := Prod.mk.inj (Option.some.inj ht)
      obtain ⟨hout, hcond⟩ := hok kind k hp
      exact ⟨o, b, h.enter hp hout hcond⟩
    | leave evs =>
      rw [hp] at ht
      obtain ⟨rfl, rfl⟩ := Prod.mk.inj (Option.some.inj ht)
      obtain ⟨o', h'⟩ := h.leave hst hhas hp
      exact ⟨_, _, h'⟩

/-- **Every run of whole calls** of operations that are safe on their own and own apart. -/
theorem interleaved_of_reach (hst : P.Stable Apart)
    (hhas : ∀ {o1 o2 e evs s s'}, Has o1 e → P.Guar o1 o2 evs s s' → Has o2 (e ++ evs))
    {s : P.State} {p : τ → Prog C R (Mark κ ν) α} (hcompat : ∀ i, P.Compat (o i) s)
    (hapart : ∀ i j, i ≠ j → Apart (o i) (o j)) (hempty : ∀ i, Has (o i) [])
    (hsafe : ∀ i, P.Safe (p i) (o i) (Q i))
    (hr : Reach (Fires (Conf.next (Running.turn P.handler)) P.WholeCalls) ⟨s, fun i => .start (p i)⟩
        c) : ∃ o b, Interleaved P Apart Has Q c o b := by
  refine Reach.invariant (P := fun c => ∃ o b, Interleaved P Apart Has Q c o b)
    ⟨o, s, fun i => ⟨hcompat i, hempty i, ?_⟩, hapart, (fun i j hi => by cases hi),
      fun _ => rfl⟩ ?_ hr
  · exact wp_mono (fun a m hm => match m, hm with | .out _, hq => hq) (hsafe i)
  · rintro c c' ⟨o, b, h⟩ ⟨ia, hok, hn⟩
    exact h.next hst hhas hok hn

end

end Protocol

end Kerners.Lib
