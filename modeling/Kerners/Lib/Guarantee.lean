import Kerners.Lib.Refine
import Mathlib.Logic.Relation

/-!
# Operations made of calls, under interference

An operation is a program made of calls (`Prog.call`). A `Protocol` says what the thread that runs
it owns: `Compat o s` when the state `s` is as `o` describes it, `Guar o o' evs s s'` when one call
that took the owner from `o` to `o'` and returned `evs` was entitled to change `s` to `s'`.

`Safe P p o Q` is a weakest precondition: whatever state compatible with `o` each call of `p`
starts in, the call stays inside its guarantee, and `p` returns a value that satisfies `Q`.
Because it makes no assumption about the state between two calls, it holds in the presence of any
other thread that leaves what `o` describes alone.
-/

namespace Kerners.Lib

variable {C : Type} {R : C → Type} {κ ι μ α β : Type}

structure Protocol (C : Type) (R : C → Type) (κ ι : Type) where
  State : Type
  handler : Handler C R State
  allowed : C → State → Prop
  Own : Type
  Compat : Own → State → Prop
  Guar : Own → Own → List ι → State → State → Prop
  cond : κ → State → Prop

namespace Protocol

/-- Between two calls, or inside one that started in `s0` and has reached `s`. -/
inductive Mode (P : Protocol C R κ ι) where
  | out (o : P.Own)
  | inside (o : P.Own) (s0 s : P.State)

def Wp (P : Protocol C R κ ι) : Prog C R (Mark κ ι) α → P.Mode → (α → P.Mode → Prop) → Prop
  | .pure a, m, Q => Q a m
  | .op c k, .inside o s0 s, Q =>
    P.allowed c s ∧ P.Wp (k (P.handler c s).1) (.inside o s0 (P.handler c s).2) Q
  | .op _ _, .out _, _ => False
  | .mark (.enter kind) k, .out o, Q =>
    ∀ s, P.Compat o s → P.cond kind s → P.Wp k (.inside o s s) Q
  | .mark (.enter _) _, .inside _ _ _, _ => False
  | .mark (.leave evs) k, .inside o s0 s, Q =>
    ∃ o', P.Guar o o' evs s0 s ∧ P.Compat o' s ∧ P.Wp k (.out o') Q
  | .mark (.leave _) _, .out _, _ => False

variable {P : Protocol C R κ ι} {o : P.Own} {Q : α → P.Own → Prop} {p : Prog C R (Mark κ ι) α}
  {σ σ' ε ε' : Type}

theorem wp_bind : ∀ {p : Prog C R (Mark κ ι) α} {f : α → Prog C R (Mark κ ι) β} {m : P.Mode}
    {Q : β → P.Mode → Prop}, P.Wp (p >>= f) m Q ↔ P.Wp p m fun a m' => P.Wp (f a) m' Q
  | .pure _, _, _, _ => Iff.rfl
  | .op _ _, _, .inside _ _ _, _ => and_congr_right fun _ => wp_bind
  | .op _ _, _, .out _, _ => Iff.rfl
  | .mark (.enter _) _, _, .out _, _ =>
    forall_congr' fun _ => imp_congr_right fun _ => imp_congr_right fun _ => wp_bind
  | .mark (.enter _) _, _, .inside _ _ _, _ => Iff.rfl
  | .mark (.leave _) _, _, .inside _ _ _, _ =>
    exists_congr fun _ => and_congr_right fun _ => and_congr_right fun _ => wp_bind
  | .mark (.leave _) _, _, .out _, _ => Iff.rfl

theorem wp_mono : ∀ {p : Prog C R (Mark κ ι) α} {m : P.Mode} {Q Q' : α → P.Mode → Prop},
    (∀ a m', Q a m' → Q' a m') → P.Wp p m Q → P.Wp p m Q'
  | .pure a, m, _, _, h, hp => h a m hp
  | .op _ _, .inside _ _ _, _, _, h, hp => ⟨hp.1, wp_mono h hp.2⟩
  | .op _ _, .out _, _, _, _, hp => hp
  | .mark (.enter _) _, .out _, _, _, h, hp => fun s hs hc => wp_mono h (hp s hs hc)
  | .mark (.enter _) _, .inside _ _ _, _, _, _, hp => hp
  | .mark (.leave _) _, .inside _ _ _, _, _, h, ⟨o', hg, hc, hp⟩ => ⟨o', hg, hc, wp_mono h hp⟩
  | .mark (.leave _) _, .out _, _, _, _, hp => hp

theorem wp_lift {o : P.Own} {s0 : P.State} :
    ∀ {p : Prog C R Empty α} {s : P.State} {Q : α → P.Mode → Prop},
      p.Allowed P.handler P.allowed s →
      Q (p.run P.handler s).1 (.inside o s0 (p.run P.handler s).2) → P.Wp p.lift (.inside o s0 s) Q
  | .pure _, _, _, _, h => h
  | .op _ _, _, _, hall, h => ⟨hall.1, wp_lift hall.2 h⟩
  | .mark m _, _, _, _, _ => m.elim

/-- The operation `p`, started as the owner of `o`, ends as the owner of some `o'` with `Q a o'`. -/
def Safe (P : Protocol C R κ ι) (p : Prog C R (Mark κ ι) α) (o : P.Own) (Q : α → P.Own → Prop) :
    Prop :=
  P.Wp p (.out o) fun a m => match m with
    | .out o' => Q a o'
    | .inside _ _ _ => False

theorem Safe.pure {a : α} (h : Q a o) : P.Safe (Pure.pure a) o Q := h

theorem Safe.mono {Q' : α → P.Own → Prop} (hp : P.Safe p o Q) (h : ∀ a o', Q a o' → Q' a o') :
    P.Safe p o Q' :=
  wp_mono (fun a m hm => match m, hm with | .out o', hq => h a o' hq) hp

theorem Safe.bind {f : α → Prog C R (Mark κ ι) β} {Q : β → P.Own → Prop}
    (hp : P.Safe p o fun a o' => P.Safe (f a) o' Q) : P.Safe (p >>= f) o Q :=
  wp_bind.mpr (wp_mono (fun _ m hm => match m, hm with | .out _, hq => hq) hp)

theorem safe_call {kind : κ} {evs : α → List ι} {p : Prog C R Empty α}
    (h : ∀ s, P.Compat o s → P.cond kind s →
          p.Allowed P.handler P.allowed s ∧
          ∃ o', P.Guar o o' (evs (p.run P.handler s).1) s (p.run P.handler s).2 ∧
            P.Compat o' (p.run P.handler s).2 ∧
            Q (p.run P.handler s).1 o') : P.Safe (Prog.call kind evs p) o Q := by
  intro s hs hcond
  obtain ⟨hall, o', hg, hc, hq⟩ := h s hs hcond
  exact wp_bind.mpr (wp_lift hall ⟨o', hg, hc, hq⟩)

/-! ## Without interference -/

structure Preorder (P : Protocol C R κ ι) : Prop where
  refl : ∀ o s, P.Guar o o [] s s
  trans : ∀ {o1 o2 o3 e1 e2 s1 s2 s3}, P.Compat o1 s1 → P.Compat o2 s2 →
    P.Guar o1 o2 e1 s1 s2 → P.Guar o2 o3 e2 s2 s3 → P.Guar o1 o3 (e1 ++ e2) s1 s3

/-- In mode `m` and state `s`, the last boundary between two calls was `b`, with ownership `o`. -/
inductive Origin (P : Protocol C R κ ι) : P.Mode → P.Own → P.State → P.State → Prop
  | out (o : P.Own) (s : P.State) : Origin P (.out o) o s s
  | inside (o : P.Own) (s0 s : P.State) : Origin P (.inside o s0 s) o s0 s

theorem Wp.run (hpre : P.Preorder) (hcond : ∀ kind s, P.cond kind s) :
    ∀ {p : Prog C R (Mark κ ι) α} {m : P.Mode} {o : P.Own} {b s : P.State} {Q : α → P.Mode → Prop},
      P.Origin m o b s → P.Compat o b → P.Wp p m Q →
        p.Allowed P.handler P.allowed s ∧
        ∃ m' evs, Q (p.run P.handler s).1 m' ∧
          ∀ o', m' = .out o' →
            P.Guar o o' evs b (p.run P.handler s).2 ∧ P.Compat o' (p.run P.handler s).2
  | .pure _, _, _, _, _, _, .out o s, hc, hp =>
    ⟨trivial, .out o, [], hp, fun o'' h => by cases h; exact ⟨hpre.refl _ _, hc⟩⟩
  | .pure _, _, _, _, _, _, .inside o s0 s, _, hp =>
    ⟨trivial, .inside o s0 s, [], hp, fun _ h => by cases h⟩
  | .op _ _, _, _, _, _, _, .inside _ _ _, hc, hp => by
    obtain ⟨hall, hrest⟩ := Wp.run hpre hcond (.inside _ _ _) hc hp.2
    exact ⟨⟨hp.1, hall⟩, hrest⟩
  | .op _ _, _, _, _, _, _, .out _ _, _, hp => hp.elim
  | .mark (.enter kind) k, _, _, _, _, _, .out _ _, hc, hp =>
    Wp.run (p := k) hpre hcond (.inside _ _ _) hc (hp _ hc (hcond kind _))
  | .mark (.enter _) _, _, _, _, _, _, .inside _ _ _, _, hp => hp.elim
  | .mark (.leave evs) _, _, _, _, _, _, .inside _ _ _, hc, ⟨_, hg, hc1, hp⟩ => by
    obtain ⟨hall, m', evs', hq, hend⟩ := Wp.run hpre hcond (.out _ _) hc1 hp
    refine ⟨hall, m', evs ++ evs', hq, fun o' ho' => ?_⟩
    obtain ⟨hg', hc'⟩ := hend o' ho'
    exact ⟨hpre.trans hc hc1 hg hg', hc'⟩
  | .mark (.leave _) _, _, _, _, _, _, .out _ _, _, hp => hp.elim

/-- **Without interference** the operation runs to its end, and its guarantees add up. -/
theorem Safe.run (hpre : P.Preorder) (hcond : ∀ kind s, P.cond kind s) {s : P.State}
    (hp : P.Safe p o Q) (hc : P.Compat o s) :
    p.Allowed P.handler P.allowed s ∧
    ∃ o' evs, Q (p.run P.handler s).1 o' ∧
      P.Guar o o' evs s (p.run P.handler s).2 ∧
      P.Compat o' (p.run P.handler s).2 := by
  obtain ⟨hall, m, evs, hq, hend⟩ := Wp.run hpre hcond (.out _ _) hc hp
  cases m with
  | out o' => exact ⟨hall, o', evs, hq, hend o' rfl⟩
  | inside _ _ _ => exact hq.elim

/-! ## Programs with local state and errors -/

/-- `Safe` for `m` started in the local state `t`. -/
def SafeM (P : Protocol C R κ ι) (m : ProgM C R (Mark κ ι) σ ε α) (t : σ) (o : P.Own)
    (Q : Except ε α → σ → P.Own → Prop) : Prop :=
  P.Safe (m t) o fun r o' => Q r.1 r.2 o'

namespace SafeM

variable {t : σ} {o : P.Own} {m : ProgM C R (Mark κ ι) σ ε α} {Q : Except ε α → σ → P.Own → Prop}

theorem pure {a : α} (h : Q (.ok a) t o) : P.SafeM (Pure.pure a) t o Q := h

theorem throw {e : ε} (h : Q (.error e) t o) : P.SafeM (ProgM.throw e) t o Q := h

theorem get {Q : Except ε σ → σ → P.Own → Prop} (h : Q (.ok t) t o) : P.SafeM ProgM.get t o Q := h

theorem set {t' : σ} {Q : Except ε Unit → σ → P.Own → Prop} (h : Q (.ok ()) t' o) :
    P.SafeM (ProgM.set t') t o Q := h

theorem mono {Q' : Except ε α → σ → P.Own → Prop} (hm : P.SafeM m t o Q)
    (h : ∀ r t' o', Q r t' o' → Q' r t' o') : P.SafeM m t o Q' :=
  Safe.mono hm fun r o' hq => h r.1 r.2 o' hq

theorem bind {f : α → ProgM C R (Mark κ ι) σ ε β} {Q : Except ε β → σ → P.Own → Prop}
    (hm : P.SafeM m t o fun r t' o' => match r with
      | .ok a => P.SafeM (f a) t' o' Q
      | .error e => Q (.error e) t' o') : P.SafeM (m >>= f) t o Q := by
  refine Safe.bind (Safe.mono hm ?_)
  rintro ⟨r, t'⟩ o' hq
  cases r with
  | ok a => exact hq
  | error e => exact Safe.pure hq

theorem bind_of {f : α → ProgM C R (Mark κ ι) σ ε β} {Q : Except ε β → σ → P.Own → Prop}
    {Q1 : Except ε α → σ → P.Own → Prop} (hm : P.SafeM m t o Q1)
    (hok : ∀ a t' o', Q1 (.ok a) t' o' → P.SafeM (f a) t' o' Q)
    (herr : ∀ e t' o', Q1 (.error e) t' o' → Q (.error e) t' o') : P.SafeM (m >>= f) t o Q := by
  refine bind (mono hm ?_)
  rintro (e | a) t' o' hq
  · exact herr e t' o' hq
  · exact hok a t' o' hq

theorem attempt {Q : Except ε' (Except ε α) → σ → P.Own → Prop}
    (hm : P.SafeM m t o fun r t' o' => Q (.ok r) t' o') : P.SafeM m.attempt t o Q :=
  Safe.bind (Safe.mono hm fun _ _ hq => Safe.pure hq)

theorem mapErr {g : ε → ε'} {Q : Except ε' α → σ → P.Own → Prop}
    (hm : P.SafeM m t o fun r t' o' => Q (r.mapError g) t' o') : P.SafeM (m.mapErr g) t o Q := by
  refine Safe.bind (Safe.mono hm ?_)
  rintro ⟨r, t'⟩ o' hq
  cases r with
  | ok a => exact Safe.pure hq
  | error e => exact Safe.pure hq

theorem within {t' : σ'} {m : ProgM C R (Mark κ ι) σ' ε α}
    (hm : P.SafeM m t' o fun r _ o' => Q r t o') : P.SafeM (ProgM.within t' m) t o Q :=
  Safe.bind (Safe.mono hm fun _ _ hq => Safe.pure hq)

theorem zoom {part : σ → σ'} {put : σ' → σ → σ} {m : ProgM C R (Mark κ ι) σ' ε α}
    (hm : P.SafeM m (part t) o fun r t' o' => Q r (put t' t) o') :
    P.SafeM (ProgM.zoom part put m) t o Q :=
  Safe.bind (Safe.mono hm fun _ _ hq => Safe.pure hq)

end SafeM

end Protocol

end Kerners.Lib
