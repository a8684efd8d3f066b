import Kerners.Lib.Prog

/-!
# Programs over an abstract state

A `View` relates the states of a device to abstract states: `Rel d v` says that the device state
`d` presents `v`. `Runs p v a v'` says what the program `p` does in abstract terms: from every
device state that presents `v` it returns `a`, ends in a device state that presents `v'`, and
issues only commands that the view allows. A result about a program is then proved once, on the
abstract state, and read off for every device state below it.
-/

namespace Kerners.Lib

/-- A device, what its states present, and which commands are allowed. -/
structure View (C : Type) (R : C → Type) (V : Type) where
  State : Type
  handler : Handler C R State
  Rel : State → V → Prop
  allowed : C → State → Prop

variable {C : Type} {R : C → Type} {V : Type} {μ α β : Type} {σ σ' ε ε' : Type}

/-- Every command that the program issues from `d` on satisfies `ok`. -/
def Prog.Allowed {δ : Type} (h : Handler C R δ) (ok : C → δ → Prop) : Prog C R μ α → δ → Prop
  | .pure _, _ => True
  | .op c k, d => ok c d ∧ (k (h c d).1).Allowed h ok (h c d).2
  | .mark _ k, d => k.Allowed h ok d

section

variable {δ : Type} {h : Handler C R δ} {ok : C → δ → Prop}

theorem Prog.allowed_bind : ∀ (p : Prog C R μ α) (f : α → Prog C R μ β) (d : δ),
    (p >>= f).Allowed h ok d ↔ p.Allowed h ok d ∧ (f (p.run h d).1).Allowed h ok (p.run h d).2
  | .pure _, _, _ => ⟨fun h => ⟨trivial, h⟩, fun h => h.2⟩
  | .op c k, f, d => by
    have ih := Prog.allowed_bind (k (h c d).1) f (h c d).2
    change ok c d ∧ (k _ >>= f).Allowed h ok _ ↔ _
    rw [ih, ← and_assoc]
    rfl
  | .mark _ k, f, d => Prog.allowed_bind k f d

theorem Prog.allowed_lift : ∀ (p : Prog C R Empty α) (d : δ),
    (p.lift : Prog C R μ α).Allowed h ok d ↔ p.Allowed h ok d
  | .pure _, _ => Iff.rfl
  | .op c k, d => and_congr_right fun _ => Prog.allowed_lift (k (h c d).1) (h c d).2
  | .mark m _, _ => m.elim

theorem Prog.Allowed.mono {ok' : C → δ → Prop} (himp : ∀ c d, ok c d → ok' c d) :
    ∀ {p : Prog C R μ α} {d : δ}, p.Allowed h ok d → p.Allowed h ok' d
  | .pure _, _, _ => trivial
  | .op _ _, _, hp => ⟨himp _ _ hp.1, Prog.Allowed.mono himp hp.2⟩
  | .mark _ k, _, hp => Prog.Allowed.mono (p := k) himp hp

end

/-- **What a program does in abstract terms.** -/
def Runs (w : View C R V) (p : Prog C R μ α) (v : V) (a : α) (v' : V) : Prop :=
  ∀ d, w.Rel d v → ∃ d', p.run w.handler d = (a, d') ∧ w.Rel d' v' ∧ p.Allowed w.handler w.allowed d

section

variable {w : View C R V} {v v' v'' : V}

theorem Runs.pure (a : α) : Runs w (Pure.pure a : Prog C R μ α) v a v := fun d hd =>
  ⟨d, rfl, hd, trivial⟩

theorem Runs.bind {p : Prog C R μ α} {f : α → Prog C R μ β} {a : α} {b : β}
    (hp : Runs w p v a v') (hf : Runs w (f a) v' b v'') : Runs w (p >>= f) v b v'' := by
  intro d hd
  obtain ⟨d', hrun, hd', hall⟩ := hp d hd
  obtain ⟨d'', hrun', hd'', hall'⟩ := hf d' hd'
  refine ⟨d'', ?_, hd'', ?_⟩
  · rw [Prog.run_bind, hrun, hrun']
  · rw [Prog.allowed_bind, hrun]
    exact ⟨hall, hall'⟩

theorem Runs.call {κ ι : Type} {kind : κ} {evs : α → List ι} {p : Prog C R Empty α} {a : α}
    (hp : Runs w p v a v') : Runs w (Prog.call kind evs p) v a v' := by
  intro d hd
  obtain ⟨d', hrun, hd', hall⟩ := hp d hd
  refine ⟨d', by rw [Prog.run_call, hrun], hd', ?_⟩
  change ((p.lift : Prog C R (Mark κ ι) α) >>= fun a =>
    Prog.mark (.leave (evs a)) (Prog.pure a)).Allowed w.handler w.allowed d
  rw [Prog.allowed_bind, Prog.allowed_lift]
  exact ⟨hall, trivial⟩

end

/-! ## Programs with local state and errors -/

/-- `m` from the local state `s` and the abstract state `v`: outcome `r`, then `s'` and `v'`. -/
def RunsM (w : View C R V) (m : ProgM C R μ σ ε α) (s : σ) (v : V) (r : Except ε α) (s' : σ)
    (v' : V) : Prop :=
  Runs w (m s) v (r, s') v'

namespace RunsM

variable {w : View C R V} {s s' s'' : σ} {v v' v'' : V} {m : ProgM C R μ σ ε α}
  {f : α → ProgM C R μ σ ε β} {r : Except ε α}

theorem pure (a : α) : RunsM w (Pure.pure a : ProgM C R μ σ ε α) s v (.ok a) s v := Runs.pure _

theorem throw (e : ε) : RunsM w (ProgM.throw e : ProgM C R μ σ ε α) s v (.error e) s v :=
  Runs.pure _

theorem get : RunsM w (ProgM.get : ProgM C R μ σ ε σ) s v (.ok s) s v := Runs.pure _

theorem set : RunsM w (ProgM.set s' : ProgM C R μ σ ε Unit) s v (.ok ()) s' v := Runs.pure _

theorem bind_ok {a : α} {r : Except ε β} (hm : RunsM w m s v (.ok a) s' v')
    (hf : RunsM w (f a) s' v' r s'' v'') : RunsM w (m >>= f) s v r s'' v'' :=
  Runs.bind (a := ((.ok a : Except ε α), s')) hm hf

theorem bind_error {e : ε} (hm : RunsM w m s v (.error e) s' v') :
    RunsM w (m >>= f) s v (.error e) s' v' :=
  Runs.bind (a := ((.error e : Except ε α), s')) hm (Runs.pure _)

theorem call {κ ι : Type} {kind : κ} {evs : Except ε α → List ι} {m : ProgM C R Empty σ ε α}
    (hm : RunsM w m s v r s' v') : RunsM w (ProgM.call kind evs m) s v r s' v' :=
  Runs.call hm

theorem attempt (hm : RunsM w m s v r s' v') :
    RunsM w (ProgM.attempt m : ProgM C R μ σ ε' (Except ε α)) s v (.ok r) s' v' :=
  Runs.bind hm (Runs.pure _)

theorem mapErr_ok {g : ε → ε'} {a : α} (hm : RunsM w m s v (.ok a) s' v') :
    RunsM w (m.mapErr g) s v (.ok a) s' v' :=
  Runs.bind (a := ((.ok a : Except ε α), s')) hm (Runs.pure _)

theorem mapErr_error {g : ε → ε'} {e : ε} (hm : RunsM w m s v (.error e) s' v') :
    RunsM w (m.mapErr g) s v (.error (g e)) s' v' :=
  Runs.bind (a := ((.error e : Except ε α), s')) hm (Runs.pure _)

theorem within {t t' : σ'} {m : ProgM C R μ σ' ε α} (hm : RunsM w m t v r t' v') :
    RunsM w (ProgM.within t m : ProgM C R μ σ ε α) s v r s v' :=
  Runs.bind (a := (r, t')) hm (Runs.pure _)

theorem zoom {part : σ → σ'} {put : σ' → σ → σ} {t' : σ'} {m : ProgM C R μ σ' ε α}
    (hm : RunsM w m (part s) v r t' v') : RunsM w (ProgM.zoom part put m) s v r (put t' s) v' :=
  Runs.bind (a := (r, t')) hm (Runs.pure _)

end RunsM

end Kerners.Lib
