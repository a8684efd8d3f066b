import Mathlib.Algebra.Group.Nat.Defs
import Mathlib.Logic.Function.Basic

/-!
# Programs that issue commands

`Prog C R μ α` is a program that issues commands of type `C`, continues with the response (of type
`R c` for the command `c`) and returns a value of type `α`; `mark` notes a point of the program
and has no effect. `run` executes a program against a handler of its commands.

`ProgM C R μ σ ε α` adds a local state `σ`, which survives an error, and errors `ε`.

A program without marks (`μ = Empty`) becomes one `call` of a program made of calls: its commands
stand between an `enter` and a `leave` mark.

`run_call`: the marks of a call have no effect.
-/

namespace Kerners.Lib

inductive Prog (C : Type) (R : C → Type) (μ α : Type) : Type where
  | pure (a : α)
  | op (c : C) (k : R c → Prog C R μ α)
  | mark (m : μ) (k : Prog C R μ α)

/-- The marks of a program made of calls: a call of kind `κ` begins, or a call ends and has
returned the items `evs`. -/
inductive Mark (κ ε : Type) : Type where
  | enter (kind : κ)
  | leave (evs : List ε)

abbrev Handler (C : Type) (R : C → Type) (δ : Type) := (c : C) → δ → R c × δ

namespace Prog

variable {C : Type} {R : C → Type} {μ α β γ δ : Type} {h : Handler C R δ}

/-- Run `p`, then `f` on its value. -/
def bind : Prog C R μ α → (α → Prog C R μ β) → Prog C R μ β
  | .pure a, f => f a
  | .op c k, f => .op c fun r => (k r).bind f
  | .mark m k, f => .mark m (k.bind f)

instance : Monad (Prog C R μ) where
  pure := Prog.pure
  bind := Prog.bind

@[simp] theorem pure_bind' (a : α) (f : α → Prog C R μ β) : (Pure.pure a >>= f) = f a := rfl

def run (h : Handler C R δ) : Prog C R μ α → δ → α × δ
  | .pure a, d => (a, d)
  | .op c k, d => run h (k (h c d).1) (h c d).2
  | .mark _ k, d => run h k d

@[simp] theorem run_pure (a : α) (d : δ) : run h (Pure.pure a : Prog C R μ α) d = (a, d) := rfl

theorem run_bind : ∀ (p : Prog C R μ α) (f : α → Prog C R μ β) (d : δ),
    run h (p >>= f) d = run h (f (run h p d).1) (run h p d).2
  | .pure _, _, _ => rfl
  | .op c k, f, d => run_bind (k (h c d).1) f (h c d).2
  | .mark _ k, f, d => run_bind k f d

def lift : Prog C R Empty α → Prog C R μ α
  | .pure a => .pure a
  | .op c k => .op c fun r => (k r).lift
  | .mark m _ => m.elim

@[simp] theorem run_lift : ∀ (p : Prog C R Empty α) (d : δ),
    run h (p.lift : Prog C R μ α) d = run h p d
  | .pure _, _ => rfl
  | .op c k, d => run_lift (k (h c d).1) (h c d).2
  | .mark m _, _ => m.elim

/-- One call: `p` between its marks. -/
def call {κ ε : Type} (kind : κ) (evs : α → List ε) (p : Prog C R Empty α) :
    Prog C R (Mark κ ε) α :=
  .mark (.enter kind) (p.lift >>= fun a => .mark (.leave (evs a)) (.pure a))

@[simp] theorem run_call {κ ε : Type} (kind : κ) (evs : α → List ε) (p : Prog C R Empty α)
    (d : δ) : run h (call kind evs p) d = run h p d := by
  change run h (p.lift >>= fun a => _) d = _
  rw [run_bind, run_lift]
  rfl

end Prog

/-- Programs with a local state and errors; the state survives an error. -/
def ProgM (C : Type) (R : C → Type) (μ σ ε α : Type) : Type :=
  σ → Prog C R μ (Except ε α × σ)

namespace ProgM

variable {C : Type} {R : C → Type} {μ σ ε ε' α β δ : Type}

/-- Run `m`, then `f` on its value; an error of `m` ends the computation. -/
def bind (m : ProgM C R μ σ ε α) (f : α → ProgM C R μ σ ε β) : ProgM C R μ σ ε β := fun s => do
  match ← m s with
  | (.ok a, s') => f a s'
  | (.error e, s') => pure (.error e, s')

instance : Monad (ProgM C R μ σ ε) where
  pure a := fun s => Pure.pure (.ok a, s)
  bind := ProgM.bind

def throw (e : ε) : ProgM C R μ σ ε α := fun s => pure (.error e, s)

def get : ProgM C R μ σ ε σ := fun s => pure (.ok s, s)

def set (s : σ) : ProgM C R μ σ ε Unit := fun _ => pure (.ok (), s)

def command (c : C) : ProgM C R μ σ ε (R c) := fun s => .op c fun r => .pure (.ok r, s)

/-- One call of kind `kind` that returns the items `evs`. -/
def call {κ ι : Type} (kind : κ) (evs : Except ε α → List ι) (m : ProgM C R Empty σ ε α) :
    ProgM C R (Mark κ ι) σ ε α := fun s =>
  Prog.call kind (fun r => evs r.1) (m s)

/-- The outcome of `m` as a value: `match m with Ok .. Err ..`. -/
def attempt (m : ProgM C R μ σ ε α) : ProgM C R μ σ ε' (Except ε α) := fun s => do
  let (r, s') ← m s
  pure (.ok r, s')

def mapErr (f : ε → ε') (m : ProgM C R μ σ ε α) : ProgM C R μ σ ε' α := fun s => do
  match ← m s with
  | (.ok a, s') => pure (.ok a, s')
  | (.error e, s') => pure (.error (f e), s')

/-- Run `m` with a local state of its own, which is dropped afterwards. -/
def within {σ' : Type} (s : σ') (m : ProgM C R μ σ' ε α) : ProgM C R μ σ ε α := fun t => do
  let (r, _) ← m s
  pure (r, t)

/-- Run `m` on a part of the local state. -/
def zoom {σ' : Type} (part : σ → σ') (put : σ' → σ → σ) (m : ProgM C R μ σ' ε α) :
    ProgM C R μ σ ε α := fun s => do
  let (r, t) ← m (part s)
  pure (r, put t s)

def ofExcept : Except ε α → ProgM C R μ σ ε α
  | .ok a => pure a
  | .error e => throw e

end ProgM

end Kerners.Lib
