import Mathlib.Algebra.Group.Nat.Defs
import Mathlib.Data.Fintype.Basic

/-!
# Module references and unloading (`src/module/loader.rs`)

`acquire` hands out a `ModuleRef`, its drop gives the reference back, `unload` and `unload_wait`
free a module. All of them go through `LOADED_MODULES`, a reader-writer lock around the list of
loaded modules, and through two atomics of the module: `unloading` and `ref_count`. Threads
interleave between any two atomic accesses, so each access is a step of its own here.

* A thread is at a program counter `Pc`; `State.pc` gives one to every thread of an arbitrary type
  `τ`. Names have an arbitrary type `ν`: a module is looked up by name (`findName`), and several
  modules may carry one name, since `load_object` does not check for it.
* The reader-writer lock is its contract: a read lock is granted while no thread holds the write
  lock, the write lock while no thread holds either.
* `LoadedModule.id` stands for the address of the boxed module. A `ModuleRef` remembers, beside its
  name, the module whose counter was raised for it (`target`) and a serial number; neither exists
  in the Rust struct, which finds the module by name again when it is dropped. A reference is
  outstanding (`State.refs`) from the `fetch_add` of `try_get` to the `fetch_sub` of its drop. The
  counter does not wrap upwards: `2^64` references cannot exist at once.
-/

namespace Kerners.Module

open Function List

/-- `LoadedModule`: identity, name and the two atomics. -/
structure LoadedModule (ν : Type) where
  id : Nat
  name : ν
  refCount : Nat
  unloading : Bool
  deriving DecidableEq

/-- An outstanding `ModuleRef`. -/
structure ModuleRef (ν : Type) where
  serial : Nat
  name : ν
  target : Nat
  deriving DecidableEq

/-- How an unload waits: `unload` fails at once, `unload_wait` retries up to `maxWaitMs` times. -/
inductive Patience where
  | failAtOnce
  | upTo (maxWaitMs waited : Nat)
  deriving DecidableEq

/-- Program counters. The comment says what the thread does next. -/
inductive Pc (ν : Type) where
  | idle
  -- `acquire`, the read lock held in all four
  | acqLocked (name : ν)                      -- find the module
  | acqFound (name : ν) (m : Nat)             -- load `unloading`
  | acqOpen (name : ν) (m : Nat)              -- `fetch_add`
  | acqCounted (r : ModuleRef ν)              -- release the lock and return
  -- `ModuleRef::drop`
  | dropLocked (r : ModuleRef ν)              -- find the module, read lock held
  | dropFound (r : ModuleRef ν) (m : Nat)     -- release the lock
  | dropReady (r : ModuleRef ν) (m : Nat)     -- `fetch_sub`
  -- `unload` / `unload_wait`, first critical section, read lock held
  | flagLocked (name : ν) (w : Patience)      -- find the module
  | flagFound (name : ν) (w : Patience) (m : Nat)    -- swap `unloading`
  | flagSet (name : ν) (w : Patience) (m : Nat)      -- release the lock
  -- second critical section
  | testReady (name : ν) (w : Patience) (m : Nat)    -- take the read lock
  | testLocked (name : ν) (w : Patience) (m : Nat)   -- find the module
  | testFound (name : ν) (w : Patience) (m m' : Nat) -- load `ref_count`
  | testSpin (name : ν) (maxWaitMs waited m : Nat)   -- release the lock and spin
  | testZero (name : ν) (m : Nat)                    -- release the lock
  -- giving up
  | timedOut (name : ν) (m : Nat)             -- take the read lock
  | timedOutLocked (name : ν) (m : Nat)       -- find the module
  | rollback (name : ν) (m m' : Nat)          -- clear `unloading`, read lock held
  -- third critical section
  | freeReady (name : ν) (m : Nat)            -- take the write lock
  | freeLocked (name : ν) (m : Nat)           -- find the module, write lock held
  | freeFound (name : ν) (m m' : Nat)         -- run `exit`, free the pages
  | freeFreed (name : ν) (m m' : Nat)         -- remove the module
  -- leaving a critical section
  | readDone                                  -- release the read lock
  | writeDone                                 -- release the write lock
  deriving DecidableEq

namespace Pc

variable {ν : Type}

@[simp] def holdsRead : Pc ν → Bool
  | .acqLocked _ | .acqFound _ _ | .acqOpen _ _ | .acqCounted _ => true
  | .dropLocked _ | .dropFound _ _ => true
  | .flagLocked _ _ | .flagFound _ _ _ | .flagSet _ _ _ => true
  | .testLocked _ _ _ | .testFound _ _ _ _ | .testSpin _ _ _ _ | .testZero _ _ => true
  | .timedOutLocked _ _ | .rollback _ _ _ | .readDone => true
  | _ => false

@[simp] def holdsWrite : Pc ν → Bool
  | .freeLocked _ _ | .freeFound _ _ _ | .freeFreed _ _ _ | .writeDone => true
  | _ => false

@[simp] def dropping : Pc ν → Option (ModuleRef ν)
  | .dropLocked r | .dropFound r _ | .dropReady r _ => some r
  | _ => none

@[simp] def counted : Pc ν → Option (ModuleRef ν)
  | .acqCounted r => some r
  | _ => none

/-- The module whose `unloading` flag this unload has set. -/
@[simp] def flagged : Pc ν → Option Nat
  | .flagSet _ _ m | .testReady _ _ m | .testLocked _ _ m | .testFound _ _ m _ => some m
  | .testSpin _ _ _ m | .testZero _ m | .timedOut _ m | .timedOutLocked _ m => some m
  | .rollback _ m _ | .freeReady _ m | .freeLocked _ m | .freeFound _ m _ => some m
  | .freeFreed _ m _ => some m
  | _ => none

end Pc

/-- Modules, references and threads. `freed` lists the modules whose pages were given back. -/
structure State (ν τ : Type) where
  modules : List (LoadedModule ν)
  refs : List (ModuleRef ν)
  freed : List Nat
  nextId : Nat
  nextSerial : Nat
  pc : τ → Pc ν

section

variable {ν τ : Type} [DecidableEq ν] {ms : List (LoadedModule ν)} {n : ν} {m : Nat}

/-- `modules.iter().find(|m| m.info.name == name)`. -/
def findName (ms : List (LoadedModule ν)) (name : ν) : Option Nat :=
  (ms.find? fun x => x.name = name).map LoadedModule.id

/-- Change the module at address `m`. -/
def onModule (m : Nat) (f : LoadedModule ν → LoadedModule ν) (ms : List (LoadedModule ν)) :
    List (LoadedModule ν) :=
  ms.map fun x => if x.id = m then f x else x

namespace State

variable (s : State ν τ)

/-- Thread `t` moves on to `p`. -/
def goto [DecidableEq τ] (t : τ) (p : Pc ν) : State ν τ := { s with pc := update s.pc t p }

/-- `unloading.store(b)`. -/
def setUnloading (m : Nat) (b : Bool) : State ν τ :=
  { s with modules := onModule m (fun x => { x with unloading := b }) s.modules }

/-- `ref_count.fetch_add(1)` of `try_get`, for a new reference `r`. -/
def addRef (r : ModuleRef ν) : State ν τ :=
  { s with
    modules := onModule r.target (fun x => { x with refCount := x.refCount + 1 }) s.modules
    refs := r :: s.refs
    nextSerial := s.nextSerial + 1 }

/-- `ref_count.fetch_sub(1)` on module `m` for the reference `r`; it wraps below 0. -/
def subRef (r : ModuleRef ν) (m : Nat) : State ν τ :=
  { s with
    modules := onModule m
      (fun x => { x with refCount := if x.refCount = 0 then 2 ^ 64 - 1 else x.refCount - 1 })
      s.modules
    refs := s.refs.erase r }

/-- The reference that `acquire(name)` is about to return. -/
def newRef (name : ν) (m : Nat) : ModuleRef ν := ⟨s.nextSerial, name, m⟩

def NoWriter : Prop := ∀ t, (s.pc t).holdsWrite = false

def Unlocked : Prop := ∀ t, (s.pc t).holdsWrite = false ∧ (s.pc t).holdsRead = false

instance [Fintype τ] : Decidable s.NoWriter :=
  inferInstanceAs (Decidable (∀ t, (s.pc t).holdsWrite = false))

instance [Fintype τ] : Decidable s.Unlocked :=
  inferInstanceAs (Decidable (∀ t, (s.pc t).holdsWrite = false ∧ (s.pc t).holdsRead = false))

end State

inductive Step [DecidableEq τ] (ok : State ν τ → Nat → Prop) : State ν τ → State ν τ → Prop
  /-- The last step of `load_object`: push the new module under the write lock. -/
  | load (s : State ν τ) (name : ν) (hl : s.Unlocked) :
      Step ok s { s with modules := s.modules ++ [⟨s.nextId, name, 0, false⟩],
                         nextId := s.nextId + 1 }
  | acqLock (s : State ν τ) (t : τ) (name : ν) (hpc : s.pc t = .idle) (hl : s.NoWriter) :
      Step ok s (s.goto t (.acqLocked name))
  | acqFind (s : State ν τ) (t : τ) (name : ν) (m : Nat) (hpc : s.pc t = .acqLocked name)
      (hf : findName s.modules name = some m) : Step ok s (s.goto t (.acqFound name m))
  | acqMissing (s : State ν τ) (t : τ) (name : ν) (hpc : s.pc t = .acqLocked name)
      (hf : findName s.modules name = none) : Step ok s (s.goto t .readDone)
  | acqLoad (s : State ν τ) (t : τ) (name : ν) (m : Nat) (x : LoadedModule ν)
      (hpc : s.pc t = .acqFound name m) (hx : x ∈ s.modules) (hid : x.id = m) :
      Step ok s (s.goto t (if x.unloading then .readDone else .acqOpen name m))
  | acqCount (s : State ν τ) (t : τ) (name : ν) (m : Nat) (hpc : s.pc t = .acqOpen name m) :
      Step ok s ((s.addRef (s.newRef name m)).goto t (.acqCounted (s.newRef name m)))
  | acqReturn (s : State ν τ) (t : τ) (r : ModuleRef ν) (hpc : s.pc t = .acqCounted r) :
      Step ok s (s.goto t .idle)
  /-- A drop begins: nobody else drops this reference, and its `acquire` has returned. -/
  | dropLock (s : State ν τ) (t : τ) (r : ModuleRef ν) (hpc : s.pc t = .idle) (hr : r ∈ s.refs)
      (hd : ∀ t', (s.pc t').dropping ≠ some r) (hc : ∀ t', (s.pc t').counted ≠ some r)
      (hl : s.NoWriter) : Step ok s (s.goto t (.dropLocked r))
  | dropFind (s : State ν τ) (t : τ) (r : ModuleRef ν) (m : Nat) (hpc : s.pc t = .dropLocked r)
      (hf : findName s.modules r.name = some m) : Step ok s (s.goto t (.dropFound r m))
  /-- The name is gone: `get()` returns `None` and the drop does nothing. -/
  | dropMissing (s : State ν τ) (t : τ) (r : ModuleRef ν) (hpc : s.pc t = .dropLocked r)
      (hf : findName s.modules r.name = none) :
      Step ok s ({ s with refs := s.refs.erase r }.goto t .readDone)
  | dropUnlock (s : State ν τ) (t : τ) (r : ModuleRef ν) (m : Nat)
      (hpc : s.pc t = .dropFound r m) : Step ok s (s.goto t (.dropReady r m))
  | dropSub (s : State ν τ) (t : τ) (r : ModuleRef ν) (m : Nat) (hpc : s.pc t = .dropReady r m) :
      Step ok s ((s.subRef r m).goto t .idle)
  | flagLock (s : State ν τ) (t : τ) (name : ν) (w : Patience) (hpc : s.pc t = .idle)
      (hl : s.NoWriter) : Step ok s (s.goto t (.flagLocked name w))
  | flagFind (s : State ν τ) (t : τ) (name : ν) (w : Patience) (m : Nat)
      (hpc : s.pc t = .flagLocked name w) (hf : findName s.modules name = some m) :
      Step ok s (s.goto t (.flagFound name w m))
  | flagMissing (s : State ν τ) (t : τ) (name : ν) (w : Patience)
      (hpc : s.pc t = .flagLocked name w) (hf : findName s.modules name = none) :
      Step ok s (s.goto t .readDone)
  /-- `unloading.swap(true)` found the flag set: another unload is under way. -/
  | flagTaken (s : State ν τ) (t : τ) (name : ν) (w : Patience) (m : Nat) (x : LoadedModule ν)
      (hpc : s.pc t = .flagFound name w m) (hx : x ∈ s.modules) (hid : x.id = m)
      (hu : x.unloading = true) : Step ok s (s.goto t .readDone)
  | flagSwap (s : State ν τ) (t : τ) (name : ν) (w : Patience) (m : Nat) (x : LoadedModule ν)
      (hpc : s.pc t = .flagFound name w m) (hx : x ∈ s.modules) (hid : x.id = m)
      (hu : x.unloading = false) :
      Step ok s ((s.setUnloading m true).goto t (.flagSet name w m))
  | flagUnlock (s : State ν τ) (t : τ) (name : ν) (w : Patience) (m : Nat)
      (hpc : s.pc t = .flagSet name w m) : Step ok s (s.goto t (.testReady name w m))
  | testLock (s : State ν τ) (t : τ) (name : ν) (w : Patience) (m : Nat)
      (hpc : s.pc t = .testReady name w m) (hl : s.NoWriter) :
      Step ok s (s.goto t (.testLocked name w m))
  | testFind (s : State ν τ) (t : τ) (name : ν) (w : Patience) (m m' : Nat)
      (hpc : s.pc t = .testLocked name w m) (hf : findName s.modules name = some m') :
      Step ok s (s.goto t (.testFound name w m m'))
  | testMissing (s : State ν τ) (t : τ) (name : ν) (w : Patience) (m : Nat)
      (hpc : s.pc t = .testLocked name w m) (hf : findName s.modules name = none) :
      Step ok s (s.goto t .readDone)
  /-- `ref_count` is 0: the unload goes on. -/
  | testPass (s : State ν τ) (t : τ) (name : ν) (w : Patience) (m m' : Nat) (x : LoadedModule ν)
      (hpc : s.pc t = .testFound name w m m') (hx : x ∈ s.modules) (hid : x.id = m')
      (hz : x.refCount = 0) (hok : ok s m') : Step ok s (s.goto t (.testZero name m))
  /-- `unload` finds the module in use. -/
  | testBusy (s : State ν τ) (t : τ) (name : ν) (m m' : Nat) (x : LoadedModule ν)
      (hpc : s.pc t = .testFound name .failAtOnce m m') (hx : x ∈ s.modules) (hid : x.id = m')
      (hz : x.refCount ≠ 0) : Step ok s (s.goto t (.rollback name m m'))
  /-- `unload_wait` finds the module in use. -/
  | testWait (s : State ν τ) (t : τ) (name : ν) (maxWaitMs waited m m' : Nat)
      (x : LoadedModule ν) (hpc : s.pc t = .testFound name (.upTo maxWaitMs waited) m m')
      (hx : x ∈ s.modules) (hid : x.id = m') (hz : x.refCount ≠ 0) :
      Step ok s (s.goto t (.testSpin name maxWaitMs waited m))
  | testAgain (s : State ν τ) (t : τ) (name : ν) (maxWaitMs waited m : Nat)
      (hpc : s.pc t = .testSpin name maxWaitMs waited m) :
      Step ok s (s.goto t (if maxWaitMs > 0 ∧ waited + 1 ≥ maxWaitMs then .timedOut name m
        else .testReady name (.upTo maxWaitMs (waited + 1)) m))
  | testUnlock (s : State ν τ) (t : τ) (name : ν) (m : Nat) (hpc : s.pc t = .testZero name m) :
      Step ok s (s.goto t (.freeReady name m))
  | giveUpLock (s : State ν τ) (t : τ) (name : ν) (m : Nat) (hpc : s.pc t = .timedOut name m)
      (hl : s.NoWriter) : Step ok s (s.goto t (.timedOutLocked name m))
  | giveUpFind (s : State ν τ) (t : τ) (name : ν) (m m' : Nat)
      (hpc : s.pc t = .timedOutLocked name m) (hf : findName s.modules name = some m') :
      Step ok s (s.goto t (.rollback name m m'))
  | giveUpMissing (s : State ν τ) (t : τ) (name : ν) (m : Nat)
      (hpc : s.pc t = .timedOutLocked name m) (hf : findName s.modules name = none) :
      Step ok s (s.goto t .readDone)
  | rollBack (s : State ν τ) (t : τ) (name : ν) (m m' : Nat)
      (hpc : s.pc t = .rollback name m m') :
      Step ok s ((s.setUnloading m' false).goto t .readDone)
  | freeLock (s : State ν τ) (t : τ) (name : ν) (m : Nat) (hpc : s.pc t = .freeReady name m)
      (hl : s.Unlocked) : Step ok s (s.goto t (.freeLocked name m))
  | freeFind (s : State ν τ) (t : τ) (name : ν) (m m' : Nat)
      (hpc : s.pc t = .freeLocked name m) (hf : findName s.modules name = some m') :
      Step ok s (s.goto t (.freeFound name m m'))
  | freeMissing (s : State ν τ) (t : τ) (name : ν) (m : Nat) (hpc : s.pc t = .freeLocked name m)
      (hf : findName s.modules name = none) : Step ok s (s.goto t .writeDone)
  | freePages (s : State ν τ) (t : τ) (name : ν) (m m' : Nat)
      (hpc : s.pc t = .freeFound name m m') :
      Step ok s ({ s with freed := m' :: s.freed }.goto t (.freeFreed name m m'))
  | remove (s : State ν τ) (t : τ) (name : ν) (m m' : Nat)
      (hpc : s.pc t = .freeFreed name m m') :
      Step ok s ({ s with modules := s.modules.filter (fun x => x.id ≠ m') }.goto t .writeDone)
  | readUnlock (s : State ν τ) (t : τ) (hpc : s.pc t = .readDone) : Step ok s (s.goto t .idle)
  | writeUnlock (s : State ν τ) (t : τ) (hpc : s.pc t = .writeDone) : Step ok s (s.goto t .idle)

def State.start : State ν τ := ⟨[], [], [], 0, 0, fun _ => .idle⟩

def ReachBy [DecidableEq τ] (ok : State ν τ → Nat → Prop) : State ν τ → Prop :=
  Relation.ReflTransGen (Step ok) State.start

/-! ## The invariant -/

def Flagged (s : State ν τ) (name : ν) (m : Nat) : Prop :=
  findName s.modules name = some m ∧ ∀ x ∈ s.modules, x.id = m → x.unloading = true

/-- No reference to `m` is outstanding and no `acquire` is about to make one. -/
def Quiet (s : State ν τ) (m : Nat) : Prop :=
  (∀ r ∈ s.refs, r.target ≠ m) ∧ ∀ t name, s.pc t ≠ .acqOpen name m

/-- What a thread at `p` may rely on. -/
def Pc.Ok (s : State ν τ) : Pc ν → Prop
  | .acqFound n m | .acqOpen n m | .flagFound n _ m => findName s.modules n = some m
  | .dropLocked r => r ∈ s.refs
  | .dropFound r m | .dropReady r m => r ∈ s.refs ∧ m = r.target
  | .flagSet n _ m | .testReady n _ m | .testLocked n _ m | .testSpin n _ _ m => Flagged s n m
  | .timedOut n m | .timedOutLocked n m => Flagged s n m
  | .testFound n _ m m' | .rollback n m m' => Flagged s n m ∧ m' = m
  | .testZero n m | .freeReady n m | .freeLocked n m => Flagged s n m ∧ Quiet s m
  | .freeFound n m m' | .freeFreed n m m' => (Flagged s n m ∧ Quiet s m) ∧ m' = m
  | _ => True

/-- **The invariant** of modules, references and threads. -/
structure Inv (s : State ν τ) : Prop where
  ids : ∀ x ∈ s.modules, ∀ y ∈ s.modules, x.id = y.id → x = y
  fresh : ∀ x ∈ s.modules, x.id < s.nextId
  freed_fresh : ∀ i ∈ s.freed, i < s.nextId
  /-- A writer excludes every other holder of the lock. -/
  excl : ∀ t t', (s.pc t).holdsWrite = true → t' ≠ t →
    (s.pc t').holdsRead = false ∧ (s.pc t').holdsWrite = false
  counts : ∀ x ∈ s.modules, x.refCount = s.refs.countP (·.target = x.id)
  refs : ∀ r ∈ s.refs, findName s.modules r.name = some r.target
  threads : ∀ t, (s.pc t).Ok s
  drop_once : ∀ t t' r, (s.pc t).dropping = some r → (s.pc t').dropping = some r → t = t'
  flag_once : ∀ t t' m, (s.pc t).flagged = some m → (s.pc t').flagged = some m → t = t'
  /-- A freed module has been removed, or is about to be. -/
  freed : ∀ i ∈ s.freed, (∀ x ∈ s.modules, x.id ≠ i) ∨ ∃ t n m, s.pc t = .freeFreed n m i

/-- The condition on an unload's test of `ref_count`: no `acquire` of the same module stands
between its load of `unloading` and its `fetch_add`. -/
def NoneOpen (s : State ν τ) (m : Nat) : Prop := ∀ t name, s.pc t ≠ .acqOpen name m

/-! ### Looking a module up by name -/

theorem findName_some (h : findName ms n = some m) : ∃ x ∈ ms, x.id = m := by
  obtain ⟨x, hx, hid⟩ := Option.map_eq_some_iff.mp h
  exact ⟨x, mem_of_find?_eq_some hx, hid⟩

theorem findName_onModule (m : Nat) {f : LoadedModule ν → LoadedModule ν}
    (hid : ∀ x, (f x).id = x.id) (hname : ∀ x, (f x).name = x.name) (n : ν) :
    ∀ ms : List (LoadedModule ν), findName (onModule m f ms) n = findName ms n
  | [] => rfl
  | x :: ms => by
    have ih := findName_onModule m hid hname n ms
    have hn : (if x.id = m then f x else x).name = x.name := by split_ifs <;> simp [hname]
    have hi : (if x.id = m then f x else x).id = x.id := by split_ifs <;> simp [hid]
    unfold findName onModule at *
    simp only [map_cons, find?_cons, hn]
    split
    · simp only [Option.map_some, hi]
    · exact ih

theorem findName_append (x : LoadedModule ν) (h : findName ms n = some m) :
    findName (ms ++ [x]) n = some m := by
  obtain ⟨y, hy, hid⟩ := Option.map_eq_some_iff.mp h
  unfold findName
  rw [find?_append, hy]
  simpa using hid

theorem findName_filter {n : ν} {m m' : Nat} (hne : m ≠ m') :
    ∀ {ms : List (LoadedModule ν)}, findName ms n = some m →
      findName (ms.filter fun x => x.id ≠ m') n = some m
  | [], h => h
  | x :: ms, h => by
    unfold findName at h
    rw [find?_cons] at h
    split at h
    · rename_i hx
      have hid : x.id = m := by simpa using h
      unfold findName
      rw [filter_cons_of_pos (by simp [hid, hne]), find?_cons, hx]
      simpa using hid
    · rename_i hx
      have ih := findName_filter hne h
      by_cases hid : x.id = m'
      · rw [filter_cons_of_neg (by simp [hid])]
        exact ih
      · rw [filter_cons_of_pos (by simp [hid])]
        unfold findName at ih ⊢
        rw [find?_cons, hx]
        exact ih

omit [DecidableEq ν] in
theorem mem_onModule {f : LoadedModule ν → LoadedModule ν} {y : LoadedModule ν} :
    y ∈ onModule m f ms ↔ ∃ x ∈ ms, y = if x.id = m then f x else x := by
  unfold onModule
  rw [mem_map]
  exact exists_congr fun x => and_congr_right fun _ => eq_comm

/-! ### What a thread relies on survives the other threads -/

variable {s : State ν τ} {p : Pc ν}

theorem Pc.Ok.mono {s' : State ν τ} (h : p.Ok s)
    (hfind : ∀ n m, p.holdsRead = true ∨ p.flagged = some m → findName s.modules n = some m →
        findName s'.modules n = some m)
    (hflag :
      ∀ n m, p.flagged = some m → Flagged s n m → ∀ x ∈ s'.modules, x.id = m → x.unloading = true)
    (hrefs : ∀ r, p.dropping = some r → r ∈ s.refs → r ∈ s'.refs)
    (hquiet : ∀ n m, p.flagged = some m → Flagged s n m → Quiet s m → Quiet s' m) : p.Ok s' := by
  have hF : ∀ n m, p.flagged = some m → Flagged s n m → Flagged s' n m := fun n m hp hf =>
    ⟨hfind n m (Or.inr hp) hf.1, hflag n m hp hf⟩
  cases p with
  | acqFound n m => exact hfind n m (Or.inl rfl) h
  | acqOpen n m => exact hfind n m (Or.inl rfl) h
  | flagFound n w m => exact hfind n m (Or.inl rfl) h
  | dropLocked r => exact hrefs r rfl h
  | dropFound r m => exact ⟨hrefs r rfl h.1, h.2⟩
  | dropReady r m => exact ⟨hrefs r rfl h.1, h.2⟩
  | flagSet n w m => exact hF n m rfl h
  | testReady n w m => exact hF n m rfl h
  | testLocked n w m => exact hF n m rfl h
  | testSpin n a b m => exact hF n m rfl h
  | timedOut n m => exact hF n m rfl h
  | timedOutLocked n m => exact hF n m rfl h
  | testFound n w m m' => exact ⟨hF n m rfl h.1, h.2⟩
  | rollback n m m' => exact ⟨hF n m rfl h.1, h.2⟩
  | testZero n m => exact ⟨hF n m rfl h.1, hquiet n m rfl h.1 h.2⟩
  | freeReady n m => exact ⟨hF n m rfl h.1, hquiet n m rfl h.1 h.2⟩
  | freeLocked n m => exact ⟨hF n m rfl h.1, hquiet n m rfl h.1 h.2⟩
  | freeFound n m m' => exact ⟨⟨hF n m rfl h.1.1, hquiet n m rfl h.1.1 h.1.2⟩, h.2⟩
  | freeFreed n m m' => exact ⟨⟨hF n m rfl h.1.1, hquiet n m rfl h.1.1 h.1.2⟩, h.2⟩
  | _ => trivial

theorem Flagged.unique {m' : Nat} (h : Flagged s n m) (hf : findName s.modules n = some m') :
    m' = m :=
  Option.some.inj (hf.symm.trans h.1)

theorem Pc.Ok.isFlagged (h : p.Ok s) (hp : p.flagged = some m) : ∃ n, Flagged s n m := by
  cases p <;> simp only [Pc.flagged, reduceCtorEq, Option.some.injEq] at hp <;> subst hp
  case flagSet n w m => exact ⟨n, h⟩
  case testReady n w m => exact ⟨n, h⟩
  case testLocked n w m => exact ⟨n, h⟩
  case testFound n w m m' => exact ⟨n, h.1⟩
  case testSpin n a b m => exact ⟨n, h⟩
  case testZero n m => exact ⟨n, h.1⟩
  case timedOut n m => exact ⟨n, h⟩
  case timedOutLocked n m => exact ⟨n, h⟩
  case rollback n m m' => exact ⟨n, h.1⟩
  case freeReady n m => exact ⟨n, h.1⟩
  case freeLocked n m => exact ⟨n, h.1⟩
  case freeFound n m m' => exact ⟨n, h.1.1⟩
  case freeFreed n m m' => exact ⟨n, h.1.1⟩

theorem Inv.ok_at (hi : Inv s) {t : τ} (hpc : s.pc t = p) : p.Ok s :=
  hpc ▸ hi.threads t

theorem Inv.not_flagged (hi : Inv s) {x : LoadedModule ν} (hx : x ∈ s.modules)
    (hu : x.unloading = false) (t : τ) : (s.pc t).flagged ≠ some x.id := by
  intro h
  obtain ⟨n, -, hall⟩ := (hi.threads t).isFlagged h
  rw [hall x hx rfl] at hu
  exact absurd hu (by decide)

/-! ### Steps that only move a thread -/

section

variable [DecidableEq τ] {s : State ν τ} {t : τ} {p : Pc ν}

omit [DecidableEq ν] in
@[simp] theorem goto_self : (s.goto t p).pc t = p := update_self ..

omit [DecidableEq ν] in
theorem goto_of_ne {t' : τ} (h : t' ≠ t) : (s.goto t p).pc t' = s.pc t' :=
  update_of_ne h ..

theorem Inv.threads_goto (hi : Inv s) (hok : p.Ok s)
    (hopen : ∀ n m, p = .acqOpen n m → ∀ x ∈ s.modules, x.id = m → x.unloading = false) (t' : τ) :
    ((s.goto t p).pc t').Ok (s.goto t p) := by
  -- an `acquire` that has just seen a clear flag disturbs no unload that relies on quiet
  have hquiet : ∀ n m, Flagged s n m → Quiet s m → Quiet (s.goto t p) m := by
    rintro n m ⟨hf, hall⟩ ⟨hr, ho⟩
    refine ⟨hr, fun t'' n' => ?_⟩
    by_cases ht : t'' = t
    · subst ht
      rw [goto_self]
      intro hp
      obtain ⟨x, hx, hid⟩ := findName_some hf
      have h1 := hopen n' m hp x hx hid
      rw [hall x hx hid] at h1
      exact absurd h1 (by decide)
    · rw [goto_of_ne ht]
      exact ho t'' n'
  have hmono : ∀ q : Pc ν, q.Ok s → q.Ok (s.goto t p) := fun q hq =>
    hq.mono (fun n m _ h => h) (fun n m _ h => h.2) (fun r _ h => h)
      (fun n m _ hf hq => hquiet n m hf hq)
  by_cases ht : t' = t
  · subst ht
    rw [goto_self]
    exact hmono p hok
  · rw [goto_of_ne ht]
    exact hmono _ (hi.threads t')

theorem Inv.excl_goto (hi : Inv s)
    (hread : p.holdsRead = true → (s.pc t).holdsRead = true ∨ s.NoWriter)
    (hwrite : p.holdsWrite = true → (s.pc t).holdsWrite = true ∨ s.Unlocked) (a b : τ)
    (ha : ((s.goto t p).pc a).holdsWrite = true) (hba : b ≠ a) :
    ((s.goto t p).pc b).holdsRead = false ∧ ((s.goto t p).pc b).holdsWrite = false := by
  by_cases hat : a = t
  · subst hat
    rw [goto_self] at ha
    rw [goto_of_ne hba]
    rcases hwrite ha with h | h
    · exact hi.excl a b h hba
    · exact ⟨(h b).2, (h b).1⟩
  · rw [goto_of_ne hat] at ha
    by_cases hbt : b = t
    · subst hbt
      rw [goto_self]
      have hb := hi.excl a b ha hba
      have hr : p.holdsRead = false := by
        cases hp : p.holdsRead with
        | false => rfl
        | true =>
          rcases hread hp with h | h
          · rw [hb.1] at h; exact absurd h (by decide)
          · rw [h a] at ha; exact absurd ha (by decide)
      have hw : p.holdsWrite = false := by
        cases hp : p.holdsWrite with
        | false => rfl
        | true =>
          rcases hwrite hp with h | h
          · rw [hb.2] at h; exact absurd h (by decide)
          · rw [(h a).1] at ha; exact absurd ha (by decide)
      exact ⟨hr, hw⟩
    · rw [goto_of_ne hbt]
      exact hi.excl a b ha hba

omit [DecidableEq ν] in
theorem once_goto {β : Type} (f : Pc ν → Option β)
    (hs : ∀ a b v, f (s.pc a) = some v → f (s.pc b) = some v → a = b)
    (hp : ∀ v, f p = some v → f (s.pc t) = some v ∨ ∀ a, f (s.pc a) ≠ some v) (a b : τ) (v : β)
    (ha : f ((s.goto t p).pc a) = some v) (hb : f ((s.goto t p).pc b) = some v) : a = b := by
  by_cases hat : a = t <;> by_cases hbt : b = t
  · rw [hat, hbt]
  · subst hat
    rw [goto_self] at ha
    rw [goto_of_ne hbt] at hb
    rcases hp v ha with h | h
    · exact hs a b v h hb
    · exact absurd hb (h b)
  · subst hbt
    rw [goto_self] at hb
    rw [goto_of_ne hat] at ha
    rcases hp v hb with h | h
    · exact hs a b v ha h
    · exact absurd ha (h a)
  · rw [goto_of_ne hat] at ha
    rw [goto_of_ne hbt] at hb
    exact hs a b v ha hb

theorem Inv.goto (hi : Inv s) (hok : p.Ok s)
    (hopen : ∀ n m, p = .acqOpen n m → ∀ x ∈ s.modules, x.id = m → x.unloading = false)
    (hread : p.holdsRead = true → (s.pc t).holdsRead = true ∨ s.NoWriter)
    (hwrite : p.holdsWrite = true → (s.pc t).holdsWrite = true ∨ s.Unlocked)
    (hdrop :
      ∀ r, p.dropping = some r → (s.pc t).dropping = some r ∨ ∀ a, (s.pc a).dropping ≠ some r)
    (hflag : ∀ m, p.flagged = some m → (s.pc t).flagged = some m ∨ ∀ a, (s.pc a).flagged ≠ some m)
    (hfreed : ∀ n m i, s.pc t ≠ .freeFreed n m i) : Inv (s.goto t p) where
  ids := hi.ids
  fresh := hi.fresh
  freed_fresh := hi.freed_fresh
  excl := hi.excl_goto hread hwrite
  counts := hi.counts
  refs := hi.refs
  threads := hi.threads_goto hok hopen
  drop_once := once_goto Pc.dropping hi.drop_once hdrop
  flag_once := once_goto Pc.flagged hi.flag_once hflag
  freed := fun i hmem => (hi.freed i hmem).imp_right fun ⟨a, n, m, ha⟩ =>
    ⟨a, n, m, by
      have hat : a ≠ t := by
        rintro rfl
        exact hfreed n m i ha
      rw [goto_of_ne hat]
      exact ha⟩

/-- A thread moves from `q` on to `p` inside its call: it keeps the marks it has, and takes a lock
only where the lock is granted. -/
structure Pc.Onward (s : State ν τ) (q p : Pc ν) : Prop where
  notOpen : ∀ n m, p ≠ .acqOpen n m
  read : p.holdsRead = true → q.holdsRead = true ∨ s.NoWriter
  write : p.holdsWrite = true → q.holdsWrite = true ∨ s.Unlocked
  drop : ∀ r, p.dropping = some r → q.dropping = some r
  flag : ∀ m, p.flagged = some m → q.flagged = some m
  notFreed : ∀ n m i, q ≠ .freeFreed n m i

theorem Inv.move (hi : Inv s) {q : Pc ν} (hpc : s.pc t = q) (hok : p.Ok s) (h : q.Onward s p) :
    Inv (s.goto t p) := by
  subst hpc
  exact hi.goto hok (fun n m he => absurd he (h.notOpen n m)) h.read h.write
    (fun r hr => Or.inl (h.drop r hr)) (fun m hm => Or.inl (h.flag m hm)) h.notFreed

end

/-! ### Steps that change the modules or the references -/

section

variable {s : State ν τ}

theorem Inv.load (hi : Inv s) (name : ν) :
    Inv { s with modules := s.modules ++ [⟨s.nextId, name, 0, false⟩]
                 nextId := s.nextId + 1 } := by
  have hnew : ∀ n m, findName s.modules n = some m → m ≠ s.nextId := by
    intro n m h
    obtain ⟨x, hx, hid⟩ := findName_some h
    exact hid ▸ Nat.ne_of_lt (hi.fresh x hx)
  have hno : ∀ r ∈ s.refs, r.target ≠ s.nextId := fun r hr => hnew _ _ (hi.refs r hr)
  refine ⟨?_, ?_, ?_, hi.excl, ?_, ?_, ?_, hi.drop_once, hi.flag_once, ?_⟩
  · intro x hx y hy h
    rw [mem_append, mem_singleton] at hx hy
    rcases hx with hx | rfl <;> rcases hy with hy | rfl
    · exact hi.ids x hx y hy h
    · exact absurd h (Nat.ne_of_lt (hi.fresh x hx))
    · exact absurd h.symm (Nat.ne_of_lt (hi.fresh y hy))
    · rfl
  · intro x hx
    rw [mem_append, mem_singleton] at hx
    rcases hx with hx | rfl
    · exact Nat.lt_succ_of_lt (hi.fresh x hx)
    · exact Nat.lt_succ_self _
  · exact fun i h => Nat.lt_succ_of_lt (hi.freed_fresh i h)
  · intro x hx
    rw [mem_append, mem_singleton] at hx
    rcases hx with hx | rfl
    · exact hi.counts x hx
    · exact (countP_eq_zero.mpr fun r hr => by simpa using hno r hr).symm
  · exact fun r hr => findName_append _ (hi.refs r hr)
  · intro t
    refine (hi.threads t).mono (fun n m _ h => findName_append _ h) ?_ (fun r _ h => h)
      (fun n m _ _ h => h)
    intro n m _ hf x hx hid
    rw [mem_append, mem_singleton] at hx
    rcases hx with hx | rfl
    · exact hf.2 x hx hid
    · exact absurd hid.symm (hnew n m hf.1)
  · refine fun i h => (hi.freed i h).imp_left fun hall x hx => ?_
    rw [mem_append, mem_singleton] at hx
    rcases hx with hx | rfl
    · exact hall x hx
    · exact (Nat.ne_of_lt (hi.freed_fresh i h)).symm

/-- **Changing one module in place keeps the invariant**, together with a new list of references:
the counters have to count the new list, and no unload that relies on the module's flag or on its
quiet may lose it. -/
theorem Inv.onModule (hi : Inv s) {m : Nat} (f : LoadedModule ν → LoadedModule ν)
    (hid : ∀ x, (f x).id = x.id) (hname : ∀ x, (f x).name = x.name)
    (refs : List (ModuleRef ν)) (next : Nat)
    (hcounts : ∀ x ∈ s.modules,
      (if x.id = m then f x else x).refCount = refs.countP (·.target = x.id))
    (hrefs : ∀ r ∈ refs, findName s.modules r.name = some r.target)
    (hflag : (∀ x, (f x).unloading = x.unloading) ∨ ∀ t, (s.pc t).flagged ≠ some m)
    (hkeep : ∀ t r, (s.pc t).dropping = some r → r ∈ s.refs → r ∈ refs)
    (hquiet : ∀ k, Quiet s k → ∀ r ∈ refs, r.target ≠ k) :
    Inv { s with modules := onModule m f s.modules, refs := refs, nextSerial := next } := by
  have hids : ∀ x : LoadedModule ν, (if x.id = m then f x else x).id = x.id := fun x => by
    split_ifs
    · exact hid x
    · rfl
  have hfind := findName_onModule m hid hname
  refine ⟨?_, ?_, hi.freed_fresh, hi.excl, ?_, ?_, ?_, hi.drop_once, hi.flag_once, ?_⟩
  · intro x' hx' y' hy' h
    obtain ⟨x, hx, rfl⟩ := mem_onModule.mp hx'
    obtain ⟨y, hy, rfl⟩ := mem_onModule.mp hy'
    rw [hids, hids] at h
    rw [hi.ids x hx y hy h]
  · intro x' hx'
    obtain ⟨x, hx, rfl⟩ := mem_onModule.mp hx'
    rw [hids]
    exact hi.fresh x hx
  · intro x' hx'
    obtain ⟨x, hx, rfl⟩ := mem_onModule.mp hx'
    rw [hids]
    exact hcounts x hx
  · exact fun r hr => (hfind r.name _).trans (hrefs r hr)
  · intro t
    refine (hi.threads t).mono (fun n k _ h => (hfind n _).trans h) ?_ (fun r => hkeep t r)
      (fun n k _ _ hq => ⟨hquiet k hq, hq.2⟩)
    intro n k hk hf x' hx' hxk
    obtain ⟨x, hx, rfl⟩ := mem_onModule.mp hx'
    rw [hids] at hxk
    by_cases hxm : x.id = m
    · rw [if_pos hxm]
      rcases hflag with h | h
      · rw [h]
        exact hf.2 x hx hxk
      · exact absurd (hk.trans (congrArg some (hxk.symm.trans hxm))) (h t)
    · rw [if_neg hxm]
      exact hf.2 x hx hxk
  · refine fun i h => (hi.freed i h).imp_left fun hall x' hx' => ?_
    obtain ⟨x, hx, rfl⟩ := mem_onModule.mp hx'
    rw [hids]
    exact hall x hx

theorem Inv.setUnloading (hi : Inv s) {m : Nat} (b : Bool)
    (hm : ∀ t, (s.pc t).flagged ≠ some m) : Inv (s.setUnloading m b) := by
  refine hi.onModule (fun x => { x with unloading := b }) (fun _ => rfl) (fun _ => rfl) s.refs
    s.nextSerial ?_ hi.refs (Or.inr hm) (fun _ _ _ h => h) (fun k hq => hq.1)
  intro x hx
  split_ifs <;> exact hi.counts x hx

theorem Inv.addRef (hi : Inv s) {r : ModuleRef ν} (hr : findName s.modules r.name = some r.target)
    (hopen : ∃ t n, s.pc t = .acqOpen n r.target) : Inv (s.addRef r) := by
  refine hi.onModule (fun x => { x with refCount := x.refCount + 1 }) (fun _ => rfl)
    (fun _ => rfl) (r :: s.refs) (s.nextSerial + 1) ?_ ?_ (Or.inl fun _ => rfl)
    (fun _ _ _ h => mem_cons_of_mem _ h) ?_
  · intro x hx
    have hc := hi.counts x hx
    by_cases hxr : x.id = r.target
    · rw [if_pos hxr, countP_cons_of_pos (by simp [hxr]), ← hc]
    · rw [if_neg hxr, countP_cons_of_neg (by simp [Ne.symm hxr])]
      exact hc
  · intro r' hr'
    rcases mem_cons.mp hr' with rfl | h
    · exact hr
    · exact hi.refs r' h
  · intro k hq r' hr'
    rcases mem_cons.mp hr' with rfl | h
    · rintro rfl
      obtain ⟨t, n, ht⟩ := hopen
      exact hq.2 t n ht
    · exact hq.1 r' h

theorem Inv.subRef (hi : Inv s) {r : ModuleRef ν} (hr : r ∈ s.refs)
    (hdrop : ∀ t, (s.pc t).dropping ≠ some r) : Inv (s.subRef r r.target) := by
  have hmem : ∀ r' ∈ s.refs.erase r, r' ∈ s.refs := fun r' h => mem_of_mem_erase h
  refine hi.onModule
    (fun x => { x with refCount := if x.refCount = 0 then 2 ^ 64 - 1 else x.refCount - 1 })
    (fun _ => rfl) (fun _ => rfl) (s.refs.erase r) s.nextSerial ?_
    (fun r' h => hi.refs r' (hmem r' h)) (Or.inl fun _ => rfl) ?_
    (fun k hq r' h => hq.1 r' (hmem r' h))
  · intro x hx
    have hc := hi.counts x hx
    by_cases hxr : x.id = r.target
    · -- the counter counts `r` itself, so it does not wrap
      have hpos : 0 < s.refs.countP (·.target = x.id) :=
        countP_pos_iff.mpr ⟨r, hr, by simp [hxr]⟩
      have hne : x.refCount ≠ 0 := by omega
      rw [if_pos hxr]
      simp only [if_neg hne]
      rw [countP_erase, if_pos ⟨hr, by simp [hxr]⟩, hc]
    · rw [if_neg hxr, countP_erase, if_neg (by simp [Ne.symm hxr])]
      exact hc
  · intro t r' hd hr'
    have hne : r' ≠ r := by
      rintro rfl
      exact hdrop t hd
    exact (mem_erase_of_ne hne).mpr hr'

theorem Inv.free (hi : Inv s) {i : Nat} (hid : i < s.nextId)
    (hf : ∃ t n m, s.pc t = .freeFreed n m i) : Inv { s with freed := i :: s.freed } := by
  refine ⟨hi.ids, hi.fresh, ?_, hi.excl, hi.counts, hi.refs, ?_, hi.drop_once, hi.flag_once, ?_⟩
  · intro j hj
    rcases mem_cons.mp hj with rfl | h
    · exact hid
    · exact hi.freed_fresh j h
  · exact fun t => (hi.threads t).mono (fun n m _ h => h) (fun n m _ h => h.2) (fun r _ h => h)
      (fun n m _ _ h => h)
  · intro j hj
    rcases mem_cons.mp hj with rfl | h
    · exact Or.inr hf
    · exact hi.freed j h

theorem Inv.remove [DecidableEq τ] (hi : Inv s) {t : τ} {n : ν} {m m' : Nat}
    (hpc : s.pc t = .freeFreed n m m') :
    Inv ({ s with modules := s.modules.filter (fun x => x.id ≠ m') }.goto t .writeDone) := by
  obtain ⟨⟨⟨hfind, hall⟩, hq⟩, rfl⟩ := hi.ok_at hpc
  have hw : (s.pc t).holdsWrite = true := by rw [hpc]; rfl
  have hmem : ∀ x ∈ s.modules.filter (fun x => x.id ≠ m'), x ∈ s.modules := fun x hx =>
    (mem_filter.mp hx).1
  refine ⟨fun x hx y hy => hi.ids x (hmem x hx) y (hmem y hy), fun x hx => hi.fresh x (hmem x hx),
    hi.freed_fresh, ?_, fun x hx => hi.counts x (hmem x hx), ?_, ?_, ?_, ?_, ?_⟩
  · exact hi.excl_goto (by simp) (fun _ => Or.inl hw)
  · exact fun r hr => findName_filter (hq.1 r hr) (hi.refs r hr)
  · intro t'
    by_cases ht : t' = t
    · subst ht
      rw [goto_self]
      trivial
    · rw [goto_of_ne ht]
      have hr := (hi.excl t t' hw ht).1
      have hother : ∀ k, (s.pc t').flagged = some k → k ≠ m' := by
        rintro k hk rfl
        exact ht (hi.flag_once t' t k hk (by rw [hpc]; rfl))
      refine (hi.threads t').mono ?_ (fun n k _ hf x hx => hf.2 x (hmem x hx)) (fun r _ h => h) ?_
      · rintro n k (h | h) hf
        · rw [hr] at h; exact absurd h (by decide)
        · exact findName_filter (hother k h) hf
      · intro n k _ _ hk
        refine ⟨hk.1, fun t'' n' => ?_⟩
        by_cases ht'' : t'' = t
        · subst ht''
          rw [goto_self]
          simp
        · rw [goto_of_ne ht'']
          exact hk.2 t'' n'
  · exact once_goto Pc.dropping hi.drop_once (by simp)
  · exact once_goto Pc.flagged hi.flag_once (by simp)
  · intro i hmem'
    rcases hi.freed i hmem' with h | ⟨a, n', k, ha⟩
    · exact Or.inl fun x hx => h x (hmem x hx)
    · by_cases hat : a = t
      · -- the thread that freed it has just removed it
        subst hat
        rw [hpc] at ha
        cases ha
        exact Or.inl fun x hx => by simpa using (mem_filter.mp hx).2
      · have hno := (hi.excl t a hw hat).2
        rw [ha] at hno
        exact absurd hno (by simp [Pc.holdsWrite])

end

/-! ### Every step -/

section

variable {s s' : State ν τ} {x : LoadedModule ν}

theorem Inv.quiet_of_zero (hi : Inv s) (hx : x ∈ s.modules) (hz : x.refCount = 0)
    (hno : NoneOpen s x.id) : Quiet s x.id := by
  refine ⟨fun r hr h => ?_, hno⟩
  have hc := hi.counts x hx
  rw [hz, eq_comm, countP_eq_zero] at hc
  exact hc r hr (by simpa using h)

variable [DecidableEq τ] {t : τ}

theorem Inv.acqLoad (hi : Inv s) {n : ν} (hpc : s.pc t = .acqFound n x.id) (hx : x ∈ s.modules) :
    Inv (s.goto t (if x.unloading then .readDone else .acqOpen n x.id)) := by
  have hok : findName s.modules n = some x.id := hi.ok_at hpc
  by_cases hu : x.unloading = true
  · rw [if_pos hu]
    exact hi.move hpc trivial (by constructor <;> simp)
  · rw [if_neg hu]
    refine hi.goto hok ?_ (by simp [hpc]) (by simp) (by simp) (by simp) (by simp [hpc])
    rintro n' m' hp y hy hid
    cases hp
    rw [hi.ids y hy x hx hid]
    exact Bool.eq_false_iff.mpr hu

theorem Inv.flagSwap (hi : Inv s) {n : ν} {w : Patience} (hpc : s.pc t = .flagFound n w x.id)
    (hx : x ∈ s.modules) (hu : x.unloading = false) :
    Inv ((s.setUnloading x.id true).goto t (.flagSet n w x.id)) := by
  have hno := hi.not_flagged hx hu
  have hfind : findName s.modules n = some x.id := hi.ok_at hpc
  refine (hi.setUnloading true hno).goto ⟨?_, ?_⟩ (by simp) ?_ (by simp) (by simp) ?_ ?_
  · exact (findName_onModule x.id (f := fun y => { y with unloading := true }) (fun _ => rfl)
      (fun _ => rfl) n s.modules).trans hfind
  · intro y' hy' hid
    obtain ⟨y, hy, rfl⟩ := mem_onModule.mp hy'
    by_cases h : y.id = x.id
    · rw [if_pos h]
    · rw [if_neg h] at hid
      exact absurd hid h
  · exact fun _ => Or.inl (by change (s.pc t).holdsRead = true; simp [hpc])
  · rintro m hm
    cases hm
    exact Or.inr hno
  · intro n' m' i h
    have h : s.pc t = .freeFreed n' m' i := h
    rw [hpc] at h
    exact absurd h (by simp)

theorem Inv.leave (hi : Inv s) {p q : Pc ν} (hpc : s.pc t = q)
    (hp : p = .idle ∨ p = .readDone ∧ q.holdsRead = true ∨ p = .writeDone ∧ q.holdsWrite = true)
    (hfreed : ∀ n m i, q ≠ .freeFreed n m i) : Inv (s.goto t p) := by
  rcases hp with rfl | ⟨rfl, h⟩ | ⟨rfl, h⟩
  · exact hi.move hpc trivial ⟨by simp, by simp, by simp, by simp, by simp, hfreed⟩
  · exact hi.move hpc trivial ⟨by simp, fun _ => Or.inl h, by simp, by simp, by simp, hfreed⟩
  · exact hi.move hpc trivial ⟨by simp, by simp, fun _ => Or.inl h, by simp, by simp, hfreed⟩

/-- **Every step keeps the invariant**, when an unload passes its test of `ref_count` only while
no `acquire` of the module stands open. -/
theorem inv_step (hi : Inv s) (h : Step NoneOpen s s') : Inv s' := by
  cases h with
  | load name hl => exact hi.load name
  -- `acquire`
  | acqLock t name hpc hl =>
    exact hi.move hpc trivial (by constructor <;> simp [hl])
  | acqFind t name m hpc hf =>
    exact hi.move hpc hf (by constructor <;> simp)
  | acqMissing t name hpc hf => exact hi.leave hpc (by simp) (by simp)
  | acqLoad t name m x hpc hx hid =>
    subst hid
    exact hi.acqLoad hpc hx
  | acqCount t name m hpc =>
    have hi' := hi.addRef (r := s.newRef name m) (hi.ok_at hpc) ⟨t, name, hpc⟩
    exact hi'.move hpc trivial (by constructor <;> simp)
  | acqReturn t r hpc => exact hi.leave hpc (by simp) (by simp)
  -- dropping a reference
  | dropLock t r hpc hr hd hc hl =>
    refine hi.goto hr (by simp) (by simp [hl]) (by simp) ?_ (by simp) (by simp [hpc])
    rintro r' hr'
    cases hr'
    exact Or.inr hd
  | dropFind t r m hpc hf =>
    have hr : r ∈ s.refs := hi.ok_at hpc
    have hm : m = r.target := Option.some.inj (hf.symm.trans (hi.refs r hr))
    exact hi.move hpc ⟨hr, hm⟩ (by constructor <;> simp)
  | dropMissing t r hpc hf =>
    -- the module of an outstanding reference is found
    have hr : r ∈ s.refs := hi.ok_at hpc
    rw [hi.refs r hr] at hf
    exact absurd hf (by simp)
  | dropUnlock t r m hpc =>
    exact hi.move hpc (hi.ok_at hpc :) (by constructor <;> simp)
  | dropSub t r m hpc =>
    obtain ⟨hr, rfl⟩ : r ∈ s.refs ∧ m = r.target := hi.ok_at hpc
    refine (hi.leave hpc (p := .idle) (by simp) (by simp)).subRef hr fun t' => ?_
    by_cases ht : t' = t
    · subst ht
      simp
    · rw [goto_of_ne ht]
      exact fun h => ht (hi.drop_once t' t r h (by simp [hpc]))
  -- setting the flag
  | flagLock t name w hpc hl =>
    exact hi.move hpc trivial (by constructor <;> simp [hl])
  | flagFind t name w m hpc hf =>
    exact hi.move hpc hf (by constructor <;> simp)
  | flagMissing t name w hpc hf => exact hi.leave hpc (by simp) (by simp)
  | flagTaken t name w m x hpc hx hid hu => exact hi.leave hpc (by simp) (by simp)
  | flagSwap t name w m x hpc hx hid hu =>
    subst hid
    exact hi.flagSwap hpc hx hu
  | flagUnlock t name w m hpc =>
    exact hi.move hpc (hi.ok_at hpc :) (by constructor <;> simp)
  | testLock t name w m hpc hl =>
    exact hi.move hpc (hi.ok_at hpc :) (by constructor <;> simp [hl])
  | testFind t name w m m' hpc hf =>
    have hok : Flagged s name m := hi.ok_at hpc
    exact hi.move hpc ⟨hok, hok.unique hf⟩ (by constructor <;> simp)
  | testMissing t name w m hpc hf => exact hi.leave hpc (by simp) (by simp)
  | testPass t name w m m' x hpc hx hid hz hok =>
    subst hid
    obtain ⟨hflag, rfl⟩ : Flagged s name m ∧ x.id = m := hi.ok_at hpc
    exact hi.move hpc ⟨hflag, hi.quiet_of_zero hx hz hok⟩ (by constructor <;> simp)
  | testBusy t name m m' x hpc hx hid hz =>
    exact hi.move hpc (hi.ok_at hpc :) (by constructor <;> simp)
  | testWait t name maxWaitMs waited m m' x hpc hx hid hz =>
    exact hi.move hpc (hi.ok_at hpc :).1 (by constructor <;> simp)
  | testAgain t name maxWaitMs waited m hpc =>
    have hok : Flagged s name m := hi.ok_at hpc
    split_ifs
    · exact hi.move hpc hok (by constructor <;> simp)
    · exact hi.move hpc hok (by constructor <;> simp)
  | testUnlock t name m hpc =>
    exact hi.move hpc (hi.ok_at hpc :) (by constructor <;> simp)
  -- giving up
  | giveUpLock t name m hpc hl =>
    exact hi.move hpc (hi.ok_at hpc :) (by constructor <;> simp [hl])
  | giveUpFind t name m m' hpc hf =>
    have hok : Flagged s name m := hi.ok_at hpc
    exact hi.move hpc ⟨hok, hok.unique hf⟩ (by constructor <;> simp)
  | giveUpMissing t name m hpc hf => exact hi.leave hpc (by simp) (by simp)
  | rollBack t name m m' hpc =>
    obtain ⟨-, rfl⟩ : Flagged s name m ∧ m' = m := hi.ok_at hpc
    refine (hi.leave hpc (p := .readDone) (by simp) (by simp)).setUnloading false fun t' => ?_
    by_cases ht : t' = t
    · subst ht
      simp
    · rw [goto_of_ne ht]
      exact fun h => ht (hi.flag_once t' t m' h (by simp [hpc]))
  -- freeing
  | freeLock t name m hpc hl =>
    exact hi.move hpc (hi.ok_at hpc :) (by constructor <;> simp [hl])
  | freeFind t name m m' hpc hf =>
    have hok : Flagged s name m ∧ Quiet s m := hi.ok_at hpc
    exact hi.move hpc ⟨hok, hok.1.unique hf⟩ (by constructor <;> simp)
  | freeMissing t name m hpc hf => exact hi.leave hpc (by simp) (by simp)
  | freePages t name m m' hpc =>
    have hok : (Flagged s name m ∧ Quiet s m) ∧ m' = m := hi.ok_at hpc
    have hi' : Inv (s.goto t (.freeFreed name m m')) :=
      hi.move hpc hok (by constructor <;> simp)
    obtain ⟨x, hx, hid⟩ := findName_some hok.1.1.1
    refine hi'.free ?_ ⟨t, name, m, goto_self⟩
    rw [hok.2, ← hid]
    exact hi.fresh x hx
  | remove t name m m' hpc => exact hi.remove hpc
  | readUnlock t hpc => exact hi.leave hpc (by simp) (by simp)
  | writeUnlock t hpc => exact hi.leave hpc (by simp) (by simp)

theorem reachBy_inv (h : ReachBy NoneOpen s) : Inv s := by
  induction h with
  | refl =>
    exact ⟨by simp [State.start], by simp [State.start], by simp [State.start],
      by simp [State.start], by simp [State.start], by simp [State.start],
      fun _ => trivial, by simp [State.start], by simp [State.start], by simp [State.start]⟩
  | tail _ hstep ih => exact inv_step ih hstep

end

/-! ## References and freed modules -/

/-- Every outstanding reference names a module that is still loaded and whose pages have not been
given back, and every counter counts the outstanding references to its module. -/
structure Referenced (s : State ν τ) : Prop where
  not_freed : ∀ r ∈ s.refs, r.target ∉ s.freed
  loaded : ∀ r ∈ s.refs, ∃ x ∈ s.modules, x.id = r.target
  counted : ∀ x ∈ s.modules, x.refCount = s.refs.countP (·.target = x.id)

theorem Inv.referenced (hi : Inv s) : Referenced s := by
  have hloaded : ∀ r ∈ s.refs, ∃ x ∈ s.modules, x.id = r.target := fun r hr =>
    findName_some (hi.refs r hr)
  refine ⟨fun r hr hf => ?_, hloaded, hi.counts⟩
  rcases hi.freed _ hf with h | ⟨t, n, m, hpc⟩
  · obtain ⟨x, hx, hid⟩ := hloaded r hr
    exact h x hx hid
  · obtain ⟨⟨-, hq⟩, hm⟩ := hi.ok_at hpc
    exact hq.1 r hr hm

/-- **No referenced module is freed or removed, and `ref_count` is the number of outstanding
references**, in every state of every interleaving in which an unload finds `ref_count` at 0 only
while no `acquire` of that module stands between its load of `unloading` and its `fetch_add`. -/
theorem refs_never_dangle [DecidableEq τ] (s : State ν τ) (h : ReachBy NoneOpen s) : Referenced s :=
  (reachBy_inv h).referenced

end

theorem refs_never_dangle_reloaded : ∃ s : State Unit (Fin 2), ReachBy NoneOpen s ∧
    s.freed = [0] ∧ s.refs = [⟨0, (), 1⟩] ∧ Referenced s := by
  have h0 : ReachBy (τ := Fin 2) NoneOpen _ := .tail .refl (.load State.start () (by decide))
  have h1 := ((h0.tail (.flagLock _ 1 () .failAtOnce rfl (by decide))).tail
    (.flagFind _ 1 () _ 0 rfl rfl)).tail
    (.flagSwap _ 1 () _ 0 ⟨0, (), 0, false⟩ rfl (by decide) rfl rfl)
  have h2 := ((h1.tail (.flagUnlock _ 1 () _ 0 rfl)).tail
    (.testLock _ 1 () _ 0 rfl (by decide))).tail (.testFind _ 1 () _ 0 0 rfl rfl)
  have h3 := (h2.tail (.testPass _ 1 () _ 0 0 ⟨0, (), 0, true⟩ rfl (by decide) rfl rfl
    (Fin.forall_fin_two.mpr ⟨fun _ h => (by cases h), fun _ h => (by cases h)⟩))).tail
    (.testUnlock _ 1 () 0 rfl)
  have h4 := ((h3.tail (.freeLock _ 1 () 0 rfl (by decide))).tail
    (.freeFind _ 1 () 0 0 rfl rfl)).tail (.freePages _ 1 () 0 0 rfl)
  have h5 := (h4.tail (.remove _ 1 () 0 0 rfl)).tail (.writeUnlock _ 1 rfl)
  have h6 := ((h5.tail (.load _ () (by decide))).tail (.acqLock _ 0 () rfl (by decide))).tail
    (.acqFind _ 0 () 1 rfl rfl)
  have h7 := (h6.tail (.acqLoad _ 0 () 1 ⟨1, (), 0, false⟩ rfl (by decide) rfl)).tail
    (.acqCount _ 0 () 1 rfl)
  exact ⟨_, h7, rfl, rfl, refs_never_dangle _ h7⟩

/-! ## The race -/

theorem reachBy_tested :
    ∃ s : State Unit (Fin 2), ReachBy (fun _ _ => True) s ∧
      s.modules = [⟨0, (), 0, true⟩] ∧
      s.refs = [] ∧
      s.freed = [] ∧
      s.nextId = 1 ∧
      s.nextSerial = 0 ∧
      s.pc =
        update (update (fun _ => .idle) 0 (.acqOpen () 0)) 1 (.testFound () .failAtOnce 0 0) := by
  have h0 : ReachBy (τ := Fin 2) (fun _ _ => True) _ :=
    .tail .refl (.load State.start () (by decide))
  have h1 := ((h0.tail (.acqLock _ 0 () rfl (by decide))).tail (.acqFind _ 0 () 0 rfl rfl)).tail
    (.acqLoad _ 0 () 0 ⟨0, (), 0, false⟩ rfl (by decide) rfl)
  have h2 := ((h1.tail (.flagLock _ 1 () .failAtOnce rfl (by decide))).tail
    (.flagFind _ 1 () _ 0 rfl rfl)).tail
    (.flagSwap _ 1 () _ 0 ⟨0, (), 0, false⟩ rfl (by decide) rfl rfl)
  have h3 := ((h2.tail (.flagUnlock _ 1 () _ 0 rfl)).tail
    (.testLock _ 1 () _ 0 rfl (by decide))).tail (.testFind _ 1 () _ 0 0 rfl rfl)
  exact ⟨_, h3, rfl, rfl, rfl, rfl, rfl, funext (Fin.forall_fin_two.mpr ⟨rfl, rfl⟩)⟩

/-- The code's own steps free and remove a module while a reference to it, returned by `acquire`,
is outstanding: the unload passes its test between the two atomic accesses of `try_get`. -/
theorem unload_frees_referenced : ∃ s : State Unit (Fin 2), ReachBy (fun _ _ => True) s ∧
    ∃ r ∈ s.refs, (∀ t, s.pc t = .idle) ∧ r.target ∈ s.freed ∧ s.modules = [] := by
  obtain ⟨⟨ms, rs, fr, ni, ns, pc⟩, h, rfl, rfl, rfl, rfl, rfl, rfl⟩ := reachBy_tested
  have h1 := (h.tail (.testPass _ 1 () _ 0 0 ⟨0, (), 0, true⟩ rfl (by decide) rfl rfl trivial)).tail
    (.testUnlock _ 1 () 0 rfl)
  have h2 := (h1.tail (.acqCount _ 0 () 0 rfl)).tail (.acqReturn _ 0 _ rfl)
  have h3 := ((h2.tail (.freeLock _ 1 () 0 rfl (by decide))).tail
    (.freeFind _ 1 () 0 0 rfl rfl)).tail (.freePages _ 1 () 0 0 rfl)
  have h4 := (h3.tail (.remove _ 1 () 0 0 rfl)).tail (.writeUnlock _ 1 rfl)
  exact ⟨_, h4, ⟨0, (), 0⟩, mem_singleton.mpr rfl, Fin.forall_fin_two.mpr ⟨rfl, rfl⟩,
    mem_cons_self, rfl⟩

end Kerners.Module
