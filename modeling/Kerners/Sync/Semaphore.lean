import Kerners.Lib.Word

/-!
# The counting semaphore (`sync/semaphore.rs`)

`Semaphore` is one `AtomicIsize`. A call that is not disturbed (`tryAcquire`, `release`) is a
function of the counter. For calls that run side by side, an acquisition is two accesses, a load and
an exchange, and `AcqPc` is where a call stands between them; the loaded value is positive there,
which the type keeps.
-/

namespace Kerners.Sync

open Lib

namespace Semaphore

/-- `release`: a `fetch_add`. -/
def release (count : Int) : Int := wrapIsize (count + 1)

variable {count : Int} {n : Nat}

theorem release_of_lt (h0 : -2 ^ 63 ≤ count) (h1 : count + 1 < 2 ^ 63) :
    release count = count + 1 := wrapIsize_of_lt (by omega) h1

/-- `try_acquire`, undisturbed: whether a permit was taken, and the counter after. -/
def tryAcquire (count : Int) : Bool × Int := if 0 < count then (true, count - 1) else (false, count)

/-- `acquire`, undisturbed: the counter after; without a permit it spins and does not return. -/
def acquire (count : Int) : Option Int := if 0 < count then some (count - 1) else none

/-- `release`, `n` times. -/
def releaseN : Nat → Int → Int
  | 0, count => count
  | n + 1, count => releaseN n (release count)

/-- `try_acquire`, `n` times, the answers ignored. -/
def tryAcquireN : Nat → Int → Int
  | 0, count => count
  | n + 1, count => tryAcquireN n (tryAcquire count).2

theorem release_wrapIsize (x : Int) : release (wrapIsize x) = wrapIsize (x + 1) :=
  wrapInt_add_wrapInt 64 x 1

theorem releaseN_wrapIsize (n : Nat) (x : Int) : releaseN n (wrapIsize x) = wrapIsize (x + n) := by
  induction n generalizing x with
  | zero => simp [releaseN]
  | succ n ih =>
    rw [releaseN, release_wrapIsize, ih]
    congr 1
    omega

theorem releaseN_of_lt {x : Int} (h0 : -2 ^ 63 ≤ x) (h1 : x + n < 2 ^ 63) :
    releaseN n x = x + n := by
  have hx : wrapIsize x = x := wrapIsize_of_lt h0 (by omega)
  have h := releaseN_wrapIsize n x
  rwa [hx, wrapIsize_of_lt (by omega) h1] at h

theorem tryAcquireN_of_le (h : n ≤ count) : tryAcquireN n count = count - n := by
  induction n generalizing count with
  | zero => simp [tryAcquireN]
  | succ n ih =>
    have hpos : 0 < count := by omega
    have ht : tryAcquire count = (true, count - 1) := if_pos hpos
    rw [tryAcquireN, ht, ih (by omega)]
    omega

/-! ## Acquisitions side by side -/

/-- Between the accesses of `acquire` and `try_acquire`: before the load, or with a positive value
loaded and before the exchange. -/
inductive AcqPc where
  | load
  | exchange (seen : { count : Int // 0 < count })
  deriving DecidableEq

inductive Acq where
  | next (pc : AcqPc)
  | got (count : Int)
  | failed

/-- Where `acquire` goes on and `try_acquire` gives up. -/
def Acq.again (blocking : Bool) : Acq := if blocking then .next .load else .failed

/-- One access of `acquire` (`blocking`) or `try_acquire`. -/
def acquireTurn (blocking : Bool) (count : Int) : AcqPc → Acq
  | .load => if h : 0 < count then .next (.exchange ⟨count, h⟩) else .again blocking
  | .exchange seen => if count = seen then .got (count - 1) else .again blocking

theorem again_ne_got (blocking : Bool) (count : Int) : Acq.again blocking ≠ .got count := by
  cases blocking <;> nofun

variable {blocking : Bool} {pc : AcqPc}

theorem acquireTurn_got {count' : Int} (h : acquireTurn blocking count pc = .got count') :
    ∃ seen, pc = .exchange seen ∧ count = seen ∧ count' = count - 1 := by
  cases pc with
  | load =>
    rw [acquireTurn] at h
    split_ifs at h with hpos
    exact absurd h (again_ne_got _ _)
  | exchange seen =>
    rw [acquireTurn] at h
    split_ifs at h with heq
    · exact ⟨seen, rfl, heq, (Acq.got.inj h).symm⟩
    · exact absurd h (again_ne_got _ _)

theorem acquireTurn_stays (h : acquireTurn blocking count pc = .next pc) :
    blocking = true ∧ pc = .load ∧ count ≤ 0 := by
  cases pc with
  | load =>
    rw [acquireTurn] at h
    split_ifs at h with hpos
    · cases h
    · cases blocking with
      | true => exact ⟨rfl, rfl, by omega⟩
      | false => cases h
  | exchange seen =>
    rw [acquireTurn] at h
    split_ifs at h
    cases blocking <;> cases h

theorem acquireTurn_ne_failed (count : Int) (pc : AcqPc) : acquireTurn true count pc ≠ .failed := by
  cases pc <;> rw [acquireTurn] <;> split_ifs <;> nofun

end Semaphore

end Kerners.Sync
