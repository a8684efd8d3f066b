import Kerners.Lib.Object
import Kerners.Lib.Ring

/-!
# The input of the UART (`arch/aarch64/uart.rs`)

`handle_irq` puts every byte that comes in into `INPUT_BUFFER`, a ring with a count, and `read_char`
takes one out. The handler may interrupt code that holds the lock of the buffer; it then finds
`try_lock` refused and drops the byte, as it does when the buffer is full.
-/

namespace Kerners.Arch

open Lib Function List

def inputBufferSize : Nat := 256

structure InputBuffer where
  buffer : Nat → UInt8
  readPos : Nat
  writePos : Nat
  count : Nat

namespace InputBuffer

def new : InputBuffer := ⟨fun _ => 0, 0, 0, 0⟩

def push (b : InputBuffer) (byte : UInt8) : Bool × InputBuffer :=
  if b.count ≥ inputBufferSize then (false, b)
  else (true, { b with
    buffer := update b.buffer b.writePos byte
    writePos := (b.writePos + 1) % inputBufferSize
    count := b.count + 1 })

def pop (b : InputBuffer) : Option UInt8 × InputBuffer :=
  if b.count = 0 then (none, b)
  else (some (b.buffer b.readPos), { b with
    readPos := (b.readPos + 1) % inputBufferSize
    count := b.count - 1 })

end InputBuffer

/-- A turn of the loop of `handle_irq`, with the byte and whether `try_lock` succeeds, or
`read_char`. -/
inductive UartCmd where
  | receive (byte : UInt8) (free : Bool)
  | readChar

def InputBuffer.exec (b : InputBuffer) : UartCmd → Option UInt8 × InputBuffer
  | .receive byte free => (none, if free then (b.push byte).2 else b)
  | .readChar => b.pop

/-- The same commands on a queue of at most 256 bytes. -/
def queueExec (l : List UInt8) : UartCmd → Option UInt8 × List UInt8
  | .receive byte free => (none, if free ∧ l.length < inputBufferSize then l ++ [byte] else l)
  | .readChar => (l.head?, l.tail)

/-- The bytes that came in. -/
def received : List UartCmd → List UInt8 :=
  filterMap fun
    | .receive byte _ => some byte
    | .readChar => none

/-- **The buffer holds the queue `l`.** -/
structure InputBuffer.Queues (b : InputBuffer) (l : List UInt8) : Prop where
  count : b.count = l.length
  fits : l.length ≤ inputBufferSize
  read : b.readPos < inputBufferSize
  write : b.writePos = (b.readPos + l.length) % inputBufferSize
  holds : Holds b.buffer inputBufferSize b.readPos l

theorem InputBuffer.Queues.exec {b : InputBuffer} {l : List UInt8} (h : b.Queues l) (c : UartCmd) :
    (b.exec c).1 = (queueExec l c).1 ∧ (b.exec c).2.Queues (queueExec l c).2 := by
  cases c with
  | receive byte free =>
    refine ⟨rfl, ?_⟩
    change InputBuffer.Queues (if free then (b.push byte).2 else b) (if _ then _ else _)
    by_cases hpush : free = true ∧ l.length < inputBufferSize
    · have hcount : ¬ b.count ≥ inputBufferSize := by rw [h.count]; omega
      rw [if_pos hpush, if_pos hpush.1, InputBuffer.push, if_neg hcount]
      refine ⟨by simp [h.count], by simpa [Nat.succ_le_iff] using hpush.2, h.read, ?_, ?_⟩
      · simp only [h.write, Nat.mod_add_mod, length_append, length_singleton, Nat.add_assoc]
      · rw [h.write]
        exact h.holds.store hpush.2 byte
    · rw [if_neg hpush]
      split_ifs with hfree
      · have hfull : b.count ≥ inputBufferSize := by
          rw [h.count]
          exact Nat.le_of_not_lt fun hlt => hpush ⟨hfree, hlt⟩
        rwa [InputBuffer.push, if_pos hfull]
      · exact h
  | readChar =>
    change b.pop.1 = l.head? ∧ b.pop.2.Queues l.tail
    cases l with
    | nil =>
      have hcount : b.count = 0 := h.count
      rw [InputBuffer.pop, if_pos hcount]
      exact ⟨rfl, h⟩
    | cons a l =>
      have hcount : b.count = l.length + 1 := h.count
      have hhead := h.holds.head
      rw [Nat.mod_eq_of_lt h.read] at hhead
      rw [InputBuffer.pop, if_neg (by omega)]
      refine ⟨by rw [hhead]; rfl, by simp [hcount], (Nat.le_succ _).trans h.fits,
        Nat.mod_lt _ (by decide), ?_, h.holds.pop.congr (Nat.mod_mod _ _).symm⟩
      simp only [h.write, Nat.mod_add_mod, length_cons, tail_cons]
      congr 1
      omega

theorem queueExec_sublist (cs : List UartCmd) (l : List UInt8) :
    (runAll queueExec l cs).1.filterMap id <+ l ++ received cs := by
  induction cs generalizing l with
  | nil => exact nil_sublist _
  | cons c cs ih =>
    cases c with
    | receive byte free =>
      have hrest := ih (queueExec l (.receive byte free)).2
      refine hrest.trans ?_
      change (if _ then _ else _) ++ _ <+ l ++ byte :: received cs
      split_ifs
      · rw [append_assoc]
        exact Sublist.refl _
      · exact (sublist_cons_self byte _).append_left l
    | readChar =>
      cases l with
      | nil => exact ih []
      | cons a l => exact (ih l).cons_cons a

/-- **What is read is what came in**: in every run the calls of `read_char` return what a queue of at
most 256 bytes returns, so the bytes come in order, and none twice or from nowhere. -/
theorem readChar_in_order (cs : List UartCmd) :
    (runAll InputBuffer.exec .new cs).1 = (runAll queueExec [] cs).1 ∧
      (runAll InputBuffer.exec .new cs).1.filterMap id <+ received cs := by
  have hnew : InputBuffer.new.Queues [] :=
    ⟨rfl, Nat.zero_le _, by decide, rfl, fun _ hi => absurd hi (by simp)⟩
  have hrun := (runAll_simulates InputBuffer.Queues (fun c h => h.exec c) cs hnew).1
  exact ⟨hrun, hrun ▸ queueExec_sublist cs []⟩

end Kerners.Arch
