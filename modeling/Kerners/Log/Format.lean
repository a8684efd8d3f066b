import Kerners.Lib.Utf

/-!
# Formatting into a buffer (`log/mod.rs`)

Model of `BufWriter`, through which `format_to_buf` and `format_prefix` write into a buffer on the
stack. `write_str` copies as many **bytes** as there is room for, and `log` passes what was written
to `from_utf8_unchecked`.
-/

namespace Kerners.Log

open Lib List

structure BufWriter where
  buf : Bytes
  pos : Nat
  pos_le : pos ≤ buf.length

namespace BufWriter

def new (buf : Bytes) : BufWriter := ⟨buf, 0, Nat.zero_le _⟩

def writeStr (w : BufWriter) (s : Str) : BufWriter :=
  let bytes := utf8 s
  let remaining := w.buf.length - w.pos
  let copyLen := min bytes.length remaining
  { buf := splice w.buf w.pos (bytes.take copyLen)
    pos := w.pos + copyLen
    pos_le := by
      have hpos := w.pos_le
      have hlen : (bytes.take copyLen).length = copyLen := by
        rw [length_take]
        omega
      rw [splice_length (by omega)]
      omega }

/-- `buf[..pos]`. -/
def written (w : BufWriter) : Bytes := w.buf.take w.pos

variable (w : BufWriter) (s : Str)

@[simp] theorem writeStr_length : (w.writeStr s).buf.length = w.buf.length := by
  have hpos := w.pos_le
  refine splice_length ?_
  rw [length_take]
  omega

theorem written_writeStr : (w.writeStr s).written = (w.written ++ utf8 s).take w.buf.length := by
  have hpos := w.pos_le
  have hw : (w.buf.take w.pos).length = w.pos := by
    rw [length_take]
    omega
  simp only [written, writeStr, splice]
  rw [take_left' (by rw [length_append, hw, length_take]; omega), take_append, hw,
    take_take, Nat.min_eq_right hpos, Nat.min_comm, ← take_eq_take_min]

end BufWriter

/-- `format_to_buf`: the texts that `fmt::write` passes on, and the bytes written. -/
def formatToBuf (buf : Bytes) (texts : List Str) : BufWriter :=
  texts.foldl BufWriter.writeStr (.new buf)

theorem written_foldl (w : BufWriter) (texts : List Str) :
    (texts.foldl BufWriter.writeStr w).written =
      (w.written ++ utf8 texts.flatten).take w.buf.length := by
  induction texts generalizing w with
  | nil =>
    have hle : w.written.length ≤ w.buf.length := by
      rw [BufWriter.written, length_take]
      omega
    simp only [foldl_nil, flatten_nil, utf8, flatMap_nil, append_nil]
    exact (take_of_length_le hle).symm
  | cons s texts ih =>
    have hcut : ∀ (n : Nat) (x y : Bytes), (x.take n ++ y).take n = (x ++ y).take n := fun n x y => by
      rw [take_append, take_append, take_take, Nat.min_self, length_take]
      congr 2
      omega
    rw [foldl_cons, ih, w.writeStr_length, w.written_writeStr, hcut, flatten_cons, utf8_append,
      append_assoc]

theorem formatToBuf_eq (buf : Bytes) (texts : List Str) :
    (formatToBuf buf texts).written = (utf8 texts.flatten).take buf.length := by
  rw [formatToBuf, written_foldl]
  rfl

/-- **What `log` takes for UTF-8**: always the beginning of the text, and valid exactly if the text
fits or a character ends where the buffer does. -/
theorem formatToBuf_valid_iff (buf : Bytes) (texts : List Str) :
    (formatToBuf buf texts).written <+: utf8 texts.flatten ∧
      (ValidUtf8 (formatToBuf buf texts).written ↔
        utf8Len texts.flatten ≤ buf.length ∨
          ∃ s, s <+: texts.flatten ∧ utf8Len s = buf.length) := by
  rw [formatToBuf_eq]
  refine ⟨?_, validUtf8_take_iff⟩
  exact take_prefix _ _

/-- A character of two bytes does not fit into the last byte of the buffer. -/
theorem formatToBuf_cuts : ¬ ValidUtf8 (formatToBuf [0, 0] [['a'], ['é']]).written := by
  rw [formatToBuf_eq, validUtf8_take_iff]
  rintro (hle | ⟨s, hs, hlen⟩)
  · exact absurd hle (by decide)
  · have hall : ∀ k ≤ 2, utf8Len (['a', 'é'].take k) ≠ 2 := by decide
    rw [prefix_iff_eq_take.mp hs] at hlen
    exact hall s.length hs.length_le hlen

end Kerners.Log
