import Kerners.Lib.Bytes

/-!
# UTF-8 and UTF-16 decoding

A string is the list of its Unicode scalar values. `utf8Step` decodes the first character of a
byte string the way `core::str` does: a malformed sequence is cut after its longest well-formed
start, at least one byte, and `fromUtf8Lossy` puts one U+FFFD in its place. `fromUtf8` is the
strict variant, `fromUtf16Lossy` the one for UTF-16 code units with unpaired surrogates replaced.
-/

namespace Kerners.Lib

abbrev Str := List Char

def replacement : Char := '�'

def isCont (b : UInt8) : Bool := 0x80 ≤ b && b ≤ 0xBF

/-- The second byte a three-byte sequence may have after `first`: no overlong form, no surrogate. -/
def second3 (first b : UInt8) : Bool :=
  if first = 0xE0 then 0xA0 ≤ b && b ≤ 0xBF
  else if first = 0xED then 0x80 ≤ b && b ≤ 0x9F
  else isCont b

/-- The second byte a four-byte sequence may have after `first`: no overlong form, nothing above
U+10FFFF. -/
def second4 (first b : UInt8) : Bool :=
  if first = 0xF0 then 0x90 ≤ b && b ≤ 0xBF
  else if first = 0xF4 then 0x80 ≤ b && b ≤ 0x8F
  else isCont b

def low6 (b : UInt8) : Nat := b.toNat % 64

/-- The first character of a nonempty byte string, `none` for a malformed sequence, and the number
of bytes it takes. -/
def utf8Step (first : UInt8) (rest : Bytes) : Option Char × Nat :=
  if first < 0x80 then (some (Char.ofNat first.toNat), 1)
  else if 0xC2 ≤ first ∧ first ≤ 0xDF then
    match rest with
    | b :: _ => if isCont b then
        (some (Char.ofNat (first.toNat % 32 * 64 + low6 b)), 2) else (none, 1)
    | [] => (none, 1)
  else if 0xE0 ≤ first ∧ first ≤ 0xEF then
    match rest with
    | b :: c :: _ =>
      if second3 first b then
        if isCont c then
          (some (Char.ofNat (first.toNat % 16 * 4096 + low6 b * 64 + low6 c)), 3)
        else (none, 2)
      else (none, 1)
    | [b] => (none, if second3 first b then 2 else 1)
    | [] => (none, 1)
  else if 0xF0 ≤ first ∧ first ≤ 0xF4 then
    match rest with
    | b :: c :: d :: _ =>
      if second4 first b then
        if isCont c then
          if isCont d then
            (some (Char.ofNat (first.toNat % 8 * 262144 + low6 b * 4096 + low6 c * 64 + low6 d)), 4)
          else (none, 3)
        else (none, 2)
      else (none, 1)
    | [b, c] => (none, if second4 first b then (if isCont c then 3 else 2) else 1)
    | [b] => (none, if second4 first b then 2 else 1)
    | [] => (none, 1)
  else (none, 1)

/-- Decode with at most `fuel` sequences; a byte string of length `n` has at most `n`. -/
def utf8Chunks : Nat → Bytes → List (Option Char)
  | 0, _ => []
  | _, [] => []
  | fuel + 1, first :: rest =>
    (utf8Step first rest).1 :: utf8Chunks fuel (rest.drop ((utf8Step first rest).2 - 1))

def fromUtf8Lossy (bs : Bytes) : Str := (utf8Chunks bs.length bs).map (·.getD replacement)

def fromUtf8 (bs : Bytes) : Option Str := (utf8Chunks bs.length bs).mapM id

/-- The character of a single UTF-16 code unit; a surrogate has none. -/
def utf16Unit (u : Nat) : Char :=
  if 0xD800 ≤ u ∧ u ≤ 0xDFFF then replacement else Char.ofNat u

def fromUtf16Lossy : List Nat → Str
  | [] => []
  | [u] => [utf16Unit u]
  | u :: v :: us =>
    if (0xD800 ≤ u ∧ u ≤ 0xDBFF) ∧ 0xDC00 ≤ v ∧ v ≤ 0xDFFF then
      Char.ofNat (0x10000 + (u - 0xD800) * 0x400 + (v - 0xDC00)) :: fromUtf16Lossy us
    else utf16Unit u :: fromUtf16Lossy (v :: us)

/-- The length of a string in bytes, `str::len`. -/
def utf8Len (s : Str) : Nat := (s.map Char.utf8Size).sum

/-- The bytes of a string, `str::as_bytes`. -/
def utf8 (s : Str) : Bytes := s.flatMap String.utf8EncodeChar

def ValidUtf8 (bs : Bytes) : Prop := ∃ s, utf8 s = bs

/-- `u8::is_ascii` for characters. -/
def isAscii (c : Char) : Bool := c.toNat < 128

/-! ## Encoding -/

open List

@[simp] theorem utf8_length (s : Str) : (utf8 s).length = utf8Len s := by
  simp only [utf8, utf8Len, length_flatMap, String.length_utf8EncodeChar]

theorem utf8_append (s t : Str) : utf8 (s ++ t) = utf8 s ++ utf8 t := flatMap_append

theorem utf8EncodeChar_cancel {c d : Char} {x y : Bytes}
    (h : String.utf8EncodeChar c ++ x = String.utf8EncodeChar d ++ y) : c = d ∧ x = y := by
  have hdecode := congrArg (fun bs : Bytes => bs.toByteArray.utf8DecodeChar? 0) h
  simp only [toByteArray_append, ByteArray.utf8DecodeChar?_utf8EncodeChar_append] at hdecode
  obtain rfl := Option.some.inj hdecode
  exact ⟨rfl, append_cancel_left h⟩

theorem utf8_prefix : ∀ {s t : Str}, utf8 s <+: utf8 t → s <+: t
  | [], t, _ => t.nil_prefix
  | c :: s, [], h => by
    have hnil := append_eq_nil_iff.mp (prefix_nil.mp h)
    exact absurd hnil.1 String.utf8EncodeChar_ne_nil
  | c :: s, d :: t, ⟨rest, h⟩ => by
    have h' : String.utf8EncodeChar c ++ (utf8 s ++ rest) = String.utf8EncodeChar d ++ utf8 t := by
      rw [← append_assoc]
      exact h
    obtain ⟨rfl, hrest⟩ := utf8EncodeChar_cancel h'
    obtain ⟨t', rfl⟩ := utf8_prefix ⟨rest, hrest⟩
    exact ⟨t', rfl⟩

/-- **The first `n` bytes of a text are valid UTF-8** exactly if no character is cut. -/
theorem validUtf8_take_iff {n : Nat} {text : Str} : ValidUtf8 ((utf8 text).take n) ↔ utf8Len text ≤
    n ∨ ∃ s, s <+: text ∧ utf8Len s = n := by
  constructor
  · rintro ⟨s, hs⟩
    by_cases hle : utf8Len text ≤ n
    · exact .inl hle
    · refine .inr ⟨s, utf8_prefix (hs ▸ take_prefix n _), ?_⟩
      rw [← utf8_length, hs, length_take, utf8_length]
      omega
  · rintro (hle | ⟨s, ⟨t, rfl⟩, rfl⟩)
    · exact ⟨text, (take_of_length_le (by rwa [utf8_length])).symm⟩
    · refine ⟨s, ?_⟩
      rw [utf8_append, ← utf8_length, take_left]

/-! ## ASCII -/

theorem utf8Chunks_ascii : ∀ (fuel : Nat) (bs : Bytes), bs.length ≤ fuel →
    (∀ b ∈ bs, b < 0x80) → utf8Chunks fuel bs = bs.map fun b => some (Char.ofNat b.toNat)
  | 0, bs, hlen, _ => by
    obtain rfl := length_eq_zero_iff.mp (Nat.le_zero.mp hlen)
    rfl
  | _ + 1, [], _, _ => rfl
  | fuel + 1, b :: bs, hlen, h => by
    have hb : b < 0x80 := h b mem_cons_self
    have hstep : utf8Step b bs = (some (Char.ofNat b.toNat), 1) := by simp [utf8Step, hb]
    simp only [utf8Chunks, hstep, Nat.sub_self, drop_zero, map_cons, cons.injEq,
      true_and]
    exact utf8Chunks_ascii fuel bs (by simpa using hlen) fun c hc => h c (mem_cons_of_mem b hc)

theorem fromUtf8Lossy_ascii {bs : Bytes} (h : ∀ b ∈ bs, b < 0x80) :
    fromUtf8Lossy bs = bs.map fun b => Char.ofNat b.toNat := by
  unfold fromUtf8Lossy
  rw [utf8Chunks_ascii _ _ (Nat.le_refl _) h, map_map]
  rfl

theorem mapM_id_map_some {α β : Type} (f : α → β) (l : List α) :
    (l.map fun a => some (f a)).mapM id = some (l.map f) := by
  induction l with
  | nil => rfl
  | cons a l ih => simp [mapM_cons, ih]

theorem fromUtf8_ascii {bs : Bytes} (h : ∀ b ∈ bs, b < 0x80) :
    fromUtf8 bs = some (bs.map fun b => Char.ofNat b.toNat) := by
  unfold fromUtf8
  rw [utf8Chunks_ascii _ _ (Nat.le_refl _) h, mapM_id_map_some]

end Kerners.Lib
