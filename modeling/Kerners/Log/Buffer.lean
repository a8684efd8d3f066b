import Kerners.Lib.Ring
import Kerners.Lib.Utf

/-!
# The kernel log (`log/buffer.rs`)

Model of `RingBuffer`, the 64 KB buffer behind `dmesg`. `append` encodes an entry as its length, its
level, its time, its CPU and its message, and writes the bytes one after the other, around the end
of the buffer. `dump_logs` starts at byte `0`, or at the write position once `has_wrapped` says so,
and prints entry after entry until a length makes no sense.

What `dump_logs` prints is a byte string: `formatPrefix` writes into a buffer of 40 bytes, as
`BufWriter` does, and the message is printed when it is valid UTF-8.

`dumpLogs_of_shown`: bytes that begin with an entry are printed entry by entry.
-/

namespace Kerners.Log

open Lib List

/-! ## Levels and texts -/

inductive LogLevel where
  | error
  | warn
  | info
  | debug
  | trace
  deriving DecidableEq

/-- `level as u8`. -/
def LogLevel.toU8 : LogLevel → UInt8
  | .error => 0
  | .warn => 1
  | .info => 2
  | .debug => 3
  | .trace => 4

def LogLevel.fromU8 (v : UInt8) : LogLevel :=
  if v = 0 then .error
  else if v = 1 then .warn
  else if v = 2 then .info
  else if v = 3 then .debug
  else if v = 4 then .trace
  else .info

@[simp] theorem LogLevel.fromU8_toU8 (level : LogLevel) : fromU8 level.toU8 = level := by
  cases level <;> rfl

def LogLevel.asStr : LogLevel → Str
  | .error => "ERROR".toList
  | .warn => " WARN".toList
  | .info => " INFO".toList
  | .debug => "DEBUG".toList
  | .trace => "TRACE".toList

theorem LogLevel.asStr_length (level : LogLevel) : level.asStr.length = 5 := by
  cases level <;> rfl

def ascii (s : Str) : Bytes := s.map fun c => UInt8.ofNat c.toNat

def decimal (n : Nat) : Str := Nat.toDigits 10 n

/-- A text filled up on the left to `width` characters. -/
def padLeft (fill : Char) (width : Nat) (s : Str) : Str :=
  List.replicate (width - s.length) fill ++ s

/-- The format `[{:>6}.{:06}] CPU{} {}: `. -/
def prefixText (seconds micros cpuId : Nat) (level : LogLevel) : Str :=
  '[' :: padLeft ' ' 6 (decimal seconds) ++ '.' :: padLeft '0' 6 (decimal micros) ++
    "] CPU".toList ++ decimal cpuId ++ ' ' :: level.asStr ++ ": ".toList

/-- `format_prefix`: the format, cut off by the `BufWriter` at the 40 bytes of its buffer. -/
def formatPrefix (seconds micros cpuId : Nat) (level : LogLevel) : Str :=
  (prefixText seconds micros cpuId level).take 40

variable {n : Nat} {es : List Entry} {s : List Entry}

theorem decimal_length_le {k : Nat} (hk : 0 < k) (h : n < 10 ^ k) : (decimal n).length ≤ k :=
  (Nat.length_toDigits_le_iff (by decide) hk).mpr h

theorem padLeft_length (fill : Char) (width : Nat) (s : Str) :
    (padLeft fill width s).length = max width s.length := by
  rw [padLeft, length_append, length_replicate]
  omega

theorem formatPrefix_eq {seconds micros cpuId : Nat} (level : LogLevel)
    (htime : seconds * 1000000 + micros < 2 ^ 64) (hmicros : micros < 1000000)
    (hcpu : cpuId < 256) :
    formatPrefix seconds micros cpuId level = prefixText seconds micros cpuId level := by
  have h1 : (decimal seconds).length ≤ 14 := decimal_length_le (by decide) (by omega)
  have h2 : (decimal micros).length ≤ 6 := decimal_length_le (by decide) (by omega)
  have h3 : (decimal cpuId).length ≤ 3 := decimal_length_le (by decide) (by omega)
  have h4 : "] CPU".toList.length = 5 := rfl
  have h5 : ": ".toList.length = 2 := rfl
  refine take_of_length_le ?_
  simp only [prefixText, length_cons, length_append, padLeft_length, LogLevel.asStr_length, h4, h5]
  omega

/-! ## Writing -/

def ringBufferSize : Nat := 64 * 1024

def entryHeaderSize : Nat := 14

/-- `RingBuffer`; the write position is within the buffer. -/
structure RingBuffer where
  buffer : Nat → UInt8
  writePos : Nat
  totalWritten : Nat
  writePos_lt : writePos < ringBufferSize

namespace RingBuffer

def new : RingBuffer where
  buffer _ := 0
  writePos := 0
  totalWritten := 0
  writePos_lt := by decide

/-- One round of the loop of `write_bytes`. -/
def writeByte (r : RingBuffer) (byte : UInt8) : RingBuffer where
  buffer := Function.update r.buffer r.writePos byte
  writePos := if ringBufferSize ≤ r.writePos + 1 then 0 else r.writePos + 1
  totalWritten := r.totalWritten
  writePos_lt := by
    have := r.writePos_lt
    split <;> omega

/-- `write_bytes`; the count of all bytes is a `usize`. -/
def writeBytes (r : RingBuffer) (bytes : Bytes) : RingBuffer :=
  { bytes.foldl writeByte r with totalWritten := (r.totalWritten + bytes.length) % 2 ^ 64 }

def hasWrapped (r : RingBuffer) : Bool := ringBufferSize < r.totalWritten

end RingBuffer

/-- The arguments of `append`. The message is a `&str`, bytes of valid UTF-8. -/
structure Entry where
  level : LogLevel
  seconds : Nat
  micros : Nat
  cpuId : Nat
  msg : Bytes
  valid : (fromUtf8 msg).isSome = true

namespace Entry

/-- What an entry of the log can say: a message within the buffer of `log`, a time in microseconds
of 64 bits, and a CPU in one byte. -/
structure Fits (e : Entry) : Prop where
  msg : e.msg.length ≤ 512
  micros : e.micros < 1000000
  time : e.seconds * 1000000 + e.micros < 2 ^ 64
  cpu : e.cpuId < 256

def encode (e : Entry) : Bytes :=
  leBytes 4 (entryHeaderSize + e.msg.length) ++ [e.level.toU8] ++
    leBytes 8 (e.seconds * 1000000 + e.micros) ++ [UInt8.ofNat e.cpuId] ++ e.msg

def line (e : Entry) : Bytes :=
  ascii (prefixText e.seconds e.micros e.cpuId e.level) ++ e.msg ++ ascii ['\n']

theorem encode_length (e : Entry) : e.encode.length = entryHeaderSize + e.msg.length := by
  simp only [encode, length_append, leBytes_length, length_singleton, entryHeaderSize]

section

variable (e : Entry) (rest : Bytes)

theorem encode_size : (e.encode ++ rest).take 4 = leBytes 4 (entryHeaderSize + e.msg.length) := by
  simp [encode]

theorem encode_level : ((e.encode ++ rest).drop 4).take 1 = [e.level.toU8] := by
  simp [encode]

theorem encode_time :
    ((e.encode ++ rest).drop 5).take 8 = leBytes 8 (e.seconds * 1000000 + e.micros) := by
  have h : e.encode ++ rest =
      (leBytes 4 (entryHeaderSize + e.msg.length) ++ [e.level.toU8]) ++
        (leBytes 8 (e.seconds * 1000000 + e.micros) ++ ([UInt8.ofNat e.cpuId] ++ e.msg ++ rest)) := by
    simp only [encode, append_assoc]
  rw [h, drop_left' (by simp), take_left' (by simp)]

theorem encode_split :
    e.encode ++ rest = (leBytes 4 (entryHeaderSize + e.msg.length) ++ [e.level.toU8] ++
      leBytes 8 (e.seconds * 1000000 + e.micros)) ++ (UInt8.ofNat e.cpuId :: (e.msg ++ rest)) := by
  simp only [encode, append_assoc, cons_append, nil_append]

theorem encode_cpu : ((e.encode ++ rest).drop 13).take 1 = [UInt8.ofNat e.cpuId] := by
  rw [e.encode_split, drop_left' (by simp)]
  rfl

theorem encode_msg : ((e.encode ++ rest).drop entryHeaderSize).take e.msg.length = e.msg := by
  rw [e.encode_split, show entryHeaderSize = 13 + 1 from rfl, ← drop_drop,
    drop_left' (by simp), drop_succ_cons, drop_zero, take_left]

end

variable {e : Entry}

theorem Fits.time_eq (he : e.Fits) :
    leNat (leBytes 8 (e.seconds * 1000000 + e.micros)) = e.seconds * 1000000 + e.micros := by
  have := he.time
  rw [leNat_leBytes]
  omega

theorem Fits.cpu_eq (he : e.Fits) : (UInt8.ofNat e.cpuId).toNat = e.cpuId := by
  rw [UInt8.toNat_ofNat']
  exact Nat.mod_eq_of_lt he.cpu

theorem Fits.size_eq (he : e.Fits) :
    leNat (leBytes 4 (entryHeaderSize + e.msg.length)) = entryHeaderSize + e.msg.length := by
  have := he.msg
  rw [leNat_leBytes]
  unfold entryHeaderSize
  omega

end Entry

def RingBuffer.append (r : RingBuffer) (e : Entry) : RingBuffer :=
  let totalLen := entryHeaderSize + e.msg.length
  if ringBufferSize / 2 < totalLen then r
  else
    let r := r.writeBytes (leBytes 4 totalLen)
    let r := r.writeBytes [e.level.toU8]
    let r := r.writeBytes (leBytes 8 (e.seconds * 1000000 + e.micros))
    let r := r.writeBytes [UInt8.ofNat e.cpuId]
    r.writeBytes e.msg

/-- The log after the calls of `append`. -/
def RingBuffer.run (es : List Entry) : RingBuffer := es.foldl append new

def stream (es : List Entry) : Bytes := es.flatMap Entry.encode

/-- `r` is the buffer after the bytes `s` were written. -/
structure RingBuffer.Wrote (r : RingBuffer) (s : Bytes) : Prop where
  pos : r.writePos = s.length % ringBufferSize
  total : r.totalWritten = s.length % 2 ^ 64
  recent : Recent r.buffer ringBufferSize s

namespace RingBuffer

variable {r : RingBuffer} {s : Bytes} {es : List Entry}

theorem wrote_new : Wrote new [] := ⟨rfl, rfl, Recent.nil _ _⟩

theorem foldl_writeByte_wrote (bytes : Bytes) (hpos : r.writePos = s.length % ringBufferSize)
    (hrec : Recent r.buffer ringBufferSize s) :
    (bytes.foldl writeByte r).writePos = (s ++ bytes).length % ringBufferSize ∧
    Recent (bytes.foldl writeByte r).buffer ringBufferSize (s ++ bytes) := by
  induction bytes generalizing r s with
  | nil => simpa using ⟨hpos, hrec⟩
  | cons b bytes ih =>
    have hrec' := hrec.write (by decide) b
    rw [← hpos] at hrec'
    have hpos' : (r.writeByte b).writePos = (s ++ [b]).length % ringBufferSize := by
      rw [length_append, length_singleton]
      unfold writeByte ringBufferSize at *
      dsimp only
      split <;> omega
    simpa using ih hpos' hrec'

theorem Wrote.writeBytes (h : Wrote r s) (bytes : Bytes) :
    Wrote (r.writeBytes bytes) (s ++ bytes) := by
  obtain ⟨hpos, hrec⟩ := foldl_writeByte_wrote bytes h.pos h.recent
  refine ⟨hpos, ?_, hrec⟩
  rw [RingBuffer.writeBytes, h.total, length_append, Nat.mod_add_mod]

theorem Wrote.append (h : Wrote r s) {e : Entry} (he : e.Fits) :
    Wrote (r.append e) (s ++ e.encode) := by
  have hlen : ¬ ringBufferSize / 2 < entryHeaderSize + e.msg.length := by
    have := he.msg
    unfold ringBufferSize entryHeaderSize
    omega
  have hwrote := ((((h.writeBytes (leBytes 4 (entryHeaderSize + e.msg.length))).writeBytes
    [e.level.toU8]).writeBytes (leBytes 8 (e.seconds * 1000000 + e.micros))).writeBytes
    [UInt8.ofNat e.cpuId]).writeBytes e.msg
  rw [RingBuffer.append, if_neg hlen]
  simpa only [Entry.encode, append_assoc] using hwrote

theorem foldl_append_wrote (hes : ∀ e ∈ es, e.Fits) (h : Wrote r s) :
    Wrote (es.foldl RingBuffer.append r) (s ++ stream es) := by
  induction es generalizing r s with
  | nil => simpa [stream] using h
  | cons e es ih =>
    have hrest := ih (fun e' he' => hes e' (mem_cons_of_mem e he'))
      (h.append (hes e mem_cons_self))
    simpa only [stream, foldl_cons, flatMap_cons, append_assoc] using hrest

theorem run_wrote (hes : ∀ e ∈ es, e.Fits) : Wrote (run es) (stream es) :=
  foldl_append_wrote hes wrote_new

end RingBuffer

/-! ## Printing -/

namespace RingBuffer

def byteAt (r : RingBuffer) (pos : Nat) : UInt8 := r.buffer (pos % ringBufferSize)

/-- The loops that read `n` bytes from a position on. -/
def readBytes (r : RingBuffer) (pos n : Nat) : Bytes :=
  (List.range n).map fun i => r.byteAt (pos + i)

/-- What `dump_logs` prints for the entry of `totalLen` bytes at a position: a line, when the first
512 bytes of the message are valid UTF-8. -/
def printEntry (r : RingBuffer) (pos totalLen : Nat) : Bytes :=
  let level := r.byteAt (pos + 4)
  let timestampUs := leNat (r.readBytes (pos + 5) 8)
  let cpuId := r.byteAt (pos + 13)
  let msg := r.readBytes (pos + entryHeaderSize) (min (totalLen - entryHeaderSize) 512)
  if (fromUtf8 msg).isSome then
    ascii (formatPrefix (timestampUs / 1000000) (timestampUs % 1000000) cpuId.toNat
      (LogLevel.fromU8 level)) ++ msg ++ ascii ['\n']
  else []

/-- The loop of `dump_logs`. -/
def dumpLoop (r : RingBuffer) (dataStart dataLen offset : Nat) : Bytes :=
  if offset + entryHeaderSize ≤ dataLen then
    let totalLen := leNat (r.readBytes (dataStart + offset) 4)
    if totalLen < entryHeaderSize ∨ ringBufferSize / 2 < totalLen then []
    else if dataLen < offset + totalLen then []
    else r.printEntry (dataStart + offset) totalLen ++
      dumpLoop r dataStart dataLen (offset + totalLen)
  else []
termination_by dataLen - offset
decreasing_by
  unfold entryHeaderSize at *
  omega

/-- The line of `dump_logs` for an empty log. -/
def emptyNotice : Bytes := ascii "(empty log buffer)\n".toList

def dumpLogs (r : RingBuffer) : Bytes :=
  let (dataStart, dataLen) := if r.hasWrapped then (r.writePos, ringBufferSize) else (0, r.writePos)
  if dataLen = 0 then emptyNotice else r.dumpLoop dataStart dataLen 0

variable {r : RingBuffer} {l rest : Bytes} {start offset : Nat} {e : Entry}

theorem readBytes_eq (h : Holds r.buffer ringBufferSize start l) {k : Nat}
    (hk : offset + k ≤ l.length) : r.readBytes (start + offset) k = (l.drop offset).take k :=
  h.read hk

theorem byteAt_eq (h : Holds r.buffer ringBufferSize start l) {b : UInt8}
    (hb : (l.drop offset).take 1 = [b]) : r.byteAt (start + offset) = b := by
  have hlen : offset + 1 ≤ l.length := by
    have := congrArg List.length hb
    rw [length_take, length_drop, length_singleton] at this
    omega
  have hread := readBytes_eq h hlen
  rw [hb] at hread
  exact head_eq_of_cons_eq hread

theorem readBytes_size (h : Holds r.buffer ringBufferSize start l) (he : e.Fits)
    (hl : l.drop offset = e.encode ++ rest)
    (hlen : offset + (entryHeaderSize + e.msg.length) ≤ l.length) :
    leNat (r.readBytes (start + offset) 4) = entryHeaderSize + e.msg.length := by
  rw [readBytes_eq h (by unfold entryHeaderSize at hlen; omega), hl, e.encode_size, he.size_eq]

theorem printEntry_eq (h : Holds r.buffer ringBufferSize start l) (he : e.Fits)
    (hl : l.drop offset = e.encode ++ rest)
    (hlen : offset + (entryHeaderSize + e.msg.length) ≤ l.length) :
    r.printEntry (start + offset) (entryHeaderSize + e.msg.length) = e.line := by
  have hmsg := he.msg
  have hmicros := he.micros
  -- every field of the entry is a range of the bytes at `offset`
  have hfield : ∀ k n, (l.drop (offset + k)).take n = ((e.encode ++ rest).drop k).take n := by
    intro k n
    rw [← hl, drop_drop]
  have hlevel : r.byteAt (start + offset + 4) = e.level.toU8 := by
    rw [Nat.add_assoc]
    exact byteAt_eq h ((hfield 4 1).trans (e.encode_level rest))
  have htime : r.readBytes (start + offset + 5) 8 = leBytes 8 (e.seconds * 1000000 + e.micros) := by
    rw [Nat.add_assoc, readBytes_eq h (by unfold entryHeaderSize at hlen; omega), hfield,
      e.encode_time]
  have hcpu : r.byteAt (start + offset + 13) = UInt8.ofNat e.cpuId := by
    rw [Nat.add_assoc]
    exact byteAt_eq h ((hfield 13 1).trans (e.encode_cpu rest))
  have hbody : r.readBytes (start + offset + entryHeaderSize) e.msg.length = e.msg := by
    rw [Nat.add_assoc, readBytes_eq h (by omega), hfield, e.encode_msg]
  have hdiv : (e.seconds * 1000000 + e.micros) / 1000000 = e.seconds := by omega
  have hmod : (e.seconds * 1000000 + e.micros) % 1000000 = e.micros := by omega
  have hcopy : min (entryHeaderSize + e.msg.length - entryHeaderSize) 512 = e.msg.length := by
    omega
  simp only [printEntry, hlevel, htime, hcpu, he.time_eq, hdiv, hmod, he.cpu_eq, hcopy, hbody,
    e.valid, if_true, LogLevel.fromU8_toU8, formatPrefix_eq e.level he.time he.micros he.cpu]
  rfl

theorem dumpLoop_eq (h : Holds r.buffer ringBufferSize start l) {es : List Entry}
    (hes : ∀ e ∈ es, e.Fits) (hoff : offset ≤ l.length) (hl : l.drop offset = stream es) :
    r.dumpLoop start l.length offset = es.flatMap Entry.line := by
  induction es generalizing offset with
  | nil =>
    have hend : l.length ≤ offset := drop_eq_nil_iff.mp hl
    rw [dumpLoop, if_neg (by unfold entryHeaderSize; omega)]
    rfl
  | cons e es ih =>
    have he := hes e mem_cons_self
    have hl' : l.drop offset = e.encode ++ stream es := hl
    have hlen : offset + (entryHeaderSize + e.msg.length) ≤ l.length := by
      have := congrArg List.length hl'
      rw [length_drop, length_append, e.encode_length] at this
      omega
    have hnext : l.drop (offset + (entryHeaderSize + e.msg.length)) = stream es := by
      rw [← drop_drop, hl', ← e.encode_length, drop_left]
    have hmsg := he.msg
    have hvalid : ¬ (entryHeaderSize + e.msg.length < entryHeaderSize ∨
        ringBufferSize / 2 < entryHeaderSize + e.msg.length) := by
      unfold entryHeaderSize ringBufferSize
      omega
    rw [dumpLoop, if_pos (by omega), readBytes_size h he hl' hlen, if_neg hvalid,
      if_neg (by omega), printEntry_eq h he hl' hlen,
      ih (fun e' he' => hes e' (mem_cons_of_mem e he')) hlen hnext]
    rfl

/-- How many bytes `dump_logs` looks at after `total` bytes were written: the whole buffer, or those
up to the write position. -/
def shownBytes (total : Nat) : Nat :=
  if ringBufferSize < total % 2 ^ 64 then ringBufferSize else total % ringBufferSize

theorem shownBytes_le (total : Nat) :
    shownBytes total ≤ ringBufferSize ∧ shownBytes total ≤ total := by
  unfold shownBytes ringBufferSize
  split <;> omega

theorem Wrote.dumpLogs_eq {s : Bytes} (h : Wrote r s) :
    ∃ start, Holds r.buffer ringBufferSize start (s.drop (s.length - shownBytes s.length)) ∧
      r.dumpLogs =
        if shownBytes s.length = 0 then emptyNotice
        else r.dumpLoop start (shownBytes s.length) 0 := by
  have hshown := shownBytes_le s.length
  have hholds : Holds r.buffer ringBufferSize (s.length - shownBytes s.length)
      (s.drop (s.length - shownBytes s.length)) := h.recent.holds (by omega)
  by_cases hw : ringBufferSize < s.length % 2 ^ 64
  · have hs : shownBytes s.length = ringBufferSize := if_pos hw
    refine ⟨r.writePos, hholds.congr ?_, ?_⟩
    · rw [h.pos, hs]
      unfold ringBufferSize at *
      omega
    · have hwrapped : r.hasWrapped = true := by simpa [hasWrapped, h.total] using hw
      simp only [dumpLogs, hwrapped, hs, if_true]
  · have hs : shownBytes s.length = s.length % ringBufferSize := if_neg hw
    refine ⟨0, hholds.congr ?_, ?_⟩
    · rw [hs]
      unfold ringBufferSize at *
      omega
    · have hwrapped : r.hasWrapped = false := by simpa [hasWrapped, h.total] using hw
      simp only [dumpLogs, hwrapped, hs, h.pos, Bool.false_eq_true, if_false]

end RingBuffer

/-! ## What is printed -/

def encodedLen (es : List Entry) : Nat := (es.map fun e => entryHeaderSize + e.msg.length).sum

def printed : List Entry → Bytes
  | [] => RingBuffer.emptyNotice
  | es => es.flatMap Entry.line

theorem stream_length (es : List Entry) : (stream es).length = encodedLen es := by
  rw [stream, length_flatMap, encodedLen]
  simp only [Entry.encode_length]

theorem encodedLen_eq_zero : encodedLen es = 0 ↔ es = [] := by
  cases es with
  | nil => simp [encodedLen]
  | cons e es => simp [encodedLen, entryHeaderSize]

theorem stream_drop (hs : s <:+ es) :
    (stream es).drop (encodedLen es - encodedLen s) = stream s := by
  obtain ⟨t, rfl⟩ := hs
  have hlen : encodedLen (t ++ s) - encodedLen s = (stream t).length := by
    rw [stream_length]
    simp [encodedLen]
  have happend : stream (t ++ s) = stream t ++ stream s := flatMap_append
  rw [hlen, happend, drop_left]

open RingBuffer

theorem dumpLogs_of_shown (hes : ∀ e ∈ es, e.Fits) (hs : s <:+ es)
    (hlen : encodedLen s = shownBytes (encodedLen es)) : (run es).dumpLogs = printed s := by
  obtain ⟨start, hholds, hdump⟩ := (run_wrote hes).dumpLogs_eq
  rw [stream_length, ← hlen, stream_drop hs] at hholds
  rw [stream_length, ← hlen] at hdump
  cases s with
  | nil => exact hdump
  | cons e s =>
    have hne : encodedLen (e :: s) ≠ 0 := fun h => by cases encodedLen_eq_zero.mp h
    have hfits : ∀ e' ∈ e :: s, e'.Fits := fun e' he' => hes e' (hs.subset he')
    rw [hdump, if_neg hne, ← stream_length, dumpLoop_eq hholds hfits (Nat.zero_le _) rfl]
    rfl

theorem line_ne_notice (e : Entry) (rest : Bytes) : e.line ++ rest ≠ emptyNotice := by
  intro h
  have hhead := congrArg head? h
  rw [Entry.line, prefixText, emptyNotice] at hhead
  exact absurd hhead (by simp [ascii])

theorem printed_cons (e : Entry) (es : List Entry) :
    printed (e :: es) = e.line ++ es.flatMap Entry.line := rfl

theorem printed_ne_nil (es : List Entry) : printed es ≠ [] := by
  cases es with
  | nil => simp [printed, emptyNotice, ascii]
  | cons e es => simp [printed, Entry.line, ascii]

theorem dumpLogs_full (hes : ∀ e ∈ es, e.Fits) (hlen : encodedLen es = ringBufferSize) :
    (run es).dumpLogs = emptyNotice := by
  have hshown : shownBytes (encodedLen es) = encodedLen [] := by
    rw [hlen]
    rfl
  exact dumpLogs_of_shown hes (nil_suffix) hshown.symm

/-- **The log is complete until the buffer is full.** -/
theorem dumpLogs_complete_iff {es : List Entry} (hes : ∀ e ∈ es, e.Fits)
    (hlen : encodedLen es ≤ ringBufferSize) :
    (run es).dumpLogs = printed es ↔ encodedLen es ≠ ringBufferSize := by
  constructor
  · intro hdump hfull
    rw [dumpLogs_full hes hfull] at hdump
    cases es with
    | nil => exact absurd hfull (by decide)
    | cons e es => exact line_ne_notice e (es.flatMap Entry.line) hdump.symm
  · intro hne
    have hshown : shownBytes (encodedLen es) = encodedLen es := by
      unfold shownBytes ringBufferSize at *
      rw [if_neg (by omega)]
      omega
    exact dumpLogs_of_shown hes suffix_rfl hshown.symm

/-- An entry of level `INFO` at time `0` whose message is `n` times the letter `A`. -/
def letters (n : Nat) : Entry where
  level := .info
  seconds := 0
  micros := 0
  cpuId := 0
  msg := List.replicate n 0x41
  valid := by
    rw [fromUtf8_ascii fun b hb => (eq_of_mem_replicate hb) ▸ by decide]
    rfl

@[simp] theorem letters_msg_length (n : Nat) : (letters n).msg.length = n := length_replicate

theorem letters_fits (h : n ≤ 512) : (letters n).Fits :=
  ⟨by simpa using h, by simp [letters], by simp [letters], by simp [letters]⟩

theorem replicate_fits (h : n ≤ 512) (k : Nat) : ∀ e ∈ replicate k (letters n), e.Fits :=
  fun _ he => (eq_of_mem_replicate he) ▸ letters_fits h

theorem encodedLen_replicate (k n : Nat) :
    encodedLen (replicate k (letters n)) = k * (entryHeaderSize + n) := by
  simp [encodedLen]

theorem dumpLogs_complete_two :
    (run (List.replicate 2 (letters 3))).dumpLogs = printed (List.replicate 2 (letters 3)) ∧
      encodedLen (List.replicate 2 (letters 3)) ≠ ringBufferSize := by
  have hlen : encodedLen (List.replicate 2 (letters 3)) = 34 := encodedLen_replicate 2 3
  have hne : encodedLen (List.replicate 2 (letters 3)) ≠ ringBufferSize := by
    rw [hlen]
    decide
  exact ⟨(dumpLogs_complete_iff (replicate_fits (by decide) 2) (by rw [hlen]; decide)).mpr hne, hne⟩

/-- 128 entries of 512 bytes fill the buffer, and none of them is printed. -/
theorem dumpLogs_full_lost :
    (∀ e ∈ List.replicate 128 (letters 498), e.Fits) ∧
      encodedLen (List.replicate 128 (letters 498)) ≤ ringBufferSize ∧
      (run (List.replicate 128 (letters 498))).dumpLogs ≠
        printed (List.replicate 128 (letters 498)) := by
  have hlen : encodedLen (List.replicate 128 (letters 498)) = ringBufferSize :=
    encodedLen_replicate 128 498
  have hfits := replicate_fits (n := 498) (by decide) 128
  refine ⟨hfits, hlen.le, fun h => ?_⟩
  rw [dumpLogs_full hfits hlen, replicate_succ, printed_cons] at h
  exact line_ne_notice _ _ h.symm

/-! ## After the wrap -/

/-- `dump_logs` prints a suffix of the entries, and not an empty one. -/
def ShowsRecent (es : List Entry) : Prop :=
  ∃ s, s <:+ es ∧ (es ≠ [] → s ≠ []) ∧ (run es).dumpLogs = printed s

/-- The oldest byte that `dump_logs` looks at begins an entry. -/
def BeginsEntry (es : List Entry) : Prop :=
  ∃ s, s <:+ es ∧ (es ≠ [] → s ≠ []) ∧ encodedLen s = shownBytes (encodedLen es)

/-- **A log whose oldest byte in the buffer begins an entry shows its newest entries**, whatever was
overwritten. -/
theorem dumpLogs_shows_recent {es : List Entry} (hes : ∀ e ∈ es, e.Fits) (h : BeginsEntry es) :
    ShowsRecent es := by
  obtain ⟨s, hs, hne, hlen⟩ := h
  exact ⟨s, hs, hne, dumpLogs_of_shown hes hs hlen⟩

theorem dumpLogs_shows_recent_wrapped : ShowsRecent (List.replicate 130 (letters 498)) := by
  refine dumpLogs_shows_recent (replicate_fits (by decide) 130)
    ⟨List.replicate 128 (letters 498), ⟨List.replicate 2 (letters 498), ?_⟩, ?_, ?_⟩
  · rw [replicate_append_replicate]
  · intro _ h
    cases h
  · rw [encodedLen_replicate, encodedLen_replicate]
    decide

theorem dumpLogs_nil (hes : ∀ e ∈ es, e.Fits) (hlen : ringBufferSize < encodedLen es % 2 ^ 64)
    {rest : Bytes}
    (hbytes : (stream es).drop (encodedLen es - ringBufferSize) =
      [0x41, 0x41, 0x41, 0x41] ++ rest) :
    (run es).dumpLogs = [] := by
  have hshown : shownBytes (encodedLen es) = ringBufferSize := if_pos hlen
  obtain ⟨start, hholds, hdump⟩ := (run_wrote hes).dumpLogs_eq
  rw [stream_length, hshown] at hholds hdump
  rw [hbytes] at hholds
  have hread : (run es).readBytes (start + 0) 4 = [0x41, 0x41, 0x41, 0x41] := by
    rw [readBytes_eq hholds (by simp)]
    rfl
  rw [hdump, if_neg (by decide), dumpLoop, if_pos (by decide), hread, if_pos (by decide)]

theorem letters_drop (n k : Nat) :
    (letters n).encode.drop (entryHeaderSize + k) = replicate (n - k) 0x41 := by
  have hheader : (letters n).encode.drop entryHeaderSize = replicate n 0x41 := by
    simp [Entry.encode, letters, entryHeaderSize, drop_append, drop_of_length_le]
  rw [← drop_drop, hheader, drop_replicate]

theorem stream_replicate_succ (k : Nat) (e : Entry) :
    stream (replicate (k + 1) e) = e.encode ++ stream (replicate k e) := rfl

/-- After 125 messages of 512 bytes, nothing is printed. -/
theorem dumpLogs_shows_nothing :
    (∀ e ∈ List.replicate 125 (letters 512), e.Fits) ∧
      ¬ ShowsRecent (List.replicate 125 (letters 512)) := by
  have hlen : encodedLen (List.replicate 125 (letters 512)) = 65750 := encodedLen_replicate 125 512
  have hfits := replicate_fits (n := 512) (by decide) 125
  have hoff : 65750 - ringBufferSize = entryHeaderSize + 200 := rfl
  have hletters : List.replicate 312 (0x41 : UInt8) =
      [0x41, 0x41, 0x41, 0x41] ++ List.replicate 308 0x41 := rfl
  have hbytes : (stream (List.replicate 125 (letters 512))).drop (65750 - ringBufferSize) =
      [0x41, 0x41, 0x41, 0x41] ++
        (List.replicate 308 0x41 ++ stream (List.replicate 124 (letters 512))) := by
    have hlong : entryHeaderSize + 200 ≤ (letters 512).encode.length := by
      rw [Entry.encode_length, letters_msg_length]
      decide
    rw [stream_replicate_succ 124, hoff, drop_append_of_le_length hlong, letters_drop,
      ← append_assoc, ← hletters]
  refine ⟨hfits, ?_⟩
  rintro ⟨s, -, -, hdump⟩
  rw [dumpLogs_nil hfits (by rw [hlen]; decide) (by rw [hlen]; exact hbytes)] at hdump
  exact printed_ne_nil s hdump.symm

end Kerners.Log
