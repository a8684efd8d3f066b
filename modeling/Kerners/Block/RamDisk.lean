import Kerners.Block.Device
import Kerners.Lib.Object

/-!
# The RAM disk (`src/block/ramdisk.rs`)

A RAM disk is a vector of bytes that is read and written in blocks. Both calls find their block by
`block_num * block_size` and add the block size to that, in 64 bits that wrap, and compare the end with
the length of the vector; the slice then panics if it starts behind its end.
-/

namespace Kerners.Block

open Lib

structure RamDisk where
  blockSize : Nat
  data : Bytes
  readOnly : Bool
  pos : 0 < blockSize
  usize : blockSize < 2 ^ 64
  dvd : blockSize ∣ data.length
  fits : data.length < 2 ^ 63

/-- `(size + block_size - 1) / block_size * block_size`. -/
def alignedSize (size blockSize : Nat) : Nat :=
  (size + blockSize - 1) % 2 ^ 64 / blockSize * blockSize

inductive Reply where
  | read (r : Except BlockError Bytes)
  | write (r : Except BlockError Unit)

open List

namespace RamDisk

/-- `RamDisk::new`; `none` is a panic: a division by zero, or a vector that is too long. -/
def new (size blockSize : Nat) (usize : blockSize < 2 ^ 64) : Option RamDisk :=
  if h : 0 < blockSize ∧ alignedSize size blockSize < 2 ^ 63 then
    some ⟨blockSize, List.replicate (alignedSize size blockSize) 0, false, h.1, usize,
      by rw [List.length_replicate]; exact Nat.dvd_mul_left _ _,
      by rw [List.length_replicate]; exact h.2⟩
  else none

def fromData (data : Bytes) (blockSize : Nat) (usize : blockSize < 2 ^ 64) : Option RamDisk :=
  if h : 0 < blockSize ∧ alignedSize data.length blockSize < 2 ^ 63 then
    some ⟨blockSize, data.rightpad (alignedSize data.length blockSize) 0 |>.take
        (alignedSize data.length blockSize), true, h.1, usize,
      by
        rw [List.length_take, List.length_rightpad, Nat.min_eq_left (by omega)]
        exact Nat.dvd_mul_left _ _,
      by rw [List.length_take]; omega⟩
  else none

variable (d : RamDisk)

def setReadOnly (readOnly : Bool) : RamDisk := { d with readOnly := readOnly }

def blockCount : Nat := d.data.length / d.blockSize

/-- The arithmetic and the check of both calls: where the block starts. `none` is the panic of the
slice. -/
def locate (blockNum : Nat) :
    Option (Except BlockError { offset // offset + d.blockSize ≤ d.data.length }) :=
  if h : (blockNum * d.blockSize % 2 ^ 64 + d.blockSize) % 2 ^ 64 > d.data.length then
    some (.error .invalidBlock)
  else if h' : blockNum * d.blockSize % 2 ^ 64 >
      (blockNum * d.blockSize % 2 ^ 64 + d.blockSize) % 2 ^ 64 then none
  else some (.ok ⟨blockNum * d.blockSize % 2 ^ 64, by have := d.fits; have := d.usize; omega⟩)

/-- `read_block` into a buffer of `len` bytes. -/
def readBlock (blockNum len : Nat) : Option (Except BlockError Bytes) :=
  if len ≠ d.blockSize then some (.error .bufferSizeMismatch)
  else (d.locate blockNum).map fun r => r.map fun offset => slice d.data offset.1 d.blockSize

def setData (data : Bytes) (h : data.length = d.data.length) : RamDisk :=
  { d with data := data, dvd := h ▸ d.dvd, fits := h ▸ d.fits }

def writeBlock (blockNum : Nat) (buf : Bytes) : Option (Except BlockError Unit × RamDisk) :=
  if d.readOnly then some (.error .readOnly, d)
  else if h : buf.length ≠ d.blockSize then some (.error .bufferSizeMismatch, d)
  else
    (d.locate blockNum).map fun
      | .error e => (.error e, d)
      | .ok ⟨offset, ho⟩ =>
        (.ok (), d.setData (splice d.data offset buf) (splice_length (by
          rw [not_not.1 h]; exact ho)))

def exec : Cmd → Option (Reply × RamDisk)
  | .readBlock n len => (d.readBlock n len).map fun r => (.read r, d)
  | .writeBlock n buf => (d.writeBlock n buf).map fun r => (.write r.1, r.2)

def run (d : RamDisk) : List Cmd → Option (List Reply × RamDisk)
  | [] => some ([], d)
  | c :: cs =>
    (d.exec c).bind fun r => (r.2.run cs).map fun rs => (r.1 :: rs.1, rs.2)

end RamDisk

def Disk.exec (d : Disk) : Cmd → Reply × Disk
  | .readBlock n len => (.read (d.readBlock n len), d)
  | .writeBlock n buf => (.write (d.writeBlock n buf).1, (d.writeBlock n buf).2)

/-! ## The vector as blocks -/

namespace RamDisk

variable {d : RamDisk} {n : Nat} {buf : Bytes} {c : Cmd}

/-- The bytes of block `n`. -/
def block (d : RamDisk) (n : Nat) : Bytes :=
  if n < d.blockCount then slice d.data (n * d.blockSize) d.blockSize
  else List.replicate d.blockSize 0

theorem block_end_le (h : n < d.blockCount) : n * d.blockSize + d.blockSize ≤ d.data.length := by
  have hmul : d.blockCount * d.blockSize = d.data.length := Nat.div_mul_cancel d.dvd
  have hle : (n + 1) * d.blockSize ≤ d.blockCount * d.blockSize := Nat.mul_le_mul_right _ h
  rw [hmul, Nat.add_mul, Nat.one_mul] at hle
  exact hle

def toDisk (d : RamDisk) : Disk where
  blockSize := d.blockSize
  blockCount := d.blockCount
  readOnly := d.readOnly
  blocks := d.block
  blocks_length := fun n => by
    unfold block
    split
    · rename_i h
      exact slice_length (block_end_le h)
    · exact List.length_replicate

/-- The wrapped end of block `n` is behind the vector, or there is such a block. -/
def InReach (d : RamDisk) (n : Nat) : Prop :=
  n < d.blockCount ∨ d.data.length < (n * d.blockSize % 2 ^ 64 + d.blockSize) % 2 ^ 64

theorem locate_of_lt (h : n < d.blockCount) :
    d.locate n = some (.ok ⟨n * d.blockSize, block_end_le h⟩) := by
  have hle := block_end_le h
  have hfits := d.fits
  have hmod : n * d.blockSize % 2 ^ 64 = n * d.blockSize := Nat.mod_eq_of_lt (by omega)
  have hend : (n * d.blockSize + d.blockSize) % 2 ^ 64 = n * d.blockSize + d.blockSize :=
    Nat.mod_eq_of_lt (by omega)
  unfold locate
  simp only [hmod, hend]
  rw [dif_neg (by omega), dif_neg (by omega)]

theorem locate_of_ge (h : d.blockCount ≤ n) :
    d.locate n = some (.error .invalidBlock) ↔ d.InReach n := by
  unfold locate InReach
  split
  · rename_i hend
    exact ⟨fun _ => .inr hend, fun _ => rfl⟩
  · rename_i hend
    have hno : ¬ (n < d.blockCount ∨
        d.data.length < (n * d.blockSize % 2 ^ 64 + d.blockSize) % 2 ^ 64) := by omega
    split
    · exact ⟨fun h => (by cases h), fun h => absurd h hno⟩
    · exact ⟨fun h => (by cases h), fun h => absurd h hno⟩

theorem block_setData {offset m : Nat} (hm : m < d.blockCount) (hbuf : buf.length = d.blockSize)
    (hoff : offset = m * d.blockSize) (h : (splice d.data offset buf).length = d.data.length)
    (n : Nat) :
    (d.setData (splice d.data offset buf) h).block n = Function.update d.block m buf n := by
  have hcount : (d.setData (splice d.data offset buf) h).blockCount = d.blockCount :=
    congrArg (· / d.blockSize) h
  have hend := block_end_le hm
  unfold block
  rw [hcount]
  by_cases hn : n = m
  · subst hn
    rw [Function.update_self, if_pos hm]
    change slice (splice d.data offset buf) (n * d.blockSize) d.blockSize = buf
    rw [← hoff, ← hbuf, slice_splice_self (by rw [hbuf, hoff]; exact hend)]
  · rw [Function.update_of_ne hn]
    split
    · change slice (splice d.data offset buf) (n * d.blockSize) d.blockSize = _
      have hapart : n * d.blockSize + d.blockSize ≤ m * d.blockSize ∨
          m * d.blockSize + d.blockSize ≤ n * d.blockSize := by
        rcases Nat.lt_or_gt_of_ne hn with hlt | hlt
        · left
          have := Nat.mul_le_mul_right d.blockSize (show n + 1 ≤ m from hlt)
          rw [Nat.add_mul, Nat.one_mul] at this
          exact this
        · right
          have := Nat.mul_le_mul_right d.blockSize (show m + 1 ≤ n from hlt)
          rw [Nat.add_mul, Nat.one_mul] at this
          exact this
      rw [hoff]
      exact slice_splice_of_disjoint (by rw [hbuf]; exact hend) (by rw [hbuf]; exact hapart)
    · rfl

theorem toDisk_setData {m : Nat} (hm : m < d.blockCount) (hbuf : buf.length = d.blockSize)
    (h : (splice d.data (m * d.blockSize) buf).length = d.data.length) :
    (d.setData (splice d.data (m * d.blockSize) buf) h).toDisk = d.toDisk.put m buf hbuf := by
  have hblocks : (d.setData (splice d.data (m * d.blockSize) buf) h).block =
      Function.update d.block m buf := funext (block_setData hm hbuf rfl h)
  have hcount : (d.setData (splice d.data (m * d.blockSize) buf) h).blockCount = d.blockCount :=
    congrArg (· / d.blockSize) h
  unfold toDisk Disk.put
  simp only [hblocks, hcount]
  rfl

/-- Whether the arithmetic of a call is right: its buffer is refused anyway, or the end of its block does
not wrap into the vector. -/
def Exact (d : RamDisk) : Cmd → Prop
  | .readBlock n len => len = d.blockSize → d.InReach n
  | .writeBlock n buf => d.readOnly = false → buf.length = d.blockSize → d.InReach n

/-! ## Calls -/

theorem readBlock_eq_iff {len : Nat} :
    d.readBlock n len = some (d.toDisk.readBlock n len) ↔ (len = d.blockSize → d.InReach n) := by
  unfold readBlock Disk.readBlock
  by_cases hlen : len = d.blockSize
  · have hlen' : ¬ len ≠ d.toDisk.blockSize := not_not.2 hlen
    rw [if_neg (not_not.2 hlen), if_neg hlen']
    by_cases hn : n < d.blockCount
    · have hblock : d.toDisk.blocks n = slice d.data (n * d.blockSize) d.blockSize := if_pos hn
      rw [locate_of_lt hn, if_neg (by simpa [toDisk] using hn), hblock]
      exact ⟨fun _ _ => .inl hn, fun _ => rfl⟩
    · have hge : d.toDisk.blockCount ≤ n := Nat.not_lt.1 hn
      simp only [if_pos hge, hlen, forall_const, ← locate_of_ge (Nat.not_lt.1 hn)]
      cases d.locate n with
      | none => simp
      | some r => cases r <;> simp [Except.map]
  · have hlen' : len ≠ d.toDisk.blockSize := hlen
    rw [if_pos hlen, if_pos hlen']
    exact ⟨fun _ h => absurd h hlen, fun _ => rfl⟩

theorem writeBlock_exact (h : d.readOnly = false → buf.length = d.blockSize → d.InReach n) :
    (d.writeBlock n buf).map (fun r => (r.1, r.2.toDisk)) = some (d.toDisk.writeBlock n buf) := by
  unfold writeBlock Disk.writeBlock
  by_cases hro : d.readOnly = true
  · have hro' : d.toDisk.readOnly = true := hro
    rw [if_pos hro, if_pos hro']
    rfl
  · have hro' : ¬ d.toDisk.readOnly = true := hro
    rw [if_neg hro, if_neg hro']
    by_cases hlen : buf.length = d.blockSize
    · have hlen' : buf.length = d.toDisk.blockSize := hlen
      rw [dif_neg (by simp [hlen]), dif_pos hlen']
      by_cases hn : n < d.blockCount
      · have hn' : ¬ n ≥ d.toDisk.blockCount := by simpa [toDisk] using hn
        rw [locate_of_lt hn, if_neg hn', Option.map_some, Option.map_some]
        simp only [toDisk_setData hn hlen]
      · have hge : d.toDisk.blockCount ≤ n := Nat.not_lt.1 hn
        have hin : d.InReach n := h (by simpa using hro) hlen
        rw [if_pos hge, (locate_of_ge (Nat.not_lt.1 hn)).2 hin]
        rfl
    · have hlen' : ¬ buf.length = d.toDisk.blockSize := hlen
      rw [dif_pos hlen, dif_neg hlen']
      rfl

theorem inReach_of_reply (h : (d.writeBlock n buf).map (·.1) = some (d.toDisk.writeBlock n buf).1)
    (hro : d.readOnly = false) (hlen : buf.length = d.blockSize) : d.InReach n := by
  by_cases hn : n < d.blockCount
  · exact .inl hn
  · have hge : d.toDisk.blockCount ≤ n := Nat.not_lt.1 hn
    have hro' : d.toDisk.readOnly = false := hro
    have hlen' : buf.length = d.toDisk.blockSize := hlen
    unfold writeBlock Disk.writeBlock at h
    rw [if_neg (by simp [hro]), dif_neg (by simp [hlen]), if_neg (by simp [hro']), dif_pos hlen',
      if_pos hge] at h
    refine (locate_of_ge (Nat.not_lt.1 hn)).1 ?_
    cases hl : d.locate n with
    | none =>
      rw [hl] at h
      cases h
    | some r =>
      rw [hl] at h
      cases r with
      | ok o => cases h
      | error e =>
        cases h
        rfl

theorem exec_exact (h : d.Exact c) :
    (d.exec c).map (fun r => (r.1, r.2.toDisk)) = some (d.toDisk.exec c) := by
  cases c with
  | readBlock n len => rw [exec, readBlock_eq_iff.2 h, Disk.exec, Option.map_some, Option.map_some]
  | writeBlock n buf =>
    obtain ⟨r, hr, heq⟩ := Option.map_eq_some_iff.1 (writeBlock_exact h)
    rw [exec, hr, Disk.exec, ← heq, Option.map_some, Option.map_some]

theorem exact_of_reply (h : (d.exec c).map (·.1) = some (d.toDisk.exec c).1) : d.Exact c := by
  cases c with
  | readBlock n len =>
    refine readBlock_eq_iff.1 ?_
    cases hr : d.readBlock n len with
    | none =>
      rw [exec, hr] at h
      cases h
    | some r =>
      rw [exec, hr] at h
      cases h
      rfl
  | writeBlock n buf =>
    refine inReach_of_reply ?_
    cases hr : d.writeBlock n buf with
    | none =>
      rw [exec, hr] at h
      cases h
    | some r =>
      rw [exec, hr] at h
      injection h with h
      injection h with h
      exact congrArg some h

theorem exact_exec {c' : Cmd} {r : Reply × RamDisk} (h : d.exec c = some r) :
    r.2.Exact c' ↔ d.Exact c' := by
  have hsame : r.2.blockSize = d.blockSize ∧ r.2.data.length = d.data.length ∧
      r.2.readOnly = d.readOnly := by
    cases c with
    | readBlock n len =>
      obtain ⟨_, _, rfl⟩ := Option.map_eq_some_iff.1 h
      exact ⟨rfl, rfl, rfl⟩
    | writeBlock n buf =>
      obtain ⟨w, hw, rfl⟩ := Option.map_eq_some_iff.1 h
      unfold writeBlock at hw
      split at hw
      · cases hw
        exact ⟨rfl, rfl, rfl⟩
      · split at hw
        · cases hw
          exact ⟨rfl, rfl, rfl⟩
        · rename_i hlen
          obtain ⟨l, -, rfl⟩ := Option.map_eq_some_iff.1 hw
          cases l with
          | error e => exact ⟨rfl, rfl, rfl⟩
          | ok o => exact ⟨rfl, splice_length (by rw [not_not.1 hlen]; exact o.2), rfl⟩
  obtain ⟨hsize, hlen, hro⟩ := hsame
  cases c' <;> simp only [Exact, InReach, blockCount, hsize, hlen, hro]

/-- **When the RAM disk is an exact block store**: when no call with a buffer of one block names a
block behind the last one whose end wraps into the vector. -/
theorem ramdisk_exact_iff (d : RamDisk) (cs : List Cmd) :
    (d.run cs).map (fun r => (r.1, r.2.toDisk)) = some (runAll Disk.exec d.toDisk cs) ↔
      ∀ c ∈ cs, d.Exact c := by
  induction cs generalizing d with
  | nil => simp [run, runAll]
  | cons c cs ih =>
    rw [List.forall_mem_cons]
    unfold run runAll
    constructor
    · intro h
      obtain ⟨⟨rs, d''⟩, hrun, heq⟩ := Option.map_eq_some_iff.1 h
      obtain ⟨r, hc, hrest⟩ := Option.bind_eq_some_iff.1 hrun
      obtain ⟨t, ht, hcons⟩ := Option.map_eq_some_iff.1 hrest
      obtain ⟨rfl, rfl⟩ := Prod.mk.inj hcons
      obtain ⟨hreply, hd⟩ := Prod.mk.inj heq
      obtain ⟨hhead, htail⟩ := List.cons.inj hreply
      -- the same reply means that the call is exact, and then the states agree
      have hexact : d.Exact c := exact_of_reply (by rw [hc, Option.map_some, hhead])
      have hstate := exec_exact hexact
      rw [hc, Option.map_some, Option.some.injEq] at hstate
      rw [← hstate] at htail hd
      have hall := (ih r.2).1 (by rw [ht, Option.map_some, htail, hd])
      exact ⟨hexact, fun c' hc' => (exact_exec hc).1 (hall c' hc')⟩
    · rintro ⟨hexact, hall⟩
      obtain ⟨r, hc, hr⟩ := Option.map_eq_some_iff.1 (exec_exact hexact)
      obtain ⟨t, ht, hrs⟩ := Option.map_eq_some_iff.1
        ((ih r.2).2 fun c' hc' => (exact_exec hc).2 (hall c' hc'))
      rw [hc, Option.bind_some, ht, Option.map_some, Option.map_some, ← hr, ← hrs]

def eightBytes : RamDisk :=
  ⟨4, [1, 2, 3, 4, 5, 6, 7, 8], false, by decide, by decide, by decide, by decide⟩

/-- Block `2^62` is read and written as block 0, and block `2^64 - 1` is a panic. -/
theorem ramdisk_wraps :
    eightBytes.blockCount = 2 ∧ eightBytes.readBlock (2 ^ 62) 4 = some (.ok [1, 2, 3, 4]) ∧
      (eightBytes.writeBlock (2 ^ 62) [0, 0, 0, 0]).map (fun r => (r.1.isOk, r.2.data)) =
        some (true, [0, 0, 0, 0, 5, 6, 7, 8]) ∧
      eightBytes.readBlock (2 ^ 64 - 1) 4 = none ∧
      ¬ eightBytes.Exact (.readBlock (2 ^ 62) 4) ∧ ¬ eightBytes.Exact (.readBlock (2 ^ 64 - 1) 4) := by
  refine ⟨by decide, by decide, by decide, by decide, ?_, ?_⟩
  · unfold Exact InReach
    decide
  · unfold Exact InReach
    decide

end RamDisk

end Kerners.Block
