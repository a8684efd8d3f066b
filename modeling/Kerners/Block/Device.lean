import Kerners.Lib.Bytes
import Kerners.Lib.Refine

/-!
# Block devices (`src/block/mod.rs`, `src/block/ramdisk.rs`)

The `BlockDevice` trait as commands: `read_block` into a buffer of a given length and `write_block`
of a buffer. `Disk` is the state of a device, with the checks of `RamDisk`: the buffer must be one
block long, the block must exist, and a read-only device refuses to write.

A program on a device is a `DevM`; `readBlock` and `writeBlock` issue the two commands.
-/

namespace Kerners.Block

open Lib Function

inductive BlockError where
  | invalidBlock
  | ioError
  | deviceNotFound
  | bufferSizeMismatch
  | readOnly
  | notReady
  deriving DecidableEq

/-- The commands of a block device; a read names the length of its buffer. -/
inductive Cmd where
  | readBlock (blockNum len : Nat)
  | writeBlock (blockNum : Nat) (buf : Bytes)

def Resp : Cmd → Type
  | .readBlock _ _ => Except BlockError Bytes
  | .writeBlock _ _ => Except BlockError Unit

abbrev DevM (μ σ ε α : Type) := ProgM Cmd Resp μ σ ε α

/-- Issue `read_block`. -/
def readBlock {μ σ : Type} (blockNum len : Nat) : DevM μ σ BlockError Bytes := fun s =>
  .op (.readBlock blockNum len) fun r => .pure (r, s)

/-- Issue `write_block`. -/
def writeBlock {μ σ : Type} (blockNum : Nat) (buf : Bytes) : DevM μ σ BlockError Unit := fun s =>
  .op (.writeBlock blockNum buf) fun r => .pure (r, s)

/-- A device: `blockCount` blocks of `blockSize` bytes. -/
structure Disk where
  blockSize : Nat
  blockCount : Nat
  readOnly : Bool
  blocks : Nat → Bytes
  blocks_length : ∀ n, (blocks n).length = blockSize

namespace Disk

def readBlock (d : Disk) (blockNum len : Nat) : Except BlockError Bytes :=
  if len ≠ d.blockSize then .error .bufferSizeMismatch
  else if blockNum ≥ d.blockCount then .error .invalidBlock
  else .ok (d.blocks blockNum)

/-- Put `buf` in the place of block `n`. -/
def put (d : Disk) (n : Nat) (buf : Bytes) (h : buf.length = d.blockSize) : Disk where
  blockSize := d.blockSize
  blockCount := d.blockCount
  readOnly := d.readOnly
  blocks := update d.blocks n buf
  blocks_length := fun m => by
    by_cases hm : m = n
    · subst hm
      rw [update_self, h]
    · rw [update_of_ne hm, d.blocks_length]

def writeBlock (d : Disk) (blockNum : Nat) (buf : Bytes) : Except BlockError Unit × Disk :=
  if d.readOnly then (.error .readOnly, d)
  else if h : buf.length = d.blockSize then
    if blockNum ≥ d.blockCount then (.error .invalidBlock, d)
    else (.ok (), d.put blockNum buf h)
  else (.error .bufferSizeMismatch, d)

def handle : Handler Cmd Resp Disk
  | .readBlock n len, d => (d.readBlock n len, d)
  | .writeBlock n buf, d => d.writeBlock n buf

variable {d : Disk} {n : Nat} {buf : Bytes}

theorem readBlock_ok {len : Nat} (hl : len = d.blockSize) (hn : n < d.blockCount) :
    d.readBlock n len = .ok (d.blocks n) := by
  unfold readBlock
  rw [if_neg (by simp [hl]), if_neg (by omega)]

theorem writeBlock_ok (hro : d.readOnly = false) (hl : buf.length = d.blockSize)
    (hn : n < d.blockCount) : d.writeBlock n buf = (.ok (), d.put n buf hl) := by
  unfold writeBlock
  rw [if_neg (by simp [hro]), dif_pos hl, if_neg (by omega)]

@[simp] theorem put_blocks_self {h : buf.length = d.blockSize} :
    (d.put n buf h).blocks n = buf := update_self ..

theorem put_blocks_of_ne {m : Nat} {h : buf.length = d.blockSize} (hm : m ≠ n) :
    (d.put n buf h).blocks m = d.blocks m := update_of_ne hm ..

end Disk

end Kerners.Block
