import Kerners.Block.Device
import Kerners.Virtio.Queue

/-!
# The VirtIO block driver, one request at a time (`src/block/virtio_blk.rs`)

`VirtIOBlock` turns a block number into a request to the device: a header with a sector, the caller's
buffer and a status byte. The device counts sectors of 512 bytes, transfers the whole buffer and
refuses a range that does not lie on the medium.

* The driver takes `blk_size` from the configuration of the device if the device offers that
  feature; the sector of a request is the block number itself.
* `capacity` of the trait is the product of two 64-bit numbers.
-/

namespace Kerners.Block

open Lib Virtio List

/-! ## The device -/

def sectorSize : Nat := 512

structure Drive where
  sectors : Nat
  bytes : Bytes
  bytes_length : bytes.length = sectors * sectorSize

namespace Drive

def blank (sectors : Nat) : Drive := ⟨sectors, List.replicate _ 0, length_replicate ..⟩

def InRange (d : Drive) (sector len : Nat) : Prop :=
  sector * sectorSize + len ≤ d.sectors * sectorSize

instance (d : Drive) (sector len : Nat) : Decidable (d.InRange sector len) :=
  inferInstanceAs (Decidable (_ ≤ _))

/-- `RequestType::In`: the data for a buffer of `len` bytes, `none` with the status `IoErr`. -/
def dataIn (d : Drive) (sector len : Nat) : Option Bytes :=
  if d.InRange sector len then some (slice d.bytes (sector * sectorSize) len) else none

/-- `RequestType::Out`. -/
def dataOut (d : Drive) (sector : Nat) (data : Bytes) : Option Drive :=
  if h : d.InRange sector data.length then
    some ⟨d.sectors, splice d.bytes (sector * sectorSize) data, by
      rw [splice_length (d.bytes_length.symm ▸ h), d.bytes_length]⟩
  else none

end Drive

/-! ## The driver -/

/-- The fields of `VirtIOBlock` that the calls read. -/
structure VirtIOBlock where
  capacity : Nat
  blockSize : Nat
  readOnly : Bool
  deriving DecidableEq

namespace VirtIOBlock

/-- `VirtIOBlock::new`: capacity, block size and mode, from the features and the configuration of
the device. -/
def new (deviceFeatures capacity blkSize : Nat) : VirtIOBlock where
  capacity := capacity
  blockSize := if deviceFeatures.testBit 6 then blkSize else 512
  readOnly := deviceFeatures.testBit 5

variable (b : VirtIOBlock)

def blockCount : Nat := b.capacity

/-- `BlockDevice::capacity`. -/
def capacityBytes : Nat := b.blockCount * b.blockSize % 2 ^ 64

/-- `read_block_internal`: the buffer after the call. -/
def readBlockInternal (d : Drive) (blockNum : Nat) (buf : Bytes) : Except VirtIOError Bytes :=
  if buf.length < b.blockSize then .error .bufferTooSmall
  else if blockNum ≥ b.capacity then .error .ioError
  else
    match d.dataIn blockNum (buf.length % 2 ^ 32) with
    | some data => .ok (data ++ buf.drop data.length)
    | none => .error .ioError

def writeBlockInternal (d : Drive) (blockNum : Nat) (buf : Bytes) :
    Except VirtIOError Unit × Drive :=
  if b.readOnly then (.error .ioError, d)
  else if buf.length < b.blockSize then (.error .bufferTooSmall, d)
  else if blockNum ≥ b.capacity then (.error .ioError, d)
  else
    match d.dataOut blockNum (buf.take (buf.length % 2 ^ 32)) with
    | some d' => (.ok (), d')
    | none => (.error .ioError, d)

def readBlock (d : Drive) (blockNum : Nat) (buf : Bytes) : Except BlockError Bytes :=
  (b.readBlockInternal d blockNum buf).mapError fun _ => .ioError

def writeBlock (d : Drive) (blockNum : Nat) (buf : Bytes) : Except BlockError Unit × Drive :=
  let r := b.writeBlockInternal d blockNum buf
  (r.1.mapError fun _ => .ioError, r.2)

end VirtIOBlock

/-! ## Blocks as ranges of the medium -/

section

variable {b : VirtIOBlock} {d d' : Drive} {i j : Nat} {buf dst : Bytes}

theorem readBlock_eq (hsize : b.blockSize < 2 ^ 32) (hj : j < b.capacity)
    (hdst : dst.length = b.blockSize) :
    b.readBlock d j dst =
      if d.InRange j b.blockSize then .ok (slice d.bytes (j * sectorSize) b.blockSize)
      else .error .ioError := by
  unfold VirtIOBlock.readBlock VirtIOBlock.readBlockInternal
  rw [if_neg (by omega), if_neg (by omega), hdst, Nat.mod_eq_of_lt hsize, Drive.dataIn]
  by_cases hr : d.InRange j b.blockSize
  · have hlen : (slice d.bytes (j * sectorSize) b.blockSize).length = b.blockSize :=
      slice_length (d.bytes_length.symm ▸ hr)
    have hdrop : dst.drop (slice d.bytes (j * sectorSize) b.blockSize).length = [] :=
      drop_eq_nil_of_le (by omega)
    rw [if_pos hr, if_pos hr]
    simp only [hdrop, append_nil]
    rfl
  · rw [if_neg hr, if_neg hr]
    rfl

theorem writeBlock_eq (hsize : b.blockSize < 2 ^ 32) (hbuf : buf.length = b.blockSize)
    (h : b.writeBlock d i buf = (.ok (), d')) :
    i < b.capacity ∧
    d.InRange i b.blockSize ∧
    d'.sectors = d.sectors ∧
    d'.bytes = splice d.bytes (i * sectorSize) buf := by
  unfold VirtIOBlock.writeBlock VirtIOBlock.writeBlockInternal at h
  split at h
  · exact absurd (congrArg Prod.fst h) (by simp [Except.mapError])
  split at h
  · exact absurd (congrArg Prod.fst h) (by simp [Except.mapError])
  split at h
  · exact absurd (congrArg Prod.fst h) (by simp [Except.mapError])
  rename_i hi
  rw [Nat.mod_eq_of_lt (hbuf ▸ hsize), take_length, Drive.dataOut] at h
  by_cases hr : d.InRange i buf.length
  · rw [dif_pos hr] at h
    obtain rfl := congrArg Prod.snd h
    exact ⟨by omega, hbuf ▸ hr, rfl, rfl⟩
  · rw [dif_neg hr] at h
    exact absurd (congrArg Prod.fst h) (by simp [Except.mapError])

theorem getElem?_slice_zero {bs : Bytes} {offset n : Nat} (h : 0 < n) :
    (slice bs offset n)[0]? = bs[offset]? := by
  simp [slice, h]

theorem getElem?_splice_zero {bs new : Bytes} {k : Nat} (h : k < new.length) :
    (splice bs 0 new)[k]? = new[k]? := by
  simp [splice, getElem?_append_left h]

theorem writeBlock_ok (hsize : b.blockSize < 2 ^ 32) (hro : b.readOnly = false)
    (hi : i < b.capacity) (hbuf : buf.length = b.blockSize) (hr : d.InRange i b.blockSize) :
    ∃ d', b.writeBlock d i buf = (.ok (), d') := by
  unfold VirtIOBlock.writeBlock VirtIOBlock.writeBlockInternal
  rw [hro, if_neg (by simp), if_neg (by omega), if_neg (by omega),
    Nat.mod_eq_of_lt (hbuf ▸ hsize), take_length, Drive.dataOut, dif_pos (hbuf.symm ▸ hr)]
  exact ⟨_, rfl⟩

end

/-! ## Arrays of blocks -/

/-- The device, through the driver, is an array of `block_count` blocks, and `capacity` is the size
of its medium. -/
structure BlockArray (b : VirtIOBlock) : Prop where
  write_self : ∀ {d d' : Drive} {i : Nat} {buf dst : Bytes}, d.sectors = b.capacity →
    buf.length = b.blockSize → dst.length = b.blockSize →
    b.writeBlock d i buf = (.ok (), d') → b.readBlock d' i dst = .ok buf
  write_other : ∀ {d d' : Drive} {i j : Nat} {buf dst : Bytes}, d.sectors = b.capacity →
    buf.length = b.blockSize → dst.length = b.blockSize →
    b.writeBlock d i buf = (.ok (), d') → j ≠ i → j < b.blockCount →
    b.readBlock d' j dst = b.readBlock d j dst
  readable : ∀ {d : Drive} {j : Nat} {dst : Bytes}, d.sectors = b.capacity →
    dst.length = b.blockSize → j < b.blockCount → ∃ data, b.readBlock d j dst = .ok data
  capacity_eq : b.capacityBytes = b.capacity * sectorSize

variable {b : VirtIOBlock}

theorem BlockArray.of_capacity_zero (h : b.capacity = 0) : BlockArray b where
  write_self {d d' i buf dst} hd hbuf hdst hw := by
    unfold VirtIOBlock.writeBlock VirtIOBlock.writeBlockInternal at hw
    split at hw
    · exact absurd (congrArg Prod.fst hw) (by simp [Except.mapError])
    · rw [if_neg (by omega), if_pos (by omega)] at hw
      exact absurd (congrArg Prod.fst hw) (by simp [Except.mapError])
  write_other _ _ _ _ _ hj := absurd hj (by simp [VirtIOBlock.blockCount, h])
  readable _ _ hj := absurd hj (by simp [VirtIOBlock.blockCount, h])
  capacity_eq := by simp [VirtIOBlock.capacityBytes, VirtIOBlock.blockCount, h]

theorem BlockArray.of_sector (hsize : b.blockSize = sectorSize)
    (hcap : b.capacity * sectorSize < 2 ^ 64) : BlockArray b := by
  have hlt : b.blockSize < 2 ^ 32 := by
    rw [hsize]
    decide
  have hrange : ∀ {d : Drive} {j : Nat}, d.sectors = b.capacity → j < b.capacity →
      d.InRange j b.blockSize := by
    intro d j hd hj
    unfold Drive.InRange
    rw [hd, hsize, ← Nat.succ_mul]
    exact Nat.mul_le_mul_right _ hj
  refine ⟨?_, ?_, ?_, ?_⟩
  · intro d d' i buf dst hd hbuf hdst hw
    obtain ⟨hi, hr, hs, hbytes⟩ := writeBlock_eq hlt hbuf hw
    rw [readBlock_eq hlt hi hdst, if_pos (hrange (hs.trans hd) hi), hbytes, ← hbuf]
    refine congrArg Except.ok (slice_splice_self ?_)
    rw [d.bytes_length, hbuf]
    exact hr
  · intro d d' i j buf dst hd hbuf hdst hw hne hj
    obtain ⟨hi, hr, hs, hbytes⟩ := writeBlock_eq hlt hbuf hw
    rw [readBlock_eq hlt hj hdst, readBlock_eq hlt hj hdst, if_pos (hrange (hs.trans hd) hj),
      if_pos (hrange hd hj), hbytes]
    refine congrArg Except.ok (slice_splice_of_disjoint ?_ ?_)
    · rw [d.bytes_length, hbuf]
      exact hr
    · rw [hbuf, hsize, ← Nat.succ_mul, ← Nat.succ_mul]
      rcases Nat.lt_or_gt_of_ne hne with h | h
      · exact .inl (Nat.mul_le_mul_right _ h)
      · exact .inr (Nat.mul_le_mul_right _ h)
  · intro d j dst hd hdst hj
    exact ⟨_, (readBlock_eq hlt hj hdst).trans (if_pos (hrange hd hj))⟩
  · unfold VirtIOBlock.capacityBytes VirtIOBlock.blockCount
    rw [hsize, Nat.mod_eq_of_lt hcap]

theorem last_block_unreadable (hlt : b.blockSize < 2 ^ 32) (hbig : sectorSize < b.blockSize)
    (hpos : 0 < b.capacity) {d : Drive} (hd : d.sectors = b.capacity) {dst : Bytes}
    (hdst : dst.length = b.blockSize) : b.readBlock d (b.capacity - 1) dst = .error .ioError := by
  rw [readBlock_eq hlt (by omega) hdst, if_neg]
  unfold Drive.InRange
  rw [hd]
  obtain ⟨n, hn⟩ := Nat.exists_eq_add_of_le' hpos
  rw [hn, Nat.add_sub_cancel, Nat.succ_mul]
  omega

/-- **The blocks of the device** form an array of the size of its medium exactly when a block is one
sector and the size fits in 64 bits, or when there is no block at all. -/
theorem block_array_iff (hlt : b.blockSize < 2 ^ 32) (hmul : sectorSize ∣ b.blockSize) :
    BlockArray b ↔
      b.capacity = 0 ∨ b.blockSize = sectorSize ∧ b.capacity * sectorSize < 2 ^ 64 := by
  constructor
  · intro h
    rw [or_iff_not_imp_left]
    intro hpos
    have hcap := h.capacity_eq
    have hfits : b.capacity * sectorSize < 2 ^ 64 :=
      hcap ▸ Nat.mod_lt _ (by decide)
    refine ⟨?_, hfits⟩
    rcases Nat.lt_trichotomy b.blockSize sectorSize with hsmall | heq | hbig
    · -- A multiple below one sector is zero, and then the product is zero as well.
      have hzero : b.blockSize = 0 := Nat.eq_zero_of_dvd_of_lt hmul hsmall
      rw [VirtIOBlock.capacityBytes, hzero, Nat.mul_zero, Nat.zero_mod] at hcap
      exact absurd hcap.symm (Nat.mul_ne_zero hpos (by decide))
    · exact heq
    · have hdst : (List.replicate b.blockSize (0 : UInt8)).length = b.blockSize :=
        length_replicate ..
      have hlast := last_block_unreadable hlt hbig (Nat.pos_of_ne_zero hpos)
        (show (Drive.blank b.capacity).sectors = b.capacity from rfl) hdst
      obtain ⟨data, hdata⟩ := h.readable (show (Drive.blank b.capacity).sectors = _ from rfl) hdst
        (show b.capacity - 1 < b.capacity by omega)
      rw [hlast] at hdata
      exact absurd hdata (by simp)
  · rintro (h | ⟨hsize, hcap⟩)
    · exact .of_capacity_zero h
    · exact .of_sector hsize hcap

theorem block_array_iff_default : BlockArray (.new 0 8 0) :=
  (block_array_iff (b := .new 0 8 0) (by decide) (by decide)).2 (.inr (by decide))

/-- A device of eight sectors that reports blocks of 1024 bytes: the last of the eight blocks cannot
be read, `capacity` is twice the medium, and a write to block 0 changes block 1. -/
theorem large_blocks_overlap :
    let b := VirtIOBlock.new (2 ^ 6) 8 1024
    let d := Drive.blank 8
    let dst := List.replicate 1024 0
    b.readBlock d 7 dst = .error .ioError ∧ b.capacityBytes = 2 * d.bytes.length ∧
      ∃ d', b.writeBlock d 0 (List.replicate 1024 1) = (.ok (), d') ∧
        b.readBlock d' 1 dst ≠ b.readBlock d 1 dst := by
  intro b d dst
  have hlt : b.blockSize < 2 ^ 32 := by decide
  have hdst : dst.length = b.blockSize := length_replicate ..
  refine ⟨last_block_unreadable hlt (by decide) (by decide) rfl hdst, ?_, ?_⟩
  · rw [d.bytes_length]
    decide
  · have hbuf : (List.replicate 1024 (1 : UInt8)).length = b.blockSize := length_replicate ..
    obtain ⟨d', hw⟩ := writeBlock_ok hlt rfl (by decide) hbuf (show d.InRange 0 _ by decide)
    obtain ⟨_, _, hs, hbytes⟩ := writeBlock_eq hlt hbuf hw
    have hr' : d'.InRange 1 b.blockSize := by
      rw [Drive.InRange, hs]
      decide
    refine ⟨d', hw, ?_⟩
    rw [readBlock_eq hlt (by decide) hdst, readBlock_eq hlt (by decide) hdst, if_pos hr',
      if_pos (show d.InRange 1 _ by decide), hbytes]
    intro he
    have hfirst := congrArg (fun l : Bytes => l[0]?) (Except.ok.inj he)
    simp only [getElem?_slice_zero (show 0 < b.blockSize by decide)] at hfirst
    rw [Nat.zero_mul, getElem?_splice_zero (by rw [hbuf]; decide),
      getElem?_replicate_of_lt (by decide),
      show d.bytes = List.replicate (8 * sectorSize) 0 from rfl,
      getElem?_replicate_of_lt (by decide)] at hfirst
    exact absurd hfirst (by decide)

end Kerners.Block
