import Kerners.Fs.RamFile

/-!
# Block devices as files (`src/fs/devfs/mod.rs`)

`BlockDeviceNode` reads and writes a block device at byte offsets. Both calls go through the blocks
between the first and the last byte; the first and the last block may be taken in part, and a block that
is written in part is read first.

* The device is a `Disk`, an array of blocks with the checks of `read_block` and `write_block`. Its
  `content` is the flat array of bytes.
* `buf` is the buffer of the caller; `read` returns it as it is afterwards.
* `capacity()` multiplies in 64 bits; no other sum can wrap, since none exceeds the capacity.
-/

namespace Kerners.Fs

open Lib Kerners.Block List

def capacity (d : Disk) : Nat := d.blockCount * d.blockSize % 2 ^ 64

/-- `block_start`: where the transfer of `n` bytes at `offset` starts in block `blockNum`. -/
def blockStart (blockSize offset blockNum : Nat) : Nat :=
  if blockNum = offset / blockSize then offset % blockSize else 0

def blockEnd (blockSize offset n blockNum : Nat) : Nat :=
  if blockNum = (offset + n - 1) / blockSize then (offset + n - 1) % blockSize + 1 else blockSize

/-- `start_block..=end_block`. -/
def blockNums (blockSize offset n : Nat) : List Nat :=
  List.range' (offset / blockSize) ((offset + n - 1) / blockSize + 1 - offset / blockSize)

/-- The loop of `read`. -/
def readLoop (d : Disk) (offset n : Nat) : List Nat → Nat → Bytes → Except VfsError (Nat × Bytes)
  | [], bytesRead, buf => .ok (bytesRead, buf)
  | blockNum :: rest, bytesRead, buf =>
    match d.readBlock blockNum d.blockSize with
    | .error _ => .error .ioError
    | .ok blockBuf =>
      let start := blockStart d.blockSize offset blockNum
      let copyLen := blockEnd d.blockSize offset n blockNum - start
      readLoop d offset n rest (bytesRead + copyLen)
        (splice buf bytesRead (slice blockBuf start copyLen))

/-- `BlockDeviceNode::read`. -/
def readNode (d : Disk) (offset : Nat) (buf : Bytes) : Except VfsError (Nat × Bytes) :=
  if offset ≥ capacity d then .ok (0, buf)
  else
    let n := min buf.length (capacity d - offset)
    if n = 0 then .ok (0, buf) else readLoop d offset n (blockNums d.blockSize offset n) 0 buf

/-- The loop of `write`. `block_buf` is kept from block to block. -/
def writeLoop (offset n : Nat) (buf : Bytes) :
    List Nat → Disk → Bytes → Nat → Except VfsError Nat × Disk
  | [], d, _, bytesWritten => (.ok bytesWritten, d)
  | blockNum :: rest, d, blockBuf, bytesWritten =>
    let start := blockStart d.blockSize offset blockNum
    let stop := blockEnd d.blockSize offset n blockNum
    let copyLen := stop - start
    match if start ≠ 0 ∨ stop ≠ d.blockSize then d.readBlock blockNum d.blockSize
        else .ok blockBuf with
    | .error _ => (.error .ioError, d)
    | .ok blockBuf =>
      let blockBuf := splice blockBuf start (slice buf bytesWritten copyLen)
      match d.writeBlock blockNum blockBuf with
      | (.error _, d) => (.error .ioError, d)
      | (.ok (), d) => writeLoop offset n buf rest d blockBuf (bytesWritten + copyLen)

/-- `BlockDeviceNode::write`. -/
def writeNode (d : Disk) (offset : Nat) (buf : Bytes) : Except VfsError Nat × Disk :=
  if d.readOnly then (.error .readOnly, d)
  else if offset ≥ capacity d then (.error .noSpace, d)
  else
    let n := min buf.length (capacity d - offset)
    if n = 0 then (.ok 0, d)
    else
      writeLoop offset n buf (blockNums d.blockSize offset n) d (List.replicate d.blockSize 0) 0

/-! ## The flat array -/

def content (d : Disk) : Bytes := (List.range d.blockCount).flatMap d.blocks

section

variable {d : Disk} {k : Nat}

theorem length_content : (content d).length = d.blockCount * d.blockSize := by
  unfold content
  rw [length_flatMap]
  simp [d.blocks_length]

theorem getElem?_content (hpos : 0 < d.blockSize) (i : Nat) :
    (content d)[i]? =
      if i / d.blockSize < d.blockCount then (d.blocks (i / d.blockSize))[i % d.blockSize]?
      else none := by
  unfold content
  rw [getElem?_flatMap_const hpos fun x _ => d.blocks_length x]
  split
  · rename_i h
    rw [getElem?_range h, Option.bind_some]
  · rename_i h
    rw [getElem?_eq_none (by simpa using h), Option.bind_none]

theorem getElem?_slice (bs : Bytes) (offset n i : Nat) :
    (slice bs offset n)[i]? = if i < n then bs[offset + i]? else none := by
  unfold slice
  rw [getElem?_take]
  split
  · rw [getElem?_drop]
  · rfl

theorem slice_content (hpos : 0 < d.blockSize) (hk : k < d.blockCount) :
    slice (content d) (k * d.blockSize) d.blockSize = d.blocks k := by
  refine ext_getElem? fun i => ?_
  rw [getElem?_slice]
  split
  · rename_i hi
    have hdiv : (k * d.blockSize + i) / d.blockSize = k := by
      rw [Nat.mul_comm, Nat.mul_add_div hpos, Nat.div_eq_of_lt hi, Nat.add_zero]
    have hmod : (k * d.blockSize + i) % d.blockSize = i := by
      rw [Nat.mul_comm, Nat.mul_add_mod, Nat.mod_eq_of_lt hi]
    rw [getElem?_content hpos, hdiv, hmod, if_pos hk]
  · rename_i hi
    rw [getElem?_eq_none (by rw [d.blocks_length]; omega)]

theorem content_put (hpos : 0 < d.blockSize) (hk : k < d.blockCount) {blk : Bytes}
    (hblk : blk.length = d.blockSize) :
    content (d.put k blk hblk) = splice (content d) (k * d.blockSize) blk := by
  have hend : k * d.blockSize + blk.length ≤ (content d).length := by
    have := Nat.mul_le_mul_right d.blockSize (show k + 1 ≤ d.blockCount from hk)
    rw [length_content, hblk]
    rwa [Nat.add_mul, Nat.one_mul] at this
  refine ext_getElem? fun i => ?_
  have hput : (content (d.put k blk hblk))[i]? = if i / d.blockSize < d.blockCount
      then ((d.put k blk hblk).blocks (i / d.blockSize))[i % d.blockSize]? else none :=
    getElem?_content (d := d.put k blk hblk) hpos i
  have hdm := Nat.div_add_mod i d.blockSize
  have hmod := Nat.mod_lt i hpos
  rw [hput]
  by_cases hik : i / d.blockSize = k
  · rw [hik, if_pos hk, Disk.put_blocks_self]
    rw [hik, Nat.mul_comm] at hdm
    rw [getElem?_splice_of_in (by omega) (by omega) (by omega)]
    congr 1
    omega
  · rw [Disk.put_blocks_of_ne hik, ← getElem?_content hpos]
    refine (getElem?_splice_of_out hend ?_).symm
    rw [hblk]
    rcases Nat.lt_or_gt_of_ne hik with hlt | hlt
    · left
      exact (Nat.div_lt_iff_lt_mul hpos).1 hlt
    · right
      have := (Nat.le_div_iff_mul_le hpos).1 (show k + 1 ≤ i / d.blockSize from hlt)
      rwa [Nat.add_mul, Nat.one_mul] at this

end

/-! ## Pieces of byte strings -/

theorem slice_add (bs : Bytes) (o i j : Nat) :
    slice bs o (i + j) = slice bs o i ++ slice bs (o + i) j := by
  unfold slice
  rw [take_add, drop_drop]

theorem splice_two {bs x y : Bytes} {o : Nat} (h : o + x.length + y.length ≤ bs.length) :
    splice (splice bs o x) (o + x.length) y = splice bs o (x ++ y) := by
  have hx : (splice bs o x).length = bs.length := splice_length (by omega)
  have hxy : o + (x ++ y).length ≤ bs.length := by rw [length_append]; omega
  have hlen : (x ++ y).length = x.length + y.length := length_append
  refine ext_getElem? fun i => ?_
  by_cases h1 : i < o
  · rw [getElem?_splice_of_out (by omega) (.inl (by omega)), getElem?_splice_of_out (by omega)
      (.inl h1), getElem?_splice_of_out hxy (.inl h1)]
  by_cases h2 : i < o + x.length
  · rw [getElem?_splice_of_out (by omega) (.inl h2), getElem?_splice_of_in (by omega) (by omega) h2,
      getElem?_splice_of_in (by omega) (by omega) (by omega),
      getElem?_append_left (by omega)]
  by_cases h3 : i < o + x.length + y.length
  · rw [getElem?_splice_of_in (by omega) (by omega) h3,
      getElem?_splice_of_in (by omega) (by omega) (by omega),
      getElem?_append_right (by omega), Nat.sub_sub]
  · rw [getElem?_splice_of_out (by omega) (.inr (by omega)), getElem?_splice_of_out (by omega)
      (.inr (by omega)), getElem?_splice_of_out hxy (.inr (by omega))]

theorem splice_slice_two {bs src : Bytes} {o i c n : Nat} (hbs : o + n ≤ bs.length)
    (hsrc : i + n ≤ src.length) (hc : c ≤ n) :
    splice (splice bs o (slice src i c)) (o + c) (slice src (i + c) (n - c)) =
      splice bs o (slice src i n) := by
  have h1 : (slice src i c).length = c := slice_length (by omega)
  have h2 : (slice src (i + c) (n - c)).length = n - c := slice_length (by omega)
  have htwo := @splice_two bs (slice src i c) (slice src (i + c) (n - c)) o (by omega)
  rw [h1] at htwo
  rw [htwo, ← slice_add, Nat.add_sub_of_le hc]

theorem splice_slice_part {bs piece : Bytes} {o n a : Nat} (h : o + n ≤ bs.length)
    (ha : a + piece.length ≤ n) :
    splice bs o (splice (slice bs o n) a piece) = splice bs (o + a) piece := by
  have hs : (slice bs o n).length = n := slice_length h
  have hpart : (splice (slice bs o n) a piece).length = n := by rw [splice_length (by omega), hs]
  refine ext_getElem? fun i => ?_
  by_cases h1 : i < o ∨ o + n ≤ i
  · rw [getElem?_splice_of_out (by omega) (by omega), getElem?_splice_of_out (by omega) (by omega)]
  rw [getElem?_splice_of_in (by omega) (by omega) (by omega)]
  by_cases h2 : i < o + a ∨ o + a + piece.length ≤ i
  · rw [getElem?_splice_of_out (by omega) (by omega), getElem?_splice_of_out (by omega) (by omega),
      getElem?_slice, if_pos (by omega)]
    congr 1
    omega
  · rw [getElem?_splice_of_in (by omega) (by omega) (by omega),
      getElem?_splice_of_in (by omega) (by omega) (by omega), Nat.sub_sub]

theorem slice_slice (bs : Bytes) {o n i m : Nat} (h : i + m ≤ n) :
    slice (slice bs o n) i m = slice bs (o + i) m := by
  refine ext_getElem? fun j => ?_
  rw [getElem?_slice, getElem?_slice, getElem?_slice]
  split
  · rw [if_pos (by omega), Nat.add_assoc]
  · rfl

theorem splice_all {bs new : Bytes} (h : new.length = bs.length) : splice bs 0 new = new := by
  unfold splice
  rw [take_zero, nil_append, drop_eq_nil_of_le (by omega), append_nil]

/-! ## The blocks of a transfer -/

section

variable {b offset n k : Nat}

theorem block_range (hb : 0 < b) (hn : 0 < n) :
    blockStart b offset k < blockEnd b offset n k ∧ blockEnd b offset n k ≤ b ∧
      k * b + blockEnd b offset n k =
        if k = (offset + n - 1) / b then offset + n else (k + 1) * b := by
  have h1 := Nat.div_add_mod offset b
  have h2 := Nat.div_add_mod (offset + n - 1) b
  have m1 := Nat.mod_lt offset hb
  have m2 := Nat.mod_lt (offset + n - 1) hb
  rw [Nat.mul_comm] at h1 h2
  unfold blockStart blockEnd
  by_cases hlast : k = (offset + n - 1) / b
  · rw [if_pos hlast, if_pos hlast]
    rw [← hlast] at h2
    refine ⟨?_, by omega, by omega⟩
    split
    · rename_i hfirst
      rw [← hfirst] at h1
      omega
    · omega
  · rw [if_neg hlast, if_neg hlast, Nat.add_mul, Nat.one_mul]
    refine ⟨?_, Nat.le_refl _, rfl⟩
    split
    · exact m1
    · exact hb

theorem blockStart_first (b offset : Nat) :
    offset / b * b + blockStart b offset (offset / b) = offset := by
  unfold blockStart
  rw [if_pos rfl, Nat.mul_comm]
  exact Nat.div_add_mod offset b

theorem blockStart_later (h : offset / b < k) : blockStart b offset k = 0 := by
  unfold blockStart
  rw [if_neg (by omega)]

end

/-! ## The loops -/

/-- `copy_len`: how many bytes the transfer has in block `k`. -/
def copyLen (d : Disk) (offset n k : Nat) : Nat :=
  blockEnd d.blockSize offset n k - blockStart d.blockSize offset k

/-- The state of a loop before the remaining blocks `k, …, k + m - 1`, with `done` bytes transferred. -/
structure Remaining (d : Disk) (offset n k m done : Nat) : Prop where
  pos : 0 < d.blockSize
  some_bytes : 0 < n
  in_device : offset + n ≤ d.blockCount * d.blockSize
  last : k + m = (offset + n - 1) / d.blockSize
  first : offset / d.blockSize ≤ k
  place : offset + done = k * d.blockSize + blockStart d.blockSize offset k

/-- A device of the same shape as `d`. -/
def SameShape (d d' : Disk) : Prop :=
  d'.blockSize = d.blockSize ∧ d'.blockCount = d.blockCount ∧ d'.readOnly = d.readOnly

section

variable {d d' : Disk} {offset n k m done : Nat} {buf blockBuf : Bytes}

theorem SameShape.trans {d'' : Disk} (h : SameShape d d') (h' : SameShape d' d'') :
    SameShape d d'' :=
  ⟨h'.1.trans h.1, h'.2.1.trans h.2.1, h'.2.2.trans h.2.2⟩

theorem Remaining.lt_count (h : Remaining d offset n k m done) : k < d.blockCount := by
  have hle : k ≤ (offset + n - 1) / d.blockSize := by rw [← h.last]; omega
  refine Nat.lt_of_le_of_lt hle ((Nat.div_lt_iff_lt_mul h.pos).2 ?_)
  have := h.in_device
  have := h.some_bytes
  omega

theorem Remaining.piece (h : Remaining d offset n k m done) :
    blockStart d.blockSize offset k + copyLen d offset n k ≤ d.blockSize ∧
      done + copyLen d offset n k ≤ n ∧ (m = 0 → done + copyLen d offset n k = n) := by
  obtain ⟨h1, h2, h3⟩ := @block_range _ offset n k h.pos h.some_bytes
  have hplace := h.place
  have hlast := h.last
  unfold copyLen
  refine ⟨by omega, ?_, fun hm => ?_⟩
  · split at h3
    · omega
    · have hlt : k + 1 ≤ (offset + n - 1) / d.blockSize := by omega
      have hmul := (Nat.le_div_iff_mul_le h.pos).1 hlt
      have := h.some_bytes
      omega
  · rw [if_pos (by omega)] at h3
    omega

theorem Remaining.next (h : Remaining d offset n k (m + 1) done) :
    Remaining d offset n (k + 1) m (done + copyLen d offset n k) := by
  obtain ⟨h1, h2, h3⟩ := @block_range _ offset n k h.pos h.some_bytes
  have hplace := h.place
  have hlast := h.last
  have hfirst := h.first
  rw [if_neg (by omega)] at h3
  have hzero : blockStart d.blockSize offset (k + 1) = 0 := blockStart_later (by omega)
  refine ⟨h.pos, h.some_bytes, h.in_device, by omega, by omega, ?_⟩
  rw [hzero, copyLen]
  omega

theorem Remaining.congr (h : Remaining d offset n k m done) (hd : SameShape d d') :
    Remaining d' offset n k m done := by
  obtain ⟨h1, h2, h3, h4, h5, h6⟩ := h
  rw [← hd.1] at h1 h3 h4 h5 h6
  rw [← hd.2.1] at h3
  exact ⟨h1, h2, h3, h4, h5, h6⟩

theorem readLoop_cons (rest : List Nat) (h : Remaining d offset n k m done) :
    readLoop d offset n (k :: rest) done buf =
      readLoop d offset n rest (done + copyLen d offset n k)
        (splice buf done (slice (content d) (offset + done) (copyLen d offset n k))) := by
  rw [readLoop, Disk.readBlock_ok rfl h.lt_count]
  simp only
  rw [← copyLen, ← slice_content h.pos h.lt_count, slice_slice _ h.piece.1, ← h.place]

theorem readLoop_eq (h : Remaining d offset n k m done) (hbuf : n ≤ buf.length) :
    readLoop d offset n (List.range' k (m + 1)) done buf =
      .ok (n, splice buf done (slice (content d) (offset + done) (n - done))) := by
  have hcont : (content d).length = d.blockCount * d.blockSize := length_content
  have hin := h.in_device
  obtain ⟨h1, h2, h3⟩ := h.piece
  rw [range'_succ, readLoop_cons _ h]
  induction m generalizing k done buf with
  | zero =>
    rw [range'_zero, readLoop, h3 rfl, ← Nat.sub_eq_of_eq_add' (h3 rfl).symm]
  | succ m ih =>
    have hpiece : (slice (content d) (offset + done) (copyLen d offset n k)).length =
        copyLen d offset n k := slice_length (by omega)
    obtain ⟨h1', h2', h3'⟩ := h.next.piece
    rw [range'_succ, readLoop_cons _ h.next,
      ih h.next (by rw [splice_length (by omega)]; exact hbuf) h1' h2' h3', Nat.sub_add_eq,
      ← Nat.add_assoc, splice_slice_two (by omega) (by omega) (by omega)]

theorem writeLoop_cons (rest : List Nat) (h : Remaining d offset n k m done)
    (hbuf : n ≤ buf.length) (hro : d.readOnly = false) (hbb : blockBuf.length = d.blockSize) :
    ∃ (blk : Bytes) (d1 : Disk), writeLoop offset n buf (k :: rest) d blockBuf done =
        writeLoop offset n buf rest d1 blk (done + copyLen d offset n k) ∧
      blk.length = d.blockSize ∧
      SameShape d d1 ∧
      content d1 = splice (content d) (offset + done) (slice buf done (copyLen d offset n k)) := by
  obtain ⟨h1, h2, h3⟩ := h.piece
  have hk := h.lt_count
  have hpiece : (slice buf done (copyLen d offset n k)).length = copyLen d offset n k :=
    slice_length (by omega)
  have hlen := d.blocks_length k
  -- a block that is not read first is replaced as a whole
  have hread : ∃ old, (if blockStart d.blockSize offset k ≠ 0 ∨
        blockEnd d.blockSize offset n k ≠ d.blockSize then d.readBlock k d.blockSize
      else .ok blockBuf) = .ok old ∧
      splice old (blockStart d.blockSize offset k) (slice buf done (copyLen d offset n k)) =
      splice (d.blocks k) (blockStart d.blockSize offset k)
        (slice buf done (copyLen d offset n k)) := by
    split
    · exact ⟨_, Disk.readBlock_ok rfl hk, rfl⟩
    · rename_i hwhole
      have hs : blockStart d.blockSize offset k = 0 := by omega
      have hc : copyLen d offset n k = d.blockSize := by
        unfold copyLen
        omega
      rw [hc] at hpiece
      rw [hs, hc]
      exact ⟨_, rfl, by rw [splice_all (by omega), splice_all (by omega)]⟩
  obtain ⟨old, hold, hsame⟩ := hread
  have hblk : (splice (d.blocks k) (blockStart d.blockSize offset k)
      (slice buf done (copyLen d offset n k))).length = d.blockSize := by
    rw [splice_length (by omega), hlen]
  refine ⟨_, d.put k _ hblk, ?_, hblk, ⟨rfl, rfl, rfl⟩, ?_⟩
  · rw [writeLoop]
    simp only [hold]
    rw [← copyLen, hsame, Disk.writeBlock_ok hro hblk hk]
  · have hcont : (content d).length = d.blockCount * d.blockSize := length_content
    have hle : k * d.blockSize + d.blockSize ≤ (content d).length := by
      have := Nat.mul_le_mul_right d.blockSize (show k + 1 ≤ d.blockCount from hk)
      rwa [hcont, ← Nat.succ_mul]
    rw [content_put h.pos hk, ← slice_content h.pos hk, splice_slice_part hle (by omega), h.place]

theorem writeLoop_eq (h : Remaining d offset n k m done) (hbuf : n ≤ buf.length)
    (hro : d.readOnly = false) (hbb : blockBuf.length = d.blockSize) :
    ∃ d', writeLoop offset n buf (List.range' k (m + 1)) d blockBuf done = (.ok n, d') ∧
      SameShape d d' ∧
      content d' = splice (content d) (offset + done) (slice buf done (n - done)) := by
  induction m generalizing d k done blockBuf with
  | zero =>
    have hdone := h.piece.2.2 rfl
    obtain ⟨blk, d1, hloop, -, hshape, hcont⟩ := writeLoop_cons [] h hbuf hro hbb
    refine ⟨d1, ?_, hshape, ?_⟩
    · rw [range'_succ, range'_zero, hloop, writeLoop, hdone]
    · rw [hcont, ← Nat.sub_eq_of_eq_add' hdone.symm]
  | succ m ih =>
    obtain ⟨h1, h2, -⟩ := h.piece
    obtain ⟨blk, d1, hloop, hblk, hshape, hcont⟩ :=
      writeLoop_cons (List.range' (k + 1) (m + 1)) h hbuf hro hbb
    obtain ⟨d', hrest, hshape', hcont'⟩ :=
      ih (h.next.congr hshape) (hshape.2.2.trans hro) (hblk.trans hshape.1.symm)
    refine ⟨d', by rw [range'_succ, hloop, hrest], hshape.trans hshape', ?_⟩
    have hlen : (content d).length = d.blockCount * d.blockSize := length_content
    have hin := h.in_device
    rw [hcont', hcont, Nat.sub_add_eq, ← Nat.add_assoc,
      splice_slice_two (by omega) (by omega) (by omega)]

theorem remaining_start (hpos : 0 < d.blockSize) (hn : 0 < n)
    (hin : offset + n ≤ d.blockCount * d.blockSize) :
    ∃ m, blockNums d.blockSize offset n = List.range' (offset / d.blockSize) (m + 1) ∧
      Remaining d offset n (offset / d.blockSize) m 0 := by
  have hle : offset / d.blockSize ≤ (offset + n - 1) / d.blockSize :=
    Nat.div_le_div_right (by omega)
  refine ⟨(offset + n - 1) / d.blockSize - offset / d.blockSize, ?_, hpos, hn, hin, by omega,
    Nat.le_refl _, ?_⟩
  · unfold blockNums
    congr 1
    omega
  · rw [blockStart_first, Nat.add_zero]

end

/-- **The node is the flat array of bytes**, for a device with a capacity below `2^63`. -/
theorem block_node_flat (d : Disk) (offset : Nat) (buf : Bytes) (hpos : 0 < d.blockSize)
    (hcap : d.blockCount * d.blockSize < 2 ^ 63) :
    readNode d offset buf =
      .ok (min buf.length ((content d).length - offset), splice buf 0
        (slice (content d) offset (min buf.length ((content d).length - offset)))) ∧
    (d.readOnly = false → offset < (content d).length →
       ∃ d', writeNode d offset buf = (.ok (min buf.length ((content d).length - offset)), d') ∧
         d'.blockSize = d.blockSize ∧
         d'.blockCount = d.blockCount ∧
         d'.readOnly = d.readOnly ∧
         content d' =
           splice (content d) offset
             (buf.take (min buf.length ((content d).length - offset)))) := by
  have hlen : (content d).length = d.blockCount * d.blockSize := length_content
  have hcapacity : capacity d = (content d).length := by
    rw [hlen]
    exact Nat.mod_eq_of_lt (by omega)
  constructor
  · unfold readNode
    rw [hcapacity]
    split
    · have hzero : (content d).length - offset = 0 := by omega
      rw [hzero, Nat.min_zero]
      simp [slice]
    · simp only
      generalize hn : min buf.length ((content d).length - offset) = n
      split
      · rename_i h0
        subst h0
        simp [slice]
      · obtain ⟨m, hnums, hrem⟩ := @remaining_start d offset n hpos (by omega) (by omega)
        rw [hnums, readLoop_eq hrem (by omega), Nat.add_zero, Nat.sub_zero]
  · intro hro hoff
    unfold writeNode
    rw [hcapacity, if_neg (by simp [hro]), if_neg (by omega)]
    simp only
    generalize hn : min buf.length ((content d).length - offset) = n
    split
    · rename_i h0
      subst h0
      exact ⟨d, rfl, rfl, rfl, rfl, by simp⟩
    · obtain ⟨m, hnums, hrem⟩ := @remaining_start d offset n hpos (by omega) (by omega)
      have hbuf : n ≤ buf.length := by omega
      obtain ⟨d', hloop, ⟨hsize, hcount, hro'⟩, hcont⟩ :=
        writeLoop_eq hrem hbuf hro length_replicate
      rw [hnums]
      exact ⟨d', hloop, hsize, hcount, hro', by rw [hcont]; rfl⟩

def twoBlocks : Disk := ⟨2, 2, false, fun n => if n = 0 then [1, 2] else [3, 4],
  fun n => by by_cases h : n = 0 <;> simp [h]⟩

theorem block_node_flat_two :
    readNode twoBlocks 1 [0, 0] = .ok (2, [2, 3]) ∧
      ∃ d', writeNode twoBlocks 1 [7, 8, 9, 10] = (.ok 3, d') ∧ content d' = [1, 7, 8, 9] := by
  obtain ⟨hread, -⟩ := block_node_flat twoBlocks 1 [0, 0] (by decide) (by decide)
  obtain ⟨-, hwrite⟩ := block_node_flat twoBlocks 1 [7, 8, 9, 10] (by decide) (by decide)
  obtain ⟨d', hw, -, -, -, hcont⟩ := hwrite rfl (by decide)
  exact ⟨hread, d', hw, hcont⟩

end Kerners.Fs
