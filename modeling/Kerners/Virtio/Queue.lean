import Kerners.Lib.Linked
import Kerners.Lib.Machine

/-!
# The split virtqueue (`src/virtio/queue.rs`)

A table of descriptors, an available ring from the driver to the device and a used ring back. Free
descriptors are linked through their `next` fields from `free_head`; `num_free` says how many there
are. A request takes descriptors from the front of that list and links them by the flag `NEXT`;
`poll_used` gives the chain of a completed request back.

* Sixteen-bit fields are natural numbers; the three ring indices wrap at `2^16` (`wrapping_add`),
  the others stay below the queue size.
* The table and the rings are functions of the index. `new_legacy` and `new_modern` lay them out in
  memory differently and initialise them in the same way.
* A buffer is its address and length.
-/

namespace Kerners.Virtio

open Lib Function List

/-! ## The data -/

inductive VirtIOError where
  | invalidMagic
  | unsupportedVersion
  | noDevice
  | featureNegotiationFailed
  | queueSetupFailed
  | ioError
  | bufferTooSmall
  | timeout
  deriving DecidableEq

structure VirtqDesc where
  addr : Nat
  len : Nat
  flags : Nat
  next : Nat
  deriving DecidableEq

structure VirtqUsedElem where
  id : Nat
  len : Nat
  deriving DecidableEq

structure Buf where
  addr : Nat
  len : Nat
  deriving DecidableEq

/-- `desc_flags::NEXT`. -/
def flagNext : Nat := 1

/-- `desc_flags::WRITE`. -/
def flagWrite : Nat := 2

/-- `flags & NEXT != 0`. -/
def hasNext (flags : Nat) : Bool := flags &&& flagNext != 0

/-- `x as u16`. -/
def asU16 (n : Nat) : Nat := n % 2 ^ 16

/-- `n -= 1` on a `u16`, which wraps at zero. -/
def decU16 (n : Nat) : Nat := if n = 0 then 2 ^ 16 - 1 else n - 1

theorem decU16_of_pos {n : Nat} (h : 0 < n) : decU16 n = n - 1 := if_neg (by omega)

/-- `Virtqueue`, with the memory it shares with the device. -/
structure Virtqueue where
  queueSize : Nat
  freeHead : Nat
  numFree : Nat
  lastUsedIdx : Nat
  desc : Nat → VirtqDesc
  availIdx : Nat
  availRing : Nat → Nat
  usedIdx : Nat
  usedRing : Nat → VirtqUsedElem

namespace Virtqueue

/-- The initialised queue: zeroed memory, all descriptors on the free list. -/
def ofSize (queueSize : Nat) : Virtqueue where
  queueSize := queueSize
  freeHead := 0
  numFree := queueSize
  lastUsedIdx := 0
  desc := fun i => ⟨0, 0, 0, if i + 1 < queueSize then i + 1 else 0⟩
  availIdx := 0
  availRing := fun _ => 0
  usedIdx := 0
  usedRing := fun _ => ⟨0, 0⟩

/-- `new_legacy`, `new_modern`: the queue for a device that reports `maxSize`. -/
def new (maxSize : Nat) : Except VirtIOError Virtqueue :=
  if maxSize = 0 then .error .queueSetupFailed else .ok (ofSize (min maxSize 256))

variable (vq : Virtqueue)

/-- A store to descriptor `i`. -/
def setDesc (i : Nat) (d : VirtqDesc) : Virtqueue := { vq with desc := update vq.desc i d }

def publish (head : Nat) : Virtqueue :=
  { vq with
    availRing := update vq.availRing (vq.availIdx % vq.queueSize) head
    availIdx := asU16 (vq.availIdx + 1) }

def addBuffer (buf : Buf) (write : Bool) : Except VirtIOError Nat × Virtqueue :=
  if vq.numFree = 0 then (.error .bufferTooSmall, vq)
  else
    let descIdx := vq.freeHead
    let vq := { vq with freeHead := (vq.desc descIdx).next, numFree := vq.numFree - 1 }
    let vq := vq.setDesc descIdx ⟨buf.addr, buf.len % 2 ^ 32, if write then flagWrite else 0, 0⟩
    (.ok descIdx, vq.publish descIdx)

/-- `(*self.desc_table.add(prev)).next = desc_idx` for the descriptor taken before. -/
def linkPrev (prevIdx : Option Nat) (descIdx : Nat) : Virtqueue :=
  match prevIdx with
  | none => vq
  | some prev => vq.setDesc prev { vq.desc prev with next := descIdx }

def addRead (prevIdx : Option Nat) (buf : Buf) : Virtqueue × Option Nat :=
  let descIdx := vq.freeHead
  let vq := { vq with freeHead := (vq.desc descIdx).next, numFree := decU16 vq.numFree }
  let vq := vq.setDesc descIdx ⟨buf.addr, buf.len % 2 ^ 32, flagNext, vq.freeHead⟩
  (vq.linkPrev prevIdx descIdx, some descIdx)

/-- One turn of the loop over the write buffers. The last one keeps the `next` it has. -/
def addWrite (prevIdx : Option Nat) (buf : Buf) (last : Bool) : Virtqueue × Option Nat :=
  let descIdx := vq.freeHead
  let stale := (vq.desc descIdx).next
  let vq := { vq with freeHead := stale, numFree := decU16 vq.numFree }
  let vq :=
    if last then vq.setDesc descIdx ⟨buf.addr, buf.len % 2 ^ 32, flagWrite, stale⟩
    else vq.setDesc descIdx ⟨buf.addr, buf.len % 2 ^ 32, flagWrite ||| flagNext, vq.freeHead⟩
  (vq.linkPrev prevIdx descIdx, some descIdx)

def addReads (vq : Virtqueue) (prevIdx : Option Nat) : List Buf → Virtqueue × Option Nat
  | [] => (vq, prevIdx)
  | buf :: rest =>
    let (vq, prevIdx) := vq.addRead prevIdx buf
    addReads vq prevIdx rest

def addWrites (vq : Virtqueue) (prevIdx : Option Nat) : List Buf → Virtqueue × Option Nat
  | [] => (vq, prevIdx)
  | buf :: rest =>
    let (vq, prevIdx) := vq.addWrite prevIdx buf rest.isEmpty
    addWrites vq prevIdx rest

def addBufferChain (readBufs writeBufs : List Buf) : Except VirtIOError Nat × Virtqueue :=
  let total := readBufs.length + writeBufs.length
  if total = 0 then (.error .bufferTooSmall, vq)
  else if vq.numFree < asU16 total then (.error .bufferTooSmall, vq)
  else
    let head := vq.freeHead
    let (vq, prevIdx) := vq.addReads none readBufs
    let (vq, _) := vq.addWrites prevIdx writeBufs
    (.ok head, vq.publish head)

/-- `free_descriptor_chain`, `none` if the loop does not end within the given number of turns. -/
def freeDescriptorChain (vq : Virtqueue) : Nat → Nat → Option Virtqueue
  | 0, _ => none
  | fuel + 1, head =>
    let d := vq.desc head
    let vq' := vq.setDesc head { d with next := vq.freeHead }
    let vq' := { vq' with freeHead := head, numFree := vq.numFree + 1 }
    if hasNext d.flags = true then freeDescriptorChain vq' fuel d.next else some vq'

/-- The element `poll_used` reads, if there is a new one. -/
def usedElem? : Option VirtqUsedElem :=
  if vq.lastUsedIdx = vq.usedIdx then none
  else some (vq.usedRing (vq.lastUsedIdx % vq.queueSize))

/-- `poll_used`; `none` if freeing the chain does not end. -/
def pollUsed : Option (Option (Nat × Nat) × Virtqueue) :=
  match vq.usedElem? with
  | none => some (none, vq)
  | some elem =>
    let vq := { vq with lastUsedIdx := asU16 (vq.lastUsedIdx + 1) }
    (vq.freeDescriptorChain vq.queueSize (asU16 elem.id)).map fun vq =>
      (some (asU16 elem.id, elem.len), vq)

/-- `pending_count`: `used_idx.wrapping_sub(last_used_idx)`. -/
def pendingCount : Nat := asU16 (vq.usedIdx + 2 ^ 16 - vq.lastUsedIdx)

/-- The `next` field. -/
def next (i : Nat) : Nat := (vq.desc i).next

/-- The flag `NEXT`. -/
def more (i : Nat) : Bool := hasNext (vq.desc i).flags

/-- The free list: `num_free` descriptors from `free_head`. -/
def freeList : List Nat := follow vq.next vq.numFree vq.freeHead

/-- The chain of a request: descriptors from its head along `NEXT`. -/
def chainOf (head : Nat) : Option (List Nat) := chain vq.more vq.next vq.queueSize head

end Virtqueue

/-! ## Taking descriptors -/

open List

section

variable {vq : Virtqueue} {prevIdx : Option Nat} {reads writes : List Buf}

/-- What both loops do with the first free descriptor: new contents, the same `next`. -/
def take (vq : Virtqueue) (buf : Buf) (flags : Nat) : Virtqueue :=
  { vq.setDesc vq.freeHead ⟨buf.addr, buf.len % 2 ^ 32, flags, (vq.desc vq.freeHead).next⟩ with
    freeHead := (vq.desc vq.freeHead).next
    numFree := vq.numFree - 1 }

/-- The descriptor taken before already points to the first free one. -/
def PointsToHead (vq : Virtqueue) (prevIdx : Option Nat) : Prop :=
  ∀ prev ∈ prevIdx, (vq.desc prev).next = vq.freeHead ∧ prev ≠ vq.freeHead

theorem linkPrev_setDesc (h : PointsToHead vq prevIdx) {v : Virtqueue} (hv : v.desc = vq.desc)
    (d : VirtqDesc) :
    (v.setDesc vq.freeHead d).linkPrev prevIdx vq.freeHead = v.setDesc vq.freeHead d := by
  cases prevIdx with
  | none => rfl
  | some prev =>
    obtain ⟨hn, hne⟩ := h prev rfl
    have hd : (v.setDesc vq.freeHead d).desc prev = vq.desc prev := by
      change update v.desc vq.freeHead d prev = _
      rw [update_of_ne hne, hv]
    have hself : { vq.desc prev with next := vq.freeHead } = vq.desc prev := by rw [← hn]
    unfold Virtqueue.linkPrev
    simp only
    rw [hd, hself, ← hd]
    unfold Virtqueue.setDesc
    simp only [update_eq_self]

theorem addRead_eq (h : PointsToHead vq prevIdx) (hpos : 0 < vq.numFree) (buf : Buf) :
    vq.addRead prevIdx buf = (take vq buf flagNext, some vq.freeHead) := by
  unfold Virtqueue.addRead
  rw [decU16_of_pos hpos]
  let v := { vq with freeHead := (vq.desc vq.freeHead).next, numFree := vq.numFree - 1 }
  exact congrArg (fun u => (u, some vq.freeHead)) (linkPrev_setDesc h (v := v) rfl _)

theorem addWrite_eq (h : PointsToHead vq prevIdx) (hpos : 0 < vq.numFree) (buf : Buf)
    (last : Bool) :
    vq.addWrite prevIdx buf last =
      (take vq buf (if last then flagWrite else flagWrite ||| flagNext), some vq.freeHead) := by
  unfold Virtqueue.addWrite
  rw [decU16_of_pos hpos]
  let v := { vq with freeHead := (vq.desc vq.freeHead).next, numFree := vq.numFree - 1 }
  cases last
  · exact congrArg (fun u => (u, some vq.freeHead)) (linkPrev_setDesc h (v := v) rfl _)
  · exact congrArg (fun u => (u, some vq.freeHead)) (linkPrev_setDesc h (v := v) rfl _)

/-- A buffer for each descriptor, with the flags the descriptor gets. -/
def takeAll (vq : Virtqueue) : List (Buf × Nat) → Virtqueue
  | [] => vq
  | (buf, flags) :: rest => takeAll (take vq buf flags) rest

/-- The flags of the write buffers: `NEXT` for all but the last. -/
def writeFlags : List Buf → List (Buf × Nat)
  | [] => []
  | [buf] => [(buf, flagWrite)]
  | buf :: rest => (buf, flagWrite ||| flagNext) :: writeFlags rest

def requestFlags (readBufs writeBufs : List Buf) : List (Buf × Nat) :=
  readBufs.map (·, flagNext) ++ writeFlags writeBufs

theorem take_next (buf : Buf) (flags i : Nat) : (take vq buf flags).next i = vq.next i := by
  change (update vq.desc vq.freeHead _ i).next = _
  rw [update_apply]
  split
  · rename_i h
    rw [h]
    rfl
  · rfl

theorem take_desc_of_ne {buf : Buf} {flags i : Nat} (h : i ≠ vq.freeHead) :
    (take vq buf flags).desc i = vq.desc i := update_of_ne h ..

theorem freeList_cons (h : 0 < vq.numFree) :
    vq.freeList = vq.freeHead :: follow vq.next (vq.numFree - 1) (vq.next vq.freeHead) := by
  unfold Virtqueue.freeList
  obtain ⟨n, hn⟩ := Nat.exists_eq_add_of_le' h
  rw [hn]
  rfl

theorem take_freeList (h : 0 < vq.numFree) (buf : Buf) (flags : Nat) :
    vq.freeList = vq.freeHead :: (take vq buf flags).freeList := by
  rw [freeList_cons h]
  congr 1
  exact (follow_congr fun i _ => take_next buf flags i).symm

theorem take_pointsToHead (h : 1 < vq.numFree) (hnd : vq.freeList.Nodup) (buf : Buf)
    (flags : Nat) : PointsToHead (take vq buf flags) (some vq.freeHead) := by
  rintro prev ⟨⟩
  refine ⟨take_next buf flags vq.freeHead, ?_⟩
  intro he
  rw [take_freeList (by omega) buf flags, nodup_cons] at hnd
  have hpos : 0 < (take vq buf flags).numFree := by
    change 0 < vq.numFree - 1
    omega
  rw [freeList_cons hpos] at hnd
  exact hnd.1 (he ▸ mem_cons_self)

theorem take_nodup (h : 0 < vq.numFree) (hnd : vq.freeList.Nodup) (buf : Buf) (flags : Nat) :
    (take vq buf flags).freeList.Nodup := by
  rw [take_freeList h buf flags] at hnd
  exact (nodup_cons.1 hnd).2

theorem addWrites_eq {bufs : List Buf} (hprev : bufs ≠ [] → PointsToHead vq prevIdx)
    (hlen : bufs.length ≤ vq.numFree) (hnd : vq.freeList.Nodup) :
    (vq.addWrites prevIdx bufs).1 = takeAll vq (writeFlags bufs) := by
  induction bufs generalizing vq prevIdx with
  | nil => rfl
  | cons buf rest ih =>
    have hpos : 0 < vq.numFree := Nat.lt_of_lt_of_le (by simp) hlen
    simp only [Virtqueue.addWrites, addWrite_eq (hprev (by simp)) hpos]
    have hw : writeFlags (buf :: rest) =
        (buf, if rest.isEmpty then flagWrite else flagWrite ||| flagNext) :: writeFlags rest := by
      cases rest <;> rfl
    rw [hw, takeAll]
    refine ih (fun hne => take_pointsToHead ?_ hnd _ _) ?_ (take_nodup hpos hnd _ _)
    · have := length_pos_iff.2 hne
      simp only [length_cons] at hlen
      omega
    · change rest.length ≤ vq.numFree - 1
      simp only [length_cons] at hlen
      omega

theorem addReads_eq (hprev : PointsToHead vq prevIdx)
    (hlen : reads.length + writes.length ≤ vq.numFree) (hnd : vq.freeList.Nodup) :
    ((vq.addReads prevIdx reads).1.addWrites (vq.addReads prevIdx reads).2 writes).1 =
      takeAll vq (requestFlags reads writes) := by
  induction reads generalizing vq prevIdx with
  | nil =>
    have hw : writes.length ≤ vq.numFree := by simpa using hlen
    exact addWrites_eq (fun _ => hprev) hw hnd
  | cons buf rest ih =>
    have hpos : 0 < vq.numFree := by simp only [length_cons] at hlen; omega
    simp only [Virtqueue.addReads, addRead_eq hprev hpos]
    change _ = takeAll (take vq buf flagNext) (requestFlags rest writes)
    by_cases hrest : rest.length + writes.length = 0
    · obtain ⟨hr, hw⟩ := Nat.add_eq_zero_iff.1 hrest
      rw [length_eq_zero_iff] at hr hw
      subst hr hw
      rfl
    · refine ih (take_pointsToHead ?_ hnd _ _) ?_ (take_nodup hpos hnd _ _)
      · simp only [length_cons] at hlen
        omega
      · change _ ≤ vq.numFree - 1
        simp only [length_cons] at hlen
        omega

def VirtqDesc.contents (d : VirtqDesc) : Nat × Nat × Nat := (d.addr, d.len, d.flags)

theorem takeAll_spec {l : List (Buf × Nat)} (hlen : l.length ≤ vq.numFree)
    (hnd : vq.freeList.Nodup) :
    (∀ i, (takeAll vq l).next i = vq.next i) ∧
      takeAll vq l = { vq with
        desc := (takeAll vq l).desc
        freeHead := (takeAll vq l).freeHead
        numFree := (takeAll vq l).numFree } ∧
      vq.freeList = follow vq.next l.length vq.freeHead ++ (takeAll vq l).freeList ∧
      (∀ i, i ∉ follow vq.next l.length vq.freeHead → (takeAll vq l).desc i = vq.desc i) ∧
      (follow vq.next l.length vq.freeHead).map (fun i => ((takeAll vq l).desc i).contents) =
        l.map (fun p => (p.1.addr, p.1.len % 2 ^ 32, p.2)) := by
  induction l generalizing vq with
  | nil => exact ⟨fun _ => rfl, rfl, rfl, fun _ _ => rfl, rfl⟩
  | cons p l ih =>
    obtain ⟨buf, flags⟩ := p
    have hpos : 0 < vq.numFree := Nat.lt_of_lt_of_le (by simp) hlen
    have hnd' := take_nodup hpos hnd buf flags
    have hlen' : l.length ≤ (take vq buf flags).numFree := by
      change _ ≤ vq.numFree - 1
      simp only [length_cons] at hlen
      omega
    obtain ⟨hnext, hrec, hfree, hother, hflags⟩ := ih hlen' hnd'
    have hfollow : follow (take vq buf flags).next l.length (take vq buf flags).freeHead =
        follow vq.next l.length (vq.next vq.freeHead) :=
      follow_congr fun i _ => (take_next buf flags i)
    rw [hfollow] at hfree hother hflags
    have hnot : vq.freeHead ∉ follow vq.next l.length (vq.next vq.freeHead) := by
      rw [take_freeList hpos buf flags, hfree] at hnd
      exact fun hm => (nodup_cons.1 hnd).1 (mem_append_left _ hm)
    refine ⟨fun i => (hnext i).trans (take_next buf flags i), hrec, ?_, ?_, ?_⟩
    · rw [take_freeList hpos buf flags, hfree]
      rfl
    · intro i hi
      rw [length_cons, follow, mem_cons, not_or] at hi
      exact (hother i hi.2).trans (take_desc_of_ne hi.1)
    · rw [length_cons, follow, map_cons, map_cons]
      refine congrArg₂ cons ?_ hflags
      change ((takeAll (take vq buf flags) l).desc vq.freeHead).contents = _
      rw [hother _ hnot]
      change (update vq.desc vq.freeHead _ vq.freeHead).contents = _
      rw [update_self]
      rfl

@[simp] theorem hasNext_next : hasNext flagNext = true := by decide

@[simp] theorem hasNext_write : hasNext flagWrite = false := by decide

@[simp] theorem hasNext_writeNext : hasNext (flagWrite ||| flagNext) = true := by decide

theorem length_writeFlags (bufs : List Buf) : (writeFlags bufs).length = bufs.length := by
  induction bufs with
  | nil => rfl
  | cons buf rest ih =>
    cases rest with
    | nil => rfl
    | cons b rest => simpa [writeFlags] using ih

theorem hasNext_requestFlags (hw : writes ≠ []) :
    (requestFlags reads writes).map (fun p => hasNext p.2) =
      replicate (reads.length + writes.length - 1) true ++ [false] := by
  have hwrites : (writeFlags writes).map (fun p => hasNext p.2) =
      replicate (writes.length - 1) true ++ [false] := by
    induction writes with
    | nil => exact absurd rfl hw
    | cons buf rest ih =>
      cases rest with
      | nil => simp [writeFlags]
      | cons b rest =>
        have hrest := ih (by simp)
        rw [writeFlags, map_cons, hrest, hasNext_writeNext]
        · rfl
        · simp
  have hpos := length_pos_iff.2 hw
  have hreads : (reads.map (·, flagNext)).map (fun p : Buf × Nat => hasNext p.2) =
      replicate reads.length true := by
    rw [map_map]
    simp only [Function.comp_def, hasNext_next]
    exact map_const' ..
  rw [requestFlags, map_append, hreads, hwrites, ← append_assoc,
    replicate_append_replicate, Nat.add_sub_assoc hpos]

theorem addBufferChain_eq (hpos : 0 < reads.length + writes.length)
    (hlen : reads.length + writes.length ≤ vq.numFree) (hnd : vq.freeList.Nodup)
    (hbig : reads.length + writes.length < 2 ^ 16) :
    vq.addBufferChain reads writes =
      (.ok vq.freeHead, (takeAll vq (requestFlags reads writes)).publish vq.freeHead) := by
  have hmod : asU16 (reads.length + writes.length) = reads.length + writes.length :=
    Nat.mod_eq_of_lt hbig
  unfold Virtqueue.addBufferChain
  simp only [hmod]
  rw [if_neg (by omega), if_neg (by omega)]
  rw [addReads_eq (by simp [PointsToHead]) hlen hnd]

theorem length_requestFlags (reads writes : List Buf) :
    (requestFlags reads writes).length = reads.length + writes.length := by
  simp [requestFlags, length_writeFlags]

theorem addBufferChain_spec (hw : writes ≠ []) (hlen : reads.length + writes.length ≤ vq.numFree)
    (hnd : vq.freeList.Nodup) (hbig : reads.length + writes.length < 2 ^ 16) :
    ∃ (vq' : Virtqueue) (taken : List Nat),
      vq.addBufferChain reads writes = (.ok vq.freeHead, vq'.publish vq.freeHead) ∧
      vq' = { vq with desc := vq'.desc, freeHead := vq'.freeHead, numFree := vq'.numFree } ∧
      vq.freeList = taken ++ vq'.freeList ∧ taken.head? = some vq.freeHead ∧
      Chained vq'.more vq'.next taken ∧
      (∀ i, i ∉ taken → vq'.desc i = vq.desc i) := by
  obtain ⟨n, hn⟩ := Nat.exists_eq_add_of_le'
    (show 1 ≤ reads.length + writes.length by have := length_pos_iff.2 hw; omega)
  have hl : (requestFlags reads writes).length = n + 1 := (length_requestFlags ..).trans hn
  have hfits : (requestFlags reads writes).length ≤ vq.numFree := by omega
  obtain ⟨hnext, hrec, hfree, hother, hflags⟩ := takeAll_spec hfits hnd
  refine ⟨takeAll vq (requestFlags reads writes), follow vq.next (n + 1) vq.freeHead, ?_, hrec,
    hl ▸ hfree, rfl, ?_, hl ▸ hother⟩
  · exact addBufferChain_eq (by omega) hlen hnd hbig
  · have hsame : follow (takeAll vq (requestFlags reads writes)).next (n + 1) vq.freeHead =
        follow vq.next (n + 1) vq.freeHead := follow_congr fun i _ => hnext i
    rw [← hsame]
    refine chained_follow ?_
    have hmap := congrArg (map fun d : Nat × Nat × Nat => hasNext d.2.2) hflags
    rw [hl, map_map, map_map] at hmap
    rw [hsame]
    refine hmap.trans ((hasNext_requestFlags hw).trans ?_)
    rw [hn]
    rfl

end

/-! ## Giving descriptors back -/

section

variable {vq : Virtqueue} {x : Nat}

def release (vq : Virtqueue) (x : Nat) : Virtqueue :=
  { vq.setDesc x { vq.desc x with next := vq.freeHead } with
    freeHead := x
    numFree := vq.numFree + 1 }

theorem release_desc_of_ne {i : Nat} (h : i ≠ x) : (release vq x).desc i = vq.desc i :=
  update_of_ne h ..

theorem release_freeList (h : x ∉ vq.freeList) : (release vq x).freeList = x :: vq.freeList := by
  have hnext : (release vq x).next x = vq.freeHead := by
    change (update vq.desc x _ x).next = _
    rw [update_self]
  unfold Virtqueue.freeList
  rw [show (release vq x).numFree = vq.numFree + 1 from rfl,
    show (release vq x).freeHead = x from rfl, follow, hnext]
  congr 1
  refine follow_congr fun i hi => congrArg VirtqDesc.next (release_desc_of_ne ?_)
  rintro rfl
  exact h hi

theorem freeDescriptorChain_spec {c : List Nat} {fuel : Nat} (hc : Chained vq.more vq.next (x :: c))
    (hnd : (x :: c).Nodup) (hdis : ∀ i ∈ x :: c, i ∉ vq.freeList) (hfuel : (x :: c).length ≤ fuel) :
    ∃ vq', vq.freeDescriptorChain fuel x = some vq' ∧
      vq'.freeList = (x :: c).reverse ++ vq.freeList ∧
      (∀ i, i ∉ x :: c → vq'.desc i = vq.desc i) ∧
      vq' = { vq with desc := vq'.desc, freeHead := vq'.freeHead, numFree := vq'.numFree } := by
  obtain ⟨fuel, rfl⟩ := Nat.exists_eq_add_of_le' (show 1 ≤ fuel by simp at hfuel; omega)
  have hfree := release_freeList (hdis x mem_cons_self)
  induction c generalizing vq x fuel with
  | nil =>
    have hm : ¬ hasNext (vq.desc x).flags = true := by
      rw [Bool.not_eq_true]
      exact hc
    refine ⟨release vq x, ?_, hfree, ?_, rfl⟩
    · rw [Virtqueue.freeDescriptorChain]
      exact if_neg hm
    · exact fun i hi => release_desc_of_ne (by simpa using hi)
  | cons y c ih =>
    obtain ⟨hm, hn, hrest⟩ := hc
    have hxc : x ∉ y :: c := (nodup_cons.1 hnd).1
    have hstep : vq.freeDescriptorChain (fuel + 1) x =
        (release vq x).freeDescriptorChain fuel y := by
      rw [Virtqueue.freeDescriptorChain, ← hn]
      exact if_pos hm
    have hsame : ∀ i ∈ y :: c, (release vq x).desc i = vq.desc i := fun i hi =>
      release_desc_of_ne fun he => hxc (he ▸ hi)
    have hrest' : Chained (release vq x).more (release vq x).next (y :: c) :=
      hrest.congr fun i hi => ⟨congrArg (fun d : VirtqDesc => hasNext d.flags) (hsame i hi),
        congrArg VirtqDesc.next (hsame i hi)⟩
    have hdis' : ∀ i ∈ y :: c, i ∉ (release vq x).freeList := by
      intro i hi hm
      rw [hfree] at hm
      rcases mem_cons.1 hm with rfl | hm
      · exact hxc hi
      · exact hdis i (mem_cons_of_mem _ hi) hm
    obtain ⟨fuel, rfl⟩ := Nat.exists_eq_add_of_le' (show 1 ≤ fuel by simp at hfuel; omega)
    obtain ⟨vq', hrun, hlist, hother, hrec⟩ := ih hrest' (nodup_cons.1 hnd).2 hdis'
      fuel (by simp at hfuel ⊢; omega) (release_freeList (hdis' y mem_cons_self))
    refine ⟨vq', hstep.trans hrun, ?_, ?_, ?_⟩
    · rw [hlist, hfree]
      simp
    · intro i hi
      rw [mem_cons, not_or] at hi
      exact (hother i hi.2).trans (release_desc_of_ne hi.1)
    · rw [hrec]
      rfl

end

/-! ## The partition of the table -/

/-- The free list and the chains of the outstanding requests hold every descriptor once. `tail h` is
the chain of `h` without its head. -/
structure Partition (vq : Virtqueue) (heads : List Nat) (tail : Nat → List Nat) : Prop where
  chained : ∀ h ∈ heads, Chained vq.more vq.next (h :: tail h)
  perm : (vq.freeList ++ heads.flatMap fun h => h :: tail h).Perm (List.range vq.queueSize)

/-- Apart from the table and the free list, only the available ring has changed: it has the first
free descriptor as a new entry. -/
def Published (vq vq' : Virtqueue) : Prop :=
  vq' = { vq with
    desc := vq'.desc
    freeHead := vq'.freeHead
    numFree := vq'.numFree
    availRing := update vq.availRing (vq.availIdx % vq.queueSize) vq.freeHead
    availIdx := asU16 (vq.availIdx + 1) }

namespace Partition

variable {vq vq' : Virtqueue} {heads : List Nat} {tail : Nat → List Nat} {x : Nat}

theorem nodup (h : Partition vq heads tail) :
    (vq.freeList ++ heads.flatMap fun h => h :: tail h).Nodup :=
  h.perm.nodup_iff.2 nodup_range

theorem nodup_free (h : Partition vq heads tail) : vq.freeList.Nodup :=
  (nodup_append.1 h.nodup).1

theorem mem_chains {i : Nat} (hx : x ∈ heads) (hi : i ∈ x :: tail x) :
    i ∈ heads.flatMap fun h => h :: tail h := mem_flatMap.2 ⟨x, hx, hi⟩

theorem not_free (h : Partition vq heads tail) {i : Nat} (hx : x ∈ heads) (hi : i ∈ x :: tail x) :
    i ∉ vq.freeList := fun hf =>
  (nodup_append.1 h.nodup).2.2 i hf i (mem_chains hx hi) rfl

theorem mem_lt (h : Partition vq heads tail) (hx : x ∈ heads) : x < vq.queueSize :=
  mem_range.1 (h.perm.mem_iff.1 (mem_append_right _ (mem_chains hx mem_cons_self)))

theorem length_chain (h : Partition vq heads tail) (hx : x ∈ heads) :
    (x :: tail x).length ≤ vq.queueSize := by
  have hsub : (x :: tail x).Sublist (heads.flatMap fun h => h :: tail h) := by
    obtain ⟨l, r, rfl⟩ := append_of_mem hx
    rw [flatMap_append, flatMap_cons]
    exact (sublist_append_left _ _).trans (sublist_append_right _ _)
  have hlen := h.perm.length_eq
  have hle := hsub.length_le
  rw [length_append, length_range] at hlen
  omega

theorem length_heads (h : Partition vq heads tail) : vq.numFree + heads.length ≤ vq.queueSize := by
  have hle : heads.length ≤ (heads.flatMap fun h => h :: tail h).length := by
    clear h
    induction heads with
    | nil => exact Nat.zero_le _
    | cons x heads ih =>
      rw [flatMap_cons, length_append, length_cons, length_cons]
      omega
  have hlen := h.perm.length_eq
  rw [length_append, length_range, Virtqueue.freeList, length_follow] at hlen
  omega

theorem chainOf_eq (h : Partition vq heads tail) (hx : x ∈ heads) :
    vq.chainOf x = some (x :: tail x) := (h.chained x hx).chain_eq (h.length_chain hx)

theorem start (n : Nat) (tail : Nat → List Nat) : Partition (.ofSize n) [] tail := by
  refine ⟨by simp, ?_⟩
  rw [flatMap_nil, append_nil]
  have hfollow : ∀ k a, a + k = n →
      follow (fun i => if i + 1 < n then i + 1 else 0) k a = range' a k := by
    intro k
    induction k with
    | zero => exact fun _ _ => rfl
    | succ k ih =>
      intro a ha
      rw [follow, range'_succ]
      cases k with
      | zero => rfl
      | succ k => rw [if_pos (by omega), ih (a + 1) (by omega)]
  have hlist := hfollow n 0 (Nat.zero_add n)
  rw [← range_eq_range'] at hlist
  exact List.Perm.of_eq hlist

theorem taken (h : Partition vq heads tail) {c : List Nat}
    (hfree : vq.freeList = (x :: c) ++ vq'.freeList) (hsize : vq'.queueSize = vq.queueSize)
    (hchain : Chained vq'.more vq'.next (x :: c))
    (hother : ∀ i, i ∉ x :: c → vq'.desc i = vq.desc i) :
    Partition vq' (heads ++ [x]) (update tail x c) := by
  have hmem : ∀ i ∈ x :: c, i ∈ vq.freeList := fun i hi => hfree ▸ mem_append_left _ hi
  have htail : ∀ y ∈ heads, update tail x c y = tail y := by
    intro y hy
    refine update_of_ne ?_ ..
    rintro rfl
    exact h.not_free hy mem_cons_self (hmem y mem_cons_self)
  refine ⟨?_, ?_⟩
  · intro y hy
    rcases mem_append.1 hy with hy | hy
    · rw [htail y hy]
      refine (h.chained y hy).congr fun i hi => ?_
      have hsame := hother i fun hc => h.not_free hy hi (hmem i hc)
      exact ⟨congrArg (fun d : VirtqDesc => hasNext d.flags) hsame,
        congrArg VirtqDesc.next hsame⟩
    · obtain rfl := mem_singleton.1 hy
      rwa [update_self]
  · have hold : heads.flatMap (fun y => y :: update tail x c y) =
        heads.flatMap fun y => y :: tail y :=
      flatMap_congr fun y hy => by rw [htail y hy]
    rw [flatMap_append, hold, flatMap_cons, flatMap_nil, append_nil, update_self, hsize]
    refine List.Perm.trans ?_ h.perm
    rw [hfree, ← append_assoc]
    refine perm_append_comm.trans ?_
    rw [← append_assoc]

theorem returned (h : Partition vq heads tail) (hx : x ∈ heads)
    (hfree : vq'.freeList = (x :: tail x).reverse ++ vq.freeList)
    (hsize : vq'.queueSize = vq.queueSize)
    (hother : ∀ i, i ∉ x :: tail x → vq'.desc i = vq.desc i) :
    Partition vq' (heads.erase x) tail := by
  have hperm : (heads.flatMap fun y => y :: tail y).Perm
      ((x :: tail x) ++ (heads.erase x).flatMap fun y => y :: tail y) :=
    (perm_cons_erase hx).flatMap_right _
  have hnd := (hperm.nodup_iff.1 (nodup_append.1 h.nodup).2.1)
  refine ⟨?_, ?_⟩
  · intro y hy
    refine (h.chained y (mem_of_mem_erase hy)).congr fun i hi => ?_
    have hsame := hother i fun hc =>
      (nodup_append.1 hnd).2.2 i hc i (mem_chains hy hi) rfl
    exact ⟨congrArg (fun d : VirtqDesc => hasNext d.flags) hsame,
      congrArg VirtqDesc.next hsame⟩
  · rw [hfree, hsize, append_assoc]
    refine List.Perm.trans ?_ h.perm
    refine ((reverse_perm _).append_right _).trans ?_
    refine perm_append_comm_assoc .. |>.trans ?_
    exact hperm.symm.append_left _

theorem addBuffer (h : Partition vq heads tail) (hfree : 0 < vq.numFree) (buf : Buf)
    (write : Bool) :
    (vq.addBuffer buf write).1 = .ok vq.freeHead ∧
    Partition (vq.addBuffer buf write).2 (heads ++ [vq.freeHead]) (update tail vq.freeHead []) ∧
    Published vq (vq.addBuffer buf write).2 := by
  have hnd := h.nodup_free
  rw [freeList_cons hfree, nodup_cons] at hnd
  have hother : ∀ i, i ≠ vq.freeHead → (vq.addBuffer buf write).2.desc i = vq.desc i := by
    intro i hi
    rw [Virtqueue.addBuffer, if_neg (by omega)]
    exact update_of_ne hi ..
  refine ⟨by rw [Virtqueue.addBuffer, if_neg (by omega)], h.taken ?_ ?_ ?_ ?_, ?_⟩
  · rw [freeList_cons hfree, singleton_append]
    congr 1
    have hsame : follow (vq.addBuffer buf write).2.next (vq.numFree - 1) (vq.next vq.freeHead) =
        follow vq.next (vq.numFree - 1) (vq.next vq.freeHead) :=
      follow_congr fun i hi => congrArg VirtqDesc.next (hother i fun he => hnd.1 (he ▸ hi))
    rw [← hsame, Virtqueue.addBuffer, if_neg (by omega)]
    rfl
  · rw [Virtqueue.addBuffer, if_neg (by omega)]
    rfl
  · rw [Virtqueue.addBuffer, if_neg (by omega)]
    change hasNext (update vq.desc vq.freeHead _ vq.freeHead).flags = false
    rw [update_self]
    cases write
    · exact (by decide : hasNext 0 = false)
    · exact hasNext_write
  · exact fun i hi => hother i (by simpa using hi)
  · rw [Virtqueue.addBuffer, if_neg (by omega)]
    rfl

theorem addBufferChain (h : Partition vq heads tail) {reads writes : List Buf} (hw : writes ≠ [])
    (hbig : reads.length + writes.length < 2 ^ 16)
    (hfree : reads.length + writes.length ≤ vq.numFree) :
    ∃ c, (vq.addBufferChain reads writes).1 = .ok vq.freeHead ∧
      Partition (vq.addBufferChain reads writes).2 (heads ++ [vq.freeHead])
        (update tail vq.freeHead c) ∧
      Published vq (vq.addBufferChain reads writes).2 := by
  obtain ⟨vq', taken, heq, hrec, hlist, hhead, hchain, hother⟩ :=
    addBufferChain_spec hw hfree h.nodup_free hbig
  obtain ⟨c, rfl⟩ : ∃ c, taken = vq.freeHead :: c := by
    cases taken with
    | nil => exact absurd hhead (by simp)
    | cons x c => exact ⟨c, by rw [Option.some.inj hhead]⟩
  have hsize : vq'.queueSize = vq.queueSize := by rw [hrec]
  have hpart := h.taken hlist hsize hchain hother
  refine ⟨c, by rw [heq], ?_, ?_⟩
  · rw [heq]
    exact ⟨hpart.chained, hpart.perm⟩
  · rw [heq, hrec]
    rfl

theorem pollUsed (h : Partition vq heads tail) {elem : VirtqUsedElem}
    (helem : vq.usedElem? = some elem) (hx : asU16 elem.id ∈ heads) :
    ∃ vq', vq.pollUsed = some (some (asU16 elem.id, elem.len), vq') ∧
      Partition vq' (heads.erase (asU16 elem.id)) tail ∧
      vq' = { vq with
        desc := vq'.desc
        freeHead := vq'.freeHead
        numFree := vq'.numFree
        lastUsedIdx := asU16 (vq.lastUsedIdx + 1) } := by
  have hnd : (asU16 elem.id :: tail (asU16 elem.id)).Nodup := by
    have hall := (nodup_append.1 h.nodup).2.1
    rw [nodup_flatMap] at hall
    exact hall.1 _ hx
  let v := { vq with lastUsedIdx := asU16 (vq.lastUsedIdx + 1) }
  obtain ⟨vq', hrun, hlist, hother, hrec⟩ :=
    freeDescriptorChain_spec (show Chained v.more v.next _ from h.chained _ hx) hnd
      (fun i hi => h.not_free hx hi) (h.length_chain hx)
  refine ⟨vq', ?_, h.returned hx hlist ?_ hother, hrec⟩
  · unfold Virtqueue.pollUsed
    rw [helem]
    exact congrArg (Option.map _) hrun
  · rw [hrec]

end Partition

/-! ## Runs -/

structure Requests where
  vq : Virtqueue
  outstanding : List Nat

namespace Requests

def add (s : Requests) (r : Except VirtIOError Nat × Virtqueue) : Requests :=
  ⟨r.2, match r.1 with
    | .ok head => s.outstanding ++ [head]
    | .error _ => s.outstanding⟩

def polled (s : Requests) (r : Option (Nat × Nat) × Virtqueue) : Requests :=
  ⟨r.2, match r.1 with
    | some (head, _) => s.outstanding.erase head
    | none => s.outstanding⟩

/-- What the device owes the driver: the next element it has returned, if any, names a request that
is outstanding. A head leaves `outstanding` with the poll that reads it, so it is returned once. -/
def Returned (s : Requests) : Prop :=
  ∀ elem, s.vq.usedElem? = some elem → asU16 elem.id ∈ s.outstanding

end Requests

inductive AddCall (vq : Virtqueue) : Except VirtIOError Nat × Virtqueue → Prop
  | addBuffer (buf : Buf) (write : Bool) : AddCall vq (vq.addBuffer buf write)
  | addBufferChain (reads writes : List Buf) (hw : writes ≠ [])
      (hbig : reads.length + writes.length < 2 ^ 16) :
      AddCall vq (vq.addBufferChain reads writes)

inductive QueueStep : Requests → Requests → Prop
  | add (s : Requests) (r : Except VirtIOError Nat × Virtqueue) (hr : AddCall s.vq r) :
      QueueStep s (s.add r)
  | device (s : Requests) (usedIdx : Nat) (usedRing : Nat → VirtqUsedElem) :
      QueueStep s { s with vq := { s.vq with usedIdx := usedIdx, usedRing := usedRing } }
  | pollUsed (s : Requests) (r : Option (Nat × Nat) × Virtqueue) (hdev : s.Returned)
      (hr : s.vq.pollUsed = some r) : QueueStep s (s.polled r)

variable {vq : Virtqueue} {s s' : Requests} {tail : Nat → List Nat}

theorem new_eq_ok {maxSize : Nat} (h : Virtqueue.new maxSize = .ok vq) :
    Virtqueue.ofSize (min maxSize 256) = vq := by
  unfold Virtqueue.new at h
  split at h
  · exact absurd h (by simp)
  · exact Except.ok.inj h

theorem addBuffer_error {buf : Buf} {write : Bool} {e : VirtIOError}
    (h : (vq.addBuffer buf write).1 = .error e) : (vq.addBuffer buf write).2 = vq := by
  unfold Virtqueue.addBuffer at h ⊢
  split
  · rfl
  · rename_i hfree
    rw [if_neg hfree] at h
    exact absurd h (by simp)

theorem addBufferChain_error {reads writes : List Buf} {e : VirtIOError}
    (h : (vq.addBufferChain reads writes).1 = .error e) :
    (vq.addBufferChain reads writes).2 = vq := by
  by_cases htotal : reads.length + writes.length = 0
  · exact congrArg Prod.snd (if_pos htotal)
  · by_cases hfree : vq.numFree < asU16 (reads.length + writes.length)
    · exact congrArg Prod.snd ((if_neg htotal).trans (if_pos hfree))
    · have hok : (vq.addBufferChain reads writes).1 = .ok vq.freeHead :=
        congrArg Prod.fst ((if_neg htotal).trans (if_neg hfree))
      exact absurd (hok.symm.trans h) (by simp)

theorem pollUsed_none (h : vq.usedElem? = none) : vq.pollUsed = some (none, vq) := by
  unfold Virtqueue.pollUsed
  rw [h]

theorem pollUsed_returns (h : Partition s.vq s.outstanding tail) (hdev : s.Returned) :
    ∃ r, s.vq.pollUsed = some r := by
  cases he : s.vq.usedElem? with
  | none => exact ⟨_, pollUsed_none he⟩
  | some elem =>
    obtain ⟨vq', hr, _⟩ := h.pollUsed he (hdev elem he)
    exact ⟨_, hr⟩

namespace Partition

variable {heads : List Nat}

theorem addCall {r : Except VirtIOError Nat × Virtqueue} (h : Partition vq heads tail)
    (hr : AddCall vq r) :
    (∃ e, r = (.error e, vq)) ∨
    r.1 = .ok vq.freeHead ∧
    (∃ tail', Partition r.2 (heads ++ [vq.freeHead]) tail') ∧
    Published vq r.2 := by
  cases hr with
  | addBuffer buf write =>
    by_cases hfree : 0 < vq.numFree
    · obtain ⟨hok, hpart, hpub⟩ := h.addBuffer hfree buf write
      exact .inr ⟨hok, ⟨_, hpart⟩, hpub⟩
    · exact .inl ⟨_, if_pos (by omega)⟩
  | addBufferChain reads writes hw hbig =>
    by_cases hfree : reads.length + writes.length ≤ vq.numFree
    · obtain ⟨c, hok, hpart, hpub⟩ := h.addBufferChain hw hbig hfree
      exact .inr ⟨hok, ⟨_, hpart⟩, hpub⟩
    · have hpos := length_pos_iff.2 hw
      have hmod : asU16 (reads.length + writes.length) = reads.length + writes.length :=
        Nat.mod_eq_of_lt hbig
      exact .inl ⟨_, (if_neg (by omega)).trans (if_pos (by omega))⟩

theorem step (h : Partition s.vq s.outstanding tail) (hs : QueueStep s s') :
    ∃ tail', Partition s'.vq s'.outstanding tail' := by
  cases hs with
  | add r hr =>
    rcases h.addCall hr with ⟨e, rfl⟩ | ⟨hok, hpart, _⟩
    · exact ⟨tail, h⟩
    · unfold Requests.add
      rwa [hok]
  | device usedIdx usedRing => exact ⟨tail, h.chained, h.perm⟩
  | pollUsed r hdev hr =>
    cases he : s.vq.usedElem? with
    | none =>
      rw [pollUsed_none he] at hr
      obtain rfl := Option.some.inj hr
      exact ⟨tail, h⟩
    | some elem =>
      obtain ⟨vq', hr', hpart, _⟩ := h.pollUsed he (hdev elem he)
      obtain rfl := Option.some.inj (hr'.symm.trans hr)
      exact ⟨tail, hpart⟩

end Partition

/-- The free list and the chains of the outstanding requests, as the code follows them, hold every
descriptor exactly once. -/
structure Partitioned (s : Requests) : Prop where
  chains : ∀ head ∈ s.outstanding, ∃ c, s.vq.chainOf head = some c
  once : (s.vq.freeList ++ s.outstanding.flatMap fun head => (s.vq.chainOf head).getD []).Perm
    (List.range s.vq.queueSize)

theorem Partition.partitioned (h : Partition s.vq s.outstanding tail) : Partitioned s := by
  refine ⟨fun head hh => ⟨_, h.chainOf_eq hh⟩, ?_⟩
  have hsame : (s.outstanding.flatMap fun head => (s.vq.chainOf head).getD []) =
      s.outstanding.flatMap fun head => head :: tail head :=
    flatMap_congr fun head hh => by rw [h.chainOf_eq hh, Option.getD_some]
  rw [hsame]
  exact h.perm

/-- **No descriptor is lost and none is used twice**, in every run from a new queue of any size. -/
theorem descriptors_partitioned {maxSize : Nat} (hnew : Virtqueue.new maxSize = .ok vq)
    (h : Reach QueueStep ⟨vq, []⟩ s) :
    Partitioned s ∧ (s.Returned → ∃ r, s.vq.pollUsed = some r) ∧
      (∀ buf write e, (s.vq.addBuffer buf write).1 = .error e →
        (s.vq.addBuffer buf write).2 = s.vq) ∧
      ∀ reads writes e, (s.vq.addBufferChain reads writes).1 = .error e →
        (s.vq.addBufferChain reads writes).2 = s.vq := by
  have hstart : Virtqueue.ofSize (min maxSize 256) = vq := new_eq_ok hnew
  have hinv : ∃ tail, Partition s.vq s.outstanding tail :=
    h.invariant (P := fun s => ∃ tail, Partition s.vq s.outstanding tail)
      ⟨fun _ => [], hstart ▸ Partition.start _ _⟩ (fun ⟨_, hp⟩ hs => hp.step hs)
  obtain ⟨tail, hp⟩ := hinv
  exact ⟨hp.partitioned, pollUsed_returns hp, fun _ _ _ => addBuffer_error,
    fun _ _ _ => addBufferChain_error⟩

theorem descriptors_partitioned_second_first :
    ∃ s, Reach QueueStep ⟨.ofSize 4, []⟩ s ∧ s.outstanding = [0] ∧ s.vq.freeList = [3, 2] ∧
      Partitioned s := by
  let s0 : Requests := ⟨.ofSize 4, []⟩
  let s1 := s0.add (s0.vq.addBufferChain [⟨0, 16⟩] [⟨16, 1⟩])
  let s2 := s1.add (s1.vq.addBufferChain [⟨32, 16⟩] [⟨48, 1⟩])
  let s3 : Requests := { s2 with vq := { s2.vq with usedIdx := 1, usedRing := fun _ => ⟨2, 1⟩ } }
  have h1 : Reach QueueStep s0 s1 :=
    Reach.refl.tail (.add s0 _ (.addBufferChain _ _ (by simp) (by decide)))
  have h2 : Reach QueueStep s0 s2 :=
    h1.tail (.add s1 _ (.addBufferChain _ _ (by simp) (by decide)))
  have h3 : Reach QueueStep s0 s3 := h2.tail (QueueStep.device s2 _ _)
  have hdev : s3.Returned := fun elem he => Option.some.inj he ▸ (by decide : 2 ∈ [0, 2])
  have hpoll : s3.vq.pollUsed.map (fun r => (r.1, r.2.freeList)) =
      some (some (2, 1), [3, 2]) := by decide
  obtain ⟨r, hr, hval⟩ := Option.map_eq_some_iff.1 hpoll
  have h4 := h3.tail (QueueStep.pollUsed s3 r hdev hr)
  have hnew : Virtqueue.new 4 = .ok (.ofSize 4) := rfl
  refine ⟨_, h4, ?_, congrArg Prod.snd hval, (descriptors_partitioned hnew h4).1⟩
  rw [Requests.polled, show r.1 = some (2, 1) from congrArg Prod.fst hval]
  rfl

end Kerners.Virtio
