import Mathlib.Data.List.Perm.Subperm
import Kerners.Virtio.Queue

/-!
# The shape of an accepted chain (`src/virtio/queue.rs`, `add_buffer_chain`)

`add_buffer_chain` is asked for a chain of descriptors, first the buffers the device reads and then
those it writes. `Shaped` says that the device finds exactly that chain behind the returned head.

* The two loops set `NEXT` differently: every read descriptor gets it, the last write descriptor does
  not. A request without write buffers therefore never ends its chain.
* The test for room compares `num_free` with `total as u16`, so a request of `2 ^ 16` buffers or more
  can pass it; a descriptor holds the length of its buffer as a `u32`.
-/

namespace Kerners.Virtio

open Lib List

variable {vq vq' : Virtqueue} {reads writes : List Buf}

/-- `flags & WRITE != 0`. -/
def hasWrite (flags : Nat) : Bool := flags &&& flagWrite != 0

@[simp] theorem hasWrite_next : hasWrite flagNext = false := by decide

@[simp] theorem hasWrite_write : hasWrite flagWrite = true := by decide

@[simp] theorem hasWrite_writeNext : hasWrite (flagWrite ||| flagNext) = true := by decide

/-- The free list holds `num_free` different descriptors of the table. -/
structure FreeListOk (vq : Virtqueue) : Prop where
  nodup : vq.freeList.Nodup
  inTable : ∀ i ∈ vq.freeList, i < vq.queueSize
  size : vq.queueSize < 2 ^ 16

theorem Partition.freeListOk {heads : List Nat} {tail : Nat → List Nat}
    (h : Partition vq heads tail) (hsize : vq.queueSize < 2 ^ 16) : FreeListOk vq where
  nodup := h.nodup_free
  inTable _ hi := mem_range.1 (h.perm.mem_iff.1 (mem_append_left _ hi))
  size := hsize

open Virtqueue

open List

theorem FreeListOk.numFree_le (h : FreeListOk vq) : vq.numFree ≤ vq.queueSize := by
  have hsub : vq.freeList ⊆ range vq.queueSize :=
    fun i hi => mem_range.2 (h.inTable i hi)
  have hle := (h.nodup.subperm hsub).length_le
  rwa [length_range, freeList, length_follow] at hle

/-- The chain `c` from `head` in `vq'` is the one requested of `vq`. -/
structure Shaped (vq vq' : Virtqueue) (head : Nat) (reads writes : List Buf) (c : List Nat) :
    Prop where
  visits : vq'.chainOf head = some c
  distinct : c.Nodup
  count : c.length = reads.length + writes.length
  buffers : c.map (fun i => ((vq'.desc i).addr, (vq'.desc i).len)) =
    (reads ++ writes).map (fun b => (b.addr, b.len))
  writable : c.map (fun i => hasWrite (vq'.desc i).flags) =
    List.replicate reads.length false ++ List.replicate writes.length true
  free : vq'.numFree + (reads.length + writes.length) = vq.numFree

/-! ## What a request leaves in the table -/

theorem map_fst_writeFlags (bufs : List Buf) : (writeFlags bufs).map Prod.fst = bufs := by
  induction bufs with
  | nil => rfl
  | cons buf rest ih =>
    cases rest with
    | nil => rfl
    | cons b rest => simpa [writeFlags] using ih

theorem map_hasWrite_writeFlags (bufs : List Buf) :
    (writeFlags bufs).map (fun p => hasWrite p.2) = replicate bufs.length true := by
  induction bufs with
  | nil => rfl
  | cons buf rest ih =>
    cases rest with
    | nil => simp [writeFlags]
    | cons b rest => simpa [writeFlags, replicate_succ] using ih

theorem map_hasWrite_requestFlags (reads writes : List Buf) :
    (requestFlags reads writes).map (fun p => hasWrite p.2) =
      replicate reads.length false ++ replicate writes.length true := by
  rw [requestFlags, map_append, map_hasWrite_writeFlags, map_map]
  simp only [Function.comp_def, hasWrite_next]
  rw [map_const']

def taken (vq : Virtqueue) (reads writes : List Buf) : List Nat :=
  follow vq.next (reads.length + writes.length) vq.freeHead

def loaded (vq : Virtqueue) (reads writes : List Buf) : Virtqueue :=
  takeAll vq (requestFlags reads writes)

theorem loaded_spec (hnd : vq.freeList.Nodup)
    (hlen : reads.length + writes.length ≤ vq.numFree) :
    (∀ i, (loaded vq reads writes).next i = vq.next i) ∧
      vq.freeList = taken vq reads writes ++ (loaded vq reads writes).freeList ∧
      (loaded vq reads writes).queueSize = vq.queueSize ∧
      (taken vq reads writes).map (fun i => ((loaded vq reads writes).desc i).contents) =
        (requestFlags reads writes).map (fun p => (p.1.addr, p.1.len % 2 ^ 32, p.2)) := by
  have hl := length_requestFlags reads writes
  obtain ⟨hnext, hrec, hfree, _, hcont⟩ :=
    takeAll_spec (l := requestFlags reads writes) (by omega) hnd
  rw [hl] at hfree hcont
  have hsize : (loaded vq reads writes).queueSize = vq.queueSize := by
    unfold loaded
    rw [hrec]
  exact ⟨hnext, hfree, hsize, hcont⟩

theorem loaded_buffers (hnd : vq.freeList.Nodup)
    (hlen : reads.length + writes.length ≤ vq.numFree) :
    (taken vq reads writes).map (fun i => (((loaded vq reads writes).desc i).addr,
        ((loaded vq reads writes).desc i).len)) =
      (reads ++ writes).map (fun b => (b.addr, b.len % 2 ^ 32)) := by
  obtain ⟨_, _, _, hcont⟩ := loaded_spec hnd hlen
  have hmap := congrArg (map fun d : Nat × Nat × Nat => (d.1, d.2.1)) hcont
  rw [map_map, map_map] at hmap
  have hfst : (requestFlags reads writes).map Prod.fst = reads ++ writes := by
    rw [requestFlags, map_append, map_fst_writeFlags, map_map]
    simp [Function.comp_def]
  refine hmap.trans ?_
  rw [← hfst, map_map]
  rfl

theorem loaded_flags (hnd : vq.freeList.Nodup)
    (hlen : reads.length + writes.length ≤ vq.numFree) :
    (taken vq reads writes).map (fun i => ((loaded vq reads writes).desc i).flags) =
      (requestFlags reads writes).map Prod.snd := by
  obtain ⟨_, _, _, hcont⟩ := loaded_spec hnd hlen
  have hmap := congrArg (map fun d : Nat × Nat × Nat => d.2.2) hcont
  rwa [map_map, map_map] at hmap

/-! ## When the request has its shape -/

theorem addBufferChain_ok {head : Nat} (h : vq.addBufferChain reads writes = (.ok head, vq')) :
    0 < reads.length + writes.length ∧ asU16 (reads.length + writes.length) ≤ vq.numFree := by
  unfold addBufferChain at h
  simp only at h
  split at h
  · cases h
  · split at h
    · cases h
    · omega

theorem chain_eq_taken (hnd : vq.freeList.Nodup)
    (hlen : reads.length + writes.length ≤ vq.numFree) {c : List Nat}
    (hc : (loaded vq reads writes).chainOf vq.freeHead = some c)
    (hcount : c.length = reads.length + writes.length) :
    c = taken vq reads writes ∧
    Chained (loaded vq reads writes).more (loaded vq reads writes).next c := by
  obtain ⟨hnext, _⟩ := loaded_spec hnd hlen
  obtain ⟨t, rfl, hchained⟩ := chained_of_chain hc
  refine ⟨?_, hchained⟩
  rw [hchained.eq_follow]
  unfold taken
  rw [← hcount, length_cons]
  exact follow_congr fun i _ => hnext i

theorem more_of_no_writes (hnd : vq.freeList.Nodup)
    (hlen : reads.length + ([] : List Buf).length ≤ vq.numFree) :
    ∀ i ∈ taken vq reads [], (loaded vq reads []).more i = true := by
  intro i hi
  have hmem := mem_map_of_mem (f := fun i => ((loaded vq reads []).desc i).flags) hi
  rw [loaded_flags hnd hlen] at hmem
  obtain ⟨p, hp, hflags⟩ := mem_map.1 hmem
  rw [requestFlags, writeFlags, append_nil, mem_map] at hp
  obtain ⟨b, _, rfl⟩ := hp
  change hasNext ((loaded vq reads []).desc i).flags = true
  rw [← hflags]
  exact hasNext_next

theorem chainOf_taken (h : FreeListOk vq) (hw : writes ≠ [])
    (hlen : reads.length + writes.length ≤ vq.numFree) :
    (loaded vq reads writes).chainOf vq.freeHead = some (taken vq reads writes) := by
  obtain ⟨hnext, _, hsize, _⟩ := loaded_spec h.nodup hlen
  have hpos := length_pos_iff.2 hw
  obtain ⟨n, hn⟩ := Nat.exists_eq_add_of_le' (show 1 ≤ reads.length + writes.length by omega)
  have hsame : follow (loaded vq reads writes).next (n + 1) vq.freeHead = taken vq reads writes := by
    unfold taken
    rw [hn]
    exact follow_congr fun i _ => hnext i
  have hmore : (taken vq reads writes).map (loaded vq reads writes).more =
      replicate n true ++ [false] := by
    have hmap := congrArg (map hasNext) (loaded_flags h.nodup hlen)
    rw [map_map, map_map] at hmap
    refine hmap.trans ((hasNext_requestFlags hw).trans ?_)
    rw [hn]
    rfl
  have hchained := chained_follow (hsame.symm ▸ hmore)
  have hle := h.numFree_le
  have hchain := hchained.chain_eq (n := vq.queueSize) (by
    rw [length_cons, length_follow]
    omega)
  rw [← hsame]
  unfold chainOf
  rw [hsize]
  exact hchain

/-- **An accepted request has the requested shape exactly when it has a write buffer, fewer than
`2 ^ 16` buffers, and buffers whose length fits in 32 bits.** -/
theorem addBufferChain_shape_iff (h : FreeListOk vq) {head : Nat}
    (hok : vq.addBufferChain reads writes = (.ok head, vq')) :
    (∃ c, Shaped vq vq' head reads writes c) ↔
      writes ≠ [] ∧ reads.length + writes.length < 2 ^ 16 ∧
        ∀ b ∈ reads ++ writes, b.len < 2 ^ 32 := by
  obtain ⟨hpos, hroom⟩ := addBufferChain_ok hok
  have hle := h.numFree_le
  have hsize := h.size
  constructor
  · rintro ⟨c, hs⟩
    have hlen : reads.length + writes.length ≤ vq.numFree := by
      have := hs.free
      omega
    rw [addBufferChain_eq hpos hlen h.nodup (by omega)] at hok
    obtain ⟨rfl, rfl⟩ : vq.freeHead = head ∧ (loaded vq reads writes).publish vq.freeHead = vq' := by
      simpa [loaded] using hok
    obtain ⟨rfl, hchained⟩ := chain_eq_taken h.nodup hlen hs.visits hs.count
    refine ⟨?_, by omega, ?_⟩
    · rintro rfl
      obtain ⟨i, hi, hend⟩ := hchained.exists_not_more
      have hgoes := more_of_no_writes h.nodup hlen i hi
      rw [hend] at hgoes
      cases hgoes
    · intro b hb
      have hsame := map_inj_left.1 ((loaded_buffers h.nodup hlen).symm.trans hs.buffers) b hb
      have hmod : b.len % 2 ^ 32 = b.len := congrArg Prod.snd hsame
      rw [← hmod]
      exact Nat.mod_lt _ (by decide)
  · rintro ⟨hw, hbig, hfits⟩
    have hlen : reads.length + writes.length ≤ vq.numFree := by
      rwa [asU16, Nat.mod_eq_of_lt hbig] at hroom
    rw [addBufferChain_eq hpos hlen h.nodup hbig] at hok
    obtain ⟨rfl, rfl⟩ : vq.freeHead = head ∧ (loaded vq reads writes).publish vq.freeHead = vq' := by
      simpa [loaded] using hok
    obtain ⟨_, hfree, _, _⟩ := loaded_spec h.nodup hlen
    refine ⟨taken vq reads writes, chainOf_taken h hw hlen, ?_, length_follow .., ?_, ?_, ?_⟩
    · have hnd := h.nodup
      rw [hfree] at hnd
      exact (nodup_append.1 hnd).1
    · refine (loaded_buffers h.nodup hlen).trans (map_congr_left fun b hb => ?_)
      rw [Nat.mod_eq_of_lt (hfits b hb)]
    · have hmap := congrArg (List.map hasWrite) (loaded_flags h.nodup hlen)
      rw [map_map, map_map] at hmap
      exact hmap.trans (map_hasWrite_requestFlags reads writes)
    · have hcount := congrArg List.length hfree
      rw [length_append, taken, length_follow, Virtqueue.freeList, length_follow,
        Virtqueue.freeList, length_follow] at hcount
      change (loaded vq reads writes).numFree + _ = _
      omega

theorem addBufferChain_shape_one_each :
    ∃ c,
      Shaped (.ofSize 4) ((Virtqueue.ofSize 4).addBufferChain [⟨16, 8⟩] [⟨64, 4⟩]).2 0 [⟨16, 8⟩]
        [⟨64, 4⟩] c :=
  (addBufferChain_shape_iff ((Partition.start 4 fun _ => []).freeListOk (by decide)) rfl).mpr
    ⟨by decide, by decide, by decide⟩

/-- One read buffer and no write buffer: the request is accepted with head 0, its only descriptor
keeps `NEXT`, and the chain runs on into the free list. -/
theorem read_only_chain_runs_on :
    FreeListOk (.ofSize 4) ∧
    ((Virtqueue.ofSize 4).addBufferChain [⟨16, 8⟩] []).1.toOption = some 0 ∧
    ((Virtqueue.ofSize 4).addBufferChain [⟨16, 8⟩] []).2.chainOf 0 = some [0, 1] ∧
    ¬ ∃ c, Shaped (.ofSize 4) ((Virtqueue.ofSize 4).addBufferChain [⟨16, 8⟩] []).2 0 [⟨16, 8⟩] []
      c := by
  have hchain : ((Virtqueue.ofSize 4).addBufferChain [⟨16, 8⟩] []).2.chainOf 0 = some [0, 1] := by
    decide
  refine ⟨(Partition.start 4 fun _ => []).freeListOk (by decide), by decide, hchain, ?_⟩
  rintro ⟨c, hs⟩
  obtain rfl : [0, 1] = c := Option.some.inj (hchain.symm.trans hs.visits)
  exact absurd hs.count (by decide)

end Kerners.Virtio
