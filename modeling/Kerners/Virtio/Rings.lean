import Kerners.Lib.Ring
import Kerners.Virtio.Queue

/-!
# The two rings of a virtqueue, with the device at the other end (`src/virtio/queue.rs`)

`Queue` says what the driver does to the table. Here the device is there as well: it reads the
available ring in order at its own index, works on what it read, and appends each completed head to
the used ring, in any order.

* Each party stores an entry and then advances its index; the other one may run in between. The
  calls of the driver exclude each other (the queue is in a `Mutex`).
* The histories `published`, `consumed`, `completions` and `polled` are not part of the code: they
  record what each party has done so far.
* The queue size is a power of two, as the device must offer; only then does a slot number survive
  the wrap of an index at `2^16`.
-/

namespace Kerners.Virtio

open Lib List

/-! ## The system -/

structure Exchange where
  vq : Virtqueue
  /-- A head in the available ring that `avail.idx` does not cover yet. -/
  storing : List Nat
  devIdx : Nat
  inFlight : List Nat
  /-- An element in the used ring that `used.idx` does not cover yet. -/
  completing : List VirtqUsedElem
  published : List Nat
  consumed : List Nat
  completions : List VirtqUsedElem
  polled : List VirtqUsedElem

namespace Exchange

def init (vq : Virtqueue) : Exchange := ⟨vq, [], 0, [], [], [], [], [], []⟩

/-- A call that adds a request, up to the store to the available ring. -/
def stored (s : Exchange) (head : Nat) (vq : Virtqueue) : Exchange :=
  { s with vq := { vq with availIdx := s.vq.availIdx }, storing := [head] }

/-- The rest of the call: the store to `avail.idx`. -/
def announced (s : Exchange) (head : Nat) : Exchange :=
  { s with
    vq := { s.vq with availIdx := asU16 (s.vq.availIdx + 1) }
    storing := []
    published := s.published ++ [head] }

def deviceRead (s : Exchange) : Exchange :=
  let head := s.vq.availRing (s.devIdx % s.vq.queueSize)
  { s with
    devIdx := asU16 (s.devIdx + 1)
    inFlight := s.inFlight ++ [head]
    consumed := s.consumed ++ [head] }

def deviceStore (s : Exchange) (elem : VirtqUsedElem) : Exchange :=
  { s with
    vq := { s.vq with
      usedRing := Function.update s.vq.usedRing (s.vq.usedIdx % s.vq.queueSize) elem }
    inFlight := s.inFlight.erase elem.id
    completing := [elem] }

/-- The device advances `used.idx`. -/
def deviceAnnounce (s : Exchange) (elem : VirtqUsedElem) : Exchange :=
  { s with
    vq := { s.vq with usedIdx := asU16 (s.vq.usedIdx + 1) }
    completing := []
    completions := s.completions ++ [elem] }

def afterPoll (s : Exchange) (r : Option (Nat × Nat) × Virtqueue) : Exchange :=
  { s with
    vq := r.2
    polled := s.polled ++ (r.1.map fun p => ⟨p.1, p.2⟩).toList }

end Exchange

inductive ExchangeStep : Exchange → Exchange → Prop
  | add (s : Exchange) (head : Nat) (vq : Virtqueue) (hlock : s.storing = [])
      (hr : AddCall s.vq (.ok head, vq)) : ExchangeStep s (s.stored head vq)
  | addFails (s : Exchange) (e : VirtIOError) (vq : Virtqueue) (hlock : s.storing = [])
      (hr : AddCall s.vq (.error e, vq)) : ExchangeStep s { s with vq := vq }
  | announce (s : Exchange) (head : Nat) (hst : s.storing = [head]) :
      ExchangeStep s (s.announced head)
  | deviceRead (s : Exchange) (hnew : s.devIdx ≠ s.vq.availIdx) : ExchangeStep s s.deviceRead
  | deviceStore (s : Exchange) (elem : VirtqUsedElem) (hidle : s.completing = [])
      (hmem : elem.id ∈ s.inFlight) : ExchangeStep s (s.deviceStore elem)
  | deviceAnnounce (s : Exchange) (elem : VirtqUsedElem) (hst : s.completing = [elem]) :
      ExchangeStep s (s.deviceAnnounce elem)
  | pollUsed (s : Exchange) (r : Option (Nat × Nat) × Virtqueue) (hlock : s.storing = [])
      (hr : s.vq.pollUsed = some r) : ExchangeStep s (s.afterPoll r)

/-! ## The invariant -/

structure ExchangeInv (size : Nat) (s : Exchange) (waiting : List Nat)
    (done : List VirtqUsedElem) (outstanding : List Nat) : Prop where
  size_eq : s.vq.queueSize = size
  partition : ∃ tail, Partition s.vq outstanding tail
  avail : Ring s.vq.availRing size (2 ^ 16) s.devIdx s.vq.availIdx waiting s.storing
  used : Ring s.vq.usedRing size (2 ^ 16) s.vq.lastUsedIdx s.vq.usedIdx done s.completing
  published_eq : s.published = s.consumed ++ waiting
  completions_eq : s.completions = s.polled ++ done
  where_is : outstanding.Perm
    (waiting ++ s.storing ++ s.inFlight ++ (done ++ s.completing).map VirtqUsedElem.id)

open Virtqueue

section

variable {vq : Virtqueue} {s s' : Exchange} {size : Nat} {waiting outstanding : List Nat}
  {done : List VirtqUsedElem}

namespace ExchangeInv

theorem length_le (h : ExchangeInv size s waiting done outstanding) : waiting.length +
    s.storing.length + s.inFlight.length + done.length + s.completing.length ≤ size := by
  obtain ⟨tail, hp⟩ := h.partition
  have hle := hp.length_heads
  have hlen := h.where_is.length_eq
  simp only [length_append, length_map] at hlen
  rw [h.size_eq] at hle
  omega

theorem add {head : Nat} (hdvd : size ∣ 2 ^ 16) (h : ExchangeInv size s waiting done outstanding)
    (hlock : s.storing = []) (hr : AddCall s.vq (.ok head, vq)) :
    ExchangeInv size (s.stored head vq) waiting done (outstanding ++ [head]) := by
  obtain ⟨tail, hp⟩ := h.partition
  rcases hp.addCall hr with ⟨e, he⟩ | ⟨hok, ⟨tail', hpart⟩, hpub⟩
  · exact absurd (congrArg Prod.fst he) (by simp)
  obtain rfl : head = s.vq.freeHead := Except.ok.inj hok
  have hsize : vq.queueSize = size := (congrArg queueSize hpub).trans h.size_eq
  have hring : vq.availRing =
      Function.update s.vq.availRing (s.vq.availIdx % size) s.vq.freeHead :=
    (congrArg availRing hpub).trans (by rw [h.size_eq])
  have hfits : waiting.length < size := by
    have hle := hpart.length_heads
    have hlen := h.where_is.length_eq
    simp only [length_append, length_map, length_singleton] at hle hlen
    change vq.numFree + _ ≤ vq.queueSize at hle
    omega
  have havail := h.avail
  rw [hlock] at havail
  refine ⟨hsize, ⟨tail', hpart.chained, hpart.perm⟩, ?_, ?_, h.published_eq, h.completions_eq, ?_⟩
  · change Ring vq.availRing _ _ _ _ _ _
    rw [hring]
    exact havail.store hdvd hfits _
  · change Ring vq.usedRing _ _ vq.lastUsedIdx vq.usedIdx _ _
    rw [show vq.usedRing = _ from congrArg usedRing hpub,
      show vq.usedIdx = _ from congrArg usedIdx hpub,
      show vq.lastUsedIdx = _ from congrArg lastUsedIdx hpub]
    exact h.used
  · have hwhere := h.where_is
    rw [hlock, append_nil] at hwhere
    refine (hwhere.append_right _).trans ?_
    change List.Perm _ (waiting ++ [_] ++ s.inFlight ++ _)
    simp only [append_assoc]
    refine List.Perm.append_left _ ?_
    rw [← append_assoc]
    exact perm_append_comm

/-- The two steps together leave the queue as the call does. -/
theorem announced_stored {head : Nat} (h : ExchangeInv size s waiting done outstanding)
    (hr : AddCall s.vq (.ok head, vq)) : ((s.stored head vq).announced head).vq = vq := by
  obtain ⟨tail, hp⟩ := h.partition
  rcases hp.addCall hr with ⟨e, he⟩ | ⟨-, -, hpub⟩
  · exact absurd (congrArg Prod.fst he) (by simp)
  · have hidx : vq.availIdx = asU16 (s.vq.availIdx + 1) := congrArg availIdx hpub
    simp only [Exchange.announced, Exchange.stored, ← hidx]

theorem announce {head : Nat} (h : ExchangeInv size s waiting done outstanding)
    (hst : s.storing = [head]) :
    ExchangeInv size (s.announced head) (waiting ++ [head]) done outstanding := by
  have havail := h.avail
  have hwhere := h.where_is
  rw [hst] at havail hwhere
  refine ⟨h.size_eq, ?_, havail.announce, h.used, ?_, h.completions_eq, ?_⟩
  · obtain ⟨tail, hp⟩ := h.partition
    exact ⟨tail, hp.chained, hp.perm⟩
  · change s.published ++ [head] = s.consumed ++ (waiting ++ [head])
    rw [h.published_eq, append_assoc]
  · change outstanding.Perm (waiting ++ [head] ++ [] ++ s.inFlight ++ _)
    rwa [append_nil]

theorem avail_cons (hdvd : size ∣ 2 ^ 16) (hlt : size < 2 ^ 16)
    (h : ExchangeInv size s waiting done outstanding) (hnew : s.devIdx ≠ s.vq.availIdx) :
    ∃ rest, waiting = s.vq.availRing (s.devIdx % s.vq.queueSize) :: rest := by
  cases waiting with
  | nil => exact absurd ((h.avail.eq_iff hlt).2 rfl) hnew
  | cons head rest =>
    refine ⟨rest, ?_⟩
    rw [h.size_eq, h.avail.read hdvd]

theorem deviceRead {rest : List Nat} (h : ExchangeInv size s waiting done outstanding)
    (hw : waiting = s.vq.availRing (s.devIdx % s.vq.queueSize) :: rest) :
    ExchangeInv size s.deviceRead rest done outstanding := by
  have havail := h.avail
  have hpub := h.published_eq
  have hwhere := h.where_is
  rw [hw] at havail hpub hwhere
  refine ⟨h.size_eq, h.partition, havail.pop, h.used, ?_, h.completions_eq, hwhere.trans ?_⟩
  · change s.published = s.consumed ++ [_] ++ rest
    rw [hpub, append_assoc]
    rfl
  · change List.Perm _ (rest ++ s.storing ++ (s.inFlight ++ [_]) ++ _)
    rw [← append_assoc (rest ++ s.storing)]
    refine List.Perm.append_right _ ?_
    exact (perm_append_singleton _ _).symm

theorem deviceStore {elem : VirtqUsedElem} (hdvd : size ∣ 2 ^ 16)
    (h : ExchangeInv size s waiting done outstanding) (hidle : s.completing = [])
    (hmem : elem.id ∈ s.inFlight) :
    ExchangeInv size (s.deviceStore elem) waiting done outstanding := by
  have hused := h.used
  have hwhere := h.where_is
  have hfits : done.length < size := by
    have hlen := h.length_le
    have hpos := length_pos_of_mem hmem
    omega
  rw [hidle] at hused hwhere
  refine ⟨h.size_eq, ?_, h.avail, ?_, h.published_eq, h.completions_eq, hwhere.trans ?_⟩
  · obtain ⟨tail, hp⟩ := h.partition
    exact ⟨tail, hp.chained, hp.perm⟩
  · change Ring (Function.update s.vq.usedRing (s.vq.usedIdx % s.vq.queueSize) elem) _ _ _ _ _ _
    rw [h.size_eq]
    exact hused.store hdvd hfits elem
  · change List.Perm _ (waiting ++ s.storing ++ s.inFlight.erase elem.id ++
      (done ++ [elem]).map VirtqUsedElem.id)
    simp only [append_nil, map_append, append_assoc]
    refine List.Perm.append_left _ (List.Perm.append_left _ ?_)
    refine ((perm_cons_erase hmem).append_right _).trans ?_
    rw [← append_assoc]
    exact (perm_append_singleton _ _).symm

theorem deviceAnnounce {elem : VirtqUsedElem} (h : ExchangeInv size s waiting done outstanding)
    (hst : s.completing = [elem]) :
    ExchangeInv size (s.deviceAnnounce elem) waiting (done ++ [elem]) outstanding := by
  have hused := h.used
  have hwhere := h.where_is
  rw [hst] at hused hwhere
  refine ⟨h.size_eq, ?_, h.avail, hused.announce, h.published_eq, ?_, ?_⟩
  · obtain ⟨tail, hp⟩ := h.partition
    exact ⟨tail, hp.chained, hp.perm⟩
  · change s.completions ++ [elem] = s.polled ++ (done ++ [elem])
    rw [h.completions_eq, append_assoc]
  · change outstanding.Perm (_ ++ (done ++ [elem] ++ []).map VirtqUsedElem.id)
    rwa [append_nil]

theorem usedElem_eq (hdvd : size ∣ 2 ^ 16) (hlt : size < 2 ^ 16)
    (h : ExchangeInv size s waiting done outstanding) : s.vq.usedElem? = done.head? := by
  unfold usedElem?
  cases done with
  | nil => exact if_pos ((h.used.eq_iff hlt).2 rfl)
  | cons elem rest =>
    have hne : s.vq.lastUsedIdx ≠ s.vq.usedIdx := fun he =>
      absurd ((h.used.eq_iff hlt).1 he) (by simp)
    rw [if_neg hne, h.size_eq, h.used.read hdvd]
    rfl

theorem id_eq (hlt : size < 2 ^ 16) (h : ExchangeInv size s waiting done outstanding)
    {x : Nat} (hx : x ∈ outstanding) : asU16 x = x := by
  obtain ⟨tail, hp⟩ := h.partition
  have hr := hp.mem_lt hx
  rw [h.size_eq] at hr
  exact Nat.mod_eq_of_lt (by omega)

theorem returned (hdvd : size ∣ 2 ^ 16) (hlt : size < 2 ^ 16)
    (h : ExchangeInv size s waiting done outstanding) : Requests.Returned ⟨s.vq, outstanding⟩ := by
  intro elem he
  rw [h.usedElem_eq hdvd hlt] at he
  have hmem : elem.id ∈ outstanding := by
    refine h.where_is.mem_iff.2 (mem_append_right _ (mem_map_of_mem ?_))
    exact mem_append_left _ (mem_of_mem_head? he)
  rwa [h.id_eq hlt hmem]

theorem pollUsed (hdvd : size ∣ 2 ^ 16) (hlt : size < 2 ^ 16)
    (h : ExchangeInv size s waiting done outstanding) :
    ∃ vq', s.vq.pollUsed = some (done.head?.map fun e => (e.id, e.len), vq') ∧
      ∃ out',
        ExchangeInv size (s.afterPoll (done.head?.map fun e => (e.id, e.len), vq')) waiting
          done.tail out' := by
  have hread := h.usedElem_eq hdvd hlt
  have hret := h.returned hdvd hlt
  cases done with
  | nil =>
    refine ⟨s.vq, pollUsed_none hread, outstanding, h.size_eq, h.partition, h.avail, h.used,
      h.published_eq, ?_, h.where_is⟩
    change s.completions = s.polled ++ [] ++ []
    rw [h.completions_eq, append_nil, append_nil]
  | cons elem rest =>
    have hid : asU16 elem.id = elem.id := h.id_eq hlt (h.where_is.mem_iff.2 (by simp))
    obtain ⟨tail, hp⟩ := h.partition
    obtain ⟨vq', hr, hpart, hrec⟩ := hp.pollUsed hread (hret elem hread)
    rw [hid] at hr hpart
    refine ⟨vq', hr, outstanding.erase elem.id, ?_, ⟨tail, hpart⟩, ?_, ?_, h.published_eq, ?_, ?_⟩
    · exact (congrArg queueSize hrec).trans h.size_eq
    · change Ring vq'.availRing _ _ _ vq'.availIdx _ _
      rw [hrec]
      exact h.avail
    · change Ring vq'.usedRing _ _ vq'.lastUsedIdx vq'.usedIdx _ _
      rw [hrec]
      exact h.used.pop
    · change s.completions = s.polled ++ [elem] ++ rest
      rw [h.completions_eq, append_assoc]
      rfl
    · have hperm := h.where_is.erase elem.id
      refine hperm.trans ?_
      refine (List.Perm.erase elem.id ?_).trans (List.Perm.of_eq (erase_cons_head ..))
      rw [cons_append, map_cons]
      exact perm_middle

theorem step (hdvd : size ∣ 2 ^ 16) (hlt : size < 2 ^ 16)
    (h : ExchangeInv size s waiting done outstanding) (hs : ExchangeStep s s') :
    ∃ waiting' done' outstanding', ExchangeInv size s' waiting' done' outstanding' := by
  cases hs with
  | add head vq hlock hr => exact ⟨_, _, _, h.add hdvd hlock hr⟩
  | addFails e vq hlock hr =>
    obtain ⟨tail, hp⟩ := h.partition
    rcases hp.addCall hr with ⟨_, he⟩ | ⟨hok, _⟩
    · obtain rfl : vq = s.vq := congrArg Prod.snd he
      exact ⟨_, _, _, h⟩
    · exact absurd hok (by simp)
  | announce head hst => exact ⟨_, _, _, h.announce hst⟩
  | deviceRead hnew =>
    obtain ⟨rest, hw⟩ := h.avail_cons hdvd hlt hnew
    exact ⟨_, _, _, h.deviceRead hw⟩
  | deviceStore elem hidle hmem => exact ⟨_, _, _, h.deviceStore hdvd hidle hmem⟩
  | deviceAnnounce elem hst => exact ⟨_, _, _, h.deviceAnnounce hst⟩
  | pollUsed r hlock hr =>
    obtain ⟨vq', hr', out', hinv⟩ := h.pollUsed hdvd hlt
    obtain rfl := Option.some.inj (hr'.symm.trans hr)
    exact ⟨_, _, _, hinv⟩

theorem start (n : Nat) : ExchangeInv n (.init (.ofSize n)) [] [] [] where
  size_eq := rfl
  partition := ⟨fun _ => [], Partition.start n _⟩
  avail := Ring.empty _
  used := Ring.empty _
  published_eq := rfl
  completions_eq := rfl
  where_is := List.Perm.refl _

end ExchangeInv

end

/-! ## Runs of any length -/

/-- **Ring indices survive their wrap**: for every queue size that is a power of two and in every
run, the device reads the published heads in order, and `poll_used` returns the completions in
order. -/
theorem rings_in_order {maxSize k : Nat} {vq : Virtqueue} {s : Exchange}
    (hnew : Virtqueue.new maxSize = .ok vq) (hpow : vq.queueSize = 2 ^ k)
    (h : Reach ExchangeStep (.init vq) s) :
    s.consumed <+: s.published ∧
      (∀ i (hi : s.consumed.length + i < s.published.length),
        s.vq.availRing (asU16 (s.devIdx + i) % s.vq.queueSize) =
          s.published[s.consumed.length + i]) ∧
      s.polled <+: s.completions ∧
      (∃ vq', s.vq.pollUsed =
        some ((s.completions.drop s.polled.length).head?.map fun e => (e.id, e.len), vq')) ∧
      s.vq.pendingCount = s.completions.length - s.polled.length := by
  obtain rfl := new_eq_ok hnew
  have hle : min maxSize 256 ≤ 2 ^ 8 := Nat.min_le_right ..
  have hlt : min maxSize 256 < 2 ^ 16 := by omega
  have hdvd : min maxSize 256 ∣ 2 ^ 16 := by
    have hpow' : min maxSize 256 = 2 ^ k := hpow
    rw [hpow'] at hle ⊢
    exact Nat.pow_dvd_pow 2 (((Nat.pow_le_pow_iff_right (by omega)).1 hle).trans (by omega))
  have hinv : ∃ waiting done outstanding,
      ExchangeInv (min maxSize 256) s waiting done outstanding :=
    h.invariant
      (P := fun s => ∃ waiting done outstanding,
        ExchangeInv (min maxSize 256) s waiting done outstanding)
      ⟨_, _, _, ExchangeInv.start _⟩ (fun ⟨_, _, _, hi⟩ hs => hi.step hdvd hlt hs)
  obtain ⟨waiting, done, outstanding, hi⟩ := hinv
  refine ⟨⟨waiting, hi.published_eq.symm⟩, ?_, ⟨done, hi.completions_eq.symm⟩, ?_, ?_⟩
  · intro i hlen
    have hlen' : i < waiting.length := by
      rw [hi.published_eq, length_append] at hlen
      omega
    have hslot := hi.avail.get hdvd hlen'
    rw [hi.size_eq]
    refine hslot.trans ?_
    simp only [hi.published_eq]
    rw [getElem_append_right (by omega)]
    simp
  · obtain ⟨vq', hr, _⟩ := hi.pollUsed hdvd hlt
    rw [hi.completions_eq, drop_left]
    exact ⟨vq', hr⟩
  · have hcount := hi.used.distance hlt
    rw [hi.completions_eq, length_append, Nat.add_sub_cancel_left]
    exact hcount

/-- Two requests, both completed and not polled yet. -/
theorem rings_in_order_two_pending :
    ∃ s, Reach ExchangeStep (.init (.ofSize 2)) s ∧
      s.consumed = [0, 1] ∧
      s.completions = [⟨1, 8⟩, ⟨0, 4⟩] ∧
      s.polled = [] ∧
      s.vq.pendingCount = 2 := by
  let s0 : Exchange := .init (.ofSize 2)
  let s1 := s0.stored 0 (s0.vq.addBuffer ⟨64, 4⟩ true).2
  let s2 := s1.announced 0
  let s3 := s2.stored 1 (s2.vq.addBuffer ⟨96, 8⟩ true).2
  let s4 := s3.announced 1
  let s5 := s4.deviceRead.deviceRead
  let s6 := s5.deviceStore ⟨1, 8⟩
  let s7 := s6.deviceAnnounce ⟨1, 8⟩
  let s8 := s7.deviceStore ⟨0, 4⟩
  let s9 := s8.deviceAnnounce ⟨0, 4⟩
  have h2 : Reach ExchangeStep s0 s2 :=
    (Reach.refl.tail (.add s0 0 _ rfl (.addBuffer ⟨64, 4⟩ true))).tail (.announce s1 0 rfl)
  have h4 : Reach ExchangeStep s0 s4 :=
    (h2.tail (.add s2 1 _ rfl (.addBuffer ⟨96, 8⟩ true))).tail (.announce s3 1 rfl)
  have h5 : Reach ExchangeStep s0 s5 :=
    (h4.tail (.deviceRead s4 (by decide))).tail (.deviceRead s4.deviceRead (by decide))
  have h7 : Reach ExchangeStep s0 s7 :=
    (h5.tail (.deviceStore s5 ⟨1, 8⟩ rfl (by decide))).tail (.deviceAnnounce s6 ⟨1, 8⟩ rfl)
  have h9 : Reach ExchangeStep s0 s9 :=
    (h7.tail (.deviceStore s7 ⟨0, 4⟩ rfl (by decide))).tail (.deviceAnnounce s8 ⟨0, 4⟩ rfl)
  have hnew : Virtqueue.new 2 = .ok (.ofSize 2) := rfl
  have hpow : (Virtqueue.ofSize 2).queueSize = 2 ^ 1 := rfl
  exact ⟨s9, h9, by decide, rfl, rfl, (rings_in_order hnew hpow h9).2.2.2.2⟩

end Kerners.Virtio
