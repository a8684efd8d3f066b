import Kerners.Lib.Utf16
import Kerners.Fat32.Entries
import Kerners.Fat32.Handles
import Mathlib.Data.List.DropRight
import Mathlib.Data.List.Pairwise
import Mathlib.Data.List.TakeWhile

/-!
# Long names in a directory (fs/fat32/dir.rs, fs/fat32/mod.rs)

A long name is stored in front of the entry it belongs to, thirteen UTF-16 units in a slot, the last
slot first. `get_name_part` decodes each slot for itself: the units in front of the first 0x0000 or
0xFFFF of each of the three fields of the slot, converted from UTF-16. `extract_lfn_name` puts the parts
in order.

**`longName_listed_iff`**: the entry is listed under its long name exactly if every unit is kept, no
surrogate pair is stored in two slots, the name is not `.` or `..`, and no text is pending from slots
of a long name whose own entry is gone.
-/

namespace Kerners.Fat32

open Lib Kerners.Block List

/-! ## The stored form -/

def lfnSlot (order checksum : UInt8) (units : List Nat) : Bytes :=
  [order] ++ (units.take 5).flatMap (leBytes 2) ++ [attrLongName, 0, checksum] ++
    ((units.drop 5).take 6).flatMap (leBytes 2) ++ [0, 0] ++ (units.drop 11).flatMap (leBytes 2)

def lfnCount (units : List Nat) : Nat := (units.length + 12) / 13

/-- The units slot by slot: behind the last unit a terminator and then padding, as far as there is room
in the slot. -/
def lfnFragments (units : List Nat) : List (List Nat) :=
  cutInto 13 (lfnCount units) (units ++ 0x0000 :: List.replicate 12 0xFFFF)

/-- The order byte of slot `i` of `n`, counted from 0: the last one is flagged. -/
def lfnOrder (n i : Nat) : UInt8 := .ofNat (i + 1 + if i + 1 = n then 0x40 else 0)

/-- The slots of a long name as they stand in a directory, the last one first. -/
def lfnSlots (checksum : UInt8) (name : Str) : List Bytes :=
  ((lfnFragments (encodeUtf16 name)).mapIdx fun i units =>
    lfnSlot (lfnOrder (lfnCount (encodeUtf16 name)) i) checksum units).reverse

/-- What `from_bytes` reads from a slot of a long name. -/
def lfnEntry (order checksum : UInt8) (units : List Nat) : LfnEntry where
  order := order
  name1 := (units.take 5).map UInt16.ofNat
  attr := attrLongName
  entryType := 0
  checksum := checksum
  name2 := ((units.drop 5).take 6).map UInt16.ofNat
  fstClusLo := 0
  name3 := (units.drop 11).map UInt16.ofNat

variable {order checksum : UInt8} {units : List Nat}

theorem fromBytes_lfnSlot (h : units.length = 13) :
    LfnEntry.fromBytes (lfnSlot order checksum units) = some (lfnEntry order checksum units) := by
  have h2 : ∀ x : Nat, UInt16.ofNat (leNat (leBytes 2 x)) = UInt16.ofNat x := fun x => by
    rw [leNat_leBytes]
    exact UInt16.toNat_inj.1 (by simp)
  have h0 : UInt16.ofNat (leNat [0, 0]) = 0 := by decide
  match units, h with
  | [_, _, _, _, _, _, _, _, _, _, _, _, _], _ =>
    simp only [leBytes] at h2
    simp [LfnEntry.fromBytes, lfnSlot, lfnEntry, LfnEntry.readUnits, readU16, range_succ, leBytes,
      h0, h2]

theorem lfnSlot_head : (lfnSlot order checksum units).getD 0 0 = order := rfl

theorem lfnSlot_attr (h : units.length = 13) :
    (lfnSlot order checksum units).getD 11 0 = attrLongName := by
  match units, h with
  | [_, _, _, _, _, _, _, _, _, _, _, _, _], _ => rfl

theorem readSlot_lfnSlot {parts : List LfnEntry} (h : units.length = 13) (h0 : order ≠ 0x00)
    (h5 : order ≠ 0xE5) : readSlot parts (lfnSlot order checksum units) =
      some (parts ++ [lfnEntry order checksum units], none) := by
  rw [readSlot, lfnSlot_head, if_neg h0, if_neg h5, lfnSlot_attr h, if_pos rfl, fromBytes_lfnSlot h]
  rfl

theorem partsAfter_lfnSlots {slots : List (UInt8 × List Nat)}
    (h : ∀ x ∈ slots, x.2.length = 13 ∧ x.1 ≠ 0x00 ∧ x.1 ≠ 0xE5) : ∀ {parts : List LfnEntry},
    partsAfter parts (slots.map fun x => lfnSlot x.1 checksum x.2) =
      some (parts ++ slots.map fun x => lfnEntry x.1 checksum x.2) := by
  induction slots with
  | nil => simp [partsAfter]
  | cons x slots ih =>
    intro parts
    obtain ⟨hlen, h0, h5⟩ := h x mem_cons_self
    rw [map_cons, partsAfter, readSlot_lfnSlot hlen h0 h5, Option.bind_some,
      ih fun y hy => h y (mem_cons_of_mem x hy), map_cons, append_assoc]
    rfl

/-! ## The parts in order -/

theorem map_mapIdx {α β γ : Type} (l : List α) (f : Nat → α → β) (g : β → γ) :
    (l.mapIdx f).map g = l.mapIdx fun i a => g (f i a) :=
  ext_getElem (by simp) fun i _ _ => by simp

theorem lfnOrder_facts : ∀ n < 32, ∀ i < n, lfnOrder n i ≠ 0x00 ∧ lfnOrder n i ≠ 0xE5 ∧
    (lfnOrder n i &&& 0x1F).toNat = i + 1 := by decide +kernel

theorem insertionSort_reverse {ks : List (Nat × Str)} (h : ks.Pairwise fun a b => a.1 < b.1) :
    ks.reverse.insertionSort (fun a b => a.1 ≤ b.1) = ks := by
  have hperm : (ks.reverse.insertionSort fun a b => a.1 ≤ b.1).Perm ks :=
    (perm_insertionSort _ _).trans (reverse_perm ks)
  refine hperm.eq_of_pairwise (fun a b ha hb hab hba => ?_) (pairwise_insertionSort _ _)
    (h.imp Nat.le_of_lt)
  have hkeys : ks.Pairwise fun a b => a.1 ≠ b.1 := h.imp Nat.ne_of_lt
  have hsymm : Std.Symm fun a b : Nat × Str => a.1 ≠ b.1 := ⟨fun _ _ => Ne.symm⟩
  by_contra hne
  exact hkeys.forall (hperm.mem_iff.1 ha) hb hne (Nat.le_antisymm hab hba)

/-- A unit that `get_name_part` keeps. -/
abbrev Kept (u : Nat) : Prop := u ≠ 0 ∧ u ≠ 0xFFFF

/-- The units of a slot that are decoded: in each field those in front of the first that is not kept. -/
def keptUnits (units : List Nat) : List Nat :=
  let cut := List.takeWhile fun u => Kept u
  cut (units.take 5) ++ cut ((units.drop 5).take 6) ++ cut (units.drop 11)

theorem nameUnits_ofNat {us : List Nat} (h : ∀ u ∈ us, u < 0x10000) :
    LfnEntry.nameUnits (us.map UInt16.ofNat) = us.takeWhile fun u => Kept u := by
  have hto : ∀ u < 0x10000, (UInt16.ofNat u).toNat = u := fun u hu => by
    rw [UInt16.toNat_ofNat']
    exact Nat.mod_eq_of_lt hu
  induction us with
  | nil => rfl
  | cons u us ih =>
    have hu := hto u (h u mem_cons_self)
    have hz : UInt16.ofNat u = 0 ↔ u = 0 := by rw [← UInt16.toNat_inj, hu]; rfl
    have hf : UInt16.ofNat u = 0xFFFF ↔ u = 0xFFFF := by rw [← UInt16.toNat_inj, hu]; rfl
    have hrest := ih fun x hx => h x (mem_cons_of_mem u hx)
    unfold LfnEntry.nameUnits at hrest ⊢
    rw [map_cons, takeWhile_cons, takeWhile_cons]
    simp only [Kept, ne_eq, hz, hf]
    split_ifs with hd
    · rw [map_cons, hu]
      exact congrArg (u :: ·) hrest
    · rfl

theorem getNamePart_lfnEntry (h : ∀ u ∈ units, u < 0x10000) :
    (lfnEntry order checksum units).getNamePart = fromUtf16Lossy (keptUnits units) := by
  unfold LfnEntry.getNamePart keptUnits
  simp only [lfnEntry]
  rw [nameUnits_ofNat fun u hu => h u (mem_of_mem_take hu),
    nameUnits_ofNat fun u hu => h u (mem_of_mem_drop (mem_of_mem_take hu)),
    nameUnits_ofNat fun u hu => h u (mem_of_mem_drop hu)]

/-! ## The name that is read -/

open DirEntry

section

variable {name : Str}

def readName (units : List Nat) : Str :=
  (lfnFragments units).flatMap fun f => fromUtf16Lossy (keptUnits f)

theorem lfnFragments_length : (lfnFragments units).length = lfnCount units := cutInto_length _ _ _

theorem length_of_mem_fragments {f : List Nat} (h : f ∈ lfnFragments units) : f.length = 13 := by
  refine length_of_mem_cutInto ?_ h
  rw [length_append, length_cons, length_replicate, lfnCount]
  omega

theorem lt_of_mem_fragments (hu : ∀ u ∈ units, u < 0x10000) {f : List Nat}
    (h : f ∈ lfnFragments units) : ∀ u ∈ f, u < 0x10000 := by
  intro u hf
  rcases mem_append.1 (mem_of_mem_cutInto h hf) with hm | hm
  · exact hu u hm
  · rcases mem_cons.1 hm with rfl | hm
    · decide
    · rw [eq_of_mem_replicate hm]
      decide

def lfnParts (checksum : UInt8) (units : List Nat) : List LfnEntry :=
  ((lfnFragments units).mapIdx fun i f => lfnEntry (lfnOrder (lfnCount units) i) checksum f).reverse

theorem lfnParts_isEmpty (h : 1 ≤ units.length) : (lfnParts checksum units).isEmpty = false := by
  rw [isEmpty_eq_false_iff, ← length_pos_iff, lfnParts, length_reverse,
    length_mapIdx, lfnFragments_length, lfnCount]
  omega

theorem partsAfter_stored (h : (encodeUtf16 name).length ≤ 255) (parts : List LfnEntry) :
    partsAfter parts (lfnSlots checksum name) =
      some (parts ++ lfnParts checksum (encodeUtf16 name)) := by
  have hn : lfnCount (encodeUtf16 name) < 32 := by
    unfold lfnCount
    omega
  have hslots : ∀ x ∈ ((lfnFragments (encodeUtf16 name)).mapIdx fun i f =>
      (lfnOrder (lfnCount (encodeUtf16 name)) i, f)).reverse,
      x.2.length = 13 ∧ x.1 ≠ 0x00 ∧ x.1 ≠ 0xE5 := by
    intro x hx
    obtain ⟨i, hi, rfl⟩ := mem_mapIdx.1 (mem_reverse.1 hx)
    have hfacts := lfnOrder_facts _ hn i (lfnFragments_length ▸ hi)
    exact ⟨length_of_mem_fragments (getElem_mem hi), hfacts.1, hfacts.2.1⟩
  have hparts := @partsAfter_lfnSlots checksum _ hslots parts
  rw [map_reverse, map_reverse, map_mapIdx, map_mapIdx] at hparts
  exact hparts

theorem extractLfnName_stored (hu : ∀ u ∈ units, u < 0x10000) (h : units.length ≤ 255) :
    extractLfnName (lfnParts checksum units) = readName units := by
  have hn : lfnCount units < 32 := by
    unfold lfnCount
    omega
  have hkeys : (lfnParts checksum units).map (fun l => (l.sequence.toNat, l.getNamePart)) =
      ((lfnFragments units).mapIdx fun i f => (i + 1, fromUtf16Lossy (keptUnits f))).reverse := by
    rw [lfnParts, map_reverse, map_mapIdx, reverse_inj, mapIdx_eq_mapIdx_iff]
    intro i hi
    have hseq := (lfnOrder_facts _ hn i (lfnFragments_length ▸ hi)).2.2
    have hpart := @getNamePart_lfnEntry (lfnOrder (lfnCount units) i) checksum _
      (lt_of_mem_fragments hu (getElem_mem hi))
    exact Prod.ext hseq hpart
  have hsorted : ((lfnFragments units).mapIdx fun i f =>
      (i + 1, fromUtf16Lossy (keptUnits f))).Pairwise fun a b => a.1 < b.1 := by
    rw [pairwise_iff_getElem]
    intro i j hi hj hij
    simp only [getElem_mapIdx]
    omega
  have hsnd : ((lfnFragments units).mapIdx fun i f =>
      (i + 1, fromUtf16Lossy (keptUnits f))).map Prod.snd =
      (lfnFragments units).map fun f => fromUtf16Lossy (keptUnits f) := by
    rw [map_mapIdx]
    exact ext_getElem (by simp) fun i hi hi' => by simp
  unfold extractLfnName
  simp only [hkeys]
  rw [insertionSort_reverse hsorted, hsnd, readName, List.flatMap]

/-! ### Units that end a field -/

theorem takeWhile_kept {x p : List Nat} (hx : ∀ u ∈ x, Kept u) (hp : ∀ u ∈ p, ¬ Kept u) :
    (x ++ p).takeWhile (fun u => Kept u) = x := by
  rw [takeWhile_append_of_pos fun u hu => decide_eq_true (hx u hu)]
  cases p with
  | nil => rw [takeWhile_nil, append_nil]
  | cons u p =>
    rw [takeWhile_cons_of_neg, append_nil]
    rw [decide_eq_true_eq]
    exact hp u mem_cons_self

theorem keptUnits_append {x p : List Nat} (hx : ∀ u ∈ x, Kept u) (hp : ∀ u ∈ p, ¬ Kept u) :
    keptUnits (x ++ p) = x := by
  unfold keptUnits
  simp only [take_append, drop_append]
  rw [takeWhile_kept (fun u hu => hx u (mem_of_mem_take hu))
      fun u hu => hp u (mem_of_mem_take hu),
    takeWhile_kept (fun u hu => hx u (mem_of_mem_drop (mem_of_mem_take hu)))
      fun u hu => hp u (mem_of_mem_drop (mem_of_mem_take hu)),
    takeWhile_kept (fun u hu => hx u (mem_of_mem_drop hu))
      fun u hu => hp u (mem_of_mem_drop hu)]
  have h11 : (x.drop 5).drop 6 = x.drop 11 := drop_drop
  rw [← h11, append_assoc, take_append_drop, take_append_drop]

theorem mem_keptUnits {u : Nat} (h : u ∈ keptUnits units) : u ∈ units ∧ Kept u := by
  have hcut : ∀ {x : List Nat}, u ∈ x.takeWhile (fun u => Kept u) → u ∈ x ∧ Kept u := by
    intro x hu
    have hk := mem_takeWhile_imp hu
    exact ⟨takeWhile_subset _ hu, of_decide_eq_true hk⟩
  unfold keptUnits at h
  simp only [mem_append] at h
  rcases h with (h | h) | h
  · exact (hcut h).imp_left mem_of_mem_take
  · exact (hcut h).imp_left fun hm => mem_of_mem_drop (mem_of_mem_take hm)
  · exact (hcut h).imp_left mem_of_mem_drop

theorem map_keptUnits : ∀ (k : Nat) {us p : List Nat}, (∀ u ∈ us, Kept u) → (∀ u ∈ p, ¬ Kept u) →
    (cutInto 13 k (us ++ p)).map keptUnits = cutInto 13 k us
  | 0, _, _, _, _ => rfl
  | k + 1, us, p, hus, hp => by
    rw [cutInto, cutInto, map_cons, take_append, drop_append,
      keptUnits_append (fun u hu => hus u (mem_of_mem_take hu))
        fun u hu => hp u (mem_of_mem_take hu),
      map_keptUnits k (fun u hu => hus u (mem_of_mem_drop hu))
        fun u hu => hp u (mem_of_mem_drop hu)]

theorem kept_encodeUtf16 (h : ∀ c ∈ name, Kept c.toNat) : ∀ u ∈ encodeUtf16 name, Kept u := by
  intro u hu
  obtain ⟨c, hc, hm⟩ := mem_flatMap.1 hu
  rcases mem_utf16Units hm with ⟨rfl, -⟩ | ⟨hge, hle⟩ | ⟨hge, hle⟩
  · exact h c hc
  · exact ⟨by omega, by omega⟩
  · exact ⟨by omega, by omega⟩

theorem kept_of_mem_readName (hu : ∀ u ∈ units, u < 0x10000) {c : Char} (h : c ∈ readName units) :
    Kept c.toNat := by
  obtain ⟨f, hf, hc⟩ := mem_flatMap.1 h
  have hlt : ∀ u ∈ keptUnits f, u < 0x10000 := fun u hk =>
    lt_of_mem_fragments hu hf u (mem_keptUnits hk).1
  rcases mem_fromUtf16Lossy hlt hc with rfl | hbig | hm
  · decide
  · exact ⟨by omega, by omega⟩
  · exact (mem_keptUnits hm).2

theorem encodeUtf16_length_le : (encodeUtf16 name).length ≤ lfnCount (encodeUtf16 name) * 13 := by
  unfold lfnCount
  omega

theorem readName_of_kept (hkept : ∀ c ∈ name, Kept c.toNat) : readName (encodeUtf16 name) =
    (cutInto 13 (lfnCount (encodeUtf16 name)) (encodeUtf16 name)).flatMap fromUtf16Lossy := by
  have hpad : ∀ u ∈ 0x0000 :: List.replicate 12 0xFFFF, ¬ Kept u := by decide
  rw [readName, lfnFragments, ← map_keptUnits _ (kept_encodeUtf16 hkept) hpad, flatMap_map]

theorem length_le_readName (hkept : ∀ c ∈ name, Kept c.toNat) :
    name.length ≤ (readName (encodeUtf16 name)).length := by
  have hle := (length_fromUtf16Lossy_flatten
    (cutInto 13 (lfnCount (encodeUtf16 name)) (encodeUtf16 name))).1
  rwa [cutInto_flatten _ _ encodeUtf16_length_le, fromUtf16Lossy_encodeUtf16,
    ← readName_of_kept hkept] at hle

theorem readName_eq_iff : readName (encodeUtf16 name) = name ↔
    (∀ c ∈ name, Kept c.toNat) ∧ ∀ j, ¬ PairAt (encodeUtf16 name) (13 * j + 12) := by
  by_cases hkept : ∀ c ∈ name, Kept c.toNat
  · have hpieces := @flatMap_fromUtf16Lossy_eq_iff
      (cutInto 13 (lfnCount (encodeUtf16 name)) (encodeUtf16 name))
    rw [cutInto_flatten _ _ encodeUtf16_length_le, fromUtf16Lossy_encodeUtf16,
      cutsPair_cutInto 12 _ encodeUtf16_length_le, not_exists] at hpieces
    rw [readName_of_kept hkept, hpieces]
    exact ⟨fun h => ⟨hkept, h⟩, fun h => h.2⟩
  · refine iff_of_false (fun heq => hkept fun c hc => ?_) fun h => hkept h.1
    rw [← heq] at hc
    exact kept_of_mem_readName (fun u hu => encodeUtf16_lt hu) hc

/-! ### Parts in front of the name -/

theorem extractLfnName_perm (parts : List LfnEntry) :
    (extractLfnName parts).Perm (parts.flatMap (·.getNamePart)) := by
  have hsort := perm_insertionSort (fun a b : Nat × Str => a.1 ≤ b.1)
    (parts.map fun l => (l.sequence.toNat, l.getNamePart))
  have hperm := hsort.flatMap_right Prod.snd
  rw [flatMap_map] at hperm
  exact hperm

theorem kept_of_mem_getNamePart {l : LfnEntry} {c : Char} (h : c ∈ l.getNamePart) :
    Kept c.toNat := by
  have hunits : ∀ {us : List UInt16} {u : Nat}, u ∈ LfnEntry.nameUnits us →
      u < 0x10000 ∧ Kept u := by
    intro us u hu
    obtain ⟨w, hw, rfl⟩ := mem_map.1 hu
    have hw' := mem_takeWhile_imp hw
    obtain ⟨h0, hf⟩ : w ≠ 0 ∧ w ≠ 0xFFFF := of_decide_eq_true hw'
    refine ⟨w.toNat_lt, ?_, ?_⟩
    · exact fun hz => h0 (UInt16.toNat_inj.1 hz)
    · exact fun hz => hf (UInt16.toNat_inj.1 hz)
  have hall : ∀ u ∈ LfnEntry.nameUnits l.name1 ++ LfnEntry.nameUnits l.name2 ++
      LfnEntry.nameUnits l.name3, u < 0x10000 ∧ Kept u := by
    intro u hu
    simp only [mem_append] at hu
    rcases hu with (hu | hu) | hu <;> exact hunits hu
  rcases mem_fromUtf16Lossy (fun u hu => (hall u hu).1) h with rfl | hbig | hm
  · decide
  · exact ⟨by omega, by omega⟩
  · exact (hall _ hm).2

theorem flatten_orderedInsert {x : Nat × Str} (hx : x.2 = []) : ∀ (l : List (Nat × Str)),
    ((l.orderedInsert (fun a b => a.1 ≤ b.1) x).map Prod.snd).flatten = (l.map Prod.snd).flatten
  | [] => by simp [hx]
  | y :: l => by
    rw [orderedInsert_cons]
    split_ifs
    · simp [hx]
    · rw [map_cons, map_cons, flatten_cons, flatten_cons, flatten_orderedInsert hx l]

theorem extractLfnName_append {own : List LfnEntry} : ∀ {stray : List LfnEntry},
    (∀ l ∈ stray, l.getNamePart = []) → extractLfnName (stray ++ own) = extractLfnName own
  | [], _ => rfl
  | l :: stray, h => by
    have hrest := @extractLfnName_append own stray fun x hx => h x (mem_cons_of_mem l hx)
    unfold extractLfnName at hrest ⊢
    simp only [cons_append, map_cons, insertionSort_cons,
      flatten_orderedInsert (x := (l.sequence.toNat, l.getNamePart)) (h l mem_cons_self)]
    exact hrest

/-- The parts of `name` behind other parts give `name` exactly if they do alone and the others have no
text: what is read of `name` is never shorter than it. -/
theorem extractLfnName_eq_iff {stray : List LfnEntry} (h : (encodeUtf16 name).length ≤ 255) :
    extractLfnName (stray ++ lfnParts checksum (encodeUtf16 name)) = name ↔
      readName (encodeUtf16 name) = name ∧ ∀ l ∈ stray, l.getNamePart = [] := by
  have hown : extractLfnName (lfnParts checksum (encodeUtf16 name)) = readName (encodeUtf16 name) :=
    extractLfnName_stored (fun u hu => encodeUtf16_lt hu) h
  constructor
  · intro heq
    have hperm := extractLfnName_perm (stray ++ lfnParts checksum (encodeUtf16 name))
    rw [heq] at hperm
    have hkept : ∀ c ∈ name, Kept c.toNat := by
      intro c hc
      obtain ⟨l, -, hl⟩ := mem_flatMap.1 (hperm.mem_iff.1 hc)
      exact kept_of_mem_getNamePart hl
    have hlen := hperm.length_eq
    rw [flatMap_append, length_append,
      ← (extractLfnName_perm (lfnParts checksum (encodeUtf16 name))).length_eq, hown] at hlen
    have hle := length_le_readName hkept
    have hnil : stray.flatMap (·.getNamePart) = [] := length_eq_zero_iff.1 (by omega)
    have hstray := flatMap_eq_nil_iff.1 hnil
    rw [extractLfnName_append hstray, hown] at heq
    exact ⟨heq, hstray⟩
  · rintro ⟨heq, hstray⟩
    rw [extractLfnName_append hstray, hown, heq]

/-! ## The listing -/

/-- The long-name slots in use that no entry in use follows: a deleted entry does not take those in
front of it along. -/
def strayParts (pre : List Bytes) : List LfnEntry :=
  ((pre.rtakeWhile fun x => x.getD 0 0 = 0xE5 ∨ x.getD 11 0 = attrLongName).filter
    fun x => x.getD 0 0 ≠ 0xE5).filterMap LfnEntry.fromBytes

theorem partsAfter_eq_stray {pre : List Bytes} (h : ∀ x ∈ pre, x.getD 0 0 ≠ 0x00) :
    partsAfter [] pre = some (strayParts pre) := by
  induction pre using reverseRecOn with
  | nil => rfl
  | append_singleton pre x ih =>
    have h0 := h x (by simp)
    have hstray : strayParts (pre ++ [x]) =
        ((if x.getD 0 0 = 0xE5 ∨ x.getD 11 0 = attrLongName then
          pre.rtakeWhile (fun x => x.getD 0 0 = 0xE5 ∨ x.getD 11 0 = attrLongName) ++ [x]
          else []).filter fun x => x.getD 0 0 ≠ 0xE5).filterMap LfnEntry.fromBytes := by
      rw [strayParts, rtakeWhile_concat]
      simp only [decide_eq_true_eq]
    rw [partsAfter_append, ih fun y hy => h y (mem_append_left _ hy), Option.bind_some, partsAfter,
      readSlot, if_neg h0, hstray, strayParts]
    by_cases h5 : x.getD 0 0 = 0xE5
    · rw [if_pos h5, if_pos (.inl h5), filter_append, filter_cons_of_neg (by simpa using h5),
        filter_nil, append_nil]
      rfl
    · rw [if_neg h5]
      by_cases hl : x.getD 11 0 = attrLongName
      · rw [if_pos hl, if_pos (.inr hl), filter_append, filterMap_append,
          filter_cons_of_pos (by simpa using h5)]
        cases hf : LfnEntry.fromBytes x <;> simp [hf, partsAfter]
      · rw [if_neg hl, if_neg (by tauto)]
        cases fromBytes x with
        | none => rfl
        | some e =>
          simp only
          split_ifs <;> rfl

/-- **A long name is listed exactly if it is kept**: no U+0000 or U+FFFF, no surrogate pair in two
slots, not `.` or `..`, and no text in the slots of another long name whose entry is gone. -/
theorem longName_listed_iff {fs : Fat32FileSystem} {dir : Fat32Dir} {d d' : Disk} {data : Bytes}
    {pre post : List Bytes} {e : DirEntry}
    (hread : (dir.readAllClusterData fs ()).run Disk.handle d = ((.ok data, ()), d'))
    (hdata : chunks 32 data = pre ++ lfnSlots checksum name ++ e.toBytes :: post)
    (hpre : ∀ x ∈ pre, x.getD 0 0 ≠ 0x00)
    (hpos : 1 ≤ (encodeUtf16 name).length) (hlen : (encodeUtf16 name).length ≤ 255)
    (hlive : freeByte (e.name.getD 0 0) = false) (hattr : e.attr ≠ attrLongName)
    (hlabel : e.isVolumeLabel = false) :
    ∃ entries, (dir.parseEntriesWithOffsets fs ()).run Disk.handle d = ((.ok entries, ()), d') ∧
      (⟨name, e, (pre ++ lfnSlots checksum name).length * 32⟩ ∈ entries ↔
        (∀ c ∈ name, c.toNat ≠ 0 ∧ c.toNat ≠ 0xFFFF) ∧
        (∀ j, ¬ PairAt (encodeUtf16 name) (13 * j + 12)) ∧
        isDotName name = false ∧
        ∀ l ∈ strayParts pre, l.getNamePart = []) := by
  have hparse : RunsM anyView (dir.parseEntriesWithOffsets fs) () d
      (.ok (parseSlots [] 0 (chunks 32 data))) () d' :=
    RunsM.bind_ok (runsM_any_iff.2 hread) (RunsM.pure _)
  refine ⟨_, runsM_any_iff.1 hparse, ?_⟩
  have hparts : partsAfter [] (pre ++ lfnSlots checksum name) =
      some (strayParts pre ++ lfnParts checksum (encodeUtf16 name)) := by
    rw [partsAfter_append, partsAfter_eq_stray hpre, Option.bind_some, partsAfter_stored hlen]
  have hname : entryName (strayParts pre ++ lfnParts checksum (encodeUtf16 name)) e =
      extractLfnName (strayParts pre ++ lfnParts checksum (encodeUtf16 name)) := by
    have hne : (strayParts pre ++ lfnParts checksum (encodeUtf16 name)).isEmpty = false := by
      have hown := @lfnParts_isEmpty checksum _ hpos
      rw [isEmpty_eq_false_iff] at hown ⊢
      exact append_ne_nil_of_right_ne_nil _ hown
    rw [entryName, hne, if_neg Bool.false_ne_true]
  have hiff := @extractLfnName_eq_iff checksum name (strayParts pre) hlen
  rw [readName_eq_iff] at hiff
  rw [hdata, mem_parseSlots_at hparts (readSlot_toBytes hlive hattr), hname, hlabel, Bool.false_or]
  constructor
  · intro h
    split_ifs at h with hdot
    simp only [Option.some.injEq, Prod.mk.injEq, and_true] at h
    obtain ⟨⟨hkept, hpair⟩, hstray⟩ := hiff.1 h
    rw [h, Bool.not_eq_true] at hdot
    exact ⟨hkept, hpair, hdot, hstray⟩
  · rintro ⟨hkept, hpair, hdot, hstray⟩
    rw [hiff.2 ⟨⟨hkept, hpair⟩, hstray⟩, hdot, if_neg Bool.false_ne_true]

end

/-! ## Two directories -/

/-- A root directory with a deleted slot, an entry, and an entry with the long name `name`. -/
def namedRoot (name : Str) : Bytes :=
  (DirEntry.newFile ['A'] 0 0).markDeleted.toBytes ++ (DirEntry.newFile ['B'] 0 0).toBytes ++
    (lfnSlots 0 name).flatten ++ (DirEntry.newFile ['C'] 0 0).toBytes ++
    List.replicate (416 - (lfnSlots 0 name).length * 32) 0

/-- `n` letters and a character outside the basic plane. -/
def letters (n : Nat) : Str := List.replicate n 'a' ++ [Char.ofNat 0x1F600]

/-- The file system of `smallFs` with the root directory of `letters n`. -/
def namedDisk (n : Nat) (h : (namedRoot (letters n)).length = 512) : Disk :=
  smallDisk (namedRoot (letters n)) h 0

theorem longName_listed_iff_letters : ∃ entries d',
    (Fat32Dir.parseEntriesWithOffsets smallFs ⟨2, []⟩ ()).run Disk.handle
      (namedDisk 13 (by decide +kernel)) = ((.ok entries, ()), d') ∧
    ⟨letters 13, DirEntry.newFile ['C'] 0 0, 128⟩ ∈ entries := by
  have hres : ((Fat32Dir.readAllClusterData smallFs ⟨2, []⟩ ()).run Disk.handle
      (namedDisk 13 (by decide +kernel))).1.1 = .ok (namedRoot (letters 13)) := by decide +kernel
  cases hrun : (Fat32Dir.readAllClusterData smallFs ⟨2, []⟩ ()).run Disk.handle
      (namedDisk 13 (by decide +kernel)) with
  | mk q d' =>
    obtain ⟨r, t'⟩ := q
    rw [hrun] at hres
    obtain rfl : r = .ok (namedRoot (letters 13)) := hres
    have hstray : strayParts [(DirEntry.newFile ['A'] 0 0).markDeleted.toBytes,
        (DirEntry.newFile ['B'] 0 0).toBytes] = [] := by decide +kernel
    obtain ⟨entries, hentries, hmem⟩ := longName_listed_iff hrun
      (by decide +kernel : chunks 32 (namedRoot (letters 13)) =
        [(DirEntry.newFile ['A'] 0 0).markDeleted.toBytes, (DirEntry.newFile ['B'] 0 0).toBytes] ++
          lfnSlots 0 (letters 13) ++ (DirEntry.newFile ['C'] 0 0).toBytes ::
          List.replicate 11 (List.replicate 32 0))
      (by decide +kernel) (by decide +kernel) (by decide +kernel) (by decide +kernel) (by decide)
      (by decide)
    have hkept : ∀ c ∈ letters 13, c.toNat ≠ 0 ∧ c.toNat ≠ 0xFFFF := by
      intro c hc
      rcases mem_append.1 hc with hc | hc
      · rw [eq_of_mem_replicate hc]
        decide
      · rw [mem_singleton.1 hc]
        decide +kernel
    refine ⟨entries, d', hentries, hmem.2 ⟨hkept, ?_, by decide +kernel,
      by rw [hstray]; exact fun _ h => absurd h not_mem_nil⟩⟩
    rintro j ⟨u, v, hu, hv, hpair⟩
    obtain ⟨hj, -⟩ := List.getElem?_eq_some_iff.1 hv
    have hlen : (encodeUtf16 (letters 13)).length = 15 := by decide +kernel
    obtain rfl : j = 0 := by omega
    have hu' : (encodeUtf16 (letters 13))[12]? = some 97 := by decide +kernel
    rw [Nat.mul_zero, Nat.zero_add, hu'] at hu
    obtain rfl : 97 = u := Option.some.inj hu
    exact absurd hpair.1.1 (by decide)

/-- **A character whose two units are in different slots is not read back**: with twelve letters it
becomes two replacement characters. -/
theorem longName_split :
    ((Fat32Dir.parseEntriesWithOffsets smallFs ⟨2, []⟩ ()).run Disk.handle
      (namedDisk 12 (by decide +kernel))).1.1 =
      .ok [⟨['B'], DirEntry.newFile ['B'] 0 0, 32⟩,
        ⟨List.replicate 12 'a' ++ [replacement, replacement], DirEntry.newFile ['C'] 0 0, 128⟩] ∧
    letters 12 ≠ List.replicate 12 'a' ++ [replacement, replacement] := by
  decide +kernel

end Kerners.Fat32
