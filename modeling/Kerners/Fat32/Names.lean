import Kerners.Fat32.Handles
import Mathlib.Data.List.TakeWhile

/-!
# Names in a FAT32 directory (`src/fs/fat32/mod.rs`, `src/fs/fat32/dir.rs`)

`create` compares the full name with the visible names, and then stores no more of it than
`set_name` keeps: eight and three upper-case bytes. What a later `lookup` compares is what
`parse_entries_with_offsets` makes of the slot, which depends on the long-name parts that are still
pending there.
-/

namespace Kerners.Fat32

open Lib Kerners.Block List

/-! ## One new entry in the listing -/

/-- The long-name parts that are pending at slot `i`. -/
def pendingParts (slots : List Bytes) (i : Nat) : List LfnEntry :=
  (partsAfter [] (slots.take i)).getD []

/-- The entry that `set_name` makes of a name. -/
def shortEntry (name : Str) : DirEntry := DirEntry.empty.setName name

/-- Two names that `lookup` does not tell apart. -/
def NamesDiffer (a b : Listed) : Prop := eqIgnoreAsciiCase a.name b.name = false

/-- A new entry in slot `i` is read back under its name, and nothing else changes. -/
structure Fits (slots : List Bytes) (i : Nat) (name : Str) : Prop where
  live : freeByte ((shortEntry name).name.getD 0 0) = false
  notDot : isDotName (entryName (pendingParts slots i) (shortEntry name)) = false
  same : eqIgnoreAsciiCase (entryName (pendingParts slots i) (shortEntry name)) name = true
  parts : parseSlots (pendingParts slots i) (i + 1) (slots.drop (i + 1)) =
    parseSlots [] (i + 1) (slots.drop (i + 1))
  distinct : (parseSlots [] 0 slots).Pairwise NamesDiffer

/-- Exactly one entry was added, at `offset`; it is the one found under `name`, and all visible names
differ. -/
structure Entered (before after : List Listed) (name : Str) (offset : Nat) : Prop where
  found : ∃ e, Fat32Dir.findEntry after name = some e ∧ e.offset = offset
  one : after.length = before.length + 1
  kept : ∀ e ∈ before, e ∈ after
  distinct : after.Pairwise NamesDiffer

section

variable {slots : List Bytes} {parts : List LfnEntry} {i idx : Nat} {name : Str} {new : DirEntry}

theorem parseSlots_offset_ge {e : Listed} (h : e ∈ parseSlots parts idx slots) :
    idx * 32 ≤ e.offset ∧ e.offset < (idx + slots.length) * 32 := by
  obtain ⟨j, chunk, hoff, hj, -⟩ := mem_parseSlots h
  have hlt := (List.getElem?_eq_some_iff.mp hj).1
  omega

theorem parseSlots_sorted : ∀ {parts : List LfnEntry} {idx : Nat} {slots : List Bytes},
    (parseSlots parts idx slots).Pairwise fun a b => a.offset < b.offset
  | _, _, [] => List.Pairwise.nil
  | parts, idx, chunk :: rest => by
    rw [parseSlots_cons]
    cases readSlot parts chunk with
    | none => exact List.Pairwise.nil
    | some r =>
      refine pairwise_append.mpr ⟨?_, parseSlots_sorted, fun a ha b hb => ?_⟩
      · unfold listedAt
        cases r.2 with
        | none => exact List.Pairwise.nil
        | some x => exact pairwise_singleton _ _
      · have h1 := (mem_listedAt.mp ha).2
        have h2 := (parseSlots_offset_ge hb).1
        omega

theorem eq_of_sorted_subset {a b : List Listed} (ha : a.Pairwise fun x y => x.offset < y.offset)
    (hb : b.Pairwise fun x y => x.offset < y.offset) (hsub : ∀ e ∈ a, e ∈ b)
    (hlen : b.length ≤ a.length) : a = b := by
  have hnd : a.Nodup := ha.imp fun {x y} (hlt : x.offset < y.offset) (heq : x = y) =>
    absurd (congrArg Listed.offset heq) (Nat.ne_of_lt hlt)
  have hperm : a.Perm b := (subperm_of_subset hnd hsub).perm_of_length_le hlen
  exact hperm.eq_of_pairwise (fun x y _ _ h1 h2 => absurd h1 (Nat.lt_asymm h2)) ha hb

theorem partsAfter_some : ∀ {parts : List LfnEntry} {pre : List Bytes},
    (∀ x ∈ pre, freeByte (x.getD 0 0) = false) → ∃ parts', partsAfter parts pre = some parts'
  | parts, [], _ => ⟨parts, rfl⟩
  | parts, chunk :: pre, h => by
    have h0 := h chunk mem_cons_self
    simp only [freeByte, Bool.or_eq_false_iff, beq_eq_false_iff_ne] at h0
    have hread : ∃ r, readSlot parts chunk = some r := by
      unfold readSlot
      rw [if_neg h0.1, if_neg h0.2]
      split
      · exact ⟨_, rfl⟩
      · split
        · exact ⟨_, rfl⟩
        · split <;> exact ⟨_, rfl⟩
    obtain ⟨r, hr⟩ := hread
    rw [partsAfter, hr, Option.bind_some]
    exact partsAfter_some fun x hx => h x (mem_cons_of_mem chunk hx)

theorem findFree_spec (h : findFree slots = some i) :
    ∃ old, slots[i]? = some old ∧
      freeByte (old.getD 0 0) = true ∧
      ∀ x ∈ slots.take i, freeByte (x.getD 0 0) = false := by
  obtain ⟨hlt, hfree, hpre⟩ := findIdx?_eq_some_iff_getElem.mp h
  refine ⟨_, getElem?_eq_getElem hlt, hfree, fun x hx => ?_⟩
  obtain ⟨j, hj, rfl⟩ := mem_take_iff_getElem.mp hx
  exact Bool.eq_false_iff.mpr (hpre j (by omega))

theorem partsAfter_findFree (h : findFree slots = some i) :
    partsAfter [] (slots.take i) = some (pendingParts slots i) := by
  obtain ⟨-, -, -, hpre⟩ := findFree_spec h
  obtain ⟨parts, hparts⟩ := @partsAfter_some [] _ hpre
  rw [pendingParts, hparts, Option.getD_some]

theorem listing_before (hz : ZeroTail slots) (h : findFree slots = some i) :
    parseSlots [] 0 slots = parseSlots [] 0 (slots.take i) ++
      parseSlots (pendingParts slots i) (i + 1) (slots.drop (i + 1)) := by
  obtain ⟨old, hi, hfree, -⟩ := findFree_spec h
  obtain ⟨heq, -, hlen⟩ := set_eq_append hi old
  have hsplit : parseSlots [] 0 slots = parseSlots [] 0 (slots.take i) ++
      parseSlots (pendingParts slots i) i (old :: slots.drop (i + 1)) := by
    conv_lhs => rw [heq]
    rw [parseSlots_append, partsAfter_findFree h, hlen, Option.elim_some, Nat.zero_add]
  rw [hsplit, parseSlots_cons]
  congr 1
  simp only [freeByte, Bool.or_eq_true, beq_iff_eq] at hfree
  by_cases h0 : old.getD 0 0 = 0x00
  · -- behind the end marker there is nothing
    have hzero : ∀ x ∈ slots.drop (i + 1), x.getD 0 0 = 0x00 := fun x hx => by
      rw [heq] at hz
      exact (pairwise_cons.mp (pairwise_append.mp hz).2.1).1 x hx h0
    rw [readSlot, if_pos h0, parseSlots_zeros hzero]
    rfl
  · rw [readSlot, if_neg h0, if_pos (hfree.resolve_left h0)]
    rfl

theorem listing_after (h : findFree slots = some i) (bytes : Bytes) :
    parseSlots [] 0 (slots.set i bytes) = parseSlots [] 0 (slots.take i) ++
      (readSlot (pendingParts slots i) bytes).elim [] fun r =>
        listedAt i r.2 ++ parseSlots r.1 (i + 1) (slots.drop (i + 1)) := by
  obtain ⟨old, hi, -, -⟩ := findFree_spec h
  obtain ⟨-, hset, hlen⟩ := set_eq_append hi bytes
  rw [hset, parseSlots_append, partsAfter_findFree h, hlen, Option.elim_some, Nat.zero_add,
    parseSlots_cons]

theorem entryName_congr (hn : new.name = (shortEntry name).name)
    (hx : new.ext = (shortEntry name).ext) :
    entryName parts new = entryName parts (shortEntry name) := by
  unfold entryName DirEntry.shortName
  rw [hn, hx]

theorem eqIgnoreAsciiCase_comm (a b : Str) : eqIgnoreAsciiCase a b = eqIgnoreAsciiCase b a :=
  Bool.beq_comm

theorem eqIgnoreAsciiCase_left {a b c : Str} (h : eqIgnoreAsciiCase b c = true) :
    eqIgnoreAsciiCase a b = eqIgnoreAsciiCase a c := by
  unfold eqIgnoreAsciiCase at h ⊢
  rw [eq_of_beq h]

section

variable (hz : ZeroTail slots) (hfind : findFree slots = some i)
  (hn : new.name = (shortEntry name).name) (hx : new.ext = (shortEntry name).ext)

include hfind hn hx in
theorem visible_new {e : Listed} (he : e ∈ parseSlots [] 0 (slots.set i new.toBytes))
    (hoff : e.offset = i * 32) :
    freeByte ((shortEntry name).name.getD 0 0) = false ∧
    isDotName (entryName (pendingParts slots i) (shortEntry name)) = false ∧
    e = ⟨entryName (pendingParts slots i) (shortEntry name), new, i * 32⟩ ∧
    parseSlots [] 0 (slots.set i new.toBytes) =
      parseSlots [] 0 (slots.take i) ++ e :: parseSlots [] (i + 1) (slots.drop (i + 1)) := by
  have hlist := listing_after hfind new.toBytes
  have hpre : ∀ x ∈ parseSlots [] 0 (slots.take i), x.offset < i * 32 := fun x hx' => by
    have hlt := (parseSlots_offset_ge hx').2
    rw [length_take] at hlt
    omega
  rw [hlist] at he
  rcases mem_append.mp he with he | he
  · exact absurd hoff (Nat.ne_of_lt (hpre e he))
  cases hread : readSlot (pendingParts slots i) new.toBytes with
  | none =>
    rw [hread] at he
    cases he
  | some r =>
    rw [hread, Option.elim_some] at he hlist
    rcases mem_append.mp he with he | he
    · obtain ⟨hvis, -⟩ := mem_listedAt.mp he
      obtain ⟨parts', vis⟩ := r
      obtain rfl : vis = some (e.name, e.entry) := hvis
      obtain ⟨rfl, hdec, hlive, hname, hdot, -, -⟩ := readSlot_some_visible hread
      have henc := new.fromBytes_toBytes []
      rw [append_nil, hdec] at henc
      obtain rfl : e.entry = new := Option.some.inj henc
      rw [DirEntry.toBytes_head, hn] at hlive
      rw [entryName_congr hn hx] at hname
      have heq : e = ⟨entryName (pendingParts slots i) (shortEntry name), e.entry, i * 32⟩ := by
        rw [← hname, ← hoff]
      refine ⟨hlive, hname ▸ hdot, heq, hlist.trans ?_⟩
      have hat : listedAt i (some (e.name, e.entry)) = [e] := by
        conv_rhs => rw [heq]
        rw [hname]
        rfl
      rw [hat]
      rfl
    · have hge := (parseSlots_offset_ge he).1
      omega

include hz hfind hn hx in
theorem Entered.fits
    (h : Entered (parseSlots [] 0 slots) (parseSlots [] 0 (slots.set i new.toBytes)) name (i * 32)) :
    Fits slots i name := by
  obtain ⟨e, hfound, hoff⟩ := h.found
  obtain ⟨hlive, hdot, he, hafter⟩ :=
    visible_new hfind hn hx (mem_of_find?_eq_some hfound) hoff
  have hbefore := listing_before hz hfind
  have hsame := find?_some hfound
  rw [he] at hsame
  have hparts : parseSlots (pendingParts slots i) (i + 1) (slots.drop (i + 1)) =
      parseSlots [] (i + 1) (slots.drop (i + 1)) := by
    refine eq_of_sorted_subset parseSlots_sorted parseSlots_sorted (fun y hy => ?_) ?_
    · have hge := (parseSlots_offset_ge hy).1
      have hy' := h.kept y (hbefore ▸ mem_append_right _ hy)
      rw [hafter] at hy'
      rcases mem_append.mp hy' with hy' | hy'
      · have hlt := (parseSlots_offset_ge hy').2
        rw [length_take] at hlt
        omega
      · rcases mem_cons.mp hy' with rfl | hy'
        · omega
        · exact hy'
    · have hone := h.one
      rw [hafter, hbefore, length_append, length_append, length_cons] at hone
      omega
  refine ⟨hlive, hdot, hsame, hparts, ?_⟩
  have hdist := h.distinct
  rw [hafter] at hdist
  rw [hbefore, hparts]
  exact hdist.sublist (List.Sublist.append_left (sublist_cons_self e _) _)

include hz hfind hn hx in
theorem Fits.entered (h : Fits slots i name) (hattr : new.attr ≠ attrLongName)
    (hvol : new.isVolumeLabel = false)
    (hnone : Fat32Dir.findEntry (parseSlots [] 0 slots) name = none) :
    Entered (parseSlots [] 0 slots) (parseSlots [] 0 (slots.set i new.toBytes)) name (i * 32) := by
  have hread := @readSlot_toBytes (pendingParts slots i) new (by rw [hn]; exact h.live) hattr
  rw [entryName_congr hn hx, hvol, h.notDot] at hread
  have hafter := listing_after hfind new.toBytes
  rw [hread] at hafter
  have hbefore := listing_before hz hfind
  rw [h.parts] at hbefore
  generalize he : (⟨entryName (pendingParts slots i) (shortEntry name), new, i * 32⟩ : Listed) = e
  have hafter' : parseSlots [] 0 (slots.set i new.toBytes) =
      parseSlots [] 0 (slots.take i) ++ e :: parseSlots [] (i + 1) (slots.drop (i + 1)) := by
    rw [hafter, ← he]
    rfl
  have hother : ∀ y ∈ parseSlots [] 0 slots, eqIgnoreAsciiCase y.name name = false := fun y hy =>
    Bool.eq_false_iff.mpr (find?_eq_none.mp hnone y hy)
  have hename : eqIgnoreAsciiCase e.name name = true := by
    rw [← he]
    exact h.same
  have hdiffer : ∀ y ∈ parseSlots [] 0 slots, NamesDiffer y e := fun y hy =>
    (eqIgnoreAsciiCase_left hename).trans (hother y hy)
  have hdist := h.distinct
  rw [hbefore] at hother hdiffer hdist ⊢
  rw [hafter']
  obtain ⟨hd1, hd2, hd3⟩ := pairwise_append.mp hdist
  refine ⟨⟨e, ?_, by rw [← he]⟩, ?_, fun y hy => ?_, ?_⟩
  · have hpre : (parseSlots [] 0 (slots.take i)).find? (fun l => eqIgnoreAsciiCase l.name name) =
        none := find?_eq_none.mpr fun y hy =>
      Bool.eq_false_iff.mp (hother y (mem_append_left _ hy))
    unfold Fat32Dir.findEntry
    rw [find?_append, hpre, find?_cons_of_pos (by exact hename)]
    rfl
  · rw [length_append, length_append, length_cons]
    omega
  · rcases mem_append.mp hy with hy | hy
    · exact mem_append_left _ hy
    · exact mem_append_right _ (mem_cons_of_mem e hy)
  · refine pairwise_append.mpr ⟨hd1, pairwise_cons.mpr ⟨fun y hy => ?_, hd2⟩, ?_⟩
    · exact (eqIgnoreAsciiCase_comm _ _).trans (hdiffer y (mem_append_right _ hy))
    · intro y hy z hz'
      rcases mem_cons.mp hz' with rfl | hz'
      · exact hdiffer y (mem_append_left _ hy)
      · exact hd3 y hy z hz'

end

end

/-! ## Names of eight and three characters -/

def plainChar (c : Char) : Bool := isAscii c && c ≠ ' ' && c ≠ '.' && c.toNat ≠ 0

/-- What `set_name` and `short_name` make of a plain character. -/
structure PlainUpper (c : Char) : Prop where
  lt : charByte (asciiUpper c) < 0x80
  notBlank : charByte (asciiUpper c) ≠ 0x20
  notNul : charByte (asciiUpper c) ≠ 0
  back : Char.ofNat (charByte (asciiUpper c)).toNat = asciiUpper c
  notDot : asciiUpper c ≠ '.'
  lower : asciiLower (asciiUpper c) = asciiLower c

theorem plainUpper {c : Char} (h : plainChar c = true) : PlainUpper c := by
  have hall : ∀ n : Fin 128, plainChar (Char.ofNat n) = true →
      let u := asciiUpper (Char.ofNat n)
      charByte u < 0x80 ∧ charByte u ≠ 0x20 ∧ charByte u ≠ 0 ∧
        Char.ofNat (charByte u).toNat = u ∧ u ≠ '.' ∧ asciiLower u = asciiLower (Char.ofNat n) := by
    decide +kernel
  have hlt : c.toNat < 128 := by
    unfold plainChar isAscii at h
    simp only [Bool.and_eq_true, decide_eq_true_eq] at h
    exact h.1.1.1
  have hc := hall ⟨c.toNat, hlt⟩
  simp only [Char.ofNat_toNat] at hc
  obtain ⟨h1, h2, h3, h4, h5, h6⟩ := hc h
  exact ⟨h1, h2, h3, h4, h5, h6⟩

/-- A base of one to eight plain characters, and an extension of up to three. -/
inductive ShortForm : Str → Prop
  | base {base : Str} (hne : base ≠ []) (hlen : base.length ≤ 8)
      (hb : ∀ c ∈ base, plainChar c = true) : ShortForm base
  | ext {base ext : Str} (hne : base ≠ []) (hlen : base.length ≤ 8)
      (hb : ∀ c ∈ base, plainChar c = true) (hnx : ext ≠ []) (hlx : ext.length ≤ 3)
      (hx : ∀ c ∈ ext, plainChar c = true) : ShortForm (base ++ '.' :: ext)

section

variable {name base ext : Str}

theorem splitName_plain (h : ∀ c ∈ name, plainChar c = true) : splitName name = (name, []) := by
  have hdrop : name.reverse.dropWhile (· ≠ '.') = [] := by
    have hne : ∀ c ∈ name.reverse, decide (c ≠ '.') = true := fun c hc => by
      have hp := h c (mem_reverse.mp hc)
      unfold plainChar at hp
      simp only [Bool.and_eq_true] at hp
      exact hp.1.2
    exact dropWhile_eq_nil_iff.mpr hne
  unfold splitName
  rw [hdrop]

theorem splitName_ext (hx : ∀ c ∈ ext, plainChar c = true) :
    splitName (base ++ '.' :: ext) = (base, ext) := by
  have hne : ∀ c ∈ ext.reverse, decide (c ≠ '.') = true := fun c hc => by
    have hp := hx c (mem_reverse.mp hc)
    unfold plainChar at hp
    simp only [Bool.and_eq_true] at hp
    exact hp.1.2
  have hrev : (base ++ '.' :: ext).reverse = ext.reverse ++ '.' :: base.reverse := by simp
  unfold splitName
  rw [hrev, dropWhile_append_of_pos hne, takeWhile_append_of_pos hne]
  simp

theorem takeWhile_nameField {n : Nat} {s : Str} (hlen : s.length ≤ n)
    (h : ∀ c ∈ s, plainChar c = true) :
    ((nameField n s).takeWhile fun c => c ≠ 0x20 ∧ c ≠ 0) =
      s.map (fun c => charByte (asciiUpper c)) ∧
    fromUtf8Lossy (s.map fun c => charByte (asciiUpper c)) = s.map asciiUpper := by
  have hbytes : ∀ b ∈ s.map fun c => charByte (asciiUpper c), b < 0x80 ∧ b ≠ 0x20 ∧ b ≠ 0 := by
    intro b hb
    obtain ⟨c, hc, rfl⟩ := mem_map.mp hb
    have hu := plainUpper (h c hc)
    exact ⟨hu.lt, hu.notBlank, hu.notNul⟩
  constructor
  · rw [nameField, take_of_length_le hlen,
      takeWhile_append_of_pos fun b hb => by simpa using (hbytes b hb).2]
    simp
  · rw [fromUtf8Lossy_ascii fun b hb => (hbytes b hb).1, map_map]
    exact map_congr_left fun c hc => (plainUpper (h c hc)).back

/-- **A name of this form is read back in upper case.** -/
theorem ShortForm.shortName_eq (h : ShortForm name) :
    (shortEntry name).shortName = name.map asciiUpper := by
  unfold DirEntry.shortName
  cases h with
  | base hne hlen hb =>
    have hn : (shortEntry name).name = nameField 8 name := by
      change nameField 8 (splitName name).1 = _
      rw [splitName_plain hb]
    have hx : (shortEntry name).ext = nameField 3 [] := by
      change nameField 3 (splitName name).2 = _
      rw [splitName_plain hb]
    have hnil := (@takeWhile_nameField 3 [] (by decide) nofun).1
    simp only [hn, hx, (takeWhile_nameField hlen hb).1, hnil, map_nil, isEmpty_nil, if_true]
    exact (takeWhile_nameField hlen hb).2
  | @ext b x hne hlen hb hnx hlx hxs =>
    have hn : (shortEntry (b ++ '.' :: x)).name = nameField 8 b := by
      change nameField 8 (splitName (b ++ '.' :: x)).1 = _
      rw [splitName_ext hxs]
    have hx : (shortEntry (b ++ '.' :: x)).ext = nameField 3 x := by
      change nameField 3 (splitName (b ++ '.' :: x)).2 = _
      rw [splitName_ext hxs]
    obtain ⟨c, cs, rfl⟩ := exists_cons_of_ne_nil hnx
    simp only [hn, hx, (takeWhile_nameField hlen hb).1, (takeWhile_nameField hlx hxs).1,
      (takeWhile_nameField hlen hb).2, (takeWhile_nameField hlx hxs).2]
    simp [asciiUpper]

theorem ShortForm.head (h : ShortForm name) : ∃ c, plainChar c = true ∧ name.head? = some c ∧
    (shortEntry name).name.getD 0 0 = charByte (asciiUpper c) := by
  cases h with
  | base hne _ hb =>
    obtain ⟨c, cs, rfl⟩ := exists_cons_of_ne_nil hne
    refine ⟨c, hb c mem_cons_self, rfl, ?_⟩
    change (nameField 8 (splitName (c :: cs)).1).getD 0 0 = _
    rw [splitName_plain hb]
    rfl
  | @ext b x hne _ hb _ _ hxs =>
    obtain ⟨c, cs, rfl⟩ := exists_cons_of_ne_nil hne
    refine ⟨c, hb c mem_cons_self, rfl, ?_⟩
    change (nameField 8 (splitName (c :: cs ++ '.' :: x)).1).getD 0 0 = _
    rw [splitName_ext hxs]
    rfl

theorem ShortForm.live (h : ShortForm name) :
    freeByte ((shortEntry name).name.getD 0 0) = false := by
  obtain ⟨c, hc, -, hhead⟩ := h.head
  have hu := plainUpper hc
  rw [hhead, freeByte, Bool.or_eq_false_iff, beq_eq_false_iff_ne, beq_eq_false_iff_ne]
  exact ⟨hu.notNul, fun heq => absurd (heq ▸ hu.lt) (by decide)⟩

theorem ShortForm.notDot (h : ShortForm name) : isDotName (name.map asciiUpper) = false := by
  obtain ⟨c, hc, hhead, -⟩ := h.head
  obtain ⟨cs, rfl⟩ := head?_eq_some_iff.mp hhead
  have hne := (plainUpper hc).notDot
  rw [isDotName, Bool.or_eq_false_iff, beq_eq_false_iff_ne, beq_eq_false_iff_ne]
  constructor <;> intro heq <;> exact hne (List.cons.inj heq).1

theorem ShortForm.lower (h : ShortForm name) :
    (name.map asciiUpper).map asciiLower = name.map asciiLower := by
  have hplain : ∀ c ∈ name, asciiLower (asciiUpper c) = asciiLower c := by
    cases h with
    | base _ _ hb => exact fun c hc => (plainUpper (hb c hc)).lower
    | ext _ _ hb _ _ hx =>
      intro c hc
      rcases mem_append.mp hc with hc | hc
      · exact (plainUpper (hb c hc)).lower
      · rcases mem_cons.mp hc with rfl | hc
        · decide
        · exact (plainUpper (hx c hc)).lower
  rw [map_map]
  exact map_congr_left hplain

theorem Fits.of_shortForm {slots : List Bytes} {i : Nat} (h : ShortForm name)
    (hpend : pendingParts slots i = []) (hdist : (parseSlots [] 0 slots).Pairwise NamesDiffer) :
    Fits slots i name := by
  have hshow : entryName (pendingParts slots i) (shortEntry name) = name.map asciiUpper := by
    rw [hpend]
    exact h.shortName_eq
  refine ⟨h.live, by rw [hshow]; exact h.notDot, ?_, by rw [hpend], hdist⟩
  rw [hshow, eqIgnoreAsciiCase, beq_iff_eq]
  exact h.lower

/-- **The short names round-trip**: `short_name` reads back the name in upper case, and names with
the same fields differ in case only. -/
theorem setName_shortName (e : DirEntry) (h : ShortForm name) :
    (e.setName name).shortName = name.map asciiUpper ∧
      ∀ (e' : DirEntry) (name' : Str), ShortForm name' →
        (e.setName name).name = (e'.setName name').name →
        (e.setName name).ext = (e'.setName name').ext → eqIgnoreAsciiCase name name' = true := by
  refine ⟨h.shortName_eq, fun e' name' h' hn hx => ?_⟩
  have hsame : (shortEntry name).shortName = (shortEntry name').shortName := by
    have hn' : (shortEntry name).name = (shortEntry name').name := hn
    have hx' : (shortEntry name).ext = (shortEntry name').ext := hx
    unfold DirEntry.shortName
    rw [hn', hx']
  rw [h.shortName_eq, h'.shortName_eq] at hsame
  rw [eqIgnoreAsciiCase, beq_iff_eq, ← h.lower, hsame, h'.lower]

theorem setName_shortName_init :
    (DirEntry.empty.setName "init.Sh".toList).shortName = "INIT.SH".toList := by
  have hplain : ∀ c ∈ "init".toList, plainChar c = true := List.all_eq_true.mp (by decide)
  have hplain' : ∀ c ∈ "Sh".toList, plainChar c = true := List.all_eq_true.mp (by decide)
  exact (setName_shortName DirEntry.empty (ShortForm.ext (by decide) (by decide) hplain (by decide)
    (by decide) hplain')).1

end

/-! ## What `create` leaves -/

def SameObject : VNode → VNode → Prop
  | .file f s, .file f' s' =>
    f.parentCluster = f'.parentCluster ∧ f.entryOffset = f'.entryOffset ∧ s = s'
  | .dir d, .dir d' => d.cluster = d'.cluster
  | _, _ => False

/-- `v'` is `v` with the entry `new` for `node` in the first free slot, number `i`. -/
structure Stores (fs : Fat32FileSystem) (dir : Fat32Dir) (name : Str) (l : List Nat) (v : Vol)
    (node : VNode) (v' : Vol) (i : Nat) (new : DirEntry) : Prop where
  free : findFree ((slotsOf fs l).map v.slot) = some i
  chain : Chain fs v' dir.cluster l
  slots : (slotsOf fs l).map v'.slot = ((slotsOf fs l).map v.slot).set i new.toBytes
  base : new.name = (shortEntry name).name
  ext : new.ext = (shortEntry name).ext
  attr : new.attr ≠ attrLongName
  label : new.isVolumeLabel = false
  object : ∀ n, SameObject (dir.vnodeOf ⟨n, new, i * 32⟩) node

section

variable {fs : Fat32FileSystem} {v : Vol} {l : List Nat} {σ : Type} {t : σ} {dir : Fat32Dir}

theorem not_volumeLabel {e : DirEntry} (h : e.attr = attrArchive ∨ e.attr = attrDirectory) :
    e.isVolumeLabel = false := by
  unfold DirEntry.isVolumeLabel
  rcases h with h | h <;> rw [h] <;> rfl

theorem vnodeOf_newFile (name n : Str) (offset : Nat) :
    dir.vnodeOf ⟨n, DirEntry.newFile name 0 0, offset⟩ = .file ⟨n, dir.cluster, offset⟩ ⟨0, 0⟩ := by
  have hdir : (DirEntry.newFile name 0 0).isDir = false :=
    (by decide : (attrArchive &&& attrDirectory != 0) = false)
  have hcl : (DirEntry.newFile name 0 0).cluster = 0 :=
    DirEntry.cluster_setCluster (shortEntry name) (by decide)
  unfold Fat32Dir.vnodeOf
  simp only [hdir, hcl, Bool.false_eq_true, if_false]
  rfl

theorem vnodeOf_newDir {c : Nat} (name n : Str) (offset : Nat) (hc : c < 2 ^ 32) :
    dir.vnodeOf ⟨n, DirEntry.newDir name c, offset⟩ = .dir ⟨c, n⟩ := by
  have hdir : (DirEntry.newDir name c).isDir = true :=
    (by decide : (attrDirectory &&& attrDirectory != 0) = true)
  have hcl : (DirEntry.newDir name c).cluster = c :=
    DirEntry.cluster_setCluster (shortEntry name) hc
  unfold Fat32Dir.vnodeOf
  simp only [hdir, hcl, if_true]

theorem createFile_stores (hv : FullClusters fs v) (hl : chainOf fs v dir.cluster = .ok l)
    (hchain : 2 ≤ dir.cluster → Chain fs v dir.cluster l) (name : Str) :
    ∃ r v', RunsM (volView fs) (dir.createFile fs name : OpM σ VNode) t v r t v' ∧
      ∀ node, r = .ok node → ∃ i new, Stores fs dir name l v node v' i new := by
  cases hfind : findFree ((slotsOf fs l).map v.slot) with
  | none => exact ⟨_, v, createFile_runs_full hl name hfind, fun node hn => absurd hn (by simp)⟩
  | some i =>
    obtain ⟨s, hi, -⟩ := findFree_some hfind
    have h := hchain (two_le_of_slot hl hi)
    refine ⟨_, _, createFile_runs h name hfind hi,
      fun node hn => ⟨i, DirEntry.newFile name 0 0, ?_⟩⟩
    obtain rfl := Except.ok.inj hn
    refine ⟨hfind, h.congr fun _ _ => rfl, ?_, rfl, rfl,
      (by decide : attrArchive ≠ attrLongName), not_volumeLabel (.inl rfl), fun n => ?_⟩
    · exact map_slot_putSlot hv (fun _ hc => h.inRange hc) h.nodup hi (DirEntry.toBytes_length _)
    · rw [vnodeOf_newFile]
      exact ⟨rfl, rfl, rfl⟩

theorem createDirectory_stores (hend : fs.totalClusters + 2 < 2 ^ 32) (hv : FullClusters fs v)
    (hl : chainOf fs v dir.cluster = .ok l) (hchain : 2 ≤ dir.cluster → Chain fs v dir.cluster l)
    (name : Str) :
    ∃ r v', RunsM (volView fs) (dir.createDirectory fs name : OpM σ VNode) t v r t v' ∧
      ∀ node, r = .ok node → ∃ i new, Stores fs dir name l v node v' i new := by
  have halloc : RunsM (volView fs) fs.allocCall FatTable.new v
      ((pickFree fs v 2).elim (.error .noSpace) .ok) (allocOutcome v FatTable.new (pickFree fs v 2)).1
      (allocOutcome v FatTable.new (pickFree fs v 2)).2 :=
    RunsM.call (allocCluster_runs (hintOk_new fs))
  cases hpick : pickFree fs v 2 with
  | none =>
    rw [hpick] at halloc
    exact ⟨_, _, RunsM.bind_error (.within (.mapErr_error halloc)),
      fun node hn => absurd hn (by simp)⟩
  | some c =>
    rw [hpick] at halloc
    obtain ⟨hr, hfree⟩ := pickFree_some (hintOk_new fs) hpick
    have hl' := chainOf_withDir hl hchain hfree
    have hfind' := @findFreeEntrySlot_runs _ _ _ dir hl'
    cases hfind : findFree ((slotsOf fs l).map (v.withDir fs dir c).slot) with
    | none =>
      rw [hfind] at hfind'
      exact ⟨_, _, createDirectory_runs halloc hr name (.bind_error (vfsCall_error hfind')),
        fun node hn => absurd hn (by simp)⟩
    | some i =>
      rw [hfind] at hfind'
      obtain ⟨s, hi, -⟩ := findFree_some hfind
      have h := hchain (two_le_of_slot hl hi)
      obtain ⟨h', -, hslots⟩ : Chain fs (v.withDir fs dir c) dir.cluster l ∧ c ∉ l ∧
          ∀ s ∈ slotsOf fs l, (v.withDir fs dir c).slot s = v.slot s := h.withDir hfree
      have hsame : (slotsOf fs l).map (v.withDir fs dir c).slot = (slotsOf fs l).map v.slot :=
        map_congr_left hslots
      have hv' : FullClusters fs (v.withDir fs dir c) := fun x hx => by
        by_cases hxc : x = c
        · rw [hxc, Vol.withDir, Vol.setData_self, newDirData_length]
        · rw [Vol.withDir, Vol.setData_of_ne _ _ hxc]
          exact hv x hx
      refine ⟨_, _, createDirectory_runs halloc hr name (.bind_ok (vfsCall_ok hfind')
        (.bind_ok (vfsCall_ok (writeDirEntry_runs h' hi rfl _)) (.pure _))),
        fun node hn => ⟨i, DirEntry.newDir name c, ?_⟩⟩
      obtain rfl := Except.ok.inj hn
      refine ⟨hsame ▸ hfind, h'.congr fun _ _ => rfl, ?_, rfl, rfl,
        (by decide : attrDirectory ≠ attrLongName), not_volumeLabel (.inr rfl), fun n => ?_⟩
      · rw [← hsame]
        exact map_slot_putSlot hv' (fun _ hc => h'.inRange hc) h'.nodup hi
          (DirEntry.toBytes_length _)
      · rw [vnodeOf_newDir name n _ (Nat.lt_trans hr.2 hend)]
        rfl

theorem create_stores (hend : fs.totalClusters + 2 < 2 ^ 32) (hv : FullClusters fs v)
    (hl : chainOf fs v dir.cluster = .ok l) (hchain : 2 ≤ dir.cluster → Chain fs v dir.cluster l)
    (name : Str) (kind : VNodeType) :
    ∃ r v', RunsM (volView fs) (dir.create fs name kind : OpM σ VNode) t v r t v' ∧
      ∀ node, r = .ok node →
          Fat32Dir.findEntry (entriesOf fs v l) name = none ∧
          ∃ i new, Stores fs dir name l v node v' i new := by
  refine create_runs hl name kind ?_
  cases kind with
  | file => exact createFile_stores hv hl hchain name
  | directory => exact createDirectory_stores hend hv hl hchain name
  | other => exact ⟨_, v, RunsM.throw _, fun node hn => absurd hn (by simp)⟩

end

/-! ## A directory as a map of names -/

/-- `create(name, kind)` in the directory `dir` of the disk `d` returned `node` and left `d'`. -/
def Creates (fs : Fat32FileSystem) (dir : Fat32Dir) (name : Str) (kind : VNodeType) (d : Disk)
    (node : VNode) (d' : Disk) : Prop :=
  ((dir.create fs name kind : OpM Unit VNode) ()).run Disk.handle d = ((.ok node, ()), d')

/-- What an operation returns on the disk `d`. -/
def resultOn {α : Type} (m : OpM Unit α) (d : Disk) : Except (Fault VfsError) α :=
  ((m ()).run Disk.handle d).1.1

/-- What `lookup` returns on the disk `d`. -/
def Fat32Dir.lookupOn (fs : Fat32FileSystem) (dir : Fat32Dir) (name : Str) (d : Disk) :
    Except (Fault VfsError) VNode :=
  resultOn (dir.lookup fs name) d

/-- What `readdir` returns on the disk `d`; nothing if it fails. -/
def Fat32Dir.readdirOn (fs : Fat32FileSystem) (dir : Fat32Dir) (d : Disk) :
    List (Str × VNodeType) :=
  (resultOn (dir.readdir fs) d).toOption.getD []

/-- **The directory acts as a map of names** in a `create` that took the disk from `d` to `d'`:
`lookup` finds the new object, in the slot that was free; `readdir` shows one entry more; what was
visible still is, under its name; and all visible names differ. -/
structure ActsAsMap (fs : Fat32FileSystem) (dir : Fat32Dir) (name : Str) (node : VNode)
    (d d' : Disk) : Prop where
  lookup : ∃ e, Fat32Dir.findEntry ((fs.readings d').entries dir.cluster) name = some e ∧
    (findFree ((fs.readings d).slots dir.cluster)).map (· * 32) = some e.offset ∧
    dir.lookupOn fs name d' = .ok (dir.vnodeOf e) ∧ SameObject (dir.vnodeOf e) node
  one : (dir.readdirOn fs d').length = (dir.readdirOn fs d).length + 1
  kept : ∀ e ∈ (fs.readings d).entries dir.cluster, e ∈ (fs.readings d').entries dir.cluster
  distinct : ((fs.readings d').entries dir.cluster).Pairwise NamesDiffer

section

variable {fs : Fat32FileSystem} {dir : Fat32Dir} {name : Str} {kind : VNodeType} {node : VNode}
  {d d' : Disk} {w : Owner} {l : List Nat}

theorem resultOn_eq {α : Type} {m : OpM Unit α} {r : Except (Fault VfsError) α} {v v' : Vol}
    (h : RunsM (volView fs) m () v r () v') (hp : Presents fs d v) : resultOn m d = r :=
  runsM_eq h hp

theorem readings_dir (hc : Consistent fs d) (hl : chainOf fs (fs.volOf d) dir.cluster = .ok l) :
    (fs.readings d).slots dir.cluster = (slotsOf fs l).map (fs.volOf d).slot ∧
      (fs.readings d).entries dir.cluster = entriesOf fs (fs.volOf d) l ∧
      dir.readdirOn fs d = dirListing (entriesOf fs (fs.volOf d) l) ∧
      dir.lookupOn fs name d = lookupIn dir (entriesOf fs (fs.volOf d) l) name := by
  have hp := presents_volOf hc
  have hslots : slotsAt fs (fs.volOf d) dir.cluster = (slotsOf fs l).map (fs.volOf d).slot := by
    rw [slotsAt, listAt_ok hl]
  rw [readings_eq hc]
  refine ⟨hslots, congrArg (parseSlots [] 0) hslots, ?_, ?_⟩
  · exact toOption_ok (resultOn_eq (readdir_runs hl) hp)
  · exact resultOn_eq (lookup_runs hl name) hp

theorem Creates.stores (h : Creates fs dir name kind d node d') (hc : Consistent fs d)
    (hwf : fs.WellFormed d) (hdir : Dirs fs (fs.readings d) w dir.cluster) :
    ∃ l i new, Consistent fs d' ∧
      chainOf fs (fs.volOf d) dir.cluster = .ok l ∧
      ZeroTail ((slotsOf fs l).map (fs.volOf d).slot) ∧
      Fat32Dir.findEntry (entriesOf fs (fs.volOf d) l) name = none ∧
      Stores fs dir name l (fs.volOf d) node (fs.volOf d') i new := by
  have hok := (wellFormed_iff hc).mp hwf
  have hp := presents_volOf hc
  have hend : fs.totalClusters + 2 < 2 ^ 32 := by
    rw [← hc.end_eq]
    exact Nat.mod_lt _ (by decide)
  rw [readings_eq hc] at hdir
  have hchain : 2 ≤ dir.cluster →
      Chain fs (fs.volOf d) dir.cluster (listAt fs (fs.volOf d) dir.cluster) := fun h2 => by
    obtain ⟨m, hm⟩ := hok.chain _ _ (hdir.owns h2)
    rwa [listAt_of_chain hm]
  have hl : chainOf fs (fs.volOf d) dir.cluster = .ok (listAt fs (fs.volOf d) dir.cluster) := by
    by_cases h2 : 2 ≤ dir.cluster
    · exact chainOf_of_chain (hchain h2)
    · rw [listAt_small (by omega), chainOf_small (by omega)]
  obtain ⟨r, v', hrun, hres⟩ := create_stores (σ := Unit) (t := ()) hend
    (fun c hr => hp.data_length hr) hl hchain name kind
  obtain ⟨d1, heq, hp', -⟩ := hrun d hp
  have hsame : ((r, ()), d1) = ((.ok node, ()), d') := heq.symm.trans h
  obtain rfl : d1 = d' := congrArg Prod.snd hsame
  obtain rfl := hp'.eq_volOf
  obtain ⟨hnone, i, new, hst⟩ := hres node (congrArg (fun q => q.1.1) hsame)
  exact ⟨_, i, new, hp'.consistent, hl, hok.tail _ _ hdir, hnone, hst⟩

/-- **A FAT32 directory acts as a map of names in a successful `create` exactly if the name fits.**
-/
theorem create_acts_as_map_iff (hc : Consistent fs d) (hwf : fs.WellFormed d)
    (hdir : Dirs fs (fs.readings d) w dir.cluster) (h : Creates fs dir name kind d node d') :
    ActsAsMap fs dir name node d d' ↔
      ∃ i, findFree ((fs.readings d).slots dir.cluster) = some i ∧
        Fits ((fs.readings d).slots dir.cluster) i name := by
  obtain ⟨l, i, new, hc', hl, hz, hnone, hst⟩ := h.stores hc hwf hdir
  obtain ⟨hslots, hents, hread, -⟩ := @readings_dir fs dir name d l hc hl
  obtain ⟨-, hents', hread', hlook'⟩ :=
    @readings_dir fs dir name d' l hc' (chainOf_of_chain hst.chain)
  have hafter : entriesOf fs (fs.volOf d') l =
      parseSlots [] 0 (((slotsOf fs l).map (fs.volOf d).slot).set i new.toBytes) :=
    congrArg (parseSlots [] 0) hst.slots
  rw [hslots]
  constructor
  · intro hmap
    obtain ⟨e, hfound, hoff, -, -⟩ := hmap.lookup
    have hone := hmap.one
    have hkept := hmap.kept
    have hdist := hmap.distinct
    rw [hslots, hst.free] at hoff
    rw [hread, hread', dirListing, dirListing, length_map, length_map] at hone
    rw [hents, hents'] at hkept
    rw [hents'] at hdist hfound
    rw [hafter] at hone hkept hdist hfound
    exact ⟨i, hst.free, Entered.fits hz hst.free hst.base hst.ext
      ⟨⟨e, hfound, (Option.some.inj hoff).symm⟩, hone, hkept, hdist⟩⟩
  · rintro ⟨j, hj, hfits⟩
    obtain rfl : i = j := Option.some.inj (hst.free.symm.trans hj)
    have hent := hfits.entered hz hst.free hst.base hst.ext hst.attr hst.label hnone
    obtain ⟨e, hfound, hoff⟩ := hent.found
    obtain ⟨-, -, he, -⟩ := visible_new hst.free hst.base hst.ext
      (mem_of_find?_eq_some hfound) hoff
    rw [← hafter] at hfound
    refine ⟨⟨e, by rw [hents']; exact hfound, ?_, ?_, ?_⟩, ?_, ?_, ?_⟩
    · rw [hslots, hst.free, hoff]
      rfl
    · rw [hlook', lookupIn, hfound]
      rfl
    · rw [he]
      exact hst.object _
    · rw [hread, hread', dirListing, dirListing, length_map, length_map, hafter]
      exact hent.one
    · rw [hents, hents', hafter]
      exact hent.kept
    · rw [hents', hafter]
      exact hent.distinct

end

/-- A new file in the root directory of `fileDisk`: what `create` returns, and then `lookup`. -/
def createThenLookup (name : Str) : Option (VNode × Option VNode) :=
  match ((Fat32Dir.create smallFs ⟨2, []⟩ name .file : OpM Unit VNode) ()).run Disk.handle
    fileDisk with
  | ((.ok node, _), d') => some (node, (Fat32Dir.lookupOn smallFs ⟨2, []⟩ name d').toOption)
  | _ => none

theorem createThenLookup_some {node : VNode} {found : Option VNode}
    (h : createThenLookup name = some (node, found)) :
    ∃ d', Creates smallFs ⟨2, []⟩ name .file fileDisk node d' ∧
      (Fat32Dir.lookupOn smallFs ⟨2, []⟩ name d').toOption = found := by
  unfold createThenLookup at h
  split at h
  · rename_i n _ d' hrun
    obtain ⟨rfl, hfound⟩ := Prod.mk.inj (Option.some.inj h)
    exact ⟨d', hrun, hfound⟩
  · cases h

theorem create_acts_as_map_iff_short :
    ∃ d', Creates smallFs ⟨2, []⟩ ['b'] .file fileDisk (.file ⟨['b'], 2, 32⟩ ⟨0, 0⟩) d' ∧
      ActsAsMap smallFs ⟨2, []⟩ ['b'] (.file ⟨['b'], 2, 32⟩ ⟨0, 0⟩) fileDisk d' := by
  obtain ⟨d', hnew, -⟩ := createThenLookup_some
    (show createThenLookup ['b'] = some (.file ⟨['b'], 2, 32⟩ ⟨0, 0⟩,
      some (.file ⟨['B'], 2, 32⟩ ⟨0, 0⟩)) by decide +kernel)
  have hc : Consistent smallFs fileDisk := smallDisk_consistent
  have hdir : Dirs smallFs (smallFs.readings fileDisk) .root (Fat32Dir.mk 2 []).cluster := .root
  refine ⟨d', hnew, (create_acts_as_map_iff hc fileDisk_wellFormed hdir hnew).mpr
    ⟨1, by decide +kernel, ?_⟩⟩
  have hdist : (parseSlots [] 0 ((smallFs.readings fileDisk).slots 2)).Pairwise
      fun a b => eqIgnoreAsciiCase a.name b.name = false := by decide +kernel
  exact Fits.of_shortForm (.base (by decide) (by decide) (forall_mem_singleton.mpr (by decide)))
    (by decide +kernel) hdist

/-- **A name that `set_name` cuts is created, but not found.** -/
theorem long_name_not_found :
    smallFs.WellFormed fileDisk ∧ Fat32Dir.badName "longfilename".toList = false ∧
    ∃ node d', Creates smallFs ⟨2, []⟩ "longfilename".toList .file fileDisk node d' ∧
      (Fat32Dir.lookupOn smallFs ⟨2, []⟩ "longfilename".toList d').toOption = none ∧
      ¬ ActsAsMap smallFs ⟨2, []⟩ "longfilename".toList node fileDisk d' := by
  obtain ⟨d', hnew, hfound⟩ := createThenLookup_some
    (show createThenLookup "longfilename".toList =
      some (.file ⟨"longfilename".toList, 2, 32⟩ ⟨0, 0⟩, none) by decide +kernel)
  refine ⟨fileDisk_wellFormed, by decide +kernel, _, d', hnew, hfound, fun hmap => ?_⟩
  obtain ⟨e, -, -, hlook, -⟩ := hmap.lookup
  rw [hlook] at hfound
  cases hfound

end Kerners.Fat32
