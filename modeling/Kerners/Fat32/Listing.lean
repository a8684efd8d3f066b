import Kerners.Fat32.Slots

/-!
# What a directory shows

`parse_entries_with_offsets` reads the slots of a directory one after the other and carries the
long-name parts that it has seen since the last entry. `readSlot` is one round of its loop,
`partsAfter` the parts that are pending behind some slots. A deleted slot does not clear them, so
that a change of one slot can change the name of the next entry behind it, and nothing else.

`mem_parseSlots`: every visible entry is a slot of the directory, and no two share a slot.
-/

namespace Kerners.Fat32

open Lib

/-- One round of the loop: `none` at the end marker, otherwise the pending parts and the name and
entry that became visible. -/
def readSlot (parts : List LfnEntry) (chunk : Bytes) :
    Option (List LfnEntry × Option (Str × DirEntry)) :=
  if chunk.getD 0 0 = 0x00 then none
  else if chunk.getD 0 0 = 0xE5 then some (parts, none)
  else if chunk.getD 11 0 = attrLongName then
    some (parts ++ (LfnEntry.fromBytes chunk).toList, none)
  else
    match DirEntry.fromBytes chunk with
    | none => some ([], none)
    | some e =>
      if e.isVolumeLabel || isDotName (entryName parts e) then some ([], none)
      else some ([], some (entryName parts e, e))

/-- The entry that becomes visible in slot `idx`. -/
def listedAt (idx : Nat) (vis : Option (Str × DirEntry)) : List Listed :=
  (vis.map fun x => ⟨x.1, x.2, idx * 32⟩).toList

def partsAfter : List LfnEntry → List Bytes → Option (List LfnEntry)
  | parts, [] => some parts
  | parts, chunk :: rest => (readSlot parts chunk).bind fun r => partsAfter r.1 rest

variable {parts parts' : List LfnEntry} {idx i : Nat} {chunk : Bytes} {rest pre post : List Bytes}
  {l l' : Listed} {slots : List Bytes}

theorem parseSlots_cons : parseSlots parts idx (chunk :: rest) =
    (readSlot parts chunk).elim [] fun r => listedAt idx r.2 ++ parseSlots r.1 (idx + 1) rest := by
  rw [parseSlots, readSlot]
  split_ifs with h0 h5 hl
  · rfl
  · rfl
  · cases LfnEntry.fromBytes chunk with
    | none => simp [listedAt]
    | some part => simp [listedAt]
  · cases DirEntry.fromBytes chunk with
    | none => rfl
    | some e =>
      by_cases hv : e.isVolumeLabel
      · simp [hv, listedAt]
      · by_cases hd : isDotName (entryName parts e) <;> simp [hv, hd, listedAt]

theorem parseSlots_append : ∀ {parts : List LfnEntry} {idx : Nat} {pre : List Bytes},
    parseSlots parts idx (pre ++ post) = parseSlots parts idx pre ++
      (partsAfter parts pre).elim [] fun parts' => parseSlots parts' (idx + pre.length) post
  | parts, idx, [] => by simp [parseSlots, partsAfter]
  | parts, idx, chunk :: pre => by
    rw [List.cons_append, parseSlots_cons, parseSlots_cons, partsAfter]
    cases readSlot parts chunk with
    | none => rfl
    | some r =>
      simp only [Option.elim, Option.bind_some]
      rw [@parseSlots_append r.1, List.length_cons, List.append_assoc]
      cases partsAfter r.1 pre with
      | none => rfl
      | some parts' => simp only [Option.elim, Nat.add_assoc, Nat.add_comm 1]

theorem partsAfter_append : ∀ {parts : List LfnEntry} {pre : List Bytes},
    partsAfter parts (pre ++ post) = (partsAfter parts pre).bind fun parts' => partsAfter parts' post
  | _, [] => rfl
  | parts, x :: pre => by
    rw [List.cons_append, partsAfter, partsAfter]
    cases readSlot parts x with
    | none => rfl
    | some r => exact partsAfter_append

theorem mem_listedAt {vis : Option (Str × DirEntry)} :
    l ∈ listedAt idx vis ↔ vis = some (l.name, l.entry) ∧ l.offset = idx * 32 := by
  unfold listedAt
  cases vis with
  | none => simp
  | some x =>
    obtain ⟨name, e⟩ := x
    obtain ⟨n, e', o⟩ := l
    simp only [Option.map_some, Option.toList_some, List.mem_singleton, Listed.mk.injEq,
      Option.some.injEq, Prod.mk.injEq]
    tauto

theorem readSlot_some_visible {name : Str} {e : DirEntry}
    (h : readSlot parts chunk = some (parts', some (name, e))) :
    parts' = [] ∧
    DirEntry.fromBytes chunk = some e ∧
    freeByte (chunk.getD 0 0) = false ∧
    name = entryName parts e ∧
    isDotName name = false ∧
    e.isVolumeLabel = false ∧
    chunk.getD 11 0 ≠ attrLongName := by
  unfold readSlot at h
  split_ifs at h with h0 h5 hl
  · cases h
  · cases h
  · cases hf : DirEntry.fromBytes chunk with
    | none =>
      rw [hf] at h
      cases h
    | some e' =>
      rw [hf] at h
      simp only at h
      split_ifs at h with hd
      · cases h
      · cases h
        rw [Bool.or_eq_true, not_or, Bool.not_eq_true, Bool.not_eq_true] at hd
        refine ⟨rfl, rfl, ?_, rfl, hd.2, hd.1, hl⟩
        simp only [freeByte, Bool.or_eq_false_iff, beq_eq_false_iff_ne]
        exact ⟨h0, h5⟩

theorem readSlot_toBytes {e : DirEntry} (hlive : freeByte (e.name.getD 0 0) = false)
    (hattr : e.attr ≠ attrLongName) :
    readSlot parts e.toBytes =
      some ([], if e.isVolumeLabel || isDotName (entryName parts e) then none else some
        (entryName parts e, e)) := by
  have hdec := e.fromBytes_toBytes []
  rw [List.append_nil] at hdec
  simp only [freeByte, Bool.or_eq_false_iff, beq_eq_false_iff_ne] at hlive
  rw [readSlot, e.toBytes_head, if_neg hlive.1, if_neg hlive.2, e.toBytes_attr, if_neg hattr, hdec]
  simp only
  split_ifs <;> rfl

theorem mem_parseSlots_read : ∀ {parts : List LfnEntry} {idx : Nat} {slots : List Bytes},
    l ∈ parseSlots parts idx slots → ∃ i chunk, l.offset = (idx + i) * 32 ∧
      slots[i]? = some chunk ∧ ∃ p p', readSlot p chunk = some (p', some (l.name, l.entry))
  | _, _, [], h => by simp [parseSlots] at h
  | parts, idx, chunk :: rest, h => by
    rw [parseSlots_cons] at h
    cases hr : readSlot parts chunk with
    | none =>
      rw [hr] at h
      simp at h
    | some r =>
      rw [hr] at h
      rcases List.mem_append.mp h with h | h
      · obtain ⟨hv, ho⟩ := mem_listedAt.mp h
        obtain ⟨parts', vis⟩ := r
        obtain rfl : vis = _ := hv
        exact ⟨0, chunk, by simpa using ho, rfl, parts, parts', hr⟩
      · obtain ⟨i, c, ho, hc, hrest⟩ := mem_parseSlots_read h
        exact ⟨i + 1, c, by rw [ho]; omega, by simpa using hc, hrest⟩

theorem mem_parseSlots (h : l ∈ parseSlots parts idx slots) :
    ∃ i chunk, l.offset = (idx + i) * 32 ∧ slots[i]? = some chunk ∧
      DirEntry.fromBytes chunk = some l.entry ∧ freeByte (chunk.getD 0 0) = false := by
  obtain ⟨i, chunk, ho, hi, p, p', hr⟩ := mem_parseSlots_read h
  obtain ⟨-, hdec, hfree, -⟩ := readSlot_some_visible hr
  exact ⟨i, chunk, ho, hi, hdec, hfree⟩

theorem mem_parseSlots_at {vis : Option (Str × DirEntry)} (hpre : partsAfter [] pre = some parts)
    (hslot : readSlot parts chunk = some (parts', vis)) {n : Str} {e : DirEntry} :
    ⟨n, e, pre.length * 32⟩ ∈ parseSlots [] 0 (pre ++ chunk :: post) ↔ vis = some (n, e) := by
  rw [parseSlots_append, hpre, Option.elim, parseSlots_cons, hslot, Option.elim, List.mem_append,
    List.mem_append, mem_listedAt]
  constructor
  · rintro (hm | hm | hm)
    · obtain ⟨i, c, ho, hi, -⟩ := mem_parseSlots_read hm
      obtain ⟨hlt, -⟩ := List.getElem?_eq_some_iff.1 hi
      simp only at ho
      omega
    · exact hm.1
    · obtain ⟨i, c, ho, -⟩ := mem_parseSlots_read hm
      simp only at ho
      omega
  · intro hv
    exact Or.inr (Or.inl ⟨hv, by rw [Nat.zero_add]⟩)

theorem offset_inj (h : l ∈ parseSlots parts idx slots) (h' : l' ∈ parseSlots parts idx slots)
    (ho : l.offset = l'.offset) : l = l' := by
  induction slots generalizing parts idx with
  | nil => simp [parseSlots] at h
  | cons chunk rest ih =>
    have hlater : ∀ {x : Listed} {p : List LfnEntry}, x ∈ parseSlots p (idx + 1) rest →
        x.offset ≠ idx * 32 := by
      intro x p hx
      obtain ⟨i, -, hi, -⟩ := mem_parseSlots hx
      omega
    rw [parseSlots_cons] at h h'
    cases hr : readSlot parts chunk with
    | none =>
      rw [hr] at h
      simp at h
    | some r =>
      rw [hr] at h h'
      rcases List.mem_append.mp h with h | h <;> rcases List.mem_append.mp h' with h' | h'
      · obtain ⟨h1, h2⟩ := mem_listedAt.mp h
        obtain ⟨h1', h2'⟩ := mem_listedAt.mp h'
        obtain ⟨hn, he⟩ := Prod.mk.inj (Option.some.inj (h1.symm.trans h1'))
        obtain ⟨n, e, o⟩ := l
        obtain ⟨n', e', o'⟩ := l'
        simp only at hn he ho
        rw [hn, he, ho]
      · exact absurd (ho ▸ (mem_listedAt.mp h).2) (hlater h')
      · exact absurd (ho ▸ (mem_listedAt.mp h').2) (hlater h)
      · exact ih h h'

/-! ## Changing one slot -/

theorem set_eq_append {old : Bytes} (hi : slots[i]? = some old) (new : Bytes) :
    slots = slots.take i ++ old :: slots.drop (i + 1) ∧
      slots.set i new = slots.take i ++ new :: slots.drop (i + 1) ∧ (slots.take i).length = i := by
  obtain ⟨hlt, rfl⟩ := List.getElem?_eq_some_iff.mp hi
  refine ⟨?_, List.set_eq_take_append_cons_drop.trans (if_pos hlt), ?_⟩
  · rw [← List.drop_eq_getElem_cons hlt, List.take_append_drop]
  · rw [List.length_take]
    omega

def ZeroTail (slots : List Bytes) : Prop :=
  slots.Pairwise fun a b => a.getD 0 0 = 0x00 → b.getD 0 0 = 0x00

theorem parseSlots_zeros (h : ∀ x ∈ slots, x.getD 0 0 = 0x00) :
    parseSlots parts idx slots = [] := by
  cases slots with
  | nil => rfl
  | cons x slots =>
    rw [parseSlots, if_pos (h x List.mem_cons_self)]

end Kerners.Fat32
