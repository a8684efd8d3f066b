import Kerners.Lib.Utf

/-!
# UTF-16 text that is stored in pieces

A text is encoded as UTF-16 code units, and the units are cut into pieces that are decoded one by one.
A character outside the basic plane takes two units, a surrogate pair; if a cut stands between them,
neither piece can decode its half, and the pair becomes two replacement characters.

**`flatMap_fromUtf16Lossy_eq_iff`**: decoding piece by piece gives the same text as decoding at once
exactly if no cut stands inside a surrogate pair.
-/

namespace Kerners.Lib

open List

/-! ## Encoding -/

abbrev HighSurrogate (u : Nat) : Prop := 0xD800 ≤ u ∧ u ≤ 0xDBFF

abbrev LowSurrogate (u : Nat) : Prop := 0xDC00 ≤ u ∧ u ≤ 0xDFFF

/-- The code units of a character, `char::encode_utf16`. -/
def utf16Units (c : Char) : List Nat :=
  if c.toNat < 0x10000 then [c.toNat]
  else [0xD800 + (c.toNat - 0x10000) / 0x400, 0xDC00 + (c.toNat - 0x10000) % 0x400]

def encodeUtf16 (s : Str) : List Nat := s.flatMap utf16Units

theorem toNat_valid (c : Char) : c.toNat < 0xD800 ∨ 0xDFFF < c.toNat ∧ c.toNat < 0x110000 := c.valid

theorem mem_utf16Units {c : Char} {u : Nat} (h : u ∈ utf16Units c) :
    (u = c.toNat ∧ c.toNat < 0x10000) ∨ HighSurrogate u ∨ LowSurrogate u := by
  have hv := toNat_valid c
  unfold utf16Units at h
  split_ifs at h with hc
  · exact Or.inl ⟨mem_singleton.1 h, hc⟩
  · right
    simp only [mem_cons, not_mem_nil, or_false] at h
    rcases h with h | h
    · exact Or.inl (by unfold HighSurrogate; omega)
    · exact Or.inr (by unfold LowSurrogate; omega)

theorem encodeUtf16_lt {s : Str} {u : Nat} (h : u ∈ encodeUtf16 s) : u < 0x10000 := by
  obtain ⟨c, -, hu⟩ := mem_flatMap.1 h
  rcases mem_utf16Units hu with ⟨rfl, hc⟩ | ⟨-, hle⟩ | ⟨-, hle⟩ <;> omega

/-! ## Decoding -/

variable {u v : Nat} {us a b : List Nat}

theorem fromUtf16Lossy_pair (hu : HighSurrogate u) (hv : LowSurrogate v) : fromUtf16Lossy (u :: v ::
    us) = Char.ofNat (0x10000 + (u - 0xD800) * 0x400 + (v - 0xDC00)) :: fromUtf16Lossy us := by
  rw [fromUtf16Lossy, if_pos ⟨hu, hv⟩]

theorem fromUtf16Lossy_cons (h : ∀ v, us.head? = some v → ¬ (HighSurrogate u ∧ LowSurrogate v)) :
    fromUtf16Lossy (u :: us) = utf16Unit u :: fromUtf16Lossy us := by
  cases us with
  | nil => rfl
  | cons v us => rw [fromUtf16Lossy, if_neg (h v rfl)]

theorem fromUtf16Lossy_cons_low (hv : LowSurrogate v) :
    fromUtf16Lossy (v :: us) = utf16Unit v :: fromUtf16Lossy us :=
  fromUtf16Lossy_cons fun _ _ h => by
    have hhigh := h.1.2
    have hlow := hv.1
    omega

theorem fromUtf16Lossy_units (c : Char) (us : List Nat) :
    fromUtf16Lossy (utf16Units c ++ us) = c :: fromUtf16Lossy us := by
  have hv := toNat_valid c
  unfold utf16Units
  split_ifs with hc
  · have hunit : utf16Unit c.toNat = c := by
      rw [utf16Unit, if_neg (by omega), Char.ofNat_toNat]
    rw [singleton_append, fromUtf16Lossy_cons fun v _ h => ?_, hunit]
    have hhigh := h.1
    omega
  · rw [cons_append, singleton_append, fromUtf16Lossy_pair (by unfold HighSurrogate; omega)
      (by unfold LowSurrogate; omega)]
    have hcode : 0x10000 + (0xD800 + (c.toNat - 0x10000) / 0x400 - 0xD800) * 0x400 +
        (0xDC00 + (c.toNat - 0x10000) % 0x400 - 0xDC00) = c.toNat := by omega
    rw [hcode, Char.ofNat_toNat]

theorem fromUtf16Lossy_encodeUtf16 (s : Str) : fromUtf16Lossy (encodeUtf16 s) = s := by
  induction s with
  | nil => rfl
  | cons c s ih =>
    have hcons : encodeUtf16 (c :: s) = utf16Units c ++ encodeUtf16 s := flatMap_cons
    rw [hcons, fromUtf16Lossy_units, ih]

theorem toNat_ofNat_valid {n : Nat} (h : n < 0xD800 ∨ 0xDFFF < n ∧ n < 0x110000) :
    (Char.ofNat n).toNat = n := by
  rw [Char.ofNat, dif_pos h]
  rfl

theorem mem_fromUtf16Lossy : ∀ {us : List Nat} {c : Char}, (∀ u ∈ us, u < 0x10000) →
    c ∈ fromUtf16Lossy us → c = replacement ∨ 0x10000 ≤ c.toNat ∨ c.toNat ∈ us := by
  have hunit : ∀ {u : Nat}, u < 0x10000 →
      utf16Unit u = replacement ∨ (utf16Unit u).toNat = u := by
    intro u hu
    unfold utf16Unit
    split_ifs with hs
    · exact Or.inl rfl
    · exact Or.inr (toNat_ofNat_valid (by omega))
  have halone : ∀ {u : Nat} {us : List Nat} {c : Char}, (∀ x ∈ u :: us, x < 0x10000) →
      c = utf16Unit u → c = replacement ∨ 0x10000 ≤ c.toNat ∨ c.toNat ∈ u :: us := by
    rintro u us c hus rfl
    rcases hunit (hus u mem_cons_self) with h | h
    · exact Or.inl h
    · exact Or.inr (Or.inr (by rw [h]; exact mem_cons_self))
  intro us
  induction us using fromUtf16Lossy.induct with
  | case1 => exact fun _ h => absurd h not_mem_nil
  | case2 u => exact fun hus h => halone hus (mem_singleton.1 h)
  | case3 u v us hp ih =>
    intro c hus h
    rw [fromUtf16Lossy_pair hp.1 hp.2, mem_cons] at h
    obtain ⟨⟨hu, hu'⟩, hv, hv'⟩ := hp
    rcases h with h | h
    · rw [h, toNat_ofNat_valid (by omega)]
      exact Or.inr (Or.inl (by omega))
    · have hrest := ih (fun x hx => hus x (mem_cons_of_mem u (mem_cons_of_mem v hx))) h
      exact hrest.imp_right (Or.imp_right fun hm =>
        mem_cons_of_mem u (mem_cons_of_mem v hm))
  | case4 u v us hp ih =>
    intro c hus h
    rw [fromUtf16Lossy, if_neg hp, mem_cons] at h
    rcases h with h | h
    · exact halone hus h
    · have hrest := ih (fun x hx => hus x (mem_cons_of_mem u hx)) h
      exact hrest.imp_right (Or.imp_right (mem_cons_of_mem u))

/-! ## Pieces -/

/-- The cut between `a` and `b` stands inside a surrogate pair. -/
def Cuts (a b : List Nat) : Prop :=
  ∃ u v, a.getLast? = some u ∧ b.head? = some v ∧ HighSurrogate u ∧ LowSurrogate v

theorem cuts_cons (h : a ≠ []) : Cuts (u :: a) b ↔ Cuts a b := by
  unfold Cuts
  rw [getLast?_cons_of_ne_nil h]

theorem not_cuts_nil : ¬ Cuts [] b := by
  rintro ⟨u, v, hu, -⟩
  cases hu

theorem not_cuts_low (hv : LowSurrogate v) : ¬ Cuts [v] b := by
  rintro ⟨u, w, hu, -, hhigh, -⟩
  obtain rfl : v = u := Option.some.inj hu
  have hle := hhigh.2
  have hge := hv.1
  omega

theorem cuts_pair_cons (hv : LowSurrogate v) : Cuts (u :: v :: us) b ↔ Cuts us b := by
  rw [cuts_cons (cons_ne_nil v us)]
  cases us with
  | nil => exact iff_of_false (not_cuts_low hv) not_cuts_nil
  | cons w us => exact cuts_cons (cons_ne_nil w us)

theorem fromUtf16Lossy_append : ∀ {a : List Nat}, ¬ Cuts a b →
    fromUtf16Lossy (a ++ b) = fromUtf16Lossy a ++ fromUtf16Lossy b := by
  intro a
  induction a using fromUtf16Lossy.induct with
  | case1 => exact fun _ => rfl
  | case2 u => exact fun h => fromUtf16Lossy_cons fun v hv hp => h ⟨u, v, rfl, hv, hp⟩
  | case3 u v us hp ih =>
    intro h
    rw [cuts_pair_cons hp.2] at h
    rw [cons_append, cons_append, fromUtf16Lossy_pair hp.1 hp.2,
      fromUtf16Lossy_pair hp.1 hp.2, ih h, cons_append]
  | case4 u v us hp ih =>
    intro h
    rw [cuts_cons (cons_ne_nil v us)] at h
    rw [cons_append, cons_append, fromUtf16Lossy, if_neg hp, ← cons_append, ih h,
      fromUtf16Lossy, if_neg hp, cons_append]

theorem length_fromUtf16Lossy_append : ∀ {a : List Nat}, Cuts a b →
    (fromUtf16Lossy (a ++ b)).length < (fromUtf16Lossy a ++ fromUtf16Lossy b).length := by
  intro a
  induction a using fromUtf16Lossy.induct with
  | case1 => exact fun h => absurd h not_cuts_nil
  | case2 u =>
    rintro ⟨u', v, hu, hv, hp⟩
    obtain rfl : u = u' := Option.some.inj hu
    obtain ⟨bs, rfl⟩ : ∃ bs, b = v :: bs := head?_eq_some_iff.1 hv
    rw [singleton_append, fromUtf16Lossy_pair hp.1 hp.2, fromUtf16Lossy_cons_low hp.2]
    simp [fromUtf16Lossy]
  | case3 u v us hp ih =>
    intro h
    rw [cuts_pair_cons hp.2] at h
    rw [cons_append, cons_append, fromUtf16Lossy_pair hp.1 hp.2,
      fromUtf16Lossy_pair hp.1 hp.2, cons_append, length_cons, length_cons]
    exact Nat.succ_lt_succ (ih h)
  | case4 u v us hp ih =>
    intro h
    rw [cuts_cons (cons_ne_nil v us)] at h
    rw [cons_append, cons_append, fromUtf16Lossy, if_neg hp, fromUtf16Lossy, if_neg hp,
      cons_append, length_cons, length_cons]
    exact Nat.succ_lt_succ (ih h)

/-- One of the cuts between the pieces stands inside a surrogate pair. -/
def CutsPair : List (List Nat) → Prop
  | [] => False
  | p :: ps => Cuts p ps.flatten ∨ CutsPair ps

theorem length_fromUtf16Lossy_flatten (ps : List (List Nat)) :
    (fromUtf16Lossy ps.flatten).length ≤ (ps.flatMap fromUtf16Lossy).length ∧
      (CutsPair ps → (fromUtf16Lossy ps.flatten).length < (ps.flatMap fromUtf16Lossy).length) := by
  induction ps with
  | nil => exact ⟨Nat.le_refl _, False.elim⟩
  | cons p ps ih =>
    rw [flatten_cons, flatMap_cons, length_append]
    by_cases h : Cuts p ps.flatten
    · have hlt := length_fromUtf16Lossy_append h
      rw [length_append] at hlt
      exact ⟨by omega, fun _ => by omega⟩
    · rw [fromUtf16Lossy_append h, length_append]
      exact ⟨by omega, fun hc => by have := ih.2 (hc.resolve_left h); omega⟩

theorem flatMap_fromUtf16Lossy_eq_iff {ps : List (List Nat)} :
    ps.flatMap fromUtf16Lossy = fromUtf16Lossy ps.flatten ↔ ¬ CutsPair ps := by
  constructor
  · intro heq hc
    have hlt := (length_fromUtf16Lossy_flatten ps).2 hc
    rw [heq] at hlt
    exact Nat.lt_irrefl _ hlt
  · induction ps with
    | nil => exact fun _ => rfl
    | cons p ps ih =>
      intro h
      rw [CutsPair, not_or] at h
      rw [flatMap_cons, flatten_cons, fromUtf16Lossy_append h.1, ih h.2]

/-! ## Pieces of equal length -/

/-- The first `k` pieces of `n` elements each. -/
def cutInto {α : Type} (n : Nat) : Nat → List α → List (List α)
  | 0, _ => []
  | k + 1, l => l.take n :: cutInto n k (l.drop n)

theorem cutInto_flatten {α : Type} (n : Nat) : ∀ (k : Nat) {l : List α}, l.length ≤ k * n →
    (cutInto n k l).flatten = l
  | 0, l, h => by
    rw [Nat.zero_mul, Nat.le_zero, length_eq_zero_iff] at h
    rw [h]
    rfl
  | k + 1, l, h => by
    have hrest : (l.drop n).length ≤ k * n := by
      rw [length_drop, Nat.sub_le_iff_le_add]
      rwa [Nat.succ_mul] at h
    rw [cutInto, flatten_cons, cutInto_flatten n k hrest, take_append_drop]

theorem cutInto_length {α : Type} (n : Nat) : ∀ (k : Nat) (l : List α), (cutInto n k l).length = k
  | 0, _ => rfl
  | k + 1, l => by rw [cutInto, length_cons, cutInto_length n k]

theorem length_of_mem_cutInto {α : Type} {n : Nat} : ∀ {k : Nat} {l p : List α}, k * n ≤ l.length →
    p ∈ cutInto n k l → p.length = n
  | 0, _, _, _, hp => absurd hp not_mem_nil
  | k + 1, l, p, h, hp => by
    rw [Nat.succ_mul] at h
    rcases mem_cons.1 hp with rfl | hp
    · rw [length_take]
      omega
    · exact length_of_mem_cutInto (by rw [length_drop]; omega) hp

theorem mem_of_mem_cutInto {α : Type} {n : Nat} {x : α} : ∀ {k : Nat} {l p : List α},
    p ∈ cutInto n k l → x ∈ p → x ∈ l
  | 0, _, _, hp, _ => absurd hp not_mem_nil
  | k + 1, l, p, hp, hx => by
    rcases mem_cons.1 hp with rfl | hp
    · exact mem_of_mem_take hx
    · exact mem_of_mem_drop (mem_of_mem_cutInto hp hx)

/-- The units `i` and `i + 1` are a surrogate pair. -/
def PairAt (us : List Nat) (i : Nat) : Prop :=
  ∃ u v, us[i]? = some u ∧ us[i + 1]? = some v ∧ HighSurrogate u ∧ LowSurrogate v

theorem cuts_take_drop {n : Nat} : Cuts (us.take (n + 1)) (us.drop (n + 1)) ↔ PairAt us n := by
  unfold Cuts PairAt
  rw [head?_drop]
  by_cases h : n + 1 < us.length
  · have hlast : (us.take (n + 1)).getLast? = us[n]? := by
      rw [getLast?_take, if_neg (Nat.succ_ne_zero n), Nat.add_sub_cancel,
        getElem?_eq_getElem (by omega), Option.some_or]
    rw [hlast]
  · have hnone : us[n + 1]? = none := getElem?_eq_none (by omega)
    rw [hnone]
    exact iff_of_false (by rintro ⟨u, v, -, hv, -⟩; cases hv) (by rintro ⟨u, v, -, hv, -⟩; cases hv)

theorem pairAt_drop {n i : Nat} : PairAt (us.drop n) i ↔ PairAt us (n + i) := by
  unfold PairAt
  rw [getElem?_drop, getElem?_drop, Nat.add_assoc]

theorem cutsPair_cutInto (n : Nat) : ∀ (k : Nat) {us : List Nat}, us.length ≤ k * (n + 1) →
    (CutsPair (cutInto (n + 1) k us) ↔ ∃ j, PairAt us ((n + 1) * j + n))
  | 0, us, h => by
    rw [Nat.zero_mul, Nat.le_zero, length_eq_zero_iff] at h
    subst h
    refine iff_of_false id ?_
    rintro ⟨j, u, v, hu, -⟩
    cases hu
  | k + 1, us, h => by
    have hrest : (us.drop (n + 1)).length ≤ k * (n + 1) := by
      rw [length_drop, Nat.sub_le_iff_le_add]
      rwa [Nat.succ_mul] at h
    have hindex : ∀ j, n + 1 + ((n + 1) * j + n) = (n + 1) * (j + 1) + n := fun j => by
      rw [Nat.mul_succ]
      omega
    rw [cutInto, CutsPair, cutInto_flatten _ _ hrest, cuts_take_drop, cutsPair_cutInto n k hrest]
    constructor
    · rintro (h0 | ⟨j, hj⟩)
      · exact ⟨0, by rwa [Nat.mul_zero, Nat.zero_add]⟩
      · exact ⟨j + 1, by rwa [pairAt_drop, hindex] at hj⟩
    · rintro ⟨j, hj⟩
      cases j with
      | zero => exact Or.inl (by rwa [Nat.mul_zero, Nat.zero_add] at hj)
      | succ j => exact Or.inr ⟨j, by rwa [pairAt_drop, hindex]⟩

end Kerners.Lib
