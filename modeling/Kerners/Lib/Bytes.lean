import Mathlib.Algebra.Ring.Nat
import Mathlib.Data.List.Basic

/-!
# Little-endian numbers in byte strings

`leNat` reads a byte string as a little-endian number and `leBytes n` writes a number in `n`
bytes: a round trip in both directions on the values that fit. `slice` reads a range of a byte
string and `splice` overwrites one; `chunks n` cuts a byte string into pieces of `n` bytes.
-/

namespace Kerners.Lib

open List

abbrev Bytes := List UInt8

def leNat : Bytes → Nat
  | [] => 0
  | b :: bs => b.toNat + 256 * leNat bs

/-- The low `n` bytes of a number, least significant first. -/
def leBytes : Nat → Nat → Bytes
  | 0, _ => []
  | n + 1, v => UInt8.ofNat (v % 256) :: leBytes n (v / 256)

theorem leNat_lt : ∀ bs : Bytes, leNat bs < 256 ^ bs.length
  | [] => by simp [leNat]
  | b :: bs => by
    have hb := b.toNat_lt
    have ih := leNat_lt bs
    simp only [leNat, length_cons, Nat.pow_succ]
    omega

@[simp] theorem leBytes_length : ∀ n v, (leBytes n v).length = n
  | 0, _ => rfl
  | n + 1, v => by simp [leBytes, leBytes_length n]

theorem leNat_leBytes : ∀ n v, leNat (leBytes n v) = v % 256 ^ n
  | 0, v => by simp [leBytes, leNat, Nat.mod_one]
  | n + 1, v => by
    simp only [leBytes, leNat, leNat_leBytes n]
    have h : (UInt8.ofNat (v % 256)).toNat = v % 256 := by
      simp
    rw [h, Nat.pow_succ', Nat.mod_mul]

theorem leBytes_leNat : ∀ bs : Bytes, leBytes bs.length (leNat bs) = bs
  | [] => rfl
  | b :: bs => by
    have hb := b.toNat_lt
    have h1 : (b.toNat + 256 * leNat bs) % 256 = b.toNat := by omega
    have h2 : (b.toNat + 256 * leNat bs) / 256 = leNat bs := by omega
    simp only [length_cons, leBytes, leNat, h1, h2, leBytes_leNat bs, List.cons.injEq, and_true]
    exact UInt8.ofNat_toNat

/-! ## Ranges -/

def slice (bs : Bytes) (offset n : Nat) : Bytes := (bs.drop offset).take n

/-- `bs` with the bytes from `offset` on overwritten by `new`. -/
def splice (bs : Bytes) (offset : Nat) (new : Bytes) : Bytes :=
  bs.take offset ++ new ++ bs.drop (offset + new.length)

variable {bs new a : Bytes} {offset n : Nat}

theorem slice_length (h : offset + n ≤ bs.length) : (slice bs offset n).length = n := by
  simp only [slice, length_take, length_drop]
  omega

theorem splice_length (h : offset + new.length ≤ bs.length) :
    (splice bs offset new).length = bs.length := by
  simp only [splice, length_append, length_take, length_drop]
  omega

theorem slice_splice_self {bs new : Bytes} {offset : Nat}
    (h : offset + new.length ≤ bs.length) : slice (splice bs offset new) offset new.length = new := by
  have hlen : (bs.take offset).length = offset := by
    rw [length_take]
    omega
  unfold slice splice
  rw [append_assoc, drop_append_of_le_length (by omega), drop_of_length_le (by omega),
    nil_append, take_left']
  rfl

theorem slice_splice_of_disjoint {o : Nat} (h : offset + new.length ≤ bs.length)
    (hd : o + n ≤ offset ∨ offset + new.length ≤ o) :
    slice (splice bs offset new) o n = slice bs o n := by
  have hlen : (bs.take offset).length = offset := by
    rw [length_take]
    omega
  unfold slice splice
  rcases hd with hd | hd
  · rw [append_assoc, drop_append_of_le_length (by omega),
      take_append_of_le_length (by rw [length_drop]; omega), drop_take,
      take_take]
    congr 1
    omega
  · rw [drop_append, drop_of_length_le (by simp only [length_append]; omega),
      nil_append, drop_drop, length_append, hlen]
    congr 2
    omega

theorem getElem?_splice_of_out {bs new : Bytes} {offset i : Nat}
    (h : offset + new.length ≤ bs.length) (hi : i < offset ∨ offset + new.length ≤ i) :
    (splice bs offset new)[i]? = bs[i]? := by
  unfold splice
  rcases hi with hi | hi
  · rw [append_assoc, getElem?_append_left (by rw [length_take]; omega),
      getElem?_take_of_lt hi]
  · have hlen : (bs.take offset ++ new).length = offset + new.length := by
      rw [length_append, length_take]
      omega
    rw [getElem?_append_right (by omega), hlen, getElem?_drop]
    congr 1
    omega

theorem getElem?_splice_of_in {i : Nat} (h : offset ≤ bs.length) (h1 : offset ≤ i)
    (h2 : i < offset + new.length) : (splice bs offset new)[i]? = new[i - offset]? := by
  have hpre : (bs.take offset).length = offset := by
    rw [length_take]
    omega
  unfold splice
  rw [append_assoc, getElem?_append_right (by omega), hpre,
    getElem?_append_left (by omega)]

theorem splice_splice {new' : Bytes} (hlen : new'.length = new.length)
    (h : offset + new.length ≤ bs.length) :
    splice (splice bs offset new) offset new' = splice bs offset new' := by
  have hpre : (bs.take offset).length = offset := by
    rw [length_take]
    omega
  have htake : (splice bs offset new).take offset = bs.take offset := by
    unfold splice
    rw [append_assoc, take_left' hpre]
  have hdrop : (splice bs offset new).drop (offset + new'.length) =
      bs.drop (offset + new'.length) := by
    unfold splice
    rw [drop_left' (by rw [length_append, hpre, hlen]), hlen]
  rw [splice, htake, hdrop, splice]

theorem splice_slice (h : offset + n ≤ bs.length) : splice bs offset (slice bs offset n) = bs := by
  unfold splice
  rw [slice_length h]
  unfold slice
  rw [append_assoc, ← drop_drop, take_append_drop, take_append_drop]

theorem splice_comm {new' : Bytes} {o o' : Nat} (h : o + new.length ≤ bs.length)
    (h' : o' + new'.length ≤ bs.length) (hd : o + new.length ≤ o' ∨ o' + new'.length ≤ o) :
    splice (splice bs o new) o' new' = splice (splice bs o' new') o new := by
  have hlen := splice_length h
  have hlen' := splice_length h'
  refine ext_getElem? fun i => ?_
  by_cases hi : o ≤ i ∧ i < o + new.length
  · rw [getElem?_splice_of_out (by omega) (by omega), getElem?_splice_of_in (by omega) hi.1 hi.2,
      getElem?_splice_of_in (by omega) hi.1 hi.2]
  · rw [@getElem?_splice_of_out (splice bs o' new') new o i (by omega) (by omega)]
    by_cases hi' : o' ≤ i ∧ i < o' + new'.length
    · rw [getElem?_splice_of_in (by omega) hi'.1 hi'.2,
        getElem?_splice_of_in (by omega) hi'.1 hi'.2]
    · rw [getElem?_splice_of_out (by omega) (by omega), getElem?_splice_of_out (by omega) (by omega),
        getElem?_splice_of_out (by omega) (by omega)]

@[simp] theorem splice_nil (bs : Bytes) (offset : Nat) : splice bs offset [] = bs := by
  simp [splice]

theorem splice_append {b : Bytes} (h : offset ≤ a.length) :
    splice (a ++ b) offset new =
      splice a offset (new.take (a.length - offset)) ++
        splice b 0 (new.drop (a.length - offset)) := by
  unfold splice
  rw [take_append_of_le_length h, length_take, length_drop, take_zero, nil_append, Nat.zero_add]
  by_cases hn : new.length ≤ a.length - offset
  · rw [take_of_length_le hn, drop_of_length_le hn, Nat.min_eq_right hn,
      Nat.sub_eq_zero_of_le hn, drop_zero, nil_append,
      drop_append_of_le_length (by omega)]
    simp only [append_assoc]
  · have hcat := take_append_drop (a.length - offset) new
    have hlen : offset + new.length - a.length = new.length - (a.length - offset) := by omega
    rw [Nat.min_eq_left (by omega), drop_of_length_le (l := a) (by omega), append_nil,
      drop_append, drop_of_length_le (l := a) (by omega), nil_append, hlen,
      ← append_assoc (a.take offset ++ _), append_assoc (a.take offset) (new.take _), hcat]

theorem splice_append_right {b : Bytes} (h : a.length ≤ offset) :
    splice (a ++ b) offset new = a ++ splice b (offset - a.length) new := by
  unfold splice
  rw [take_append, take_of_length_le h, drop_append,
    drop_of_length_le (l := a) (by omega), nil_append]
  simp only [append_assoc]
  congr 4
  omega

theorem flatten_slices (bs : Bytes) (b : Nat) : ∀ n, n * b ≤ bs.length →
    ((List.range n).map fun j => slice bs (j * b) b).flatten = bs.take (n * b)
  | 0, _ => by simp
  | n + 1, h => by
    rw [Nat.succ_mul] at h ⊢
    rw [range_succ, map_append, flatten_append, flatten_slices bs b n (by omega),
      take_add]
    simp [slice]

/-! ## Chunks -/

/-- `slice.chunks(n)` of a byte string, with fuel for its length. -/
def chunksFuel (n : Nat) : Nat → Bytes → List Bytes
  | 0, _ => []
  | _, [] => []
  | fuel + 1, bs => bs.take n :: chunksFuel n fuel (bs.drop n)

/-- `slice.chunks(n)`. -/
def chunks (n : Nat) (bs : Bytes) : List Bytes := chunksFuel n bs.length bs

theorem chunksFuel_cons (n fuel : Nat) (h : bs ≠ []) :
    chunksFuel n (fuel + 1) bs = bs.take n :: chunksFuel n fuel (bs.drop n) := by
  cases bs with
  | nil => exact absurd rfl h
  | cons _ _ => rfl

theorem chunksFuel_congr (hn : 0 < n) {fuel : Nat} :
    ∀ {fuel' : Nat} {bs : Bytes},
      bs.length ≤ fuel → bs.length ≤ fuel' → chunksFuel n fuel bs = chunksFuel n fuel' bs := by
  induction fuel with
  | zero =>
    intro fuel' bs h _
    obtain rfl := eq_nil_of_length_eq_zero (Nat.le_zero.1 h)
    cases fuel' <;> rfl
  | succ fuel ih =>
    intro fuel' bs h h'
    cases bs with
    | nil => cases fuel' <;> rfl
    | cons b bs =>
      rw [length_cons] at h h'
      obtain ⟨k, rfl⟩ := Nat.exists_eq_add_of_le' (show 1 ≤ fuel' by omega)
      have hlen : ((b :: bs).drop n).length ≤ bs.length := by
        rw [length_drop, length_cons]
        omega
      rw [chunksFuel_cons _ _ (by simp), chunksFuel_cons _ _ (by simp),
        @ih k _ (by omega) (by omega)]

theorem chunksFuel_eq (hn : 0 < n) {fuel : Nat} (h : bs.length ≤ fuel) :
    chunksFuel n fuel bs = chunks n bs := chunksFuel_congr hn h (Nat.le_refl _)

theorem chunks_append_cons (hn : 0 < n) (ha : a.length = n) (bs : Bytes) :
    chunks n (a ++ bs) = a :: chunks n bs := by
  have hlen : (a ++ bs).length = bs.length + n - 1 + 1 := by
    rw [length_append]
    omega
  have hne : a ++ bs ≠ [] := fun h => by
    rw [h, length_nil] at hlen
    omega
  unfold chunks
  rw [hlen, chunksFuel_cons _ _ hne, take_left' ha, drop_left' ha,
    chunksFuel_eq hn (by omega), chunks]

theorem chunks_append {n : Nat} (hn : 0 < n) : ∀ {k : Nat} {a : Bytes}, a.length = k * n →
    ∀ bs, chunks n (a ++ bs) = chunks n a ++ chunks n bs
  | 0, a, ha, bs => by
    obtain rfl : a = [] := eq_nil_of_length_eq_zero (by omega)
    rfl
  | k + 1, a, ha, bs => by
    rw [Nat.succ_mul] at ha
    have h1 : (a.take n).length = n := by
      rw [length_take]
      omega
    have h2 : (a.drop n).length = k * n := by
      rw [length_drop]
      omega
    have hcat : a = a.take n ++ a.drop n := (take_append_drop n a).symm
    rw [hcat, append_assoc, chunks_append_cons hn h1, chunks_append hn h2,
      chunks_append_cons hn h1, cons_append]

theorem chunks_eq_slices {n : Nat} (hn : 0 < n) : ∀ {k : Nat} {a : Bytes}, a.length = k * n →
    chunks n a = (List.range k).map fun j => slice a (j * n) n
  | 0, a, ha => by
    obtain rfl : a = [] := eq_nil_of_length_eq_zero (by omega)
    rfl
  | k + 1, a, ha => by
    rw [Nat.succ_mul] at ha
    have h1 : (a.take n).length = n := by
      rw [length_take]
      omega
    have h2 : (a.drop n).length = k * n := by
      rw [length_drop]
      omega
    have hcut := chunks_append_cons hn h1 (a.drop n)
    rw [take_append_drop] at hcut
    rw [hcut, chunks_eq_slices hn h2, range_succ_eq_map, map_cons, map_map]
    congr 1
    · simp [slice]
    · refine map_congr_left fun j _ => ?_
      simp only [slice, Function.comp, drop_drop, Nat.succ_mul]
      rw [Nat.add_comm]

theorem getElem?_flatMap_const {α β : Type} {f : α → List β} {n : Nat} (hn : 0 < n) :
    ∀ {l : List α}, (∀ x ∈ l, (f x).length = n) → ∀ i,
      (l.flatMap f)[i]? = l[i / n]?.bind fun x => (f x)[i % n]?
  | [], _, i => by simp
  | x :: l, h, i => by
    have hx := h x mem_cons_self
    rw [flatMap_cons, getElem?_append, hx]
    by_cases hi : i < n
    · rw [if_pos hi, Nat.div_eq_of_lt hi, Nat.mod_eq_of_lt hi]
      rfl
    · have hdiv : i / n = (i - n) / n + 1 := Nat.div_eq_sub_div hn (by omega)
      have hmod : i % n = (i - n) % n := Nat.mod_eq_sub_mod (by omega)
      rw [if_neg hi, getElem?_flatMap_const hn fun y hy => h y (mem_cons_of_mem x hy), hdiv,
        hmod, getElem?_cons_succ]

end Kerners.Lib
