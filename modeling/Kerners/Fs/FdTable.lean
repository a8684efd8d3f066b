import Kerners.Fs.Syscall
import Kerners.Lib.Object
import Kerners.Lib.Word
import Mathlib.Data.Fin.VecNotation
import Mathlib.Data.Fintype.Fin

/-!
# The file descriptor table (`src/fs/fd.rs`)

`FdTable` keeps a vector of slots. A slot comes into being when `insert` appends to the vector or
`dup2` pads it, and becomes free again when `close` empties it; `insert` takes the first empty slot.

* `F` is the type of the `Arc<OpenFile>` handles. Two slots with one handle refer to one open file,
  and so share its offset.
* A run is a sequence of calls, one after the other (`dup` and `dup2` take the table's lock twice).
-/

namespace Kerners.Fs

open Lib Function List

/-! ## The table -/

structure FdTable (F : Type) where
  files : List (Option F)
  maxFds : Nat

namespace FdTable

variable {F : Type} (t : FdTable F)

def new (maxFds : Nat) : FdTable F := ⟨[], maxFds⟩

def insert (file : F) : Except VfsError Int × FdTable F :=
  match t.files.findIdx? (·.isNone) with
  | some i => (.ok (wrapI32 i), { t with files := t.files.set i (some file) })
  | none =>
    if t.files.length ≥ t.maxFds then (.error .noSpace, t)
    else (.ok (wrapI32 t.files.length), { t with files := t.files ++ [some file] })

def get (fd : Int) : Except VfsError F :=
  if fd < 0 then .error .invalidArgument
  else
    match t.files[fd.toNat]?.join with
    | some file => .ok file
    | none => .error .invalidArgument

def close (fd : Int) : Except VfsError Unit × FdTable F :=
  if fd < 0 then (.error .invalidArgument, t)
  else
    match t.files[fd.toNat]?.join with
    | some _ => (.ok (), { t with files := t.files.set fd.toNat none })
    | none => (.error .invalidArgument, t)

def dup (oldFd : Int) : Except VfsError Int × FdTable F :=
  match t.get oldFd with
  | .error e => (.error e, t)
  | .ok file => t.insert file

/-- The slots after the loop of `dup2` that pushes `None` while `files.len() <= new_fd`. -/
def pad (files : List (Option F)) (newFd : Nat) : List (Option F) :=
  files ++ List.replicate (newFd + 1 - files.length) none

def dup2 (oldFd newFd : Int) : Except VfsError Int × FdTable F :=
  if newFd < 0 ∨ newFd.toNat ≥ t.maxFds then (.error .invalidArgument, t)
  else
    match t.get oldFd with
    | .error e => (.error e, t)
    | .ok file =>
      (.ok newFd, { t with files := (pad t.files newFd.toNat).set newFd.toNat (some file) })

def count : Nat := (t.files.filter (·.isSome)).length

def closeAll : FdTable F := { t with files := [] }

end FdTable

inductive FdCmd (F : Type)
  | insert (file : F)
  | get (fd : Int)
  | close (fd : Int)
  | dup (oldFd : Int)
  | dup2 (oldFd newFd : Int)
  | count
  | closeAll

inductive FdResult (F : Type)
  | fd (r : Except VfsError Int)
  | file (r : Except VfsError F)
  | closed (r : Except VfsError Unit)
  | num (n : Nat)
  | done
  deriving DecidableEq

variable {F : Type}

def FdTable.exec (t : FdTable F) : FdCmd F → FdResult F × FdTable F
  | .insert file => (.fd (t.insert file).1, (t.insert file).2)
  | .get fd => (.file (t.get fd), t)
  | .close fd => (.closed (t.close fd).1, (t.close fd).2)
  | .dup oldFd => (.fd (t.dup oldFd).1, (t.dup oldFd).2)
  | .dup2 oldFd newFd => (.fd (t.dup2 oldFd newFd).1, (t.dup2 oldFd newFd).2)
  | .count => (.num t.count, t)
  | .closeAll => (.done, t.closeAll)

/-! ## The partial map -/

/-- A partial map from the descriptors `0, …, max - 1` to open files. -/
abbrev FdMap (F : Type) (max : Nat) := Fin max → Option F

namespace FdMap

variable {max : Nat} (m : FdMap F max)

/-- The number `fd` refers to `file`. -/
def Refers (fd : Int) (file : F) : Prop := ∃ n : Fin max, (n : Int) = fd ∧ m n = some file

/-- The number `fd` is no descriptor, or not used. -/
def Unused (fd : Int) : Prop := ∀ file, ¬ m.Refers fd file

def Lowest (n : Fin max) : Prop := IsLeast {k | m k = none} n

def Full : Prop := ∀ k, m k ≠ none

end FdMap

/-- **What the descriptor table is for**: the result of each call on the map and the map after. -/
inductive FdSpec (F : Type) (max : Nat) : FdMap F max → FdCmd F → FdResult F → FdMap F max → Prop
  | insert {m file} {n : Fin max} (hn : m.Lowest n) :
    FdSpec F max m (.insert file) (.fd (.ok n)) (update m n (some file))
  | insert_full {m file} (h : m.Full) : FdSpec F max m (.insert file) (.fd (.error .noSpace)) m
  | get {m fd file} (h : m.Refers fd file) : FdSpec F max m (.get fd) (.file (.ok file)) m
  | get_unused {m fd} (h : m.Unused fd) :
    FdSpec F max m (.get fd) (.file (.error .invalidArgument)) m
  | close {m fd} {n : Fin max} (hn : (n : Int) = fd) (h : m n ≠ none) :
    FdSpec F max m (.close fd) (.closed (.ok ())) (update m n none)
  | close_unused {m fd} (h : m.Unused fd) :
    FdSpec F max m (.close fd) (.closed (.error .invalidArgument)) m
  | dup {m oldFd file} {n : Fin max} (h : m.Refers oldFd file) (hn : m.Lowest n) :
    FdSpec F max m (.dup oldFd) (.fd (.ok n)) (update m n (some file))
  | dup_full {m oldFd file} (h : m.Refers oldFd file) (hf : m.Full) :
    FdSpec F max m (.dup oldFd) (.fd (.error .noSpace)) m
  | dup_unused {m oldFd} (h : m.Unused oldFd) :
    FdSpec F max m (.dup oldFd) (.fd (.error .invalidArgument)) m
  | dup2 {m oldFd newFd file} {n : Fin max} (hn : (n : Int) = newFd) (h : m.Refers oldFd file) :
    FdSpec F max m (.dup2 oldFd newFd) (.fd (.ok newFd)) (update m n (some file))
  | dup2_unused {m oldFd newFd} (h : m.Unused oldFd) :
    FdSpec F max m (.dup2 oldFd newFd) (.fd (.error .invalidArgument)) m
  | dup2_range {m oldFd newFd} (h : ∀ n : Fin max, (n : Int) ≠ newFd) :
    FdSpec F max m (.dup2 oldFd newFd) (.fd (.error .invalidArgument)) m
  | count {m} : FdSpec F max m .count (.num (Finset.univ.filter fun n => (m n).isSome).card) m
  | closeAll {m} : FdSpec F max m .closeAll .done fun _ => none

namespace FdMap

variable {max : Nat} {m : FdMap F max} {n : Fin max}

theorem Refers.unique {fd : Int} {file file' : F} (h : m.Refers fd file) (h' : m.Refers fd file') :
    file = file' := by
  obtain ⟨n, rfl, hn⟩ := h
  obtain ⟨n', hnn, hn'⟩ := h'
  obtain rfl : n' = n := Fin.ext (by omega)
  exact Option.some.inj (hn.symm.trans hn')

theorem Lowest.not_full (h : m.Lowest n) : ¬ m.Full := fun hf => hf n h.1

theorem Lowest.unique {n' : Fin max} (h : m.Lowest n) (h' : m.Lowest n') : n = n' :=
  IsLeast.unique h h'

theorem Unused.eq_none {fd : Int} (h : m.Unused fd) (hn : (n : Int) = fd) : m n = none :=
  Option.eq_none_iff_forall_ne_some.2 fun file hfile => h file ⟨n, hn, hfile⟩

end FdMap

theorem FdSpec.det {max : Nat} {m m' m1 : FdMap F max} {c : FdCmd F} {r r1 : FdResult F}
    (h : FdSpec F max m c r m') (h1 : FdSpec F max m c r1 m1) : r = r1 ∧ m' = m1 := by
  have hfd : ∀ {n n' : Fin max} {fd : Int}, (n : Int) = fd → (n' : Int) = fd → n = n' :=
    fun hn hn' => Fin.ext (by omega)
  cases h <;> cases h1 <;>
    grind [FdMap.Refers.unique, FdMap.Lowest.unique, FdMap.Lowest.not_full, FdMap.Unused.eq_none,
      FdMap.Unused]

/-! ## The slots as a map -/

def slotMap (max : Nat) (files : List (Option F)) : FdMap F max := fun n => files[n.val]?.join

section

variable {max : Nat} {files : List (Option F)} {n : Fin max}

theorem slotMap_set (h : n.val < files.length) (x : Option F) :
    slotMap max (files.set n x) = update (slotMap max files) n x := by
  funext k
  by_cases hk : k = n
  · subst hk
    simp [slotMap, h]
  · have hne : n.val ≠ k.val := fun he => hk (Fin.ext he.symm)
    simp [slotMap, getElem?_set_ne hne, hk]

theorem slotMap_append_replicate (n : Nat) :
    slotMap max (files ++ List.replicate n none) = slotMap max files := by
  funext k
  simp only [slotMap, getElem?_append, getElem?_replicate]
  split
  · rfl
  · split <;> simp [*]

theorem slotMap_append_some (h : n.val = files.length) (file : F) :
    slotMap max (files ++ [some file]) = update (slotMap max files) n (some file) := by
  have hset : files ++ [some file] = (files ++ List.replicate 1 none).set n (some file) := by
    simp [h]
  rw [hset, slotMap_set (by simp [h]), slotMap_append_replicate]

theorem lowest_of_used_below (hle : n.val ≤ files.length) (hn : slotMap max files n = none)
    (hused : ∀ j (hj : j < files.length), j < n.val → files[j] ≠ none) :
    (slotMap max files).Lowest n := by
  refine ⟨hn, fun k hk => ?_⟩
  by_contra hlt
  have hkn : k.val < n.val := by simpa using hlt
  have hkl : k.val < files.length := by omega
  have hnone : files[k.val] = none := by simpa [slotMap, hkl] using hk
  exact hused k hkl hkn hnone

theorem card_slotMap : ∀ {max : Nat} {files : List (Option F)}, files.length ≤ max →
    (Finset.univ.filter fun n => (slotMap max files n).isSome).card =
      (files.filter (·.isSome)).length
  | max, [], _ => by simp [slotMap]
  | max + 1, x :: files, h => by
    have ih := card_slotMap (Nat.le_of_succ_le_succ h)
    have hhead : slotMap (max + 1) (x :: files) 0 = x := by simp [slotMap]
    have htail (n : Fin max) : slotMap (max + 1) (x :: files) n.succ = slotMap max files n := rfl
    rw [Fin.card_filter_univ_succ, hhead]
    simp only [htail, ih]
    cases x <;> rfl

end

/-! ## The calls on the map -/

/-- The slots are slots of the descriptors below `max`. -/
structure FdTable.Fits (max : Nat) (t : FdTable F) : Prop where
  maxFds_eq : t.maxFds = max
  length_le : t.files.length ≤ max

namespace FdTable

variable {max : Nat} {t : FdTable F} {file : F}

theorem Fits.set (h : t.Fits max) (i : Nat) (x : Option F) :
    Fits max { t with files := t.files.set i x } :=
  ⟨h.maxFds_eq, by simpa using h.length_le⟩

theorem Fits.refers_iff (h : t.Fits max) {fd : Int} :
    (slotMap max t.files).Refers fd file ↔ 0 ≤ fd ∧ t.files[fd.toNat]?.join = some file := by
  constructor
  · rintro ⟨n, rfl, hn⟩
    exact ⟨by omega, hn⟩
  · rintro ⟨hfd, hfile⟩
    have hlt : fd.toNat < t.files.length := by
      by_contra hge
      simp [getElem?_eq_none (Nat.le_of_not_lt hge)] at hfile
    exact ⟨⟨fd.toNat, by have := h.length_le; omega⟩, by simpa using hfd, hfile⟩

theorem Fits.get (h : t.Fits max) (fd : Int) :
    (∃ file, t.get fd = .ok file ∧ (slotMap max t.files).Refers fd file) ∨
      t.get fd = .error .invalidArgument ∧ (slotMap max t.files).Unused fd := by
  unfold FdTable.get
  split
  · next hneg => exact .inr ⟨rfl, fun file hr => by have := (h.refers_iff.1 hr).1; omega⟩
  · next hneg =>
    split
    · next file hfile => exact .inl ⟨file, rfl, h.refers_iff.2 ⟨by omega, hfile⟩⟩
    · next hnone =>
      refine .inr ⟨rfl, fun file hr => ?_⟩
      rw [(h.refers_iff.1 hr).2] at hnone
      cases hnone

theorem slot_lt {n : Fin max} (h : slotMap max t.files n = some file) : n.val < t.files.length := by
  by_contra hge
  simp [slotMap, getElem?_eq_none (Nat.le_of_not_lt hge)] at h

theorem close_eq (t : FdTable F) (fd : Int) :
    t.close fd = match t.get fd with
      | .ok _ => (.ok (), { t with files := t.files.set fd.toNat none })
      | .error e => (.error e, t) := by
  unfold FdTable.close FdTable.get
  split
  · rfl
  · split <;> simp [*]

theorem Fits.insert (h : t.Fits max) (hmax : max ≤ 2 ^ 31) (file : F) :
    (∃ n : Fin max, (slotMap max t.files).Lowest n ∧
       (t.insert file).1 = .ok n ∧
       (t.insert file).2.Fits max ∧
       slotMap max (t.insert file).2.files = update (slotMap max t.files) n (some file)) ∨
    (slotMap max t.files).Full ∧ t.insert file = (.error .noSpace, t) := by
  have hlen := h.length_le
  unfold FdTable.insert
  split
  · next i hi =>
    obtain ⟨hlt, hnone, hbelow⟩ := findIdx?_eq_some_iff_getElem.1 hi
    have hwrap : wrapI32 i = i := wrapI32_of_lt (by omega) (by omega)
    have hlow : (slotMap max t.files).Lowest ⟨i, by omega⟩ :=
      lowest_of_used_below hlt.le (by simpa [slotMap, hlt] using hnone)
        fun j _ hj => by simpa using hbelow j hj
    exact .inl ⟨_, hlow, by rw [hwrap], h.set i _, slotMap_set (n := ⟨i, _⟩) hlt _⟩
  · next hnone =>
    have hused : ∀ j (hj : j < t.files.length), t.files[j] ≠ none := fun j hj he => by
      simpa [he] using findIdx?_eq_none_iff.1 hnone _ (getElem_mem hj)
    split
    · next hfull =>
      refine .inr ⟨fun k hk => ?_, rfl⟩
      have hkl : k.val < t.files.length := by have := h.maxFds_eq; omega
      exact hused k hkl (by simpa [slotMap, hkl] using hk)
    · next hroom =>
      have hlt : t.files.length < max := by have := h.maxFds_eq; omega
      have hwrap : wrapI32 t.files.length = t.files.length := wrapI32_of_lt (by omega) (by omega)
      have hlow : (slotMap max t.files).Lowest ⟨t.files.length, hlt⟩ :=
        lowest_of_used_below le_rfl (by simp [slotMap]) fun j hj _ => hused j hj
      refine .inl ⟨_, hlow, by rw [hwrap], ⟨h.maxFds_eq, by simp; omega⟩, ?_⟩
      exact slotMap_append_some rfl file

theorem lt_length_pad (files : List (Option F)) (newFd : Nat) :
    newFd < (pad files newFd).length := by
  simp only [pad, length_append, length_replicate]
  omega

theorem length_pad_le {files : List (Option F)} {newFd : Nat} (h : files.length ≤ max)
    (hfd : newFd < max) : (pad files newFd).length ≤ max := by
  simp only [pad, length_append, length_replicate]
  omega

theorem Fits.dup2 (h : t.Fits max) {oldFd : Int} (hget : t.get oldFd = .ok file) (n : Fin max) :
    (t.dup2 oldFd n).1 = .ok n ∧
    (t.dup2 oldFd n).2.Fits max ∧
    slotMap max (t.dup2 oldFd n).2.files = update (slotMap max t.files) n (some file) := by
  have hn : ¬ ((n : Int) < 0 ∨ n.val ≥ t.maxFds) := by
    have := h.maxFds_eq
    omega
  simp only [FdTable.dup2, if_neg hn, hget, Int.toNat_natCast]
  refine ⟨trivial, ⟨h.maxFds_eq, ?_⟩, ?_⟩
  · simpa using length_pad_le h.length_le n.isLt
  · rw [slotMap_set (lt_length_pad _ _), pad, slotMap_append_replicate]

theorem Fits.exec (h : t.Fits max) (hmax : max ≤ 2 ^ 31) (c : FdCmd F) : (t.exec c).2.Fits max ∧
    FdSpec F max (slotMap max t.files) c (t.exec c).1 (slotMap max (t.exec c).2.files) := by
  cases c with
  | insert file =>
    obtain ⟨n, hlow, hr, hfit, hmap⟩ | ⟨hfull, hr⟩ := h.insert hmax file
    · simp only [FdTable.exec, hr, hmap]
      exact ⟨hfit, .insert hlow⟩
    · simp only [FdTable.exec, hr]
      exact ⟨h, .insert_full hfull⟩
  | get fd =>
    obtain ⟨file, hr, href⟩ | ⟨hr, hun⟩ := h.get fd
    · simp only [FdTable.exec, hr]
      exact ⟨h, .get href⟩
    · simp only [FdTable.exec, hr]
      exact ⟨h, .get_unused hun⟩
  | close fd =>
    obtain ⟨file, hr, n, rfl, hn⟩ | ⟨hr, hun⟩ := h.get fd
    · simp only [FdTable.exec, close_eq, hr, Int.toNat_natCast, slotMap_set (slot_lt hn)]
      exact ⟨h.set n none, .close rfl (by simp [hn])⟩
    · simp only [FdTable.exec, close_eq, hr]
      exact ⟨h, .close_unused hun⟩
  | dup oldFd =>
    obtain ⟨file, hget, href⟩ | ⟨hget, hun⟩ := h.get oldFd
    · obtain ⟨n, hlow, hr, hfit, hmap⟩ | ⟨hfull, hr⟩ := h.insert hmax file
      · simp only [FdTable.exec, FdTable.dup, hget, hr, hmap]
        exact ⟨hfit, .dup href hlow⟩
      · simp only [FdTable.exec, FdTable.dup, hget, hr]
        exact ⟨h, .dup_full href hfull⟩
    · simp only [FdTable.exec, FdTable.dup, hget]
      exact ⟨h, .dup_unused hun⟩
  | dup2 oldFd newFd =>
    by_cases hrange : newFd < 0 ∨ newFd.toNat ≥ t.maxFds
    · simp only [FdTable.exec, FdTable.dup2, if_pos hrange]
      exact ⟨h, .dup2_range fun n hn => by have := h.maxFds_eq; omega⟩
    · obtain ⟨n, rfl⟩ : ∃ n : Fin max, (n : Int) = newFd :=
        ⟨⟨newFd.toNat, by have := h.maxFds_eq; omega⟩, by simp; omega⟩
      obtain ⟨file, hget, href⟩ | ⟨hget, hun⟩ := h.get oldFd
      · obtain ⟨hr, hfit, hmap⟩ := h.dup2 hget n
        simp only [FdTable.exec, hr, hmap]
        exact ⟨hfit, .dup2 rfl href⟩
      · simp only [FdTable.exec, FdTable.dup2, if_neg hrange, hget]
        exact ⟨h, .dup2_unused hun⟩
  | count =>
    refine ⟨h, ?_⟩
    simp only [FdTable.exec, FdTable.count, ← card_slotMap h.length_le]
    exact .count
  | closeAll => exact ⟨⟨h.maxFds_eq, Nat.zero_le _⟩, .closeAll⟩

theorem fits_new (max : Nat) : Fits max (new max : FdTable F) := ⟨rfl, Nat.zero_le _⟩

/-- **The descriptor table is a bounded map with lowest-free allocation**: on every sequence of
calls the specification allows the results and the slots of the table and no others, and the slots
stay within the bound. -/
theorem run_refines (max : Nat) (hmax : max ≤ 2 ^ 31) (cs : List (FdCmd F)) :
    (∀ rs m', SpecRuns (FdSpec F max) (fun _ => none) cs rs m' ↔
      rs = (runAll exec (new max) cs).1 ∧ m' = slotMap max (runAll exec (new max) cs).2.files) ∧
      (runAll exec (new max : FdTable F) cs).2.files.length ≤ max := by
  have hkeep : ∀ {t : FdTable F} (c : FdCmd F), t.Fits max → (t.exec c).2.Fits max :=
    fun c h => (h.exec hmax c).1
  refine ⟨fun rs m' => ?_, (runAll_invariant hkeep cs (fits_new max)).length_le⟩
  exact specRuns_iff (FdSpec F max) (fun t => slotMap max t.files) hkeep
    (fun c h => (h.exec hmax c).2) FdSpec.det (fits_new max)

theorem run_refines_dup2 :
    SpecRuns (FdSpec Nat 3) (fun _ => none)
      [.insert 7, .dup2 0 2, .close 0, .dup 2, .insert 8, .dup 0]
      [.fd (.ok 0), .fd (.ok 2), .closed (.ok ()), .fd (.ok 0), .fd (.ok 1), .fd (.error .noSpace)]
      ![some 7, some 8, some 7] :=
  ((run_refines 3 (by decide) _).1 _ _).2 ⟨by decide, by decide⟩

end FdTable

/-! ## The table of the system calls -/

theorem insertFd_eq_insert {ω : Type} {files : List (Option (OpenFile ω))} (file : OpenFile ω)
    (h : files.length ≤ 256) :
    insertFd files file = match FdTable.insert ⟨files, 256⟩ file with
      | (.ok fd, t) => .ok (fd.toNat, t.files)
      | (.error e, _) => .error e := by
  have hwrap : ∀ i ≤ 256, (wrapI32 (i : Nat)).toNat = i := fun i hi => by
    rw [wrapI32_of_lt (by omega) (by omega), Int.toNat_natCast]
  unfold insertFd FdTable.insert
  split
  · next i hi =>
    obtain ⟨hlt, -⟩ := findIdx?_eq_some_iff_getElem.1 hi
    simp [hi, hwrap i (by omega)]
  · next hi =>
    split <;> simp [*]

end Kerners.Fs
