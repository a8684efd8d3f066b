import Mathlib.Data.Nat.Bitwise
import Kerners.Lib.Tables

/-!
# The AArch64 page tables (`arch/aarch64/mmu.rs`)

Model of `PageTableManager` with four levels: `map_page` and `map_2mb_block` go down from the root
with `get_or_create_next_level_raw` and write a descriptor. That function looks at the valid bit of an
entry only, so that it takes a 2 MB block for a table.

`decode` and `translate` are the hardware's side: what the walk reads in a descriptor of a level, and
the address it ends with.
-/

namespace Kerners.Arch.Aarch64

open Lib

/-! ## Descriptors -/

structure PageFlags where
  attrIdx : UInt8
  write : Bool
  execute : Bool

def PageFlags.toBits (flags : PageFlags) : Nat :=
  (if flags.write then 0 else 1 <<< 7) ||| (if flags.execute then 0 else 1 <<< 53 ||| 1 <<< 54)

namespace PageTableEntry

def VALID : Nat := 1 <<< 0
def TABLE : Nat := 1 <<< 1
def BLOCK : Nat := 0 <<< 1
def PAGE : Nat := 1 <<< 1
def AF : Nat := 1 <<< 10
def ATTR_IDX_SHIFT : Nat := 2
def SH_INNER : Nat := 3 <<< 8

/-- An address with its low bits cleared, `& !0xFFF` for 12 and `& !0x1F_FFFF` for 21 of them. -/
def clearLow (bits address : Nat) : Nat := address >>> bits <<< bits

def isValid (entry : Nat) : Bool := entry &&& VALID ≠ 0

def newTable (nextTableAddr : Nat) : Nat := clearLow 12 nextTableAddr ||| VALID ||| TABLE

/-- `new_block` and `new_page`, apart from the address and the kind. -/
def newEntry (address kind : Nat) (flags : PageFlags) : Nat :=
  address ||| VALID ||| kind ||| AF ||| SH_INNER ||| flags.attrIdx.toNat <<< ATTR_IDX_SHIFT |||
    flags.toBits

def newBlock (physAddr : Nat) (flags : PageFlags) : Nat :=
  newEntry (clearLow 21 physAddr) BLOCK flags

def newPage (physAddr : Nat) (flags : PageFlags) : Nat :=
  newEntry (clearLow 12 physAddr) PAGE flags

def addr (entry : Nat) : Nat := entry &&& 0x0000FFFFFFFFF000

end PageTableEntry

open PageTableEntry

/-! ## The hardware -/

/-- A descriptor with `level` levels below it: bit 0 is the valid bit, bit 1 tells tables and pages
from blocks, which the first level does not have, and a page or block without the access flag
faults. -/
def decode (level entry : Nat) : Slot Nat :=
  if ¬ entry.testBit 0 then .invalid
  else if level = 0 then
    if entry.testBit 1 ∧ entry.testBit 10 then .leaf (addr entry) else .invalid
  else if entry.testBit 1 then .table (addr entry)
  else if level < 3 ∧ entry.testBit 10 then .leaf (clearLow (12 + 9 * level) (addr entry))
  else .invalid

/-- The index of a virtual address in the table with `level` levels below it. -/
def index (virt level : Nat) : Nat := virt >>> (12 + 9 * level) &&& 0x1FF

def translate (mem : Pages Nat) (root va : Nat) : Option Nat :=
  (walk decode mem root [index va 3, index va 2, index va 1, index va 0]).map fun r =>
    r.1 + va % (4096 * 512 ^ r.2.length)

/-! ## What the hardware reads back -/

theorem clearLow_of_mod {bits a : Nat} (h : a % 2 ^ bits = 0) : clearLow bits a = a := by
  rw [clearLow, Nat.shiftRight_eq_div_pow, Nat.shiftLeft_eq]
  exact Nat.div_mul_cancel (Nat.dvd_of_mod_eq_zero h)

theorem testBit_mask (j : Nat) :
    (0x0000FFFFFFFFF000 : Nat).testBit j = (decide (12 ≤ j) && decide (j < 48)) := by
  have hmask : (0x0000FFFFFFFFF000 : Nat) = (2 ^ 36 - 1) <<< 12 := rfl
  rw [hmask, Nat.testBit_shiftLeft, Nat.testBit_two_pow_sub_one]
  by_cases h : 12 ≤ j
  · simp only [h, decide_true, Bool.true_and, decide_eq_decide]
    omega
  · simp [h]

theorem testBit_aligned {k a j : Nat} (h : a % 2 ^ k = 0) (hj : j < k) : a.testBit j = false := by
  obtain ⟨m, rfl⟩ := Nat.dvd_of_mod_eq_zero h
  rw [Nat.testBit_two_pow_mul]
  simp [hj]

theorem addr_or {a rest : Nat} (halign : a % 2 ^ 12 = 0) (hlt : a < 2 ^ 48)
    (hrest : ∀ j, 12 ≤ j → j < 48 → rest.testBit j = false) : addr (a ||| rest) = a := by
  refine Nat.eq_of_testBit_eq fun j => ?_
  rw [addr, Nat.testBit_and, Nat.testBit_or, testBit_mask]
  by_cases h1 : 12 ≤ j
  · by_cases h2 : j < 48
    · simp [h1, h2, hrest j h1 h2]
    · have hhigh : a.testBit j = false :=
        Nat.testBit_lt_two_pow (hlt.trans_le (Nat.pow_le_pow_right (by decide) (by omega)))
      simp [h2, hhigh]
  · rw [testBit_aligned halign (by omega)]
    simp [h1]

/-- The attributes of `new_block` and `new_page`. -/
def attrs (kind : Nat) (flags : PageFlags) : Nat :=
  VALID ||| kind ||| AF ||| SH_INNER ||| flags.attrIdx.toNat <<< ATTR_IDX_SHIFT ||| flags.toBits

theorem newEntry_eq (address kind : Nat) (flags : PageFlags) :
    newEntry address kind flags = address ||| attrs kind flags := by
  simp only [newEntry, attrs, Nat.or_assoc]

theorem testBit_attr (flags : PageFlags) {j : Nat} (hj : 10 ≤ j) :
    (flags.attrIdx.toNat <<< ATTR_IDX_SHIFT).testBit j = false := by
  have hidx := flags.attrIdx.toNat_lt
  refine Nat.testBit_lt_two_pow ?_
  calc flags.attrIdx.toNat <<< ATTR_IDX_SHIFT < 2 ^ 10 := by
        rw [ATTR_IDX_SHIFT, Nat.shiftLeft_eq]
        omega
    _ ≤ 2 ^ j := Nat.pow_le_pow_right (by decide) hj

theorem testBit_toBits (flags : PageFlags) {j : Nat} (h1 : 8 ≤ j) (h2 : j < 53) :
    flags.toBits.testBit j = false := by
  have hro : (if flags.write then 0 else 1 <<< 7 : Nat).testBit j = false := by
    refine Nat.testBit_lt_two_pow (Nat.lt_of_lt_of_le ?_ (Nat.pow_le_pow_right (by decide) h1))
    split <;> decide
  have hxn : (if flags.execute then 0 else 1 <<< 53 ||| 1 <<< 54 : Nat).testBit j = false := by
    refine testBit_aligned (k := 53) ?_ h2
    split <;> decide
  rw [PageFlags.toBits, Nat.testBit_or, hro, hxn]
  rfl

theorem testBit_attrs {kind : Nat} (hkind : kind < 2 ^ 12) (flags : PageFlags) {j : Nat}
    (h1 : 12 ≤ j) (h2 : j < 48) : (attrs kind flags).testBit j = false := by
  have hlow : ∀ {c : Nat}, c < 2 ^ 12 → c.testBit j = false := fun hc =>
    Nat.testBit_lt_two_pow (Nat.lt_of_lt_of_le hc (Nat.pow_le_pow_right (by decide) h1))
  have hattr := testBit_attr flags (by omega : 10 ≤ j)
  have hbits := testBit_toBits flags (by omega : 8 ≤ j) (by omega)
  simp only [attrs, Nat.testBit_or, hlow hkind, hlow (c := VALID) (by decide),
    hlow (c := AF) (by decide), hlow (c := SH_INNER) (by decide), hattr, hbits, Bool.or_self]

theorem testBit_attr_low (flags : PageFlags) {j : Nat} (hj : j < 2) :
    (flags.attrIdx.toNat <<< ATTR_IDX_SHIFT).testBit j = false := by
  rw [ATTR_IDX_SHIFT, Nat.testBit_shiftLeft]
  simp [hj]

theorem testBit_toBits_low (flags : PageFlags) {j : Nat} (hj : j < 2) :
    flags.toBits.testBit j = false := by
  refine testBit_aligned (k := 2) ?_ hj
  cases hw : flags.write <;> cases hx : flags.execute <;> simp [PageFlags.toBits, hw, hx]

theorem testBit_newEntry {address : Nat} (kind : Nat) (halign : address % 2 ^ 12 = 0)
    (flags : PageFlags) :
    (newEntry address kind flags).testBit 0 = true ∧
    (newEntry address kind flags).testBit 1 = kind.testBit 1 ∧
    (newEntry address kind flags).testBit 10 = true := by
  have h1 : address.testBit 1 = false := testBit_aligned halign (by decide)
  have c0 : VALID.testBit 0 = true := rfl
  have c1 : VALID.testBit 1 = false := rfl
  have c2 : AF.testBit 1 = false := rfl
  have c3 : AF.testBit 10 = true := rfl
  have c4 : SH_INNER.testBit 1 = false := rfl
  refine ⟨?_, ?_, ?_⟩
  · simp only [newEntry, Nat.testBit_or, c0, Bool.or_true, Bool.true_or]
  · simp [newEntry, h1, c1, c2, c4, testBit_attr_low flags, testBit_toBits_low flags]
  · simp [newEntry, c3]

theorem addr_newEntry {address kind : Nat} (hkind : kind < 2 ^ 12) (halign : address % 2 ^ 12 = 0)
    (hlt : address < 2 ^ 48) (flags : PageFlags) :
    addr (newEntry address kind flags) = address := by
  rw [newEntry_eq, addr_or halign hlt fun j => testBit_attrs hkind flags]

theorem decode_zero (level : Nat) : decode level 0 = .invalid := rfl

theorem decode_newPage {phys : Nat} (halign : phys % 2 ^ 12 = 0) (hlt : phys < 2 ^ 48)
    (flags : PageFlags) : decode 0 (newPage phys flags) = .leaf phys := by
  have hclear : clearLow 12 phys = phys := clearLow_of_mod halign
  obtain ⟨h0, h1, h10⟩ := testBit_newEntry PAGE halign flags
  have haddr := addr_newEntry (by decide : PAGE < 2 ^ 12) halign hlt flags
  have hpage : PAGE.testBit 1 = true := rfl
  rw [newPage, hclear, decode, if_neg (by simp [h0]), if_pos rfl,
    if_pos ⟨h1.trans hpage, h10⟩, haddr]

theorem decode_newBlock {phys : Nat} (halign : phys % 2 ^ 21 = 0) (hlt : phys < 2 ^ 48)
    (flags : PageFlags) : decode 1 (newBlock phys flags) = .leaf phys := by
  have hclear : clearLow 21 phys = phys := clearLow_of_mod halign
  have halign' : phys % 2 ^ 12 = 0 := by omega
  obtain ⟨h0, h1, h10⟩ := testBit_newEntry BLOCK halign' flags
  have haddr := addr_newEntry (by decide : BLOCK < 2 ^ 12) halign' hlt flags
  have hblock : BLOCK.testBit 1 = false := rfl
  have hclear' : clearLow (12 + 9 * 1) phys = phys := hclear
  rw [newBlock, hclear, decode, if_neg (by simp [h0]), if_neg (by decide),
    if_neg (by simp [h1, hblock]), if_pos ⟨by decide, h10⟩, haddr, hclear']

theorem decode_newTable {a level : Nat} (halign : a % 4096 = 0) (hlt : a < 2 ^ 48)
    (hlevel : level ≠ 0) :
    isValid (newTable a) = true ∧ addr (newTable a) = a ∧ decode level (newTable a) = .table a := by
  have hclear : clearLow 12 a = a := clearLow_of_mod halign
  have hnew : newTable a = a ||| (VALID ||| TABLE) := by rw [newTable, hclear, Nat.or_assoc]
  have haddr : addr (newTable a) = a := by
    rw [hnew, addr_or halign hlt]
    intro j hj _
    exact Nat.testBit_lt_two_pow (Nat.lt_of_lt_of_le (by decide : VALID ||| TABLE < 2 ^ 12)
      (Nat.pow_le_pow_right (by decide) hj))
  have c0 : (VALID ||| TABLE).testBit 0 = true := rfl
  have c1 : (VALID ||| TABLE).testBit 1 = true := rfl
  have h0 : (newTable a).testBit 0 = true := by rw [hnew, Nat.testBit_or, c0, Bool.or_true]
  have h1 : (newTable a).testBit 1 = true := by rw [hnew, Nat.testBit_or, c1, Bool.or_true]
  have hvalid : isValid (newTable a) = true := by
    have hone : newTable a &&& VALID = newTable a % 2 := Nat.and_one_is_mod _
    rw [isValid, hone]
    simpa [Nat.testBit_zero] using h0
  exact ⟨hvalid, haddr, by rw [decode, if_neg (by simp [h0]), if_neg hlevel, if_pos h1, haddr]⟩

/-! ## The manager -/

/-- `get_or_create_next_level_raw` at entry `i` of the table `t`. -/
def getOrCreateNextLevelRaw (alloc : Nat → Option Nat) (t i : Nat) (s : Tables Nat) :
    Except String Nat × Tables Nat :=
  let entry := s.mem t i
  if isValid entry then (.ok (addr entry), s)
  else
    match alloc s.allocs with
    | none => (.error "Failed to allocate page table", { s with allocs := s.allocs + 1 })
    | some frame =>
      (.ok frame,
        ⟨setEntry (Function.update s.mem frame fun _ => 0) t i (newTable frame), s.allocs + 1⟩)

/-- `map_2mb_block`: two tables on the way, then the block. -/
def map2mbBlock (alloc : Nat → Option Nat) (root virtAddr physAddr : Nat) (flags : PageFlags)
    (s : Tables Nat) : Except String Unit × Tables Nat :=
  if virtAddr &&& 0x1FFFFF ≠ 0 ∨ physAddr &&& 0x1FFFFF ≠ 0 then
    (.error "Address must be 2MB aligned", s)
  else mapAt (getOrCreateNextLevelRaw alloc) (newBlock physAddr flags)
    [index virtAddr 3, index virtAddr 2, index virtAddr 1] root s

/-- `map_page`: three tables on the way, then the page. -/
def mapPage (alloc : Nat → Option Nat) (root virtAddr physAddr : Nat) (flags : PageFlags)
    (s : Tables Nat) : Except String Unit × Tables Nat :=
  mapAt (getOrCreateNextLevelRaw alloc) (newPage physAddr flags)
    [index virtAddr 3, index virtAddr 2, index virtAddr 1, index virtAddr 0] root s

/-- `PageTableManager::new`: a root of zeros. -/
def new (alloc : Nat → Option Nat) (mem0 : Pages Nat) : Option (Nat × Tables Nat) :=
  (alloc 0).map fun frame => (frame, ⟨Function.update mem0 frame fun _ => 0, 1⟩)

/-- The words that the code stores in a table with `level` levels below it. -/
inductive Stores (level : Nat) : Nat → Prop
  | zero : Stores level 0
  | table {a : Nat} (halign : a % 4096 = 0) (hlt : a < 2 ^ 48) (hlevel : level ≠ 0) :
      Stores level (newTable a)
  | block {w a : Nat} (hlevel : level = 1) (hleaf : decode 1 w = .leaf a) : Stores level w
  | page {w : Nat} (hlevel : level = 0) : Stores level w

def NoBlock (level w : Nat) : Prop := level = 1 → ∀ a, decode 1 w ≠ .leaf a

variable {alloc : Nat → Option Nat}

theorem noBlock_zero (level : Nat) : NoBlock level 0 := fun _ _ h => by
  rw [decode_zero] at h
  cases h

theorem getOrCreateNextLevelRaw_went (hframes : FrameSource alloc (2 ^ 48)) (n t i : Nat)
    (s : Tables Nat) (hok : Stores (n + 1) (s.mem t i)) (hno : NoBlock (n + 1) (s.mem t i)) :
    Went alloc decode Stores 0 (n + 1) t i s (getOrCreateNextLevelRaw alloc t i s).1
      (getOrCreateNextLevelRaw alloc t i s).2 := by
  generalize hentry : s.mem t i = entry at hok hno
  unfold getOrCreateNextLevelRaw
  rw [hentry]
  cases hok with
  | zero =>
    rw [if_neg (by decide)]
    cases hf : alloc s.allocs with
    | none => exact Went.fail (Nat.le_succ _)
    | some frame =>
      have halign := hframes.aligned _ _ hf
      have hlt := hframes.lt _ _ hf
      exact Went.create (by rw [hentry, decode_zero]) hf
        (decode_newTable halign hlt (Nat.succ_ne_zero n)).2.2
        (.table halign hlt (Nat.succ_ne_zero n))
  | table halign hlt hlevel =>
    obtain ⟨hvalid, haddr, hdec⟩ := decode_newTable halign hlt hlevel
    rw [if_pos hvalid, haddr]
    exact Went.follow (by rw [hentry, hdec])
  | block hlevel hleaf => exact absurd hleaf (hno hlevel _)
  | page hlevel => exact absurd hlevel (Nat.succ_ne_zero n)

/-! ## Calls -/

/-- A call of `map_page` or `map_2mb_block`. -/
structure MapCall where
  block : Bool
  virt : Nat
  phys : Nat
  flags : PageFlags

def InBlock (mem : Pages Nat) (root virt : Nat) : Prop :=
  ∃ a rest, walk decode mem root [index virt 3, index virt 2, index virt 1, index virt 0] =
    some (a, rest) ∧ rest ≠ []

namespace MapCall

def size (c : MapCall) : Nat := if c.block then 2 ^ 21 else 4096

/-- The calls considered: addresses of 48 bits; those of `map_page` are aligned. -/
structure Valid (c : MapCall) : Prop where
  virt : c.virt < 2 ^ 48
  phys : c.phys < 2 ^ 48
  aligned : c.block = false → c.virt % 4096 = 0 ∧ c.phys % 4096 = 0

def exec (alloc : Nat → Option Nat) (root : Nat) (c : MapCall) (s : Tables Nat) :
    Except String Unit × Tables Nat :=
  if c.block then map2mbBlock alloc root c.virt c.phys c.flags s
  else mapPage alloc root c.virt c.phys c.flags s

def path (c : MapCall) : List Nat :=
  if c.block then [index c.virt 3, index c.virt 2, index c.virt 1]
  else [index c.virt 3, index c.virt 2, index c.virt 1, index c.virt 0]

def Covers (c : MapCall) (va : Nat) : Prop := va / c.size = c.virt / c.size

instance (c : MapCall) (va : Nat) : Decidable (c.Covers va) := inferInstanceAs (Decidable (_ = _))

structure Exact (root : Nat) (c : MapCall) (s : Tables Nat) (r : Except String Unit × Tables Nat) :
    Prop where
  maps : r.1 = .ok () → ∀ va < 2 ^ 48, translate r.2.mem root va =
    if c.Covers va then some (c.phys + va % c.size) else translate s.mem root va
  fails : ∀ e, r.1 = .error e → ∀ va < 2 ^ 48,
    translate r.2.mem root va = translate s.mem root va

def Avoids (root : Nat) (c : MapCall) (s : Tables Nat) : Prop :=
  c.block = false → ¬ InBlock s.mem root c.virt

end MapCall

/-- The calls one after the other; the manager goes on after one that fails. -/
def run (alloc : Nat → Option Nat) (root : Nat) (calls : List MapCall) (s : Tables Nat) :
    Tables Nat :=
  calls.foldl (fun s c => (c.exec alloc root s).2) s

def RunAvoids (alloc : Nat → Option Nat) (root : Nat) : List MapCall → Tables Nat → Prop
  | [], _ => True
  | c :: calls, s => c.Avoids root s ∧ RunAvoids alloc root calls (c.exec alloc root s).2

theorem index_eq (virt level : Nat) : index virt level = virt / 2 ^ (12 + 9 * level) % 512 := by
  have hmask : (0x1FF : Nat) = 2 ^ 9 - 1 := rfl
  rw [index, Nat.shiftRight_eq_div_pow, hmask, Nat.and_two_pow_sub_one_eq_mod]

theorem and_2mb (a : Nat) : a &&& 0x1FFFFF = a % 2 ^ 21 := Nat.and_two_pow_sub_one_eq_mod a 21

variable {mem0 : Pages Nat} {root : Nat} {s : Tables Nat} {c : MapCall}

open List

theorem MapCall.path_prefix_iff (hc : c.Valid) {va : Nat} (hva : va < 2 ^ 48) :
    c.path <+: [index va 3, index va 2, index va 1, index va 0] ↔ c.Covers va := by
  have hvirt := hc.virt
  unfold path Covers size
  cases c.block with
  | true =>
    simp only [if_true, cons_prefix_cons, nil_prefix, and_true, index_eq]
    omega
  | false =>
    simp only [Bool.false_eq_true, if_false, cons_prefix_cons, nil_prefix, and_true,
      index_eq]
    omega

theorem MapCall.path_size (c : MapCall) : 4096 * 512 ^ (4 - c.path.length) = c.size := by
  unfold path size
  cases c.block <;> simp

theorem onWay_of_not_inBlock {virt : Nat} (h : ¬ InBlock s.mem root virt) :
    OnWay decode NoBlock s.mem 4 root [index virt 3, index virt 2, index virt 1, index virt 0] := by
  refine ⟨nofun, fun t1 h1 => ⟨nofun, fun t2 h2 => ⟨fun _ a ha => h ?_, fun t3 _ => trivial⟩⟩⟩
  refine ⟨a, [index virt 0], ?_, by simp⟩
  rw [walk_cons_table h1, walk_cons_table h2, walk]
  simp only [length_singleton, ha]

theorem onWay_block (mem : Pages Nat) (i j k : Nat) : OnWay decode NoBlock mem 4 root [i, j, k] :=
  ⟨nofun, fun _ _ => ⟨nofun, fun _ _ => trivial⟩⟩

theorem MapCall.exec_mapped (hframes : FrameSource alloc (2 ^ 48)) (hc : c.Valid)
    (hav : c.Avoids root s) {T : Set Nat} (htree : Tree decode Stores s.mem 4 root T)
    (hT : T ⊆ framesOf alloc 0 s.allocs) :
    Mapped alloc decode Stores s 4 root T c.path c.phys (c.exec alloc root s) := by
  have hmap : ∀ {w : Nat} {is : List Nat}, is ≠ [] → is.length ≤ 4 →
      OnWay decode NoBlock s.mem 4 root is →
      decode (4 - is.length) w = .leaf c.phys → Stores (4 - is.length) w →
      Mapped alloc decode Stores s 4 root T is c.phys
        (mapAt (getOrCreateNextLevelRaw alloc) w is root s) := fun hne hlen hway hleaf hok =>
    mapAt_mapped decode_zero (fun _ => .zero) noBlock_zero hframes.inj
      (fun n t i s hs hno => getOrCreateNextLevelRaw_went hframes n t i s hs hno) hne hlen htree hT
      hway hleaf hok
  unfold exec path
  cases hblock : c.block with
  | true =>
    rw [if_pos rfl, if_pos rfl, map2mbBlock]
    split_ifs with halign
    · exact mapped_fail (Nat.le_refl _) htree _ _
    · rw [and_2mb, and_2mb] at halign
      have hleaf : decode 1 (newBlock c.phys c.flags) = .leaf c.phys :=
        decode_newBlock (by omega) hc.phys c.flags
      exact hmap (by simp) (by simp) (onWay_block _ _ _ _) hleaf (.block rfl hleaf)
  | false =>
    rw [if_neg (by simp), if_neg (by simp), mapPage]
    have hleaf : decode 0 (newPage c.phys c.flags) = .leaf c.phys :=
      decode_newPage (hc.aligned hblock).2 hc.phys c.flags
    exact hmap (by simp) (by simp) (onWay_of_not_inBlock (hav hblock)) hleaf (.page rfl)

theorem MapCall.exec_exact (hc : c.Valid) {T : Set Nat}
    (hm : Mapped alloc decode Stores s 4 root T c.path c.phys (c.exec alloc root s)) :
    c.Exact root s (c.exec alloc root s) := by
  constructor
  · intro hr va hva
    rw [translate, hm.walk_ok hr _ rfl]
    by_cases hcov : c.Covers va
    · rw [if_pos ((path_prefix_iff hc hva).mpr hcov), if_pos hcov, Option.map_some,
        length_drop]
      exact congrArg (fun n => some (c.phys + va % n)) c.path_size
    · rw [if_neg (fun h => hcov ((path_prefix_iff hc hva).mp h)), if_neg hcov]
      rfl
  · intro e hr va _
    rw [translate, hm.walk_error e hr _ rfl]
    rfl

theorem MapCall.exec_rooted (hframes : FrameSource alloc (2 ^ 48)) (hc : c.Valid)
    (hav : c.Avoids root s) (h : Rooted alloc decode Stores mem0 4 root s) :
    Rooted alloc decode Stores mem0 4 root (c.exec alloc root s).2 :=
  h.mapped fun _ htree hT => exec_mapped hframes hc hav htree hT

theorem run_rooted (hframes : FrameSource alloc (2 ^ 48)) {calls : List MapCall}
    (hcalls : ∀ c ∈ calls, c.Valid) (hav : RunAvoids alloc root calls s)
    (h : Rooted alloc decode Stores mem0 4 root s) :
    Rooted alloc decode Stores mem0 4 root (run alloc root calls s) := by
  induction calls generalizing s with
  | nil => exact h
  | cons c calls ih =>
    exact ih (fun c' hc' => hcalls c' (mem_cons_of_mem c hc')) hav.2
      (MapCall.exec_rooted hframes (hcalls c mem_cons_self) hav.1 h)

theorem new_rooted {s0 : Tables Nat} (h : new alloc mem0 = some (root, s0)) :
    Rooted alloc decode Stores mem0 4 root s0 := by
  obtain ⟨frame, hframe, heq⟩ := Option.map_eq_some_iff.mp h
  obtain ⟨rfl, rfl⟩ := Prod.mk.inj heq
  exact rooted_zero decode_zero (fun _ => .zero) hframe

/-- **Mappings are exact and framed as long as no page is mapped inside a block.** -/
theorem map_exact_of_avoids (hframes : FrameSource alloc (2 ^ 48)) {s0 : Tables Nat}
    (hnew : new alloc mem0 = some (root, s0)) {calls : List MapCall}
    (hcalls : ∀ c ∈ calls, c.Valid) (hav : RunAvoids alloc root calls s0) (hc : c.Valid)
    (hlast : c.Avoids root (run alloc root calls s0)) :
    c.Exact root (run alloc root calls s0) (c.exec alloc root (run alloc root calls s0)) ∧
    ∀ a, a ∉ framesOf alloc 0 (c.exec alloc root (run alloc root calls s0)).2.allocs →
      (c.exec alloc root (run alloc root calls s0)).2.mem a = mem0 a := by
  have hrooted := run_rooted hframes hcalls hav (new_rooted hnew)
  obtain ⟨T, htree, hT⟩ := hrooted.tree
  exact ⟨MapCall.exec_exact hc (MapCall.exec_mapped hframes hc hlast htree hT),
    (MapCall.exec_rooted hframes hc hlast hrooted).frame⟩

/-- A block of RAM, as `create_identity_mapping` maps it. -/
def ramCall : MapCall := ⟨true, 0x40000000, 0x40000000, ⟨1, true, true⟩⟩

/-- The page of the UART, as `create_identity_mapping` maps it. -/
def uartCall : MapCall := ⟨false, 0x09000000, 0x09000000, ⟨0, true, false⟩⟩

def insideCall : MapCall := ⟨false, 0x40000000, 0x50000000, ⟨1, true, true⟩⟩

/-- The manager over `someFrames`. -/
def someManager : Tables Nat := ⟨Function.update (fun _ _ => 0) 0x1000000 fun _ => 0, 1⟩

theorem ramCall_valid : ∀ c ∈ [ramCall], c.Valid := by
  intro c hc
  obtain rfl := mem_singleton.mp hc
  exact ⟨by decide, by decide, nofun⟩

theorem map_exact_of_avoids_uart :
    (uartCall.exec someFrames 0x1000000 (run someFrames 0x1000000 [ramCall] someManager)).1 =
        .ok () ∧
      uartCall.Exact 0x1000000 (run someFrames 0x1000000 [ramCall] someManager)
        (uartCall.exec someFrames 0x1000000 (run someFrames 0x1000000 [ramCall] someManager)) := by
  have huart : uartCall.Valid := ⟨by decide, by decide, fun _ => by decide⟩
  have hnew : new someFrames (fun _ _ => 0) = some (0x1000000, someManager) := rfl
  have hlast : uartCall.Avoids 0x1000000 (run someFrames 0x1000000 [ramCall] someManager) := by
    rintro - ⟨a, rest, h, -⟩
    have hnone : walk decode (run someFrames 0x1000000 [ramCall] someManager).mem 0x1000000
        [index uartCall.virt 3, index uartCall.virt 2, index uartCall.virt 1,
          index uartCall.virt 0] = none := rfl
    rw [hnone] at h
    cases h
  exact ⟨rfl, (map_exact_of_avoids (someFrames_source (by decide)) hnew ramCall_valid
    ⟨nofun, trivial⟩ huart hlast).1⟩

/-- **A page inside a block is not mapped, and the descriptor goes into the memory of the block.** -/
theorem map_page_in_block :
    insideCall.Valid ∧
    (insideCall.exec someFrames 0x1000000 (run someFrames 0x1000000 [ramCall] someManager)).1 =
      .ok () ∧
    ¬ insideCall.Exact 0x1000000 (run someFrames 0x1000000 [ramCall] someManager)
      (insideCall.exec someFrames 0x1000000 (run someFrames 0x1000000 [ramCall] someManager)) ∧
    (insideCall.exec someFrames 0x1000000 (run someFrames 0x1000000 [ramCall] someManager)).2.mem
      0x40000000 0 ≠ 0 := by
  refine ⟨⟨by decide, by decide, fun _ => by decide⟩, rfl, fun h => ?_, by decide +kernel⟩
  have hmaps := h.maps rfl 0x40000000 (by decide)
  have hcode : translate (insideCall.exec someFrames 0x1000000
      (run someFrames 0x1000000 [ramCall] someManager)).2.mem 0x1000000 0x40000000 =
        some 0x40000000 := by decide +kernel
  rw [hcode, if_pos (by decide)] at hmaps
  exact absurd (Option.some.inj hmaps) (by decide)

end Kerners.Arch.Aarch64
