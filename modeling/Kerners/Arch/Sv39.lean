import Mathlib.Data.Nat.Bitwise
import Kerners.Lib.Tables

/-!
# The RISC-V page tables (`arch/riscv64/mmu.rs`)

Model of `PageTableManager` for Sv39: `map_page` and `map_megapage` go down from the root with
`get_or_create_next_level` and write a leaf. Memory is a family of pages of 64-bit words, and
`alloc_frame` is any source of frames, request by request; a request may fail.

`decode` and `translate` are the hardware's side: what the walk reads in an entry of a level, and the
address and permissions it ends with.

`decode_newTable`, `decode_newPage`: the hardware reads back what the code wrote.
-/

namespace Kerners.Arch.Sv39

open Lib

/-! ## Entries -/

structure PageFlags where
  read : Bool
  write : Bool
  exec : Bool
  user : Bool
  global : Bool
  deriving DecidableEq

namespace PageTableEntry

def V : Nat := 1 <<< 0
def R : Nat := 1 <<< 1
def W : Nat := 1 <<< 2
def X : Nat := 1 <<< 3
def U : Nat := 1 <<< 4
def G : Nat := 1 <<< 5
def A : Nat := 1 <<< 6
def D : Nat := 1 <<< 7

end PageTableEntry

open PageTableEntry

def PageFlags.toBits (flags : PageFlags) : Nat :=
  (if flags.read then R else 0) ||| (if flags.write then W else 0) |||
    (if flags.exec then X else 0) ||| (if flags.user then U else 0) |||
    (if flags.global then G else 0)

namespace PageTableEntry

def isValid (entry : Nat) : Bool := entry &&& V ≠ 0

def isLeaf (entry : Nat) : Bool := entry &&& (R ||| W ||| X) ≠ 0

def newTable (nextTablePpn : Nat) : Nat := nextTablePpn <<< 10 % 2 ^ 64 ||| V

def newPage (ppn : Nat) (flags : PageFlags) : Nat :=
  ppn <<< 10 % 2 ^ 64 ||| flags.toBits ||| V ||| A ||| D

/-- `new_megapage`, which makes the same word as `new_page`. -/
def newMegapage (ppn : Nat) (flags : PageFlags) : Nat := newPage ppn flags

def ppn (entry : Nat) : Nat := entry >>> 10 &&& 0xFFFFFFFFFFF

def addr (entry : Nat) : Nat := ppn entry <<< 12

end PageTableEntry

/-! ## The hardware -/

def flagsOf (entry : Nat) : PageFlags where
  read := entry &&& R ≠ 0
  write := entry &&& W ≠ 0
  exec := entry &&& X ≠ 0
  user := entry &&& U ≠ 0
  global := entry &&& G ≠ 0

/-- An entry with `level` levels below it. Reserved bits, a page that is writable and not readable, a
superpage that is not aligned and a leaf that was not marked accessed and dirty fault, and so does a
pointer at the last level or with bits that belong to leaves. -/
def decode (level entry : Nat) : Slot (Nat × PageFlags) :=
  if entry &&& V = 0 ∨ entry >>> 54 ≠ 0 ∨ (entry &&& R = 0 ∧ entry &&& W ≠ 0) then .invalid
  else if entry &&& R ≠ 0 ∨ entry &&& X ≠ 0 then
    if ppn entry % 512 ^ level ≠ 0 ∨ entry &&& A = 0 ∨ entry &&& D = 0 then .invalid
    else .leaf (ppn entry, flagsOf entry)
  else if level = 0 ∨ entry &&& A ≠ 0 ∨ entry &&& D ≠ 0 ∨ entry &&& U ≠ 0 then .invalid
  else .table (ppn entry * 4096)

/-- `VPN[level]` of a virtual address. -/
def vpn (virt level : Nat) : Nat := virt >>> (12 + 9 * level) &&& 0x1FF

def translate (mem : Pages Nat) (root va : Nat) : Option (Nat × PageFlags) :=
  (walk decode mem root [vpn va 2, vpn va 1, vpn va 0]).map fun r =>
    (r.1.1 * 4096 + va % (4096 * 512 ^ r.2.length), r.1.2)

/-! ## What the hardware reads back -/

variable {p : Nat} {alloc : Nat → Option Nat}

theorem and_low {low m : Nat} (hlow : low < 2 ^ 10) (hm : m < 2 ^ 10) :
    (2 ^ 10 * p + low) &&& m = low &&& m := by
  have h : ((2 ^ 10 * p + low) &&& m) % 2 ^ 10 =
      (2 ^ 10 * p + low) % 2 ^ 10 &&& m % 2 ^ 10 := Nat.and_mod_two_pow
  have hle : (2 ^ 10 * p + low) &&& m < 2 ^ 10 := Nat.lt_of_le_of_lt Nat.and_le_right hm
  rwa [Nat.mod_eq_of_lt hle, Nat.mul_add_mod, Nat.mod_eq_of_lt hlow, Nat.mod_eq_of_lt hm] at h

theorem ppn_low {low : Nat} (hlow : low < 2 ^ 10) (hp : p < 2 ^ 44) :
    ppn (2 ^ 10 * p + low) = p := by
  have hmask : (0xFFFFFFFFFFF : Nat) = 2 ^ 44 - 1 := rfl
  rw [ppn, Nat.shiftRight_eq_div_pow, hmask, Nat.and_two_pow_sub_one_eq_mod]
  omega

/-- The flags of `new_page`, with the bits it adds. -/
def lowBits (flags : PageFlags) : Nat := flags.toBits ||| (V ||| A ||| D)

theorem lowBits_lt : ∀ flags, lowBits flags < 2 ^ 10 := by
  rintro ⟨_ | _, _ | _, _ | _, _ | _, _ | _⟩ <;> decide

theorem newTable_eq (hp : p < 2 ^ 44) : newTable p = 2 ^ 10 * p + 1 := by
  have hshift : p <<< 10 % 2 ^ 64 = p <<< 10 := by
    rw [Nat.shiftLeft_eq]
    omega
  rw [newTable, hshift, V, ← Nat.shiftLeft_add_eq_or_of_lt (by decide), Nat.shiftLeft_eq,
    Nat.mul_comm]
  rfl

theorem newPage_eq (hp : p < 2 ^ 44) (flags : PageFlags) :
    newPage p flags = 2 ^ 10 * p + lowBits flags := by
  have hshift : p <<< 10 % 2 ^ 64 = p <<< 10 := by
    rw [Nat.shiftLeft_eq]
    omega
  rw [newPage, hshift, Nat.or_assoc, Nat.or_assoc, Nat.or_assoc, ← Nat.or_assoc V, ← lowBits,
    ← Nat.shiftLeft_add_eq_or_of_lt (lowBits_lt flags), Nat.shiftLeft_eq, Nat.mul_comm]

theorem decode_newTable {level : Nat} (hp : p < 2 ^ 44) (hlevel : level ≠ 0) :
    decode level (newTable p) = .table (p * 4096) := by
  have hbits : ∀ m, m < 2 ^ 10 → newTable p &&& m = 1 &&& m := fun m hm => by
    rw [newTable_eq hp, and_low (by decide) hm]
  have hhigh : newTable p >>> 54 = 0 := by
    rw [newTable_eq hp, Nat.shiftRight_eq_div_pow]
    omega
  have hppn : ppn (newTable p) = p := by rw [newTable_eq hp, ppn_low (by decide) hp]
  rw [decode, hbits V (by decide), hbits R (by decide), hbits W (by decide), hbits X (by decide),
    hbits A (by decide), hbits D (by decide), hbits U (by decide), hhigh, hppn, if_neg (by decide),
    if_neg (by decide), if_neg]
  rintro (h | h)
  · exact hlevel h
  · exact absurd h (by decide)

theorem flagsOf_lowBits : ∀ flags, flagsOf (lowBits flags) = flags := by
  rintro ⟨_ | _, _ | _, _ | _, _ | _, _ | _⟩ <;> rfl

theorem decode_newPage {level : Nat} {flags : PageFlags} (hp : p < 2 ^ 44)
    (halign : p % 512 ^ level = 0) (hread : flags.read = true) :
    decode level (newPage p flags) = .leaf (p, flags) := by
  have hbits : ∀ m, m < 2 ^ 10 → newPage p flags &&& m = lowBits flags &&& m := fun m hm => by
    rw [newPage_eq hp, and_low (lowBits_lt flags) hm]
  have hhigh : newPage p flags >>> 54 = 0 := by
    have := lowBits_lt flags
    rw [newPage_eq hp, Nat.shiftRight_eq_div_pow]
    omega
  have hppn : ppn (newPage p flags) = p := by rw [newPage_eq hp, ppn_low (lowBits_lt flags) hp]
  have hlow : flagsOf (newPage p flags) = flagsOf (lowBits flags) := by
    simp only [flagsOf, hbits R (by decide), hbits W (by decide), hbits X (by decide),
      hbits U (by decide), hbits G (by decide)]
  have hflags : flagsOf (newPage p flags) = flags := hlow.trans (flagsOf_lowBits flags)
  have hset : lowBits flags &&& V ≠ 0 ∧ lowBits flags &&& R ≠ 0 ∧ lowBits flags &&& A ≠ 0 ∧
      lowBits flags &&& D ≠ 0 := by
    obtain ⟨read, write, exec, user, global⟩ := flags
    obtain rfl : read = true := hread
    cases write <;> cases exec <;> cases user <;> cases global <;> decide
  rw [decode, hbits V (by decide), hbits R (by decide), hbits W (by decide), hbits X (by decide),
    hbits A (by decide), hbits D (by decide), hhigh, hppn, hflags, halign, if_neg, if_pos, if_neg]
  · simp [hset]
  · exact .inl hset.2.1
  · simp [hset]

theorem decode_zero (level : Nat) : decode level 0 = .invalid := rfl

/-! ## The manager -/

/-- `get_or_create_next_level` at entry `i` of the table `t`. -/
def getOrCreateNextLevel (alloc : Nat → Option Nat) (t i : Nat) (s : Tables Nat) :
    Except String Nat × Tables Nat :=
  let entry := s.mem t i
  if ¬ isValid entry then
    match alloc s.allocs with
    | none => (.error "Failed to allocate page table", { s with allocs := s.allocs + 1 })
    | some frame =>
      let entry := newTable (frame >>> 12)
      (.ok (addr entry),
        ⟨setEntry (Function.update s.mem frame fun _ => 0) t i entry, s.allocs + 1⟩)
  else if isLeaf entry then (.error "Entry is already a leaf page", s)
  else (.ok (addr entry), s)

/-- `map_page`: two tables on the way, then the leaf. -/
def mapPage (alloc : Nat → Option Nat) (root virt phys : Nat) (flags : PageFlags)
    (s : Tables Nat) : Except String Unit × Tables Nat :=
  mapAt (getOrCreateNextLevel alloc) (newPage (phys >>> 12) flags)
    [vpn virt 2, vpn virt 1, vpn virt 0] root s

/-- `map_megapage`: one table on the way, then the leaf. -/
def mapMegapage (alloc : Nat → Option Nat) (root virt phys : Nat) (flags : PageFlags)
    (s : Tables Nat) : Except String Unit × Tables Nat :=
  if virt &&& 0x1FFFFF ≠ 0 ∨ phys &&& 0x1FFFFF ≠ 0 then (.error "Address must be 2MB aligned", s)
  else mapAt (getOrCreateNextLevel alloc) (newMegapage (phys >>> 12) flags)
    [vpn virt 2, vpn virt 1] root s

/-- `PageTableManager::new`: a root of zeros. -/
def new (alloc : Nat → Option Nat) (mem0 : Pages Nat) : Option (Nat × Tables Nat) :=
  (alloc 0).map fun frame => (frame, ⟨Function.update mem0 frame fun _ => 0, 1⟩)

/-- The words that the code stores in a table with `level` levels below it. -/
inductive Stores (level : Nat) : Nat → Prop
  | zero : Stores level 0
  | table {p : Nat} (hp : p < 2 ^ 44) (hlevel : level ≠ 0) : Stores level (newTable p)
  | page {p : Nat} {flags : PageFlags} (hp : p < 2 ^ 44) (halign : p % 512 ^ level = 0)
      (hread : flags.read = true) : Stores level (newPage p flags)

theorem addr_newTable (hp : p < 2 ^ 44) : addr (newTable p) = p * 4096 := by
  rw [addr, newTable_eq hp, ppn_low (by decide) hp, Nat.shiftLeft_eq]

theorem isValid_newTable (hp : p < 2 ^ 44) :
    isValid (newTable p) = true ∧ isLeaf (newTable p) = false := by
  rw [isValid, isLeaf, newTable_eq hp, and_low (by decide) (by decide),
    and_low (by decide) (by decide)]
  decide

theorem isLeaf_newPage {flags : PageFlags} (hp : p < 2 ^ 44) (hread : flags.read = true) :
    isValid (newPage p flags) = true ∧ isLeaf (newPage p flags) = true := by
  rw [isValid, isLeaf, newPage_eq hp, and_low (lowBits_lt flags) (by decide),
    and_low (lowBits_lt flags) (by decide)]
  obtain ⟨read, write, exec, user, global⟩ := flags
  obtain rfl : read = true := hread
  cases write <;> cases exec <;> cases user <;> cases global <;> decide

theorem getOrCreateNextLevel_went (hframes : FrameSource alloc (2 ^ 56)) (n t i : Nat)
    (s : Tables Nat) (hok : Stores (n + 1) (s.mem t i)) :
    Went alloc decode Stores 0 (n + 1) t i s (getOrCreateNextLevel alloc t i s).1
      (getOrCreateNextLevel alloc t i s).2 := by
  generalize hentry : s.mem t i = entry at hok
  unfold getOrCreateNextLevel
  rw [hentry]
  cases hok with
  | zero =>
    rw [if_pos (by decide)]
    cases hf : alloc s.allocs with
    | none => exact Went.fail (Nat.le_succ _)
    | some frame =>
      have halign := hframes.aligned _ _ hf
      have hlt := hframes.lt _ _ hf
      have hp : frame >>> 12 < 2 ^ 44 := by
        rw [Nat.shiftRight_eq_div_pow]
        omega
      have hframe : frame >>> 12 * 4096 = frame := by
        rw [Nat.shiftRight_eq_div_pow]
        omega
      dsimp only
      rw [addr_newTable hp, hframe]
      refine Went.create (by rw [hentry, decode_zero]) hf ?_ (.table hp (Nat.succ_ne_zero n))
      rw [decode_newTable hp (Nat.succ_ne_zero n), hframe]
  | @table p hp hlevel =>
    obtain ⟨hvalid, hleaf⟩ := isValid_newTable hp
    rw [if_neg (by simp [hvalid]), if_neg (by simp [hleaf]), addr_newTable hp]
    exact Went.follow (by rw [hentry, decode_newTable hp hlevel])
  | @page p flags hp halign hread =>
    obtain ⟨hvalid, hleaf⟩ := isLeaf_newPage hp hread
    rw [if_neg (by simp [hvalid]), if_pos hleaf]
    exact Went.fail (Nat.le_refl _)

/-! ## Calls -/

/-- A call of `map_page` or `map_megapage`. -/
structure MapCall where
  mega : Bool
  virt : Nat
  phys : Nat
  flags : PageFlags

namespace MapCall

def size (c : MapCall) : Nat := if c.mega then 2 ^ 21 else 4096

/-- The calls considered: readable flags and addresses of 56 bits; those of `map_page` are aligned. -/
structure Valid (c : MapCall) : Prop where
  read : c.flags.read = true
  phys : c.phys < 2 ^ 56
  aligned : c.mega = false → c.virt % 4096 = 0 ∧ c.phys % 4096 = 0 ∧ c.virt < 2 ^ 56

def exec (alloc : Nat → Option Nat) (root : Nat) (c : MapCall) (s : Tables Nat) :
    Except String Unit × Tables Nat :=
  if c.mega then mapMegapage alloc root c.virt c.phys c.flags s
  else mapPage alloc root c.virt c.phys c.flags s

def path (c : MapCall) : List Nat :=
  if c.mega then [vpn c.virt 2, vpn c.virt 1] else [vpn c.virt 2, vpn c.virt 1, vpn c.virt 0]

def Covers (c : MapCall) (va : Nat) : Prop := va / c.size = c.virt % 2 ^ 39 / c.size

instance (c : MapCall) (va : Nat) : Decidable (c.Covers va) := inferInstanceAs (Decidable (_ = _))

structure Exact (root : Nat) (c : MapCall) (s : Tables Nat) (r : Except String Unit × Tables Nat) :
    Prop where
  maps : r.1 = .ok () → ∀ va < 2 ^ 39, translate r.2.mem root va =
    if c.Covers va then some (c.phys + va % c.size, c.flags) else translate s.mem root va
  fails : ∀ e, r.1 = .error e → ∀ va < 2 ^ 39,
    translate r.2.mem root va = translate s.mem root va

end MapCall

/-- The calls one after the other; the manager goes on after one that fails. -/
def run (alloc : Nat → Option Nat) (root : Nat) (calls : List MapCall) (s : Tables Nat) :
    Tables Nat :=
  calls.foldl (fun s c => (c.exec alloc root s).2) s

theorem vpn_eq (virt level : Nat) : vpn virt level = virt / 2 ^ (12 + 9 * level) % 512 := by
  have hmask : (0x1FF : Nat) = 2 ^ 9 - 1 := rfl
  rw [vpn, Nat.shiftRight_eq_div_pow, hmask, Nat.and_two_pow_sub_one_eq_mod]

theorem and_mega (a : Nat) : a &&& 0x1FFFFF = a % 2 ^ 21 :=
  Nat.and_two_pow_sub_one_eq_mod a 21

theorem MapCall.path_prefix_iff (c : MapCall) {va : Nat} (hva : va < 2 ^ 39) :
    c.path <+: [vpn va 2, vpn va 1, vpn va 0] ↔ c.Covers va := by
  unfold path Covers size
  cases c.mega with
  | true =>
    simp only [if_true, List.cons_prefix_cons, List.nil_prefix, and_true, vpn_eq]
    omega
  | false =>
    simp only [Bool.false_eq_true, if_false, List.cons_prefix_cons, List.nil_prefix, and_true,
      vpn_eq]
    omega

variable {mem0 : Pages Nat} {root : Nat} {s : Tables Nat} {c : MapCall}

theorem MapCall.exec_mapped (hframes : FrameSource alloc (2 ^ 56)) (hc : c.Valid) {T : Set Nat}
    (htree : Tree decode Stores s.mem 3 root T) (hT : T ⊆ framesOf alloc 0 s.allocs) :
    Mapped alloc decode Stores s 3 root T c.path (c.phys >>> 12, c.flags)
      (c.exec alloc root s) := by
  have hp : c.phys >>> 12 < 2 ^ 44 := by
    have := hc.phys
    rw [Nat.shiftRight_eq_div_pow]
    omega
  have hmap : ∀ {w : Nat} {is : List Nat}, is ≠ [] → is.length ≤ 3 →
      decode (3 - is.length) w = .leaf (c.phys >>> 12, c.flags) → Stores (3 - is.length) w →
      Mapped alloc decode Stores s 3 root T is (c.phys >>> 12, c.flags)
        (mapAt (getOrCreateNextLevel alloc) w is root s) := fun hne hlen hleaf hok =>
    mapAt_mapped decode_zero (fun _ => .zero) (fun _ => trivial) hframes.inj
      (fun n t i s hs _ => getOrCreateNextLevel_went hframes n t i s hs) hne hlen htree hT
      (onWay_of_forall (fun _ _ => trivial) _ _ _ _) hleaf hok
  unfold exec path
  cases hmega : c.mega with
  | true =>
    rw [if_pos rfl, if_pos rfl, mapMegapage]
    split_ifs with halign
    · exact mapped_fail (Nat.le_refl _) htree _ _
    · rw [and_mega, and_mega] at halign
      have hpalign : c.phys >>> 12 % 512 ^ 1 = 0 := by
        rw [Nat.shiftRight_eq_div_pow]
        omega
      exact hmap (by simp) (by simp) (decode_newPage hp hpalign hc.read)
        (.page hp hpalign hc.read)
  | false =>
    rw [if_neg (by simp), if_neg (by simp), mapPage]
    have hpalign : c.phys >>> 12 % 512 ^ 0 = 0 := Nat.mod_one _
    exact hmap (by simp) (by simp) (decode_newPage hp hpalign hc.read) (.page hp hpalign hc.read)

theorem MapCall.exec_ok_aligned (hc : c.Valid) (hr : (c.exec alloc root s).1 = .ok ()) :
    c.phys % 4096 = 0 := by
  cases hmega : c.mega with
  | false => exact (hc.aligned hmega).2.1
  | true =>
    rw [exec, hmega, if_pos rfl, mapMegapage] at hr
    split_ifs at hr with halign
    rw [and_mega, and_mega] at halign
    omega

theorem MapCall.path_size (c : MapCall) : 4096 * 512 ^ (3 - c.path.length) = c.size := by
  unfold path size
  cases c.mega <;> simp

theorem MapCall.exec_exact (hc : c.Valid) {T : Set Nat}
    (hm :
      Mapped alloc decode Stores s 3 root T c.path (c.phys >>> 12, c.flags) (c.exec alloc root s)) :
    c.Exact root s (c.exec alloc root s) := by
  constructor
  · intro hr va hva
    have haddr : c.phys >>> 12 * 4096 = c.phys := by
      have := exec_ok_aligned hc hr
      rw [Nat.shiftRight_eq_div_pow]
      omega
    rw [translate, hm.walk_ok hr _ rfl]
    by_cases hcov : c.Covers va
    · rw [if_pos ((c.path_prefix_iff hva).mpr hcov), if_pos hcov, Option.map_some, haddr,
        List.length_drop]
      exact congrArg (fun n => some (c.phys + va % n, c.flags)) c.path_size
    · rw [if_neg (fun h => hcov ((c.path_prefix_iff hva).mp h)), if_neg hcov]
      rfl
  · intro e hr va _
    rw [translate, hm.walk_error e hr _ rfl]
    rfl

theorem MapCall.exec_rooted (hframes : FrameSource alloc (2 ^ 56)) (hc : c.Valid)
    (h : Rooted alloc decode Stores mem0 3 root s) :
    Rooted alloc decode Stores mem0 3 root (c.exec alloc root s).2 :=
  h.mapped fun _ htree hT => exec_mapped hframes hc htree hT

theorem run_rooted (hframes : FrameSource alloc (2 ^ 56)) {calls : List MapCall}
    (hcalls : ∀ c ∈ calls, c.Valid) (h : Rooted alloc decode Stores mem0 3 root s) :
    Rooted alloc decode Stores mem0 3 root (run alloc root calls s) := by
  induction calls generalizing s with
  | nil => exact h
  | cons c calls ih =>
    exact ih (fun c' hc' => hcalls c' (List.mem_cons_of_mem c hc'))
      (MapCall.exec_rooted hframes (hcalls c List.mem_cons_self) h)

theorem new_rooted {s0 : Tables Nat} (h : new alloc mem0 = some (root, s0)) :
    Rooted alloc decode Stores mem0 3 root s0 := by
  obtain ⟨frame, hframe, heq⟩ := Option.map_eq_some_iff.mp h
  obtain ⟨rfl, rfl⟩ := Prod.mk.inj heq
  exact rooted_zero decode_zero (fun _ => .zero) hframe

/-- **Mappings are exact and framed.** After any calls on a new manager, one more call changes the
translation of the page it maps, or of none if it fails, and all that was ever written are frames
that the manager got. -/
theorem map_exact (hframes : FrameSource alloc (2 ^ 56)) {s0 : Tables Nat}
    (hnew : new alloc mem0 = some (root, s0)) {calls : List MapCall}
    (hcalls : ∀ c ∈ calls, c.Valid) (hc : c.Valid) :
    c.Exact root (run alloc root calls s0) (c.exec alloc root (run alloc root calls s0)) ∧
    ∀ a, a ∉ framesOf alloc 0 (c.exec alloc root (run alloc root calls s0)).2.allocs →
      (c.exec alloc root (run alloc root calls s0)).2.mem a = mem0 a := by
  have hrooted := run_rooted hframes hcalls (new_rooted hnew)
  obtain ⟨T, htree, hT⟩ := hrooted.tree
  exact ⟨MapCall.exec_exact hc (MapCall.exec_mapped hframes hc htree hT),
    (MapCall.exec_rooted hframes hc hrooted).frame⟩

/-- A megapage of RAM, as `create_mapping` maps it. -/
def ramCall : MapCall := ⟨true, 0x80000000, 0x80000000, ⟨true, true, true, false, true⟩⟩

/-- The page of the UART, as `create_mapping` maps it. -/
def uartCall : MapCall := ⟨false, 0x10000000, 0x10000000, ⟨true, true, false, false, true⟩⟩

/-- The manager over `someFrames`. -/
def someManager : Tables Nat := ⟨Function.update (fun _ _ => 0) 0x1000000 fun _ => 0, 1⟩

theorem map_exact_uart :
    (uartCall.exec someFrames 0x1000000 (run someFrames 0x1000000 [ramCall] someManager)).1 =
        .ok () ∧
      uartCall.Exact 0x1000000 (run someFrames 0x1000000 [ramCall] someManager)
        (uartCall.exec someFrames 0x1000000 (run someFrames 0x1000000 [ramCall] someManager)) := by
  have hram : ∀ c ∈ [ramCall], c.Valid := by
    intro c hc
    obtain rfl := List.mem_singleton.mp hc
    exact ⟨rfl, by decide, nofun⟩
  have huart : uartCall.Valid := ⟨rfl, by decide, fun _ => by decide⟩
  have hnew : new someFrames (fun _ _ => 0) = some (0x1000000, someManager) := rfl
  exact ⟨rfl, (map_exact (someFrames_source (by decide)) hnew hram huart).1⟩

end Kerners.Arch.Sv39
