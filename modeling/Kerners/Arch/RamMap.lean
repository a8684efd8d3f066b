import Kerners.Arch.Aarch64Mmu
import Kerners.Arch.Sv39

/-!
# Mapping the RAM (`arch/aarch64/mmu.rs`, `arch/riscv64/mmu.rs`)

Model of `create_identity_mapping` and `create_mapping`: a new manager and a list of calls, each with
`?`. Both step through the RAM in strides of 2 MB from `ram_start` and **round each address down**;
RISC-V maps the same pieces again from `KERNEL_VIRT_BASE` on, and both map the pages of the devices
last. Addresses wrap at 64 bits.
-/

namespace Kerners.Arch

open Lib

/-! ## The pieces -/

def alignDown (addr : Nat) : Nat := addr / 2 ^ 21 * 2 ^ 21

open List

/-- `(0..ram_size).step_by(2 * 1024 * 1024)`. -/
def offsets (ramSize : Nat) : List Nat :=
  (List.range ((ramSize + (2 ^ 21 - 1)) / 2 ^ 21)).map (· * 2 ^ 21)

def Reaches (ramStart ramSize : Nat) : Prop :=
  ramSize = 0 ∨
    (ramStart + ramSize - 1) / 2 ^ 21 < ramStart / 2 ^ 21 + (ramSize + (2 ^ 21 - 1)) / 2 ^ 21

def Clear (ramStart ramSize : Nat) (pages : List Nat) : Prop :=
  ∀ a, ramStart ≤ a → a < ramStart + ramSize → ∀ m ∈ pages, a / 2 ^ 21 ≠ m / 2 ^ 21

theorem alignDown_div (addr : Nat) : alignDown addr / 2 ^ 21 = addr / 2 ^ 21 := by
  unfold alignDown
  omega

theorem mem_offsets {ramSize o : Nat} : o ∈ offsets ramSize ↔ o % 2 ^ 21 = 0 ∧ o < ramSize := by
  simp only [offsets, mem_map, mem_range]
  constructor
  · rintro ⟨k, hk, rfl⟩
    omega
  · exact fun h => ⟨o / 2 ^ 21, by omega, by omega⟩

/-- **The RAM is covered by the pieces** exactly if its last byte is. -/
theorem reaches_iff {ramStart ramSize : Nat} : Reaches ramStart ramSize ↔ ∀ a, ramStart ≤ a → a <
    ramStart + ramSize → ∃ o ∈ offsets ramSize, a / 2 ^ 21 = (ramStart + o) / 2 ^ 21 := by
  constructor
  · rintro (rfl | h) a h1 h2
    · omega
    · refine ⟨(a / 2 ^ 21 - ramStart / 2 ^ 21) * 2 ^ 21, mem_offsets.mpr ?_, ?_⟩ <;> omega
  · intro h
    by_cases hsize : ramSize = 0
    · exact .inl hsize
    · obtain ⟨o, ho, heq⟩ := h (ramStart + ramSize - 1) (by omega) (by omega)
      have := mem_offsets.mp ho
      exact .inr (by omega)

/-- A new manager, and the calls on it with `?`: the root and the tables. -/
def create {C : Type} (manager : Option (Nat × Tables Nat))
    (exec : Nat → C → Tables Nat → Except String Unit × Tables Nat) (calls : List C) :
    Except String (Nat × Tables Nat) :=
  match manager with
  | none => .error "Failed to create page table manager"
  | some (root, s) => (tryAll (exec root) calls s).map fun s' => (root, s')

theorem create_ok {C : Type} {manager : Option (Nat × Tables Nat)}
    {exec : Nat → C → Tables Nat → Except String Unit × Tables Nat} {calls : List C} {root : Nat}
    {s : Tables Nat} (h : create manager exec calls = .ok (root, s)) :
    ∃ s0, manager = some (root, s0) ∧ tryAll (exec root) calls s0 = .ok s := by
  cases manager with
  | none => cases h
  | some r =>
    obtain ⟨root', s0⟩ := r
    change (tryAll (exec root') calls s0).map (fun s' => (root', s')) = _ at h
    cases hall : tryAll (exec root') calls s0 with
    | error e =>
      rw [hall] at h
      cases h
    | ok s' =>
      rw [hall] at h
      obtain ⟨rfl, rfl⟩ := Prod.mk.inj (Except.ok.inj h)
      exact ⟨s0, rfl, hall⟩

/-! ## AArch64 -/

namespace Aarch64

/-- `create_identity_mapping` maps a piece with `PageFlags::kernel_rwx()`. -/
def blockCall (addr : Nat) : MapCall := ⟨true, alignDown addr, alignDown addr, ⟨1, true, true⟩⟩

/-- It maps a page with `PageFlags::device()`. -/
def deviceCall (addr : Nat) : MapCall := ⟨false, addr, addr, ⟨0, true, false⟩⟩

def mmioPages : List Nat :=
  [0x09000000, 0x08000000, 0x08010000] ++ (range 4).map fun i => 0x0a000000 + i * 0x1000

/-- The calls of `create_identity_mapping`. -/
def identityCalls (ramStart ramSize : Nat) : List MapCall :=
  (offsets ramSize).map (fun offset => blockCall (ramStart + offset)) ++ mmioPages.map deviceCall

def createIdentityMapping (alloc : Nat → Option Nat) (mem0 : Pages Nat) (ramStart ramSize : Nat) :
    Except String (Nat × Tables Nat) :=
  create (new alloc mem0) (MapCall.exec alloc) (identityCalls ramStart ramSize)

section

variable {alloc : Nat → Option Nat} {mem0 : Pages Nat} {ramStart ramSize root : Nat} {s : Tables Nat}
  {c : MapCall}

theorem covers_blockCall {addr va : Nat} :
    (blockCall addr).Covers va ↔ va / 2 ^ 21 = addr / 2 ^ 21 := by
  unfold MapCall.Covers MapCall.size blockCall
  rw [if_pos rfl, alignDown_div]

theorem covers_deviceCall {addr va : Nat} :
    (deviceCall addr).Covers va ↔ va / 4096 = addr / 4096 := by
  unfold MapCall.Covers MapCall.size deviceCall
  rw [if_neg Bool.false_ne_true]

theorem mmioPages_spec : ∀ m ∈ mmioPages, m % 4096 = 0 ∧ m < 2 ^ 28 := by decide

theorem mem_identityCalls (hram : ramStart + ramSize ≤ 2 ^ 48)
    (hc : c ∈ identityCalls ramStart ramSize) :
    c.Valid ∧
    c.phys = c.virt ∧
    c.virt % c.size = 0 ∧
    if c.block then ∃ a, ramStart ≤ a ∧ a < ramStart + ramSize ∧ c.virt / 2 ^ 21 = a / 2 ^ 21
    else c.virt ∈ mmioPages := by
  rcases mem_append.mp hc with hc | hc
  · obtain ⟨o, ho, rfl⟩ := mem_map.mp hc
    have ho' := mem_offsets.mp ho
    have hv : (blockCall (ramStart + o)).virt = alignDown (ramStart + o) := rfl
    have hp : (blockCall (ramStart + o)).phys = alignDown (ramStart + o) := rfl
    unfold alignDown at hv hp
    refine ⟨⟨by omega, by omega, nofun⟩, rfl, ?_, ramStart + o, by omega, by omega, by omega⟩
    have hs : (blockCall (ramStart + o)).size = 2 ^ 21 := rfl
    rw [hs]
    omega
  · obtain ⟨m, hm, rfl⟩ := mem_map.mp hc
    obtain ⟨halign, hlt⟩ := mmioPages_spec m hm
    have hlt' : m < 2 ^ 48 := by omega
    exact ⟨⟨hlt', hlt', fun _ => ⟨halign, halign⟩⟩, rfl, halign, hm⟩

variable (hframes : FrameSource alloc (2 ^ 48)) (hram : ramStart + ramSize ≤ 2 ^ 48)
  (hclear : Clear ramStart ramSize mmioPages)

include hram hclear

theorem avoids {pre : List MapCall} (hc : c ∈ identityCalls ramStart ramSize)
    (hpre : ∀ d ∈ pre, d ∈ identityCalls ramStart ramSize)
    (h : Follows decode MapCall.path MapCall.phys pre 4 root s.mem) : c.Avoids root s := by
  rintro hpage ⟨l, rest, hwalk, hrest⟩
  rcases h [index c.virt 3, index c.virt 2, index c.virt 1, index c.virt 0] rfl with
    ⟨d, hd, hpath, hw⟩ | ⟨-, hw⟩
  · rw [hwalk] at hw
    obtain ⟨-, rfl⟩ := Prod.mk.inj (Option.some.inj hw)
    obtain ⟨hvalid, -, -, hkind⟩ := mem_identityCalls hram (hpre d hd)
    obtain ⟨hvalid', -, -, hkind'⟩ := mem_identityCalls hram hc
    have hcov := (MapCall.path_prefix_iff hvalid hvalid'.virt).mp hpath
    cases hblock : d.block with
    | false => simp [MapCall.path, hblock] at hrest
    | true =>
      rw [hblock, if_pos rfl] at hkind
      rw [hpage, if_neg (by decide)] at hkind'
      rw [MapCall.Covers, MapCall.size, hblock, if_pos rfl] at hcov
      obtain ⟨a, h1, h2, h3⟩ := hkind
      exact hclear a h1 h2 c.virt hkind' (by omega)
  · rw [hwalk] at hw
    cases hw

include hframes

theorem createIdentityMapping_follows
    (h : createIdentityMapping alloc mem0 ramStart ramSize = .ok (root, s)) :
    Follows decode MapCall.path MapCall.phys (identityCalls ramStart ramSize) 4 root s.mem := by
  obtain ⟨s0, hnew, hall⟩ := create_ok h
  have hnil : Follows decode MapCall.path MapCall.phys [] 4 root s0.mem := by
    obtain ⟨frame, -, heq⟩ := Option.map_eq_some_iff.mp hnew
    obtain ⟨rfl, rfl⟩ := Prod.mk.inj heq
    exact follows_nil decode_zero (Function.update_self ..)
  refine (follows_of_tryAll (fun pre c s hc hpre hf A => ?_) (new_rooted hnew) hnil hall).2
  exact MapCall.exec_mapped hframes (mem_identityCalls hram hc).1 (avoids hram hclear hc hpre hf)

theorem translate_iff (h : createIdentityMapping alloc mem0 ramStart ramSize = .ok (root, s))
    {va : Nat} (hva : va < 2 ^ 48) :
    translate s.mem root va = some va ↔ ∃ c ∈ identityCalls ramStart ramSize, c.Covers va := by
  have hfollows := createIdentityMapping_follows hframes hram hclear h
  rcases hfollows [index va 3, index va 2, index va 1, index va 0] rfl with
    ⟨c, hc, hpath, hw⟩ | ⟨hno, hw⟩
  · obtain ⟨hvalid, hphys, halign, -⟩ := mem_identityCalls hram hc
    have hcov := (MapCall.path_prefix_iff hvalid hva).mp hpath
    have hva' : c.virt + va % c.size = va := by
      have h1 := Nat.div_add_mod c.virt c.size
      have h2 := Nat.div_add_mod va c.size
      rw [halign, ← hcov] at h1
      omega
    have hlen : ([index va 3, index va 2, index va 1, index va 0].drop c.path.length).length =
        4 - c.path.length := length_drop
    rw [translate, hw, Option.map_some, hlen, c.path_size, hphys, hva']
    exact ⟨fun _ => ⟨c, hc, hcov⟩, fun _ => rfl⟩
  · rw [translate, hw]
    constructor
    · intro h
      cases h
    · rintro ⟨c, hc, hcov⟩
      exact absurd ((MapCall.path_prefix_iff (mem_identityCalls hram hc).1 hva).mpr hcov) (hno c hc)

theorem identity_iff (h : createIdentityMapping alloc mem0 ramStart ramSize = .ok (root, s)) :
    (∀ a, ramStart ≤ a → a < ramStart + ramSize → translate s.mem root a = some a) ↔
      Reaches ramStart ramSize := by
  rw [reaches_iff]
  refine forall_congr' fun a => forall₂_congr fun h1 h2 => ?_
  rw [translate_iff hframes hram hclear h (by omega)]
  constructor
  · rintro ⟨c, hc, hcov⟩
    rcases mem_append.mp hc with hc | hc
    · obtain ⟨o, ho, rfl⟩ := mem_map.mp hc
      exact ⟨o, ho, covers_blockCall.mp hcov⟩
    · obtain ⟨m, hm, rfl⟩ := mem_map.mp hc
      have hcov' := covers_deviceCall.mp hcov
      exact absurd (by omega) (hclear a h1 h2 m hm)
  · rintro ⟨o, ho, heq⟩
    refine ⟨blockCall (ramStart + o), mem_append_left _ (mem_map.mpr ⟨o, ho, rfl⟩),
      covers_blockCall.mpr heq⟩

end

end Aarch64

/-! ## RISC-V -/

namespace Sv39

def kernelVirtBase : Nat := 0xFFFFFFFF80000000

/-- `create_mapping` maps a piece with `PageFlags::kernel_rwx()`. -/
def megaCall (virt phys : Nat) : MapCall :=
  ⟨true, alignDown virt, alignDown phys, ⟨true, true, true, false, true⟩⟩

/-- It maps a page with `PageFlags::kernel_rw()`. -/
def deviceCall (addr : Nat) : MapCall := ⟨false, addr, addr, ⟨true, true, false, false, true⟩⟩

def plicPages : List Nat := (List.range 0x200).map fun i => 0x0C000000 + i * 0x1000

def mmioPages : List Nat := 0x10000000 :: 0x02000000 :: plicPages

/-- The calls of `create_mapping` for the RAM. -/
def ramCalls (ramStart ramSize : Nat) : List MapCall :=
  (offsets ramSize).map (fun offset => megaCall (ramStart + offset) (ramStart + offset)) ++
    (offsets ramSize).map fun offset =>
      megaCall ((kernelVirtBase + offset) % 2 ^ 64) (ramStart + offset)

/-- The calls of `create_mapping`. -/
def mappingCalls (ramStart ramSize : Nat) : List MapCall :=
  ramCalls ramStart ramSize ++ mmioPages.map deviceCall

def createMapping (alloc : Nat → Option Nat) (mem0 : Pages Nat) (ramStart ramSize : Nat) :
    Except String (Nat × Tables Nat) :=
  create (new alloc mem0) (MapCall.exec alloc) (mappingCalls ramStart ramSize)

section

variable {alloc : Nat → Option Nat} {mem0 : Pages Nat} {ramStart ramSize root va : Nat}
  {s : Tables Nat} {c : MapCall}

theorem megaCall_size (virt phys : Nat) : (megaCall virt phys).size = 2 ^ 21 := rfl

theorem megaCall_phys (virt phys : Nat) : (megaCall virt phys).phys = alignDown phys := rfl

theorem covers_megaCall {virt phys : Nat} :
    (megaCall virt phys).Covers va ↔ va / 2 ^ 21 = alignDown virt % 2 ^ 39 / 2 ^ 21 := by
  unfold MapCall.Covers MapCall.size megaCall
  rw [if_pos rfl]

theorem covers_deviceCall {addr : Nat} :
    (deviceCall addr).Covers va ↔ va / 4096 = addr % 2 ^ 39 / 4096 := by
  unfold MapCall.Covers MapCall.size deviceCall
  rw [if_neg Bool.false_ne_true]

theorem mmioPages_spec : ∀ m ∈ mmioPages, m % 4096 = 0 ∧ m < 2 ^ 29 := by
  intro m hm
  simp only [mmioPages, plicPages, mem_cons, mem_map, mem_range] at hm
  rcases hm with rfl | rfl | ⟨i, hi, rfl⟩ <;> omega

theorem mem_ramCalls (hc : c ∈ ramCalls ramStart ramSize) :
    ∃ o ∈ offsets ramSize, c = megaCall (ramStart + o) (ramStart + o) ∨
      c = megaCall ((kernelVirtBase + o) % 2 ^ 64) (ramStart + o) := by
  rcases mem_append.mp hc with hc | hc
  · obtain ⟨o, ho, rfl⟩ := mem_map.mp hc
    exact ⟨o, ho, .inl rfl⟩
  · obtain ⟨o, ho, rfl⟩ := mem_map.mp hc
    exact ⟨o, ho, .inr rfl⟩

theorem valid_megaCall (virt : Nat) {phys : Nat} (h : phys < 2 ^ 56) :
    (megaCall virt phys).Valid := by
  refine ⟨rfl, ?_, nofun⟩
  change alignDown phys < 2 ^ 56
  unfold alignDown
  omega

def leafOf (c : MapCall) : Nat × PageFlags := (c.phys >>> 12, c.flags)

theorem path_prefix_iff_mod (c : MapCall) (va : Nat) :
    c.path <+: [vpn va 2, vpn va 1, vpn va 0] ↔ c.Covers (va % 2 ^ 39) := by
  have h2 : vpn va 2 = vpn (va % 2 ^ 39) 2 := by
    rw [vpn_eq, vpn_eq]
    omega
  have h1 : vpn va 1 = vpn (va % 2 ^ 39) 1 := by
    rw [vpn_eq, vpn_eq]
    omega
  have h0 : vpn va 0 = vpn (va % 2 ^ 39) 0 := by
    rw [vpn_eq, vpn_eq]
    omega
  rw [h2, h1, h0]
  exact c.path_prefix_iff (Nat.mod_lt _ (by decide))

variable (hram : ramStart + ramSize ≤ 2 ^ 38)

include hram

theorem mappingCalls_valid (hc : c ∈ mappingCalls ramStart ramSize) : c.Valid := by
  rcases mem_append.mp hc with hc | hc
  · obtain ⟨o, ho, rfl | rfl⟩ := mem_ramCalls hc <;>
      exact valid_megaCall _ (by have := mem_offsets.mp ho; omega)
  · obtain ⟨m, hm, rfl⟩ := mem_map.mp hc
    obtain ⟨halign, hlt⟩ := mmioPages_spec m hm
    have hlt' : m < 2 ^ 56 := by omega
    exact ⟨rfl, hlt', fun _ => ⟨halign, halign, hlt'⟩⟩

variable (hframes : FrameSource alloc (2 ^ 56))

include hframes

theorem tryAll_mapping {s0 : Tables Nat} (hnew : new alloc mem0 = some (root, s0))
    {calls : List MapCall} (hsub : ∀ c ∈ calls, c ∈ mappingCalls ramStart ramSize)
    (h : tryAll (MapCall.exec alloc root) calls s0 = .ok s) :
    Rooted alloc decode Stores mem0 3 root s ∧
    Follows decode MapCall.path leafOf calls 3 root s.mem := by
  have hnil : Follows decode MapCall.path leafOf [] 3 root s0.mem := by
    obtain ⟨frame, -, heq⟩ := Option.map_eq_some_iff.mp hnew
    obtain ⟨rfl, rfl⟩ := Prod.mk.inj heq
    exact follows_nil decode_zero (Function.update_self ..)
  refine follows_of_tryAll (fun pre c s hc _ _ A => ?_) (new_rooted hnew) hnil h
  exact MapCall.exec_mapped hframes (mappingCalls_valid hram (hsub c hc))

omit hram in
theorem walk_of_mapPage_ok {virt phys : Nat} {flags : PageFlags} {T : Set Nat}
    (htree : Tree decode Stores s.mem 3 root T)
    (hok : (mapPage alloc root virt phys flags s).1 = .ok ()) {l : Nat × PageFlags}
    {rest : List Nat}
    (hw : walk decode s.mem root [vpn virt 2, vpn virt 1, vpn virt 0] = some (l, rest)) :
    rest = [] := by
  have htree' : Tree decode Stores s.mem [vpn virt 2, vpn virt 1, vpn virt 0].length root T := htree
  exact walk_of_mapAt_ok (getOrCreateNextLevel_went hframes) htree' hok hw

theorem ramSize_le_of_ok (h : createMapping alloc mem0 ramStart ramSize = .ok (root, s)) :
    ramSize ≤ 2 ^ 31 + 2 ^ 25 := by
  by_contra hgt
  obtain ⟨s0, hnew, hall⟩ := create_ok h
  have hsplit : mappingCalls ramStart ramSize =
      (ramCalls ramStart ramSize ++ [deviceCall 0x10000000]) ++
        deviceCall 0x02000000 :: plicPages.map deviceCall := by
    simp only [mappingCalls, mmioPages, map_cons, append_assoc, singleton_append]
  rw [hsplit] at hall
  obtain ⟨s1, hpre, hpost⟩ := tryAll_append hall
  obtain ⟨hrooted, hfollows⟩ := tryAll_mapping hram hframes hnew
    (fun c hc => by rw [hsplit]; exact mem_append_left _ hc) hpre
  obtain ⟨T, htree, -⟩ := hrooted.tree
  have hok : (mapPage alloc root 0x02000000 0x02000000 _ s1).1 = .ok () := (tryAll_cons hpost).1
  rcases hfollows [vpn 0x02000000 2, vpn 0x02000000 1, vpn 0x02000000 0] rfl with
    ⟨c, hc, hpath, hw⟩ | ⟨hno, -⟩
  · have hend := walk_of_mapPage_ok hframes htree hok hw
    rcases mem_append.mp hc with hc | hc
    · obtain ⟨o, -, rfl | rfl⟩ := mem_ramCalls hc <;> cases hend
    · rw [mem_singleton.mp hc, path_prefix_iff_mod, covers_deviceCall] at hpath
      exact absurd hpath (by decide)
  · have ho : 2 ^ 31 + 2 ^ 25 ∈ offsets ramSize := mem_offsets.mpr (by omega)
    refine hno (megaCall ((kernelVirtBase + (2 ^ 31 + 2 ^ 25)) % 2 ^ 64)
      (ramStart + (2 ^ 31 + 2 ^ 25))) ?_ ?_
    · exact mem_append_left _ (mem_append_right _ (mem_map.mpr ⟨_, ho, rfl⟩))
    · rw [path_prefix_iff_mod, covers_megaCall]
      decide

theorem translate_cases (h : createMapping alloc mem0 ramStart ramSize = .ok (root, s)) (va : Nat) :
    (∃ c ∈ mappingCalls ramStart ramSize, c.Covers (va % 2 ^ 39) ∧
       (translate s.mem root va).map Prod.fst = some (c.phys >>> 12 * 4096 + va % c.size)) ∨
    (∀ c ∈ mappingCalls ramStart ramSize, ¬ c.Covers (va % 2 ^ 39)) ∧
    (translate s.mem root va).map Prod.fst = none := by
  obtain ⟨s0, hnew, hall⟩ := create_ok h
  have hfollows := (tryAll_mapping hram hframes hnew (fun c hc => hc) hall).2
  rcases hfollows [vpn va 2, vpn va 1, vpn va 0] rfl with ⟨c, hc, hpath, hw⟩ | ⟨hno, hw⟩
  · refine .inl ⟨c, hc, (path_prefix_iff_mod c va).mp hpath, ?_⟩
    have hlen : ([vpn va 2, vpn va 1, vpn va 0].drop c.path.length).length =
        3 - c.path.length := length_drop
    rw [translate, hw, Option.map_some, hlen, c.path_size]
    rfl
  · refine .inr ⟨fun c hc hcov => hno c hc ((path_prefix_iff_mod c va).mpr hcov), ?_⟩
    rw [translate, hw]
    rfl

omit hram hframes in
theorem start_ge_of_large (hclear : Clear ramStart ramSize mmioPages) (hsize : 2 ^ 31 < ramSize) :
    0x10200000 ≤ ramStart := by
  by_contra hlt
  exact hclear (max ramStart 0x10000000) (by omega) (by omega) 0x10000000 (by simp [mmioPages])
    (by omega)

theorem covers_ram (hclear : Clear ramStart ramSize mmioPages)
    (h : createMapping alloc mem0 ramStart ramSize = .ok (root, s)) (h1 : ramStart ≤ va)
    (h2 : va < ramStart + ramSize) (hc : c ∈ mappingCalls ramStart ramSize) (hcov : c.Covers va) :
    c.phys >>> 12 * 4096 + va % c.size = va ∧
    ∃ o ∈ offsets ramSize, va / 2 ^ 21 = (ramStart + o) / 2 ^ 21 := by
  rcases mem_append.mp hc with hc | hc
  · obtain ⟨o, ho, rfl | rfl⟩ := mem_ramCalls hc
    · rw [covers_megaCall, alignDown] at hcov
      have ho' := mem_offsets.mp ho
      refine ⟨?_, o, ho, by omega⟩
      rw [megaCall_size, megaCall_phys, alignDown, Nat.shiftRight_eq_div_pow]
      omega
    · have hle := ramSize_le_of_ok hram hframes h
      have hge := start_ge_of_large hclear
      have ho' := mem_offsets.mp ho
      rw [covers_megaCall, alignDown, kernelVirtBase] at hcov
      omega
  · obtain ⟨m, hm, rfl⟩ := mem_map.mp hc
    have hm' := mmioPages_spec m hm
    rw [covers_deviceCall] at hcov
    exact absurd (by omega) (hclear va h1 h2 m hm)

theorem identity_iff (hclear : Clear ramStart ramSize mmioPages)
    (h : createMapping alloc mem0 ramStart ramSize = .ok (root, s)) :
    (∀ a, ramStart ≤ a → a < ramStart + ramSize → (translate s.mem root a).map Prod.fst = some a) ↔
      Reaches ramStart ramSize := by
  rw [reaches_iff]
  refine forall_congr' fun a => forall₂_congr fun h1 h2 => ?_
  have hmod : a % 2 ^ 39 = a := Nat.mod_eq_of_lt (by omega)
  have hcases := translate_cases hram hframes h a
  rw [hmod] at hcases
  rcases hcases with ⟨c, hc, hcov, htr⟩ | ⟨hno, htr⟩
  · obtain ⟨heq, hex⟩ := covers_ram hram hframes hclear h h1 h2 hc hcov
    rw [htr, heq]
    exact ⟨fun _ => hex, fun _ => rfl⟩
  · rw [htr]
    refine ⟨nofun, fun ⟨o, ho, heq⟩ => absurd ?_ (hno (megaCall (ramStart + o) (ramStart + o))
      (mem_append_left _ (mem_append_left _ (mem_map.mpr ⟨o, ho, rfl⟩))))⟩
    have ho' := mem_offsets.mp ho
    rw [covers_megaCall, alignDown]
    omega

theorem higher_eq (h : createMapping alloc mem0 ramStart ramSize = .ok (root, s))
    (hsize : ramSize ≤ 2 ^ 31) {k : Nat} (hk : k < ramSize) :
    (translate s.mem root (kernelVirtBase + k)).map Prod.fst = some (alignDown ramStart + k) := by
  rcases translate_cases hram hframes h (kernelVirtBase + k) with ⟨c, hc, hcov, htr⟩ | ⟨hno, -⟩
  · rw [htr]
    rcases mem_append.mp hc with hc | hc
    · obtain ⟨o, ho, rfl | rfl⟩ := mem_ramCalls hc
      · have ho' := mem_offsets.mp ho
        rw [covers_megaCall, alignDown, kernelVirtBase] at hcov
        omega
      · have ho' := mem_offsets.mp ho
        rw [covers_megaCall, alignDown, kernelVirtBase] at hcov
        rw [megaCall_size, megaCall_phys, alignDown, alignDown, kernelVirtBase,
          Nat.shiftRight_eq_div_pow, Option.some.injEq]
        omega
    · obtain ⟨m, hm, rfl⟩ := mem_map.mp hc
      have hm' := mmioPages_spec m hm
      rw [covers_deviceCall, kernelVirtBase] at hcov
      omega
  · have ho : k / 2 ^ 21 * 2 ^ 21 ∈ offsets ramSize := mem_offsets.mpr (by omega)
    refine absurd ?_ (hno _ (mem_append_left _ (mem_append_right _
      (mem_map.mpr ⟨_, ho, rfl⟩))))
    rw [covers_megaCall, alignDown, kernelVirtBase]
    omega

theorem higher_iff (h : createMapping alloc mem0 ramStart ramSize = .ok (root, s))
    (hsize : ramSize ≤ 2 ^ 31) :
    (∀ k < ramSize,
      (translate s.mem root (kernelVirtBase + k)).map Prod.fst = some (ramStart + k)) ↔
      ramSize = 0 ∨ ramStart % 2 ^ 21 = 0 := by
  constructor
  · intro hall
    by_cases hzero : ramSize = 0
    · exact .inl hzero
    · have hk := hall 0 (by omega)
      rw [higher_eq hram hframes h hsize (by omega), Option.some.injEq, alignDown] at hk
      exact .inr (by omega)
  · rintro (hzero | halign) k hk
    · omega
    · rw [higher_eq hram hframes h hsize hk, alignDown, Option.some.injEq]
      omega

end

end Sv39

open Aarch64

/-- **When the RAM is mapped**: all of it exactly if its last byte lies in one of the pieces; in the
higher half of RISC-V exactly if it begins at a multiple of 2 MB. -/
theorem ram_mapped_iff {alloc : Nat → Option Nat} {mem0 : Pages Nat} {ramStart ramSize root : Nat}
    {s : Tables Nat} :
    (FrameSource alloc (2 ^ 48) → ramStart + ramSize ≤ 2 ^ 48 →
     Clear ramStart ramSize Aarch64.mmioPages →
     Aarch64.createIdentityMapping alloc mem0 ramStart ramSize = .ok (root, s) →
       ((∀ a, ramStart ≤ a → a < ramStart + ramSize → Aarch64.translate s.mem root a = some a) ↔
          Reaches ramStart ramSize)) ∧
    (FrameSource alloc (2 ^ 56) → ramStart + ramSize ≤ 2 ^ 38 →
     Clear ramStart ramSize Sv39.mmioPages →
     Sv39.createMapping alloc mem0 ramStart ramSize = .ok (root, s) →
       (((∀ a, ramStart ≤ a → a < ramStart + ramSize →
            (Sv39.translate s.mem root a).map Prod.fst = some a) ∧
         (ramSize ≤ 2 ^ 31 →
            ∀ k < ramSize, (Sv39.translate s.mem root (Sv39.kernelVirtBase + k)).map Prod.fst =
                some (ramStart + k))) ↔
          Reaches ramStart ramSize ∧
          (ramSize ≤ 2 ^ 31 → ramSize = 0 ∨ ramStart % 2 ^ 21 = 0))) := by
  refine ⟨fun hframes hram hclear h => Aarch64.identity_iff hframes hram hclear h,
    fun hframes hram hclear h => ?_⟩
  exact and_congr (Sv39.identity_iff hram hframes hclear h)
    (forall_congr' fun hsize => Sv39.higher_iff hram hframes h hsize)

theorem exists_ok {r : Except String (Nat × Tables Nat)} {P : Nat × Tables Nat → Bool}
    (h : r.toOption.any P = true) : ∃ root s, r = .ok (root, s) ∧ P (root, s) = true := by
  cases r with
  | error e => cases h
  | ok x => exact ⟨x.1, x.2, rfl, h⟩

theorem clear_aarch64 {ramStart ramSize : Nat} (h : 2 ^ 28 ≤ ramStart) :
    Clear ramStart ramSize mmioPages := fun a h1 _ m hm => by
  have hm' := mmioPages_spec m hm
  omega

theorem ram_mapped_aligned : ∃ root s,
    Aarch64.createIdentityMapping someFrames (fun _ _ => 0) 0x40000000 0x200000 = .ok (root, s) ∧
      ∀ a, 0x40000000 ≤ a → a < 0x40000000 + 0x200000 →
        Aarch64.translate s.mem root a = some a := by
  obtain ⟨root, s, h, -⟩ := @exists_ok (Aarch64.createIdentityMapping someFrames (fun _ _ => 0)
    0x40000000 0x200000) (fun _ => true) (by decide +kernel)
  exact ⟨root, s, h, (ram_mapped_iff.1 (someFrames_source (by decide)) (by decide)
    (clear_aarch64 (by decide)) h).mpr (.inr (by decide))⟩

/-- **RAM that begins in the middle of a piece is not mapped to its end**: of the 2 MB from
`0x40100000` on, the upper half is missing. -/
theorem ram_not_mapped : Clear 0x40100000 0x200000 Aarch64.mmioPages ∧ ∃ root s,
    Aarch64.createIdentityMapping someFrames (fun _ _ => 0) 0x40100000 0x200000 = .ok (root, s) ∧
      Aarch64.translate s.mem root 0x40200000 = none := by
  refine ⟨clear_aarch64 (by decide), ?_⟩
  obtain ⟨root, s, h, hnone⟩ := @exists_ok (Aarch64.createIdentityMapping someFrames (fun _ _ => 0)
    0x40100000 0x200000) (fun r => (Aarch64.translate r.2.mem r.1 0x40200000).isNone)
    (by decide +kernel)
  exact ⟨root, s, h, Option.isNone_iff_eq_none.mp hnone⟩

end Kerners.Arch
