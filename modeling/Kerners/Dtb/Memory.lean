import Kerners.Dtb.Devices

/-!
# Memory and board (`dtb/mod.rs`)

`get_memory` looks for the first `reg` inside a node `memory` or `memory@…` under the root, and
`get_root_compatible` for the `compatible` of the root. Both go over the structure block with the loop
of `scan_nodes` and a state of their own.

`Skips.node`: what lies below the nodes under the root changes the depth only, and that not for
long.
-/

namespace Kerners.Dtb

open Lib List

inductive DtbError where
  | nodeNotFound

/-- `name == "memory" || name.starts_with("memory@")`. -/
def isMemory (name : Bytes) : Bool := name == ascii "memory" || (ascii "memory@").isPrefixOf name

/-- The variables of `find_memory_region`. -/
structure MemoryScan where
  inMemoryNode : Bool
  cells : Cells
  depth : Int

/-- `find_memory_region` at a token: it returns the base and the size. -/
def MemoryScan.tok (d : DeviceTree) (s : MemoryScan) :
    Tok → Except (Except DtbError (Nat × Nat)) MemoryScan
  | .beginNode name => .ok { s with
      inMemoryNode := s.depth == 1 && isMemory name || s.inMemoryNode
      depth := s.depth + 1 }
  | .endNode => .ok { s with
      inMemoryNode := s.depth - 1 != 1 && s.inMemoryNode
      depth := s.depth - 1 }
  | .prop p =>
    let cells := if s.depth = 1 then s.cells.after d p else s.cells
    if s.inMemoryNode ∧ p.name = ascii "reg" then
      .error (.ok (d.readCells p.addr cells.address,
        d.readCells (p.addr + cells.address * 4 % 2 ^ 32) cells.size))
    else .ok { s with cells := cells }

open MemoryScan

def DeviceTree.getMemory (d : DeviceTree) (fuel : Nat) : Option (Except DtbError (Nat × Nat)) :=
  d.loop (MemoryScan.tok d) (fun _ => .error .nodeNotFound) fuel ⟨false, ⟨2, 1⟩, 0⟩ 0

/-- The texts of a `compatible`. -/
def texts (data : Bytes) : List Bytes := (data.splitOn 0).filter (· ≠ [])

/-- `scan_root_compatible` at a token, with the depth as its state. -/
def rootTok (depth : Int) : Tok → Except (List Bytes) Int
  | .beginNode _ => .ok (depth + 1)
  | .endNode => if depth - 1 = 0 then .error [] else .ok (depth - 1)
  | .prop p =>
    if depth = 1 ∧ p.name = ascii "compatible" then
      .error (if (fromUtf8 p.data).isSome then texts p.data else [])
    else .ok depth

def DeviceTree.getRootCompatible (d : DeviceTree) (fuel : Nat) : Option (List Bytes) :=
  d.loop rootTok (fun _ => []) fuel 0 0

/-! ## Below the nodes under the root -/

open DtNode

section

variable {σ ρ : Type*} {tok : σ → Tok → Except ρ σ} {S : Int → σ}

structure Skips (tok : σ → Tok → Except ρ σ) (S : Int → σ) : Prop where
  beginNode : ∀ k name, 2 ≤ k → tok (S k) (.beginNode name) = .ok (S (k + 1))
  prop : ∀ k p, 2 ≤ k → tok (S k) (.prop p) = .ok (S k)
  endNode : ∀ k, 2 ≤ k → tok (S k) .endNode = .ok (S (k - 1))

theorem Skips.props (h : Skips tok S) {k : Int} (hk : 2 ≤ k) (ps : List DtProp) :
    (ps.map Tok.prop).foldlM tok (S k) = .ok (S k) := by
  induction ps with
  | nil => rfl
  | cons p ps ih =>
    rw [map_cons, foldlM_cons, h.prop k p hk]
    exact ih

mutual

theorem Skips.node (h : Skips tok S) : ∀ (n : DtNode) (k : Int), 1 ≤ k →
    tok (S k) (.beginNode n.name) = .ok (S (k + 1)) → n.toks.foldlM tok (S k) = .ok (S k)
  | .mk name props children, k, hk, hbegin => by
    have hkids := h.nodes children (k + 1) (by omega) fun n _ => h.beginNode _ _ (by omega)
    have hend := h.endNode (k + 1) (by omega)
    rw [Int.add_sub_cancel] at hend
    rw [toks, foldlM_cons]
    change (tok (S k) (.beginNode name)).bind _ = _
    rw [show tok (S k) (.beginNode name) = _ from hbegin]
    change List.foldlM tok (S (k + 1)) _ = _
    rw [foldlM_append, h.props (by omega)]
    change List.foldlM tok (S (k + 1)) _ = _
    rw [foldlM_append, hkids]
    change List.foldlM tok (S (k + 1)) _ = _
    rw [foldlM_cons, hend]
    rfl

theorem Skips.nodes (h : Skips tok S) : ∀ (ns : List DtNode) (k : Int), 1 ≤ k → (∀ n ∈ ns, tok (S k)
    (.beginNode n.name) = .ok (S (k + 1))) → (toksAll ns).foldlM tok (S k) = .ok (S k)
  | [], _, _, _ => rfl
  | n :: ns, k, hk, hbegin => by
    rw [toksAll, foldlM_append, h.node n k hk (hbegin n mem_cons_self)]
    exact h.nodes ns k hk fun m hm => hbegin m (mem_cons_of_mem n hm)

end

end

theorem rootTok_skips : Skips rootTok fun k => k where
  beginNode := fun _ _ _ => rfl
  prop := fun k p hk => if_neg fun h => by omega
  endNode := fun k hk => if_neg (by omega)

theorem MemoryScan.tok_skips (d : DeviceTree) (c : Cells) :
    Skips (tok d) fun k => ⟨false, c, k⟩ where
  beginNode := fun k name hk => by
    have hne : (k == 1) = false := beq_false_of_ne (by omega)
    simp only [tok, hne, Bool.false_and, Bool.or_false]
  prop := fun k p hk => by
    have hne : k ≠ 1 := by omega
    simp [tok, hne]
  endNode := fun k hk => by simp only [tok, Bool.and_false]

/-! ## The two functions on a tree -/

/-- The `reg` of the first node for the memory. -/
def memoryReg (ns : List DtNode) : Option DtProp :=
  (ns.find? fun n => isMemory n.name).bind fun n => n.prop? (ascii "reg")

section

variable {d : DeviceTree} {c : Cells} {stop : MemoryScan → Except DtbError (Nat × Nat)}

/-- What is read at a `reg`. -/
def regionAt (d : DeviceTree) (c : Cells) (p : DtProp) : Nat × Nat :=
  (d.readCells p.addr c.address, d.readCells (p.addr + c.address * 4 % 2 ^ 32) c.size)

theorem foldlM_memoryProps {ps : List DtProp} {p : DtProp}
    (h : ps.find? (fun p => p.name = ascii "reg") = some p) :
    (ps.map Tok.prop).foldlM (tok d) ⟨true, c, 2⟩ = .error (.ok (regionAt d c p)) := by
  induction ps with
  | nil => cases h
  | cons q ps ih =>
    rw [map_cons, foldlM_cons]
    by_cases hq : q.name = ascii "reg"
    · rw [find?_cons_of_pos (by simpa using hq)] at h
      obtain rfl := Option.some.inj h
      simp [tok, hq, regionAt]
      rfl
    · rw [find?_cons_of_neg (by simpa using hq)] at h
      simp only [tok, hq, and_false, if_false]
      exact ih h

theorem runToks_children : ∀ {ns : List DtNode},
    (∀ n ∈ ns, isMemory n.name = true → (n.prop? (ascii "reg")).isSome) →
    runToks (tok d) (fun _ => .error .nodeNotFound) ⟨false, c, 1⟩
        (toksAll ns ++ [.endNode]) =
      (memoryReg ns).elim (.error .nodeNotFound) fun p => .ok (regionAt d c p)
  | [], _ => rfl
  | n :: ns, h => by
    rw [toksAll, append_assoc]
    cases hm : isMemory n.name with
    | false =>
      have hskip := (tok_skips d c).node n 1 (by decide) (by simp [tok, hm])
      rw [runToks_of_ok hskip, runToks_children fun m hm => h m (mem_cons_of_mem n hm), memoryReg,
        memoryReg, find?_cons_of_neg (by simp [hm])]
    | true =>
      obtain ⟨p, hp⟩ := Option.isSome_iff_exists.1 (h n mem_cons_self hm)
      rw [memoryReg, find?_cons_of_pos (by exact hm)]
      obtain ⟨name, props, children⟩ := n
      have hbegin : tok d ⟨false, c, 1⟩ (.beginNode name) = .ok ⟨true, c, 2⟩ := by
        have hm' : isMemory name = true := hm
        simp [tok, hm']
      have herr : (DtNode.mk name props children).toks.foldlM (tok d) ⟨false, c, 1⟩ =
          .error (.ok (regionAt d c p)) := by
        rw [toks, foldlM_cons, hbegin]
        change List.foldlM _ _ (props.map Tok.prop ++ _) = _
        have hp' : props.find? (fun q => q.name = ascii "reg") = some p := hp
        rw [foldlM_append, foldlM_memoryProps hp']
        rfl
      rw [runToks_of_error herr, Option.bind_some, hp]
      rfl

theorem foldlM_rootProps (ps : List DtProp) (c : Cells) :
    (ps.map Tok.prop).foldlM (tok d) ⟨false, c, 1⟩ =
      .ok ⟨false, ps.foldl (Cells.after d) c, 1⟩ := by
  induction ps generalizing c with
  | nil => rfl
  | cons p ps ih =>
    rw [map_cons, foldlM_cons]
    simp only [tok, Bool.false_eq_true, false_and, if_false, if_true]
    exact ih _

theorem runToks_memory {root : DtNode}
    (h : ∀ n ∈ root.children, isMemory n.name = true → (n.prop? (ascii "reg")).isSome) :
    runToks (tok d) (fun _ => .error .nodeNotFound) ⟨false, ⟨2, 1⟩, 0⟩ root.toks =
      (memoryReg root.children).elim (.error .nodeNotFound) fun p =>
        .ok (regionAt d (root.cells d) p) := by
  obtain ⟨name, props, children⟩ := root
  rw [toks]
  change runToks (tok d) _ ⟨false, ⟨2, 1⟩, 1⟩ (props.map Tok.prop ++ _) = _
  rw [runToks_of_ok (foldlM_rootProps props _)]
  exact runToks_children h

theorem runToks_compatible {root : DtNode}
    (h : ∀ p ∈ root.props, p.name = ascii "compatible" → (fromUtf8 p.data).isSome) :
    runToks rootTok (fun _ => []) 0 root.toks =
      (root.prop? (ascii "compatible")).elim [] fun p => texts p.data := by
  obtain ⟨name, props, children⟩ := root
  rw [toks]
  change runToks rootTok _ 1 (props.map Tok.prop ++ _) = (props.find? _).elim _ _
  have h' : ∀ p ∈ props, p.name = ascii "compatible" → (fromUtf8 p.data).isSome := h
  clear h
  induction props with
  | nil =>
    rw [map_nil, nil_append, runToks_of_ok (rootTok_skips.nodes children 1 (by decide)
      fun _ _ => rfl)]
    rfl
  | cons p ps ih =>
    by_cases hp : p.name = ascii "compatible"
    · rw [find?_cons_of_pos (by simpa using hp)]
      have htok : rootTok 1 (.prop p) = .error (texts p.data) := by
        simp [rootTok, hp, h' p mem_cons_self hp]
      rw [map_cons, cons_append, runToks, foldlM_cons, htok]
      rfl
    · rw [find?_cons_of_neg (by simpa using hp)]
      have htok : rootTok 1 (.prop p) = .ok 1 := by simp [rootTok, hp]
      rw [map_cons, cons_append, runToks, foldlM_cons, htok]
      exact ih fun q hq => h' q (mem_cons_of_mem p hq)

end

/-! ## The numbers in the blob -/

open DeviceTree

section

variable {d : DeviceTree} {a : Nat} {data : Bytes}

theorem leNat_append (xs ys : Bytes) :
    leNat (xs ++ ys) = leNat xs + 256 ^ xs.length * leNat ys := by
  induction xs with
  | nil => simp [leNat]
  | cons x xs ih =>
    rw [cons_append, leNat, ih, leNat, length_cons, Nat.pow_succ', Nat.mul_add, Nat.add_assoc,
      Nat.mul_assoc]

/-- **`read_cells` reads the number in the cells**, the high one first. -/
theorem DeviceTree.readCells_eq (h : d.Holds a data) {offset k : Nat} (hk : k ≤ 2)
    (hle : offset + 4 * k ≤ data.length) :
    d.readCells (a + offset) k = beNat (slice data offset (4 * k)) := by
  have hword : ∀ o, o + 4 ≤ data.length → d.readU32 (a + o) = beNat (slice data o 4) := fun o ho => by
    unfold DeviceTree.Holds at h
    rw [readU32, bytes_add ho, h]
  obtain rfl | rfl | rfl : k = 0 ∨ k = 1 ∨ k = 2 := by omega
  · simp [readCells, slice, beNat, leNat]
  · exact hword offset hle
  · have hsplit : slice data offset 8 = slice data offset 4 ++ slice data (offset + 4) 4 := by
      simp only [slice, ← drop_drop, ← take_add]
    have hlen : (slice data (offset + 4) 4).length = 4 := by
      simp only [slice, length_take, length_drop]
      omega
    change d.readU32 (a + offset) * 2 ^ 32 + d.readU32 (a + offset + 4) = beNat (slice data offset 8)
    rw [hword offset (by omega), Nat.add_assoc, hword (offset + 4) (by omega), hsplit]
    simp only [beNat, reverse_append, leNat_append, length_reverse, hlen]
    omega

def DtNode.number (n : DtNode) (name : Bytes) (default : Nat) : Nat :=
  (n.prop? name).elim default fun p => beNat p.data

def DtNode.declared (n : DtNode) : Cells :=
  ⟨n.number (ascii "#address-cells") 2, n.number (ascii "#size-cells") 1⟩

theorem foldl_after : ∀ {ps : List DtProp} {c : Cells}, (ps.map DtProp.name).Nodup →
    (∀ p ∈ ps, d.Holds p.addr p.data) →
    (∀ p ∈ ps, p.name = ascii "#address-cells" ∨ p.name = ascii "#size-cells" →
      p.data.length = 4) →
    ps.foldl (Cells.after d) c =
      ⟨(ps.find? fun p => p.name = ascii "#address-cells").elim c.address fun p => beNat p.data,
        (ps.find? fun p => p.name = ascii "#size-cells").elim c.size fun p => beNat p.data⟩
  | [], _, _, _, _ => rfl
  | p :: ps, c, hn, hh, hlen => by
    obtain ⟨hnot, hn'⟩ := nodup_cons.1 hn
    have hother : ∀ {name}, p.name = name → ps.find? (fun q => q.name = name) = none :=
      fun hp => find?_eq_none fun q hq heq => hnot (hp.trans heq.symm ▸ mem_map_of_mem hq)
    have hread : p.name = ascii "#address-cells" ∨ p.name = ascii "#size-cells" →
        d.readU32 p.addr = beNat p.data := fun hp => by
      have hbytes : d.bytes p.addr p.data.length = p.data := hh p mem_cons_self
      rw [hlen p mem_cons_self hp] at hbytes
      rw [readU32, hbytes]
    rw [foldl_cons, foldl_after hn' (fun q hq => hh q (mem_cons_of_mem p hq))
      fun q hq => hlen q (mem_cons_of_mem p hq), Cells.after, Cells.property]
    by_cases ha : p.name = ascii "#address-cells"
    · rw [if_pos ⟨ha, hlen p mem_cons_self (.inl ha)⟩, find?_cons_of_pos (by simpa using ha),
        find?_cons_of_neg (by rw [ha]; decide), hother ha, hread (.inl ha)]
      rfl
    · rw [if_neg fun h => ha h.1, find?_cons_of_neg (by simpa using ha)]
      by_cases hs : p.name = ascii "#size-cells"
      · rw [if_pos ⟨hs, hlen p mem_cons_self (.inr hs)⟩, find?_cons_of_pos (by simpa using hs),
          hother hs, hread (.inr hs)]
        rfl
      · rw [if_neg fun h => hs h.1, find?_cons_of_neg (by simpa using hs)]

end

/-! ## Discovery -/

/-- What `get_memory` and `get_root_compatible` expect of a tree. -/
structure DtNode.Standard (root : DtNode) : Prop where
  names : (root.props.map DtProp.name).Nodup
  text : ∀ p ∈ root.props, p.name = ascii "compatible" → (fromUtf8 p.data).isSome
  cells : ∀ p ∈ root.props, p.name = ascii "#address-cells" ∨ p.name = ascii "#size-cells" →
    p.data = beBytes 1 ∨ p.data = beBytes 2
  memory : ∀ n ∈ root.children, isMemory n.name = true → ∃ p ∈ n.prop? (ascii "reg"),
    4 * (root.declared.address + root.declared.size) ≤ p.data.length

/-- The first base and size in the `reg` of the first node for the memory. -/
def DtNode.memory (root : DtNode) : Except DtbError (Nat × Nat) :=
  (memoryReg root.children).elim (.error .nodeNotFound) fun p =>
    .ok (beNat (slice p.data 0 (4 * root.declared.address)),
      beNat (slice p.data (4 * root.declared.address) (4 * root.declared.size)))

section

variable {d : DeviceTree} {root : DtNode}

theorem DtNode.Standard.declared_le (h : root.Standard) :
    root.declared.address ≤ 2 ∧ root.declared.size ≤ 2 := by
  have hle : ∀ {name : Bytes} {default : Nat}, default ≤ 2 →
      (name = ascii "#address-cells" ∨ name = ascii "#size-cells") →
      root.number name default ≤ 2 := fun {name default} hd hname => by
    unfold number
    cases hp : root.prop? name with
    | none => exact hd
    | some p =>
      have hn : p.name = name := by simpa using find?_some hp
      rcases h.cells p (mem_of_find?_eq_some hp) (hn ▸ hname) with hdata | hdata <;>
        rw [Option.elim_some, hdata] <;> decide
  exact ⟨hle (by decide) (.inl rfl), hle (by decide) (.inr rfl)⟩

theorem DtNode.mem_allOf {n : DtNode} : ∀ {ns : List DtNode}, n ∈ ns → n ∈ allOf ns
  | .mk name props children :: ns, h => by
    rw [allOf, all]
    rcases mem_cons.1 h with rfl | h
    · exact mem_append_left _ mem_cons_self
    · exact mem_append_right _ (mem_allOf h)

theorem Laid.holds_props (hl : Laid d 0 root.toks) {n : DtNode} (hn : n ∈ root.all) :
    ∀ p ∈ n.props, d.Holds p.addr p.data := fun p hp => hl.holds p (mem_toks hp root hn)

theorem DtNode.mem_all_of_child {n : DtNode} (hn : n ∈ root.children) : n ∈ root.all := by
  obtain ⟨name, props, children⟩ := root
  rw [all]
  exact mem_cons_of_mem _ (mem_allOf hn)

theorem DtNode.self_mem_all (root : DtNode) : root ∈ root.all := by
  obtain ⟨name, props, children⟩ := root
  rw [all]
  exact mem_cons_self

theorem DtNode.Standard.cells_eq (h : root.Standard) (hl : Laid d 0 root.toks) :
    root.cells d = root.declared := by
  refine foldl_after h.names (hl.holds_props root.self_mem_all) fun p hp hname => ?_
  rcases h.cells p hp hname with hdata | hdata <;> rw [hdata] <;> rfl

theorem DtNode.Standard.region (h : root.Standard) (hl : Laid d 0 root.toks) {p : DtProp}
    (hp : memoryReg root.children = some p) :
    regionAt d root.declared p = (beNat (slice p.data 0 (4 * root.declared.address)),
      beNat (slice p.data (4 * root.declared.address) (4 * root.declared.size))) := by
  obtain ⟨n, hn, hreg⟩ := Option.bind_eq_some_iff.1 hp
  have hchild := mem_of_find?_eq_some hn
  obtain ⟨q, hq, hlen⟩ := h.memory n hchild (by simpa using find?_some hn)
  obtain rfl : p = q := Option.some.inj (hreg.symm.trans hq)
  obtain ⟨ha, hs⟩ := h.declared_le
  have hholds := hl.holds_props (mem_all_of_child hchild) p (mem_of_find?_eq_some hreg)
  have hbase : d.readCells (p.addr + 0) root.declared.address = _ :=
    readCells_eq hholds ha (by omega)
  have hoff : root.declared.address * 4 % 2 ^ 32 = 4 * root.declared.address := by omega
  rw [regionAt, hoff, readCells_eq hholds hs (by omega)]
  exact Prod.ext hbase rfl

/-- **Discovery inverts the encoding**: on the blob of a standard tree, `get_memory` returns the first
region of the first node for the memory, and `get_root_compatible` the texts of the root. -/
theorem DtNode.discovers (hl : Laid d 0 root.toks) (h : root.Standard) :
    ∃ n, ∀ fuel ≥ n, d.getMemory fuel = some root.memory ∧
      d.getRootCompatible fuel = some (root.compatibleList.filter (· ≠ [])) := by
  obtain ⟨n1, h1⟩ := @Laid.loop _ _ d (MemoryScan.tok d) (fun _ => .error .nodeNotFound) _ _ hl
    ⟨false, ⟨2, 1⟩, 0⟩
  obtain ⟨n2, h2⟩ := @Laid.loop _ _ d rootTok (fun _ => []) _ _ hl 0
  refine ⟨max n1 n2, fun fuel hf => ⟨?_, ?_⟩⟩
  · have hreg : ∀ n ∈ root.children, isMemory n.name = true → (n.prop? (ascii "reg")).isSome :=
      fun n hn hm => by
        obtain ⟨p, hp, -⟩ := h.memory n hn hm
        exact Option.isSome_iff_exists.2 ⟨p, hp⟩
    rw [DeviceTree.getMemory, h1 fuel (by omega), runToks_memory hreg, h.cells_eq hl, DtNode.memory]
    cases hp : memoryReg root.children with
    | none => rfl
    | some p => rw [Option.elim_some, Option.elim_some, h.region hl hp]
  · rw [DeviceTree.getRootCompatible, h2 fuel (by omega), runToks_compatible h.text,
      DtNode.compatibleList]
    cases root.prop? (ascii "compatible") <;> rfl

end

/-- A tree with one node for the memory: `0x1000` bytes at `0x80000000`. -/
def memoryTree : DtNode :=
  .mk [] [] [.mk (ascii "memory") [⟨ascii "reg", [0, 0, 0, 0, 0x80, 0, 0, 0, 0, 0, 0x10, 0], 32⟩] []]

def memoryBlob : DeviceTree where
  mem a := ([0, 0, 0, 1, 0, 0, 0, 0, 0, 0, 0, 1] ++ ascii "memory" ++ [0, 0, 0, 0, 0, 3, 0, 0, 0, 12,
    0, 0, 0, 0, 0, 0, 0, 0, 0x80, 0, 0, 0, 0, 0, 0x10, 0, 0, 0, 0, 2, 0, 0, 0, 2, 0, 0, 0, 9] ++
      ascii "reg").getD a 0
  base := 0
  offDtStruct := 0
  offDtStrings := 56

theorem memoryBlob_laid : Laid memoryBlob 0 memoryTree.toks :=
  .beginNode (by decide) (by decide) <| .beginNode (by decide) (by decide) <|
    .prop 0 (by decide) (by decide) (by decide) (by decide) (by decide) <|
      .endNode (by decide) <| .endNode (by decide) <| .stop (by decide)

theorem DtNode.discovers_memory : ∃ n, ∀ fuel ≥ n,
    memoryBlob.getMemory fuel = some (.ok (0x80000000, 0x1000)) := by
  have hs : memoryTree.Standard := by
    refine ⟨nodup_nil, nofun, nofun, fun n hn _ => ?_⟩
    obtain rfl := mem_singleton.1 hn
    exact ⟨_, rfl, by decide⟩
  obtain ⟨n, hn⟩ := DtNode.discovers memoryBlob_laid hs
  exact ⟨n, fun fuel hf => (hn fuel hf).1⟩

end Kerners.Dtb
