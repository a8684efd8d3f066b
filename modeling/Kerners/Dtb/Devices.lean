import Kerners.Dtb.Tree

/-!
# What the device-tree scan reports

`scan_nodes` reports the **leaves** of a flattened tree: a node with a subnode is forgotten when the
subnode begins.
-/

namespace Kerners.Dtb

open Lib List

/-! ## What a node says -/

namespace DtNode

def prop? (n : DtNode) (name : Bytes) : Option DtProp := n.props.find? fun p => p.name = name

/-- The texts in `compatible`, which NULs end. -/
def compatibleList (n : DtNode) : List Bytes :=
  (n.prop? (ascii "compatible")).elim [] fun p => p.data.splitOn 0

/-- `compatible` contains a text that is not empty. -/
def HasCompatible (n : DtNode) : Prop := ∃ s ∈ n.compatibleList, s ≠ []

instance (n : DtNode) : Decidable n.HasCompatible := inferInstanceAs (Decidable (∃ s ∈ _, s ≠ []))

/-- The compatible string: `compatible` without the NULs at its end. -/
def compatible (n : DtNode) : Bytes :=
  (n.prop? (ascii "compatible")).elim [] fun p => trimEnd p.data

end DtNode

def words (data : Bytes) : List Nat :=
  (List.range (data.length / 4)).map fun i => beNat (slice data (i * 4) 4)

def DtNode.interrupts (n : DtNode) : List Nat :=
  (n.prop? (ascii "interrupts")).elim [] fun p => words p.data

/-- What a report is about: name, compatible string and interrupts. -/
structure Report where
  name : Bytes
  compatible : Bytes
  interrupts : List Nat
  deriving DecidableEq

def DtNode.report (n : DtNode) : Report := ⟨n.name, n.compatible, n.interrupts⟩

def DeviceInfo.report (i : DeviceInfo) : Report := ⟨i.name, i.compatible, i.interrupts⟩

section

variable (d : DeviceTree)

def Cells.after (c : Cells) (p : DtProp) : Cells := c.property d p.name p.addr p.data.length

/-- The cells of the root node: two and one, if it does not say otherwise. -/
def DtNode.cells (root : DtNode) : Cells := root.props.foldl (Cells.after d) ⟨2, 1⟩

/-- The `reg` property, with the cells in force at it: those of the node itself only count if they
come before it. -/
def regOf : Cells → List DtProp → Option (Cells × DtProp)
  | _, [] => none
  | c, p :: ps => if p.name = ascii "reg" then some (c, p) else regOf (c.after d p) ps

/-- The entries of `reg` have a size. -/
def RegFits (c : Cells) (ps : List DtProp) : Prop := ∀ r ∈ regOf d c ps, r.1.entrySize ≠ 0

/-- The entries of a `reg`, as they are read with these cells. -/
def entries (c : Cells) (p : DtProp) : List (Nat × Nat) :=
  (List.range (p.data.length / c.entrySize)).map fun i => c.entry d (p.addr + i * c.entrySize)

def DeviceInfo.regs (i : DeviceInfo) : (Nat × Nat) × List (Nat × Nat) :=
  ((i.regBase, i.regSize), i.regExtra)

/-- The regions that are read from `reg`. -/
def regsOf (c : Cells) (ps : List DtProp) : (Nat × Nat) × List (Nat × Nat) :=
  (regOf d c ps).elim ((0, 0), []) fun r => ((DeviceInfo.new []).addRegs (entries d r.1 r.2)).regs

/-- The first address in `reg`, zero without an entry. -/
def regBaseOf (c : Cells) (ps : List DtProp) : Nat :=
  (regOf d c ps).elim 0 fun r =>
    if r.2.data.length / r.1.entrySize = 0 then 0 else d.readCells r.2.addr r.1.address

end

/-- Properties with different names and a `compatible` in UTF-8, that stand where they say. -/
structure PropsOk (d : DeviceTree) (ps : List DtProp) : Prop where
  names : (ps.map DtProp.name).Nodup
  text : ∀ p ∈ ps, p.name = ascii "compatible" → (fromUtf8 p.data).isSome
  holds : ∀ p ∈ ps, d.Holds p.addr p.data

/-! ## The properties of one node -/

open Scan

open DeviceTree

section

variable {d : DeviceTree} {c : Cells} {p : DtProp} {ps : List DtProp} {info info' : DeviceInfo}

theorem words_eq (h : d.Holds p.addr p.data) :
    (List.range (p.data.length / 4)).map (fun i => d.readU32 (p.addr + i * 4)) = words p.data := by
  refine map_congr_left fun i hi => ?_
  have hi' : i * 4 + 4 ≤ p.data.length := by
    have := mem_range.1 hi
    omega
  rw [readU32, bytes_add hi']
  unfold DeviceTree.Holds at h
  rw [h]

/-- What one property adds to `current_info`. -/
structure Adds (d : DeviceTree) (c : Cells) (p : DtProp) (info info' : DeviceInfo) : Prop where
  name : info'.name = info.name
  compatible : info'.compatible =
    if p.name = ascii "compatible" then trimEnd p.data else info.compatible
  interrupts : info'.interrupts =
    if p.name = ascii "interrupts" then info.interrupts ++ words p.data else info.interrupts
  regs : info'.regs =
    if p.name = ascii "reg" then (info.addRegs (entries d c p)).regs else info.regs

theorem DeviceInfo.addRegs_congr {i j : DeviceInfo} (h : i.regs = j.regs) (es : List (Nat × Nat)) :
    (i.addRegs es).regs = (j.addRegs es).regs := by
  cases es with
  | nil => exact h
  | cons e es => rw [regs, regs, addRegs, addRegs, (Prod.mk.inj h).2]

theorem DeviceInfo.addRegs_rest (info : DeviceInfo) (es : List (Nat × Nat)) :
    (info.addRegs es).name = info.name ∧ (info.addRegs es).compatible = info.compatible ∧
      (info.addRegs es).interrupts = info.interrupts := by
  cases es <;> exact ⟨rfl, rfl, rfl⟩

theorem DeviceInfo.property_ok (hh : d.Holds p.addr p.data)
    (ht : p.name = ascii "compatible" → (fromUtf8 p.data).isSome)
    (hr : p.name = ascii "reg" → c.entrySize ≠ 0) :
    ∃ info', info.property d c p.name p.addr p.data.length = .ok info' ∧ Adds d c p info info' := by
  have hw := words_eq hh
  unfold DeviceTree.Holds at hh
  unfold DeviceInfo.property
  by_cases hc : p.name = ascii "compatible"
  · obtain ⟨s, hs⟩ := Option.isSome_iff_exists.1 (ht hc)
    rw [if_pos hc, hh, hs]
    exact ⟨_, rfl, rfl, by rw [if_pos hc], by rw [hc, if_neg (by decide)],
      by rw [hc, if_neg (by decide)]; rfl⟩
  rw [if_neg hc]
  by_cases hreg : p.name = ascii "reg"
  · rw [if_pos hreg, if_neg (hr hreg)]
    obtain ⟨h1, h2, h3⟩ := info.addRegs_rest
      ((List.range (p.data.length / c.entrySize)).map fun i => c.entry d (p.addr + i * c.entrySize))
    exact ⟨_, rfl, h1, by rw [if_neg hc, h2], by rw [hreg, if_neg (by decide), h3],
      by rw [if_pos hreg]; rfl⟩
  rw [if_neg hreg]
  by_cases hi : p.name = ascii "interrupts"
  · rw [if_pos hi, hw]
    exact ⟨_, rfl, rfl, by rw [if_neg hc], by rw [if_pos hi], by rw [if_neg hreg]; rfl⟩
  rw [if_neg hi]
  split_ifs <;> exact ⟨_, rfl, rfl, by rw [if_neg hc], by rw [if_neg hi], (if_neg hreg).symm⟩

/-- What the properties of a node make of its `DeviceInfo`. -/
structure Parsed (d : DeviceTree) (c : Cells) (ps : List DtProp) (info info' : DeviceInfo) : Prop where
  name : info'.name = info.name
  compatible : info'.compatible =
    (ps.find? fun p => p.name = ascii "compatible").elim info.compatible fun p => trimEnd p.data
  interrupts : info'.interrupts = info.interrupts ++
    (ps.find? fun p => p.name = ascii "interrupts").elim [] fun p => words p.data
  regs : info'.regs = (regOf d c ps).elim info.regs fun r =>
    (info.addRegs (entries d r.1 r.2)).regs

theorem regOf_eq_none : ∀ {ps : List DtProp} {c : Cells}, (∀ q ∈ ps, q.name ≠ ascii "reg") →
    regOf d c ps = none
  | [], _, _ => rfl
  | p :: ps, c, h => by
    rw [regOf, if_neg (h p mem_cons_self)]
    exact regOf_eq_none fun q hq => h q (mem_cons_of_mem p hq)

theorem find?_eq_none {name : Bytes} (h : ∀ q ∈ ps, q.name ≠ name) :
    ps.find? (fun q => q.name = name) = none :=
  List.find?_eq_none.2 fun q hq => by simpa using h q hq

theorem PropsOk.tail (h : PropsOk d (p :: ps)) : PropsOk d ps where
  names := (nodup_cons.1 h.names).2
  text := fun q hq => h.text q (mem_cons_of_mem p hq)
  holds := fun q hq => h.holds q (mem_cons_of_mem p hq)

theorem PropsOk.ne_head (h : PropsOk d (p :: ps)) {name : Bytes} (hp : p.name = name) :
    ∀ q ∈ ps, q.name ≠ name := fun _ hq heq =>
  (nodup_cons.1 h.names).1 (hp.trans heq.symm ▸ mem_map_of_mem hq)

theorem Adds.parsed {info1 : DeviceInfo} (hok : PropsOk d (p :: ps)) (h : Adds d c p info info1)
    (hrest : Parsed d (c.after d p) ps info1 info') : Parsed d c (p :: ps) info info' where
  name := hrest.name.trans h.name
  compatible := by
    rw [hrest.compatible, h.compatible, find?_cons]
    by_cases hp : p.name = ascii "compatible"
    · rw [find?_eq_none (hok.ne_head hp)]
      simp [hp]
    · simp [hp]
  interrupts := by
    rw [hrest.interrupts, h.interrupts, find?_cons]
    by_cases hp : p.name = ascii "interrupts"
    · rw [find?_eq_none (hok.ne_head hp)]
      simp [hp]
    · simp [hp]
  regs := by
    rw [hrest.regs, regOf]
    by_cases hp : p.name = ascii "reg"
    · rw [regOf_eq_none (hok.ne_head hp), if_pos hp, Option.elim_none, h.regs, if_pos hp]
      rfl
    · rw [if_neg hp]
      have hsame : info1.regs = info.regs := by rw [h.regs, if_neg hp]
      cases regOf d (c.after d p) ps with
      | none => exact hsame
      | some r => exact DeviceInfo.addRegs_congr hsame _

theorem Scan.run_props : ∀ {ps : List DtProp} {s : Scan} {info : DeviceInfo}, PropsOk d ps →
    s.currentInfo = some info → s.depth ≠ 1 →
    (RegFits d s.current ps → ∃ info' c', Parsed d s.current ps info info' ∧
      s.run d (ps.map .prop) = .ok { s with currentInfo := some info', current := c' }) ∧
    (¬ RegFits d s.current ps → s.run d (ps.map .prop) = .error .panic)
  | [], s, info, _, hi, _ => by
    refine ⟨fun _ => ⟨info, s.current, ⟨rfl, rfl, (append_nil _).symm, rfl⟩, ?_⟩,
      fun h => absurd nofun h⟩
    rw [← hi]
    rfl
  | p :: ps, s, info, hok, hi, hd => by
    have htok : s.tok d (.prop p) = (info.property d s.current p.name p.addr p.data.length).map
        fun info' => { s with currentInfo := some info', current := s.current.after d p } := by
      simp only [tok, property, rootProperty, if_neg hd, hi]
      rfl
    have hrun : s.run d ((p :: ps).map .prop) = (s.tok d (.prop p)).bind fun s' =>
        s'.run d (ps.map .prop) := rfl
    by_cases hz : p.name = ascii "reg" ∧ s.current.entrySize = 0
    · -- the division by zero
      have hpanic : info.property d s.current p.name p.addr p.data.length = .error .panic := by
        rw [DeviceInfo.property, if_neg (by rw [hz.1]; decide), if_pos hz.1, if_pos hz.2]
      have hreg : regOf d s.current (p :: ps) = some (s.current, p) := by rw [regOf, if_pos hz.1]
      refine ⟨fun h => absurd hz.2 (h _ hreg), fun _ => ?_⟩
      rw [hrun, htok, hpanic]
      rfl
    · obtain ⟨info1, hinfo, hadds⟩ : ∃ info1,
          info.property d s.current p.name p.addr p.data.length = .ok info1 ∧
            Adds d s.current p info info1 :=
        DeviceInfo.property_ok (hok.holds p mem_cons_self) (hok.text p mem_cons_self)
          fun h0 h1 => hz ⟨h0, h1⟩
      have hfits : RegFits d s.current (p :: ps) ↔ RegFits d (s.current.after d p) ps := by
        unfold RegFits
        by_cases hp : p.name = ascii "reg"
        · rw [regOf, if_pos hp, regOf_eq_none (hok.ne_head hp)]
          simpa using fun h => hz ⟨hp, h⟩
        · rw [regOf, if_neg hp]
      obtain ⟨ihok, iherr⟩ := run_props
        (s := { s with currentInfo := some info1, current := s.current.after d p }) hok.tail rfl hd
      rw [hrun, htok, hinfo, hfits]
      refine ⟨fun h => ?_, iherr⟩
      obtain ⟨info', c', hparsed, hrest⟩ := ihok h
      exact ⟨info', c', hadds.parsed hok hparsed, hrest⟩

end

/-! ## Whole nodes -/

def DtNode.Shown (d : DeviceTree) (c : Cells) (n : DtNode) : Prop :=
  n.children = [] ∧ (regBaseOf d c n.props ≠ 0 ∨ n.compatible ≠ [])

instance (d : DeviceTree) (c : Cells) : DecidablePred (DtNode.Shown d c) := fun _ =>
  inferInstanceAs (Decidable (_ ∧ _))

def DtNode.full (d : DeviceTree) (c : Cells) (n : DtNode) : Report × (Nat × Nat) × List (Nat × Nat) :=
  (n.report, regsOf d c n.props)

def DeviceInfo.full (i : DeviceInfo) : Report × (Nat × Nat) × List (Nat × Nat) := (i.report, i.regs)

theorem regsOf_regBase (d : DeviceTree) (c : Cells) (ps : List DtProp) :
    (regsOf d c ps).1.1 = regBaseOf d c ps := by
  unfold regsOf regBaseOf
  cases regOf d c ps with
  | none => rfl
  | some r =>
    rw [Option.elim_some, Option.elim_some, entries]
    cases r.2.data.length / r.1.entrySize with
    | zero => rfl
    | succ n => simp [range_succ_eq_map, DeviceInfo.addRegs, DeviceInfo.regs, Cells.entry]

/-- The scan has gone over the nodes `ms`: the leaves among them have been reported. -/
structure Ran (d : DeviceTree) (ms : List DtNode) (s s' : Scan) : Prop where
  depth : s'.depth = s.depth
  root : s'.root = s.root
  log : s'.log.map DeviceInfo.full =
    s.log.map DeviceInfo.full ++ (ms.filter (DtNode.Shown d s.root)).map (DtNode.full d s.root)

section

variable {d : DeviceTree} {s s' s'' : Scan} {ms ms' : List DtNode}

theorem Ran.trans (h : Ran d ms s s') (h' : Ran d ms' s' s'') : Ran d (ms ++ ms') s s'' where
  depth := h'.depth.trans h.depth
  root := h'.root.trans h.root
  log := by rw [h'.log, h.log, h.root, filter_append, map_append, append_assoc]

theorem Scan.endNode_log_of_none (h : s.currentInfo = none) : s.endNode.log = s.log := by
  simp [endNode, h]

theorem Scan.endNode_log_of_parsed {name : Bytes} {props : List DtProp} {info : DeviceInfo}
    (hs : s.currentInfo = some info) (hp : Parsed d s.root props (.new name) info) :
    s.endNode.log.map DeviceInfo.full = s.log.map DeviceInfo.full ++
      ([DtNode.mk name props []].filter (DtNode.Shown d s.root)).map (DtNode.full d s.root) := by
  have hregs : info.regs = regsOf d s.root props := by
    rw [hp.regs, regsOf]
    cases regOf d s.root props with
    | none => rfl
    | some r => exact @DeviceInfo.addRegs_congr (.new name) (.new []) rfl _
  have hfull : info.full = (DtNode.mk name props []).full d s.root := by
    rw [DeviceInfo.full, DeviceInfo.report, hp.name, hp.compatible, hp.interrupts, hregs]
    rfl
  have hbase : info.regBase = regBaseOf d s.root props := by
    rw [← regsOf_regBase, ← hregs]
    rfl
  have hcompat : info.compatible = (DtNode.mk name props []).compatible := hp.compatible
  have hshown : (DtNode.mk name props []).Shown d s.root ↔
      info.regBase ≠ 0 ∨ info.compatible ≠ [] := by
    rw [hbase, hcompat]
    exact and_iff_right rfl
  by_cases h : info.regBase ≠ 0 ∨ info.compatible ≠ []
  · rw [filter_cons_of_pos (by simpa using hshown.2 h)]
    simp only [endNode, hs, if_pos h, map_append]
    simp [hfull]
  · rw [filter_cons_of_neg (by simpa using fun hn => h (hshown.1 hn))]
    simp [endNode, hs, if_neg h]

theorem Scan.run_mk (s : Scan) (d : DeviceTree) (name : Bytes) (props : List DtProp)
    (children : List DtNode) : s.run d (DtNode.mk name props children).toks =
      ((s.beginNode name).run d (props.map .prop)).bind fun s2 =>
        (s2.run d (DtNode.toksAll children)).bind fun s3 => .ok s3.endNode := by
  rw [DtNode.toks]
  change (s.beginNode name).run d _ = _
  rw [run_append]
  congr 1
  funext s2
  exact run_append d s2 _ _

mutual

theorem DtNode.run_toks :
    ∀ (n : DtNode) (s : Scan), 0 < s.depth → (∀ m ∈ n.all, PropsOk d m.props) →
        ((∀ m ∈ n.all, RegFits d s.root m.props) →
         ∃ s', s.run d n.toks = .ok s' ∧ s'.currentInfo = none ∧ Ran d n.all s s') ∧
        (¬ (∀ m ∈ n.all, RegFits d s.root m.props) → s.run d n.toks = .error .panic)
  | .mk name props children, s, hd, hok => by
    rw [DtNode.all] at hok ⊢
    have hown : PropsOk d props := hok _ mem_cons_self
    have hbegin : s.beginNode name =
        { s with currentInfo := some (.new name), current := s.root, depth := s.depth + 1 } :=
      if_pos hd
    have hrun := s.run_mk d name props children
    have hdepth : (s.beginNode name).depth ≠ 1 := by
      rw [hbegin]
      change s.depth + 1 ≠ 1
      omega
    have hinfo : (s.beginNode name).currentInfo = some (.new name) := by rw [hbegin]
    have hcur : (s.beginNode name).current = s.root := by rw [hbegin]
    obtain ⟨hprops, hpanic⟩ := run_props hown hinfo hdepth
    rw [hcur] at hprops hpanic
    by_cases hfit : RegFits d s.root props
    · obtain ⟨info, c', hparsed, hprops⟩ := hprops hfit
      rw [hbegin] at hrun hprops
      rw [hrun, hprops]
      obtain ⟨hkids, hkidsPanic⟩ := DtNode.run_toksAll children
        { s with currentInfo := some info, current := c', depth := s.depth + 1 }
        (by change 0 < s.depth + 1; omega) fun m hm => hok m (mem_cons_of_mem _ hm)
      refine ⟨fun hall => ?_, fun hall => ?_⟩
      · obtain ⟨s3, hs3, hnil, hcons, hran⟩ :=
          hkids fun m hm => hall m (mem_cons_of_mem _ hm)
        refine ⟨s3.endNode, ?_, rfl, ?_, hran.root, ?_⟩
        · change (run d _ _).bind _ = _
          rw [hs3]
          rfl
        · change s3.depth - 1 = s.depth
          rw [hran.depth]
          change s.depth + 1 - 1 = s.depth
          omega
        · cases children with
          | nil =>
            rw [hnil rfl]
            exact endNode_log_of_parsed (d := d) (by rfl) hparsed
          | cons n ns =>
            rw [endNode_log_of_none (hcons nofun), hran.log, filter_cons_of_neg]
            simp [DtNode.Shown, DtNode.children]
      · have hex : ¬ ∀ m ∈ DtNode.allOf children, RegFits d s.root m.props := fun h =>
          hall (forall_mem_cons.2 ⟨hfit, h⟩)
        change (run d _ _).bind _ = _
        rw [hkidsPanic hex]
        rfl
    · refine ⟨fun hall => absurd (hall _ mem_cons_self) hfit, fun _ => ?_⟩
      rw [hrun, hpanic hfit]
      rfl

theorem DtNode.run_toksAll :
    ∀ (ns : List DtNode) (s : Scan), 0 < s.depth → (∀ m ∈ DtNode.allOf ns, PropsOk d m.props) →
        ((∀ m ∈ DtNode.allOf ns, RegFits d s.root m.props) →
           ∃ s', s.run d (DtNode.toksAll ns) = .ok s' ∧
             (ns = [] → s' = s) ∧
             (ns ≠ [] → s'.currentInfo = none) ∧
             Ran d (DtNode.allOf ns) s s') ∧
        (¬ (∀ m ∈ DtNode.allOf ns, RegFits d s.root m.props) →
         s.run d (DtNode.toksAll ns) = .error .panic)
  | [], s, _, _ => by
    refine ⟨fun _ => ⟨s, rfl, fun _ => rfl, fun h => absurd rfl h, rfl, rfl, ?_⟩,
      fun h => absurd nofun h⟩
    exact (append_nil _).symm
  | n :: ns, s, hd, hok => by
    rw [DtNode.allOf] at hok ⊢
    rw [DtNode.toksAll, run_append]
    obtain ⟨hn, hnPanic⟩ := DtNode.run_toks n s hd fun m hm =>
      hok m (mem_append_left _ hm)
    by_cases hfit : ∀ m ∈ n.all, RegFits d s.root m.props
    · obtain ⟨s1, hs1, hnone, hran⟩ := hn hfit
      obtain ⟨hns, hnsPanic⟩ := DtNode.run_toksAll ns s1 (hran.depth ▸ hd) fun m hm =>
        hok m (mem_append_right _ hm)
      rw [hran.root] at hns hnsPanic
      rw [hs1]
      refine ⟨fun hall => ?_, fun hall => ?_⟩
      · obtain ⟨s2, hs2, hnil, hcons, hran'⟩ := hns fun m hm => hall m (mem_append_right _ hm)
        refine ⟨s2, hs2, nofun, fun _ => ?_, hran.trans hran'⟩
        by_cases hns' : ns = []
        · rw [hnil hns', hnone]
        · exact hcons hns'
      · exact hnsPanic fun h => hall (forall_mem_append.2 ⟨hfit, h⟩)
    · refine ⟨fun hall => absurd (fun m hm => hall m (mem_append_left _ hm)) hfit,
        fun _ => ?_⟩
      rw [hnPanic hfit]
      rfl

end

theorem Scan.run_rootProps : ∀ {ps : List DtProp} {s : Scan}, s.currentInfo = none → s.depth = 1 →
    ∃ c, s.run d (ps.map .prop) = .ok { s with root := ps.foldl (Cells.after d) s.root, current := c }
  | [], s, _, _ => ⟨s.current, rfl⟩
  | p :: ps, s, hi, hd => by
    have htok : s.tok d (.prop p) =
        .ok { s with root := s.root.after d p, current := s.current.after d p } := by
      simp only [tok, property, rootProperty, if_pos hd, hi]
      rfl
    obtain ⟨c, hc⟩ : ∃ c, run d
        { s with root := s.root.after d p, current := s.current.after d p } (ps.map .prop) =
          .ok { s with root := ps.foldl (Cells.after d) (s.root.after d p), current := c } :=
      run_rootProps hi hd
    refine ⟨c, ?_⟩
    change (s.tok d (.prop p)).bind (fun s' => s'.run d (ps.map .prop)) = _
    rw [htok]
    exact hc

/-- **The scan of a whole tree**: the leaves with an address or a compatible string are reported, and
a `reg` with entries of size zero is a panic. -/
theorem DtNode.run_root (root : DtNode) (hok : ∀ m ∈ root.devices, PropsOk d m.props) :
    ((∀ m ∈ root.devices, RegFits d (root.cells d) m.props) →
       ∃ s', Scan.new.run d root.toks = .ok s' ∧
         s'.log.map DeviceInfo.full =
           (root.devices.filter (DtNode.Shown d (root.cells d))).map
             (DtNode.full d (root.cells d))) ∧
    (¬ (∀ m ∈ root.devices, RegFits d (root.cells d) m.props) →
     Scan.new.run d root.toks = .error .panic) := by
  obtain ⟨name, props, children⟩ := root
  generalize hroot : (DtNode.mk name props children).cells d = root
  obtain ⟨c, hc⟩ : ∃ c, (Scan.new.beginNode name).run d (props.map .prop) =
      .ok ⟨1, root, c, none, []⟩ := by
    rw [← hroot]
    exact run_rootProps rfl rfl
  obtain ⟨hkids, hkidsPanic⟩ := DtNode.run_toksAll children ⟨1, root, c, none, []⟩ Int.one_pos hok
  rw [run_mk, hc]
  refine ⟨fun hall => ?_, fun hall => ?_⟩
  · obtain ⟨s3, hs3, hnil, hcons, hran⟩ := hkids hall
    refine ⟨s3.endNode, ?_, ?_⟩
    · change (run d _ _).bind _ = _
      rw [hs3]
      rfl
    · have hnone : s3.currentInfo = none := by
        by_cases h : children = []
        · rw [hnil h]
        · exact hcons h
      rw [endNode_log_of_none hnone, hran.log]
      rfl
  · change (run d _ _).bind _ = _
    rw [hkidsPanic hall]
    rfl

end

/-! ## Texts -/

theorem mem_splitOn_trimEnd {s : Bytes} (hs : s ≠ []) (bs : Bytes) :
    s ∈ (trimEnd bs).splitOn 0 ↔ s ∈ bs.splitOn 0 := by
  induction bs using List.reverseRecOn with
  | nil => rfl
  | append_singleton bs b ih =>
    by_cases hb : b = 0
    · subst hb
      rw [trimEnd, rdropWhile_concat_pos _ _ _ (by rfl), ← trimEnd, ih,
        splitOn_append_cons_self, mem_append]
      exact ⟨.inl, fun h => h.resolve_right fun h => hs (by simpa using h)⟩
    · rw [trimEnd, rdropWhile_concat_neg _ _ _ (by simpa using hb)]

theorem exists_mem_splitOn (bs : Bytes) : (∃ s ∈ bs.splitOn 0, s ≠ []) ↔ ∃ b ∈ bs, b ≠ 0 := by
  induction bs with
  | nil => simp
  | cons b bs ih =>
    unfold List.splitOn at ih ⊢
    rw [splitOnP_cons_eq_if_modifyHead]
    by_cases hb : b = 0
    · simp [hb, ih]
    · rw [if_neg (by simpa using hb)]
      refine ⟨fun _ => ⟨b, mem_cons_self, hb⟩, fun _ => ?_⟩
      cases h : bs.splitOnP (· == 0) with
      | nil => exact absurd h (splitOnP_ne_nil _ _)
      | cons s ss => exact ⟨b :: s, mem_cons_self, cons_ne_nil _ _⟩

theorem trimEnd_ne_nil (bs : Bytes) : trimEnd bs ≠ [] ↔ ∃ s ∈ bs.splitOn 0, s ≠ [] := by
  rw [exists_mem_splitOn, trimEnd, ne_eq, rdropWhile_eq_nil_iff]
  simp

theorem DtNode.compatible_ne_nil (n : DtNode) : n.compatible ≠ [] ↔ n.HasCompatible := by
  unfold DtNode.compatible DtNode.HasCompatible DtNode.compatibleList
  cases n.prop? (ascii "compatible") with
  | none => simp
  | some p => exact trimEnd_ne_nil p.data

theorem DtNode.mem_compatibleList (n : DtNode) {s : Bytes} (hs : s ≠ []) :
    s ∈ n.compatible.splitOn 0 ↔ s ∈ n.compatibleList := by
  unfold DtNode.compatible DtNode.compatibleList
  cases n.prop? (ascii "compatible") with
  | none => simpa using hs
  | some p => exact mem_splitOn_trimEnd hs p.data

/-! ## The blob holds the tree -/

section

variable {d : DeviceTree}

theorem Laid.holds {offset : Nat} {ts : List Tok} (h : Laid d offset ts) :
    ∀ p, .prop p ∈ ts → d.Holds p.addr p.data := by
  induction h with
  | nop _ _ ih => exact ih
  | beginNode _ _ _ ih => exact fun p hp => ih p (by simpa using hp)
  | prop _ _ _ _ _ hdata _ ih =>
    intro q hq
    rcases mem_cons.1 hq with heq | hq
    · rw [Tok.prop.inj heq]
      exact hdata.2
    · exact ih q hq
  | endNode _ _ ih => exact fun p hp => ih p (by simpa using hp)
  | stop _ => nofun

mutual

theorem DtNode.mem_toks {m : DtNode} {p : DtProp} (hp : p ∈ m.props) :
    ∀ n : DtNode, m ∈ n.all → .prop p ∈ n.toks
  | .mk name props children, hm => by
    rw [DtNode.all] at hm
    rw [DtNode.toks]
    rcases mem_cons.1 hm with rfl | hm
    · exact mem_cons_of_mem _ (mem_append_left _ (mem_map_of_mem hp))
    · exact mem_cons_of_mem _ (mem_append_right _
        (mem_append_left _ (DtNode.mem_toksAll hp children hm)))

theorem DtNode.mem_toksAll {m : DtNode} {p : DtProp} (hp : p ∈ m.props) :
    ∀ ns : List DtNode, m ∈ DtNode.allOf ns → .prop p ∈ DtNode.toksAll ns
  | n :: ns, hm => by
    rw [DtNode.allOf] at hm
    rw [DtNode.toksAll]
    rcases mem_append.1 hm with hm | hm
    · exact mem_append_left _ (DtNode.mem_toks hp n hm)
    · exact mem_append_right _ (DtNode.mem_toksAll hp ns hm)

end

/-- A tree that is a device tree: in every node the names of the properties differ, and `compatible`
is UTF-8. -/
def DtNode.WellNamed (root : DtNode) : Prop :=
  ∀ n ∈ root.devices, (n.props.map DtProp.name).Nodup ∧
    ∀ p ∈ n.props, p.name = ascii "compatible" → (fromUtf8 p.data).isSome

theorem DtNode.WellNamed.propsOk {root : DtNode} (h : root.WellNamed) (hl : Laid d 0 root.toks) :
    ∀ n ∈ root.devices, PropsOk d n.props := by
  intro n hn
  refine ⟨(h n hn).1, (h n hn).2, fun p hp => hl.holds p (DtNode.mem_toks hp root ?_)⟩
  obtain ⟨name, props, children⟩ := root
  rw [DtNode.all]
  exact mem_cons_of_mem _ hn

end

/-! ## What is reported -/

def DtNode.IsCpu (n : DtNode) : Prop := DeviceTree.isCpu n.name = true

instance : DecidablePred DtNode.IsCpu := fun _ => inferInstanceAs (Decidable (_ = true))

/-- **Every device is reported**, once, with its name, compatible string and interrupts, and
`find_compatible` and `count_cpus` answer accordingly. -/
structure DtNode.Reports (d : DeviceTree) (root : DtNode) (fuel : Nat) : Prop where
  scan : ∃ log, d.scanNodes fuel = .ok log ∧
    ((log.filter fun i => i.compatible ≠ []).map DeviceInfo.report).Perm
      ((root.devices.filter DtNode.HasCompatible).map DtNode.report)
  find : ∀ s, s ≠ [] → ∃ found, d.findCompatible fuel s = .ok found ∧
    (found.map DeviceInfo.report).Perm
      ((root.devices.filter fun n => s ∈ n.compatibleList).map DtNode.report)
  cpus : d.countCpus fuel = .ok (max 1 (root.devices.countP fun n =>
    n.IsCpu ∧ (n.prop? (ascii "compatible")).isSome))

/-- The `cpu@` nodes with a compatible text. -/
def DtNode.textCpus (root : DtNode) : Nat :=
  root.devices.countP fun n => n.IsCpu ∧ n.HasCompatible

/-- The `cpu@` leaves without a compatible text, but with an address. -/
def DtNode.addressCpus (d : DeviceTree) (root : DtNode) : Nat :=
  root.devices.countP fun n => n.IsCpu ∧ ¬ n.HasCompatible ∧ n.children = [] ∧
    regBaseOf d (root.cells d) n.props ≠ 0

/-- The `cpu@` nodes with a `compatible` that has no text. -/
def DtNode.emptyCpus (root : DtNode) : Nat :=
  root.devices.countP fun n => n.IsCpu ∧ ¬ n.HasCompatible ∧ (n.prop? (ascii "compatible")).isSome

section

variable {d : DeviceTree} {root : DtNode} {log : List DeviceInfo} {c : Cells} {ms : List DtNode}

theorem countP_split {α : Type*} (p q : α → Prop) [DecidablePred p] [DecidablePred q] (l : List α) :
    l.countP (fun a => p a) = l.countP (fun a => p a ∧ q a) + l.countP (fun a => p a ∧ ¬ q a) := by
  induction l with
  | nil => rfl
  | cons a l ih =>
    simp only [countP_cons, ih]
    by_cases hp : p a <;> by_cases hq : q a <;> simp [hp, hq] <;> omega

theorem report_filter
    (h : log.map DeviceInfo.report = (ms.filter (DtNode.Shown d c)).map DtNode.report)
    (q : Report → Prop) [DecidablePred q] :
    (log.filter fun i => q i.report).map DeviceInfo.report =
      (ms.filter fun n => n.Shown d c ∧ q n.report).map DtNode.report := by
  have h1 : (log.filter fun i => q i.report).map DeviceInfo.report =
      (log.map DeviceInfo.report).filter fun r => q r := by
    rw [filter_map]
    rfl
  have h2 : (ms.filter fun n => n.Shown d c ∧ q n.report) =
      (ms.filter (DtNode.Shown d c)).filter fun n => q n.report := by
    rw [filter_filter]
    exact filter_congr fun n _ => by rw [Bool.decide_and, Bool.and_comm]
  rw [h1, h, h2, filter_map]
  rfl

theorem DtNode.shown_of_hasCompatible {n : DtNode} (h : n.HasCompatible) :
    n.Shown d c ↔ n.children = [] := and_iff_left (.inr (n.compatible_ne_nil.2 h))

theorem perm_compatible_iff
    (h : log.map DeviceInfo.report = (ms.filter (DtNode.Shown d c)).map DtNode.report) :
    ((log.filter fun i => i.compatible ≠ []).map DeviceInfo.report).Perm
      ((ms.filter DtNode.HasCompatible).map DtNode.report) ↔
      ∀ n ∈ ms, n.HasCompatible → n.children = [] := by
  have heq : (ms.filter fun n => n.Shown d c ∧ n.compatible ≠ []) =
      (ms.filter DtNode.HasCompatible).filter fun n => n.children = [] := by
    rw [filter_filter]
    refine filter_congr fun n _ => ?_
    simp only [n.compatible_ne_nil, Bool.decide_and]
    by_cases hn : n.HasCompatible
    · simp [hn, DtNode.shown_of_hasCompatible hn]
    · simp [hn]
  have hlog := report_filter h fun r => r.compatible ≠ []
  change (log.filter fun i => i.compatible ≠ []).map DeviceInfo.report =
    (ms.filter fun n => n.Shown d c ∧ n.compatible ≠ []).map DtNode.report at hlog
  rw [hlog, heq]
  refine ⟨fun hperm => ?_, fun hleaf => ?_⟩
  · have hlen := hperm.length_eq
    rw [length_map, length_map, length_filter_eq_length_iff] at hlen
    exact fun n hn hc => of_decide_eq_true (hlen n (mem_filter.2 ⟨hn, decide_eq_true hc⟩))
  · rw [filter_eq_self.2]
    intro n hn
    obtain ⟨hn, hc⟩ := mem_filter.1 hn
    exact decide_eq_true (hleaf n hn (of_decide_eq_true hc))

theorem perm_found {s : Bytes} (hs : s ≠ [])
    (h : log.map DeviceInfo.report = (ms.filter (DtNode.Shown d c)).map DtNode.report)
    (hleaf : ∀ n ∈ ms, n.HasCompatible → n.children = []) :
    ((log.filter fun i => s ∈ i.compatible.splitOn 0).map DeviceInfo.report).Perm
      ((ms.filter fun n => s ∈ n.compatibleList).map DtNode.report) := by
  have hlog := report_filter h fun r => s ∈ r.compatible.splitOn 0
  change (log.filter fun i => s ∈ i.compatible.splitOn 0).map DeviceInfo.report =
    (ms.filter fun n => n.Shown d c ∧ s ∈ n.compatible.splitOn 0).map DtNode.report at hlog
  rw [hlog]
  refine .of_eq (congrArg _ (filter_congr fun n hn => ?_))
  rw [decide_eq_decide, n.mem_compatibleList hs]
  refine and_iff_right_of_imp fun hmem => ?_
  have hc : n.HasCompatible := ⟨s, hmem, hs⟩
  exact (DtNode.shown_of_hasCompatible hc).2 (hleaf n hn hc)

theorem countP_cpus (h : log.map DeviceInfo.report =
      (root.devices.filter (DtNode.Shown d (root.cells d))).map DtNode.report)
    (hleaf : ∀ n ∈ root.devices, n.HasCompatible → n.children = []) :
    log.countP (fun i => isCpu i.name) = root.textCpus + root.addressCpus d := by
  have hlog := congrArg List.length (report_filter h fun r => isCpu r.name = true)
  rw [length_map, length_map, ← countP_eq_length_filter,
    ← countP_eq_length_filter, countP_split _ DtNode.HasCompatible] at hlog
  have hcount : log.countP (fun i => isCpu i.name) =
      log.countP fun i => decide (isCpu i.report.name = true) :=
    countP_congr fun _ _ => decide_eq_true_iff.symm
  rw [hcount, hlog]
  congr 1
  · refine countP_congr fun n hn => ?_
    rw [decide_eq_true_iff, decide_eq_true_iff]
    exact ⟨fun h => ⟨h.1.2, h.2⟩, fun h =>
      ⟨⟨(DtNode.shown_of_hasCompatible h.2).2 (hleaf n hn h.2), h.1⟩, h.2⟩⟩
  · refine countP_congr fun n _ => ?_
    rw [decide_eq_true_iff, decide_eq_true_iff, ← n.compatible_ne_nil]
    constructor
    · rintro ⟨⟨⟨hc, hor⟩, hcpu⟩, hnot⟩
      exact ⟨hcpu, hnot, hc, hor.resolve_right hnot⟩
    · rintro ⟨hcpu, hnot, hc, hreg⟩
      exact ⟨⟨⟨hc, .inl hreg⟩, hcpu⟩, hnot⟩

theorem countP_compatible_cpus (root : DtNode) :
    root.devices.countP (fun n => n.IsCpu ∧ (n.prop? (ascii "compatible")).isSome) =
      root.textCpus + root.emptyCpus := by
  rw [countP_split _ DtNode.HasCompatible]
  congr 1
  · refine countP_congr fun n _ => ?_
    rw [decide_eq_true_iff, decide_eq_true_iff]
    refine ⟨fun h => ⟨h.1.1, h.2⟩, fun h => ⟨⟨h.1, ?_⟩, h.2⟩⟩
    obtain ⟨hcpu, s, hs, -⟩ := h
    unfold DtNode.compatibleList at hs
    cases hp : n.prop? (ascii "compatible") with
    | none =>
      rw [hp] at hs
      cases hs
    | some p => rfl
  · refine countP_congr fun n _ => ?_
    rw [decide_eq_true_iff, decide_eq_true_iff]
    tauto

end

/-- **When the scan reports every device.** -/
theorem DtNode.scan_reports_iff {d : DeviceTree} {root : DtNode} (hl : Laid d 0 root.toks)
    (hn : root.WellNamed) :
    (∃ n, ∀ fuel ≥ n, root.Reports d fuel) ↔
      (∀ n ∈ root.devices, RegFits d (root.cells d) n.props) ∧
      (∀ n ∈ root.devices, n.HasCompatible → n.children = []) ∧
      (root.addressCpus d = root.emptyCpus ∨
        root.textCpus + root.addressCpus d ≤ 1 ∧ root.textCpus + root.emptyCpus ≤ 1) := by
  obtain ⟨n, hscan⟩ := hl.scanFrom .new
  obtain ⟨hok, hpanic⟩ := root.run_root (hn.propsOk hl)
  by_cases hfit : ∀ n ∈ root.devices, RegFits d (root.cells d) n.props
  · obtain ⟨s', hs', hfull⟩ := hok hfit
    have hlog : s'.log.map DeviceInfo.report =
        (root.devices.filter (DtNode.Shown d (root.cells d))).map DtNode.report := by
      have hfst := congrArg (map Prod.fst) hfull
      rwa [map_map, map_map] at hfst
    have hscan' : ∀ fuel ≥ n, d.scanNodes fuel = .ok s'.log := fun fuel hf => by
      rw [DeviceTree.scanNodes, hscan fuel hf, hs']
      rfl
    have hcpus : ∀ fuel ≥ n, d.countCpus fuel =
        .ok (max 1 (s'.log.countP fun i => DeviceTree.isCpu i.name)) := fun fuel hf => by
      rw [DeviceTree.countCpus, hscan' fuel hf]
      refine congrArg Except.ok ?_
      change ite _ _ _ = _
      split_ifs <;> omega
    constructor
    · rintro ⟨n', h⟩
      obtain ⟨⟨log, hok, hperm⟩, -, hc⟩ := h (max n n') (le_max_right n n')
      have hmax : max n n' ≥ n := le_max_left n n'
      obtain rfl := Except.ok.inj ((hscan' _ hmax).symm.trans hok)
      have hleaf := (perm_compatible_iff hlog).1 hperm
      have heq := Except.ok.inj ((hcpus _ hmax).symm.trans hc)
      rw [countP_cpus hlog hleaf, countP_compatible_cpus] at heq
      exact ⟨hfit, hleaf, by omega⟩
    · rintro ⟨-, hleaf, hbalance⟩
      refine ⟨n, fun fuel hf => ⟨⟨_, hscan' fuel hf, (perm_compatible_iff hlog).2 hleaf⟩,
        fun s hs => ⟨s'.log.filter fun i => s ∈ i.compatible.splitOn 0, ?_,
          perm_found hs hlog hleaf⟩, ?_⟩⟩
      · rw [DeviceTree.findCompatible, hscan' fuel hf]
        rfl
      · rw [hcpus fuel hf, countP_cpus hlog hleaf, countP_compatible_cpus]
        refine congrArg Except.ok ?_
        omega
  · refine ⟨fun ⟨n', h⟩ => ?_, fun h => absurd h.1 hfit⟩
    obtain ⟨⟨log, hlog, -⟩, -, -⟩ := h (max n n') (le_max_right n n')
    rw [DeviceTree.scanNodes, hscan _ (le_max_left n n'), hpanic hfit] at hlog
    cases hlog

/-! ## A node with a compatible text, and below it the nodes `children` -/

/-- A tree with the device `u`, whose `compatible` is `x`. -/
def sampleTree (children : List DtNode) : DtNode :=
  .mk [] [] [.mk (ascii "u") [⟨ascii "compatible", ascii "x" ++ [0], 28⟩] children]

/-- Its blob, with the bytes `inner` for the children and the strings block at `offDtStrings`. -/
def sampleBlob (inner : Bytes) (offDtStrings : Nat) : DeviceTree where
  mem a := ([0, 0, 0, 1, 0, 0, 0, 0, 0, 0, 0, 1, 0x75, 0, 0, 0, 0, 0, 0, 3, 0, 0, 0, 2, 0, 0, 0, 0,
    0x78, 0, 0, 0] ++ inner ++ [0, 0, 0, 2, 0, 0, 0, 2, 0, 0, 0, 9] ++ ascii "compatible").getD a 0
  base := 0
  offDtStruct := 0
  offDtStrings := offDtStrings

theorem sampleTree_devices (children : List DtNode) : (sampleTree children).devices =
    .mk (ascii "u") [⟨ascii "compatible", ascii "x" ++ [0], 28⟩] children ::
      DtNode.allOf children := by
  simp [DtNode.devices, sampleTree, DtNode.children, DtNode.allOf, DtNode.all]

theorem sampleTree_wellNamed {children : List DtNode}
    (h : ∀ n ∈ DtNode.allOf children, n.props = []) : (sampleTree children).WellNamed := by
  unfold DtNode.WellNamed
  rw [sampleTree_devices]
  refine forall_mem_cons.2 ⟨⟨pairwise_singleton _ _, fun p hp _ => ?_⟩, fun n hn => ?_⟩
  · obtain rfl := mem_singleton.1 hp
    decide
  · rw [h n hn]
    exact ⟨nodup_nil, nofun⟩

theorem sampleBlob_laid : Laid (sampleBlob [] 44) 0 (sampleTree []).toks :=
  .beginNode (by decide) (by decide) <| .beginNode (by decide) (by decide) <|
    .prop 0 (by decide) (by decide) (by decide) (by decide) (by decide) <|
      .endNode (by decide) <| .endNode (by decide) <| .stop (by decide)

theorem DtNode.scan_reports_iff_leaf :
    Laid (sampleBlob [] 44) 0 (sampleTree []).toks ∧ (sampleTree []).WellNamed ∧
      ∃ n, ∀ fuel ≥ n, (sampleTree []).Reports (sampleBlob [] 44) fuel := by
  have hn : (sampleTree []).WellNamed := sampleTree_wellNamed nofun
  refine ⟨sampleBlob_laid, hn, (DtNode.scan_reports_iff sampleBlob_laid hn).2 ⟨?_, ?_, by decide⟩⟩
  · rw [sampleTree_devices]
    exact forall_mem_cons.2 ⟨nofun, nofun⟩
  · rw [sampleTree_devices]
    exact forall_mem_cons.2 ⟨fun _ => rfl, nofun⟩

/-- **A device with a subnode is lost.** The subnode takes the place of its `DeviceInfo`, and its end
clears it: the scan of this tree reports nothing. -/
theorem DtNode.inner_device_lost :
    ∃ (d : DeviceTree) (root : DtNode), Laid d 0 root.toks ∧ root.WellNamed ∧
      ¬ ∃ n, ∀ fuel ≥ n, root.Reports d fuel := by
  have hl : Laid (sampleBlob [0, 0, 0, 1, 0x70, 0, 0, 0, 0, 0, 0, 2] 56) 0
      (sampleTree [.mk (ascii "p") [] []]).toks :=
    .beginNode (by decide) (by decide) <| .beginNode (by decide) (by decide) <|
      .prop 0 (by decide) (by decide) (by decide) (by decide) (by decide) <|
        .beginNode (by decide) (by decide) <| .endNode (by decide) <| .endNode (by decide) <|
          .endNode (by decide) <| .stop (by decide)
  refine ⟨_, _, hl, sampleTree_wellNamed ?_, fun ⟨n, h⟩ => ?_⟩
  · intro n hn
    obtain rfl : n = .mk (ascii "p") [] [] := by simpa [DtNode.allOf, DtNode.all] using hn
    rfl
  · obtain ⟨n', hscan⟩ := hl.scanFrom .new
    obtain ⟨log, hlog, hperm⟩ := (h (max n n') (le_max_left n n')).scan
    rw [DeviceTree.scanNodes, hscan _ (le_max_right n n')] at hlog
    obtain rfl : [] = log := Except.ok.inj hlog
    have hlen := hperm.length_eq
    revert hlen
    decide

end Kerners.Dtb
