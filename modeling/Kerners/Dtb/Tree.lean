import Kerners.Dtb.Scan

/-!
# Device trees and their flattening

A tree of nodes with properties, and how it lies in memory as a blob: `Laid` says that the tokens of
the tree stand from an offset on, with any number of `FDT_NOP`s between them, any padding, and the
names of the properties anywhere in the strings block.
-/

namespace Kerners.Dtb

open Lib List

/-- A property: its value, and the address at which the blob has it. -/
structure DtProp where
  name : Bytes
  data : Bytes
  addr : Nat

inductive DtNode where
  | mk (name : Bytes) (props : List DtProp) (children : List DtNode)

namespace DtNode

def name : DtNode → Bytes
  | mk name _ _ => name

def props : DtNode → List DtProp
  | mk _ props _ => props

def children : DtNode → List DtNode
  | mk _ _ children => children

end DtNode

/-- The tokens but `FDT_NOP` and `FDT_END`. -/
inductive Tok where
  | beginNode (name : Bytes)
  | prop (p : DtProp)
  | endNode

mutual

/-- The tokens of a node: the properties come before the subnodes. -/
def DtNode.toks : DtNode → List Tok
  | .mk name props children =>
    .beginNode name :: (props.map .prop ++ (DtNode.toksAll children ++ [.endNode]))

def DtNode.toksAll : List DtNode → List Tok
  | [] => []
  | n :: ns => n.toks ++ DtNode.toksAll ns

end

mutual

def DtNode.all : DtNode → List DtNode
  | .mk name props children => .mk name props children :: DtNode.allOf children

def DtNode.allOf : List DtNode → List DtNode
  | [] => []
  | n :: ns => n.all ++ DtNode.allOf ns

end

def DtNode.devices (root : DtNode) : List DtNode := DtNode.allOf root.children

/-- The bytes `bs` stand at the address `a`. -/
def DeviceTree.Holds (d : DeviceTree) (a : Nat) (bs : Bytes) : Prop := d.bytes a bs.length = bs

def beBytes (n : Nat) : Bytes := (leBytes 4 n).reverse

/-- The text stands at the address `a`, with a NUL after it. -/
def DeviceTree.HoldsText (d : DeviceTree) (a : Nat) (text : Bytes) : Prop :=
  0 ∉ text ∧ d.Holds a (text ++ [0])

instance (d : DeviceTree) (a : Nat) (bs : Bytes) : Decidable (d.Holds a bs) :=
  inferInstanceAs (Decidable (_ = _))

instance (d : DeviceTree) (a : Nat) (text : Bytes) : Decidable (d.HoldsText a text) :=
  inferInstanceAs (Decidable (_ ∧ _))

/-- The tokens stand in the structure block from the offset on, and `FDT_END` after them. -/
inductive Laid (d : DeviceTree) : Nat → List Tok → Prop
  | nop {offset : Nat} {ts : List Tok} (h : d.Holds (d.structBase + offset) (beBytes fdtNop))
      (rest : Laid d (offset + 4) ts) : Laid d offset ts
  | beginNode {offset : Nat} {name : Bytes} {ts : List Tok}
      (h : d.Holds (d.structBase + offset) (beBytes fdtBeginNode))
      (hname : d.HoldsText (d.structBase + (offset + 4)) name)
      (rest : Laid d (align4 (offset + 4 + (name.length + 1))) ts) :
      Laid d offset (.beginNode name :: ts)
  | prop {offset : Nat} (nameoff : Nat) {p : DtProp} {ts : List Tok}
      (h : d.Holds (d.structBase + offset) (beBytes fdtProp))
      (hlen : p.data.length < 2 ^ 32 ∧
        d.Holds (d.structBase + (offset + 4)) (beBytes p.data.length))
      (hoff : nameoff < 2 ^ 32 ∧ d.Holds (d.structBase + (offset + 8)) (beBytes nameoff))
      (hname : d.HoldsText (d.stringsBase + nameoff) p.name)
      (hdata : p.addr = d.structBase + (offset + 12) ∧ d.Holds p.addr p.data)
      (rest : Laid d (align4 (offset + 12 + p.data.length)) ts) : Laid d offset (.prop p :: ts)
  | endNode {offset : Nat} {ts : List Tok}
      (h : d.Holds (d.structBase + offset) (beBytes fdtEndNode))
      (rest : Laid d (offset + 4) ts) : Laid d offset (.endNode :: ts)
  | stop {offset : Nat} (h : d.Holds (d.structBase + offset) (beBytes fdtEnd)) : Laid d offset []

/-! ## Reading the blob -/

section

variable {d : DeviceTree} {a n : Nat} {text : Bytes}

theorem DeviceTree.Holds.readU32 (h : d.Holds a (beBytes n)) (hn : n < 2 ^ 32) :
    d.readU32 a = n := by
  have hlen : (beBytes n).length = 4 := by simp [beBytes]
  unfold DeviceTree.Holds at h
  rw [hlen] at h
  rw [DeviceTree.readU32, h, beNat, beBytes, reverse_reverse, leNat_leBytes]
  omega

theorem DeviceTree.bytes_succ (d : DeviceTree) (a n : Nat) :
    d.bytes a (n + 1) = d.mem a :: d.bytes (a + 1) n := by
  simp only [DeviceTree.bytes, range_succ_eq_map, map_cons, map_map, Nat.add_zero]
  congr 1
  refine map_congr_left fun i _ => ?_
  rw [Function.comp_apply, Nat.succ_eq_add_one, Nat.add_assoc, Nat.add_comm 1]

theorem DeviceTree.bytes_add {i k : Nat} (h : i + k ≤ n) :
    d.bytes (a + i) k = slice (d.bytes a n) i k := by
  refine ext_getElem (by simp [DeviceTree.bytes, slice]; omega) fun j h1 h2 => ?_
  simp [DeviceTree.bytes, slice, Nat.add_assoc]

theorem DeviceTree.HoldsText.readCstring : ∀ {text : Bytes} {a fuel : Nat}, d.HoldsText a text →
    text.length < fuel → d.readCstring fuel a = some text
  | [], a, fuel + 1, ⟨_, h⟩, _ => by
    have hmem : d.mem a = 0 := by simpa [DeviceTree.Holds, DeviceTree.bytes] using h
    simp [DeviceTree.readCstring, hmem]
  | c :: text, a, fuel + 1, ⟨h0, h⟩, hf => by
    rw [mem_cons, not_or] at h0
    obtain ⟨hc, h0⟩ := h0
    unfold DeviceTree.Holds at h
    rw [cons_append, length_cons, DeviceTree.bytes_succ] at h
    obtain ⟨hmem, h⟩ := List.cons.inj h
    have htext : d.HoldsText (a + 1) text := ⟨h0, h⟩
    have ih : d.readCstring fuel (a + 1) = some text := htext.readCstring (by simpa using hf)
    rw [DeviceTree.readCstring, hmem, if_neg (Ne.symm hc), ih]
    rfl

end

/-! ## Token by token

The functions that go over the structure block share one loop: it reads a token, does something with
it and goes on, or returns. -/

section

variable {σ ρ : Type*} (d : DeviceTree) (tok : σ → Tok → Except ρ σ) (stop : σ → ρ)

/-- `return`, or go on. -/
def goOn (r : Except ρ σ) (k : σ → Option ρ) : Option ρ :=
  match r with
  | .error x => some x
  | .ok s => k s

/-- The loop from a state and an offset on; `stop` is what comes after it. -/
def DeviceTree.loop : Nat → σ → Nat → Option ρ
  | 0, _, _ => none
  | fuel + 1, s, offset =>
    let token := d.readU32 (d.structBase + offset)
    if token = fdtBeginNode then
      (d.readCstring fuel (d.structBase + (offset + 4))).bind fun name =>
        goOn (tok s (.beginNode name)) fun s' =>
          loop fuel s' (align4 (offset + 4 + (name.length + 1)))
    else if token = fdtEndNode then goOn (tok s .endNode) fun s' => loop fuel s' (offset + 4)
    else if token = fdtProp then
      let len := d.readU32 (d.structBase + (offset + 4))
      let nameoff := d.readU32 (d.structBase + (offset + 8))
      let data := d.structBase + (offset + 12)
      (d.getString fuel nameoff).bind fun propName =>
        goOn (tok s (.prop ⟨propName, d.bytes data len, data⟩)) fun s' =>
          loop fuel s' (align4 (offset + 12 + len))
    else if token = fdtNop then loop fuel s (offset + 4)
    else some (stop s)

def runToks (s : σ) (ts : List Tok) : ρ :=
  match ts.foldlM tok s with
  | .error x => x
  | .ok s' => stop s'

theorem runToks_cons (s : σ) (t : Tok) (ts : List Tok) :
    some (runToks tok stop s (t :: ts)) =
      goOn (tok s t) fun s' => some (runToks tok stop s' ts) := by
  rw [runToks, foldlM_cons]
  cases tok s t <;> rfl

variable {d tok stop}

theorem runToks_of_ok {s s' : σ} {ts us : List Tok} (h : ts.foldlM tok s = .ok s') :
    runToks tok stop s (ts ++ us) = runToks tok stop s' us := by
  rw [runToks, foldlM_append, h]
  rfl

theorem runToks_of_error {s : σ} {x : ρ} {ts us : List Tok} (h : ts.foldlM tok s = .error x) :
    runToks tok stop s (ts ++ us) = x := by
  rw [runToks, foldlM_append, h]
  rfl

theorem DeviceTree.loop_of_step {s : σ} {offset offset' k : Nat} {t : Tok} {ts : List Tok}
    (hstep : ∀ fuel ≥ k, d.loop tok stop (fuel + 1) s offset =
      goOn (tok s t) fun s' => d.loop tok stop fuel s' offset')
    (ih : ∀ s : σ, ∃ n, ∀ fuel ≥ n, d.loop tok stop fuel s offset' = some (runToks tok stop s ts)) :
    ∃ n, ∀ fuel ≥ n, d.loop tok stop fuel s offset = some (runToks tok stop s (t :: ts)) := by
  rw [runToks_cons]
  cases hs : tok s t with
  | error x =>
    refine ⟨k + 1, fun fuel hf => ?_⟩
    obtain ⟨fuel, rfl⟩ := Nat.exists_eq_add_of_le' (show fuel ≥ 1 by omega)
    rw [hstep fuel (by omega), hs]
    rfl
  | ok s' =>
    obtain ⟨n, hn⟩ := ih s'
    refine ⟨max n k + 1, fun fuel hf => ?_⟩
    obtain ⟨fuel, rfl⟩ := Nat.exists_eq_add_of_le' (show fuel ≥ 1 by omega)
    rw [hstep fuel (by omega), hs]
    exact hn fuel (by omega)

/-- **On a flattened tree, the loop does what the tokens say**, whatever the layout. -/
theorem Laid.loop {offset : Nat} {ts : List Tok} (h : Laid d offset ts) :
    ∀ s : σ, ∃ n, ∀ fuel ≥ n, d.loop tok stop fuel s offset = some (runToks tok stop s ts) := by
  induction h with
  | @nop offset ts h rest ih =>
    intro s
    obtain ⟨n, hn⟩ := ih s
    refine ⟨n + 1, fun fuel hf => ?_⟩
    obtain ⟨fuel, rfl⟩ := Nat.exists_eq_add_of_le' (show fuel ≥ 1 by omega)
    rw [DeviceTree.loop, h.readU32 (by decide)]
    exact hn _ (by omega)
  | @beginNode offset name ts h hname rest ih =>
    refine fun s => DeviceTree.loop_of_step (k := name.length + 1) (fun fuel hf => ?_) ih
    simp only [DeviceTree.loop, h.readU32 (by decide), hname.readCstring (Nat.lt_of_succ_le hf),
      if_true, Option.bind_some]
  | @prop offset nameoff p ts h hlen hoff hname hdata rest ih =>
    refine fun s => DeviceTree.loop_of_step (k := p.name.length + 1) (fun fuel hf => ?_) ih
    have hbytes : d.bytes p.addr p.data.length = p.data := hdata.2
    simp only [DeviceTree.loop, h.readU32 (by decide), hlen.2.readU32 hlen.1, hoff.2.readU32 hoff.1,
      DeviceTree.getString, hname.readCstring (Nat.lt_of_succ_le hf), ← hdata.1, hbytes]
    rfl
  | @endNode offset ts h rest ih =>
    refine fun s => DeviceTree.loop_of_step (k := 0) (fun fuel _ => ?_) ih
    simp only [DeviceTree.loop, h.readU32 (by decide)]
    rfl
  | @stop offset h =>
    intro s
    refine ⟨1, fun fuel hf => ?_⟩
    obtain ⟨fuel, rfl⟩ := Nat.exists_eq_add_of_le' (show fuel ≥ 1 by omega)
    rw [DeviceTree.loop, h.readU32 (by decide)]
    rfl

end

/-! ## The scan -/

/-- What the loop of `scan_nodes` does at a token. -/
def Scan.tok (d : DeviceTree) (s : Scan) : Tok → Except Stop Scan
  | .beginNode name => .ok (s.beginNode name)
  | .prop p => s.property d p.name p.addr p.data.length
  | .endNode => .ok s.endNode

def Scan.run (d : DeviceTree) (s : Scan) (ts : List Tok) : Except Stop Scan := ts.foldlM (tok d) s

theorem Scan.run_append (d : DeviceTree) (s : Scan) (ts us : List Tok) :
    s.run d (ts ++ us) = (s.run d ts).bind fun s' => s'.run d us := foldlM_append

theorem DeviceTree.scanFrom_eq (d : DeviceTree) (fuel : Nat) : ∀ (s : Scan) (offset : Nat),
    d.scanFrom fuel s offset = (d.loop (fun s t => (s.tok d t).mapError Except.error)
      (fun s => .ok s.log) fuel s offset).getD (.error .fuel) := by
  induction fuel with
  | zero => exact fun _ _ => rfl
  | succ fuel ih =>
    intro s offset
    rw [DeviceTree.scanFrom, DeviceTree.loop]
    simp only [ih]
    split_ifs
    · cases d.readCstring fuel (d.structBase + (offset + 4)) <;> rfl
    · rfl
    · cases d.getString fuel (d.readU32 (d.structBase + (offset + 8))) with
      | none => rfl
      | some name =>
        simp only [Option.bind_some, Scan.tok, DeviceTree.bytes, length_map, length_range]
        cases s.property d name (d.structBase + (offset + 12))
          (d.readU32 (d.structBase + (offset + 4))) <;> rfl
    · rfl
    · rfl

theorem Laid.scanFrom {d : DeviceTree} {offset : Nat} {ts : List Tok} (h : Laid d offset ts)
    (s : Scan) : ∃ n, ∀ fuel ≥ n, d.scanFrom fuel s offset = (s.run d ts).map Scan.log := by
  obtain ⟨n, hn⟩ := @Laid.loop Scan (Except Stop (List DeviceInfo)) d
    (fun s t => (s.tok d t).mapError Except.error) (fun s => .ok s.log) _ _ h s
  refine ⟨n, fun fuel hf => ?_⟩
  rw [d.scanFrom_eq, hn fuel hf]
  clear hn hf h
  induction ts generalizing s with
  | nil => rfl
  | cons t ts ih =>
    rw [runToks, Scan.run, foldlM_cons, foldlM_cons]
    cases hs : s.tok d t with
    | error e => rfl
    | ok s' => exact ih s'

end Kerners.Dtb
