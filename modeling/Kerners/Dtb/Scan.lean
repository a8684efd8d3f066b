import Kerners.Lib.Utf
import Mathlib.Data.List.DropRight

/-!
# The device-tree scan (`dtb/mod.rs`)

`scan_nodes` goes over the structure block once, token by token, with one `current_info`. The blob is
read where it lies in memory; a text is the list of its UTF-8 bytes. The callbacks only collect, so
that the scan returns what it calls them with, in order.

* The loops of the source end when they find a NUL or a token; here they have fuel.
* `depth` is a number without bounds: a blob has less than 2³² bytes, and a node takes twelve of them.
* `node_stack` is pushed and popped and never read, and is left out.
-/

namespace Kerners.Dtb

open Lib

def ascii (s : String) : Bytes := s.toList.map fun c => UInt8.ofNat c.toNat

/-- `u32::from_be`. -/
def beNat (bs : Bytes) : Nat := leNat bs.reverse

structure DeviceTree where
  mem : Nat → UInt8
  base : Nat
  offDtStruct : Nat
  offDtStrings : Nat

structure DeviceInfo where
  name : Bytes
  regBase : Nat
  regSize : Nat
  regExtra : List (Nat × Nat)
  interrupts : List Nat
  compatible : Bytes
  clockFrequency : Option Nat

def DeviceInfo.new (name : Bytes) : DeviceInfo := ⟨name, 0, 0, [], [], [], none⟩

/-- `#address-cells` and `#size-cells`. -/
structure Cells where
  address : Nat
  size : Nat

/-- Why a scan has no result: a division by zero, or no more fuel. -/
inductive Stop where
  | panic
  | fuel
  deriving DecidableEq

namespace DeviceTree

variable (d : DeviceTree)

def structBase : Nat := d.base + d.offDtStruct

def stringsBase : Nat := d.base + d.offDtStrings

/-- `n` bytes from the address `a` on. -/
def bytes (a n : Nat) : Bytes := (List.range n).map fun i => d.mem (a + i)

/-- `u32::from_be(ptr.read_volatile())`. -/
def readU32 (a : Nat) : Nat := beNat (d.bytes a 4)

def readCells (a cells : Nat) : Nat :=
  match cells with
  | 1 => d.readU32 a
  | 2 => d.readU32 a * 2 ^ 32 + d.readU32 (a + 4)
  | _ => 0

def readCstring : Nat → Nat → Option Bytes
  | 0, _ => none
  | fuel + 1, a => if d.mem a = 0 then some [] else (readCstring fuel (a + 1)).map (d.mem a :: ·)

def getString (fuel offset : Nat) : Option Bytes := d.readCstring fuel (d.stringsBase + offset)

end DeviceTree

def align4 (offset : Nat) : Nat := (offset + 3) / 4 * 4

def fdtBeginNode : Nat := 1
def fdtEndNode : Nat := 2
def fdtProp : Nat := 3
def fdtNop : Nat := 4
def fdtEnd : Nat := 9

/-- `trim_end_matches('\0')`. -/
def trimEnd (bs : Bytes) : Bytes := bs.rdropWhile (· == 0)

/-- The two `#…-cells` properties, which only count with four bytes. -/
def Cells.property (d : DeviceTree) (c : Cells) (name : Bytes) (data len : Nat) : Cells :=
  if name = ascii "#address-cells" ∧ len = 4 then { c with address := d.readU32 data }
  else if name = ascii "#size-cells" ∧ len = 4 then { c with size := d.readU32 data }
  else c

/-- `entry_size`: the sum is one of 32-bit numbers. -/
def Cells.entrySize (c : Cells) : Nat := (c.address + c.size) % 2 ^ 32 * 4

/-- The address and the size at `ptr`. -/
def Cells.entry (d : DeviceTree) (c : Cells) (ptr : Nat) : Nat × Nat :=
  (d.readCells ptr c.address, d.readCells (ptr + c.address * 4) c.size)

namespace DeviceInfo

/-- The first entry of `reg` is the device's own region, the others are extra. -/
def addRegs (info : DeviceInfo) : List (Nat × Nat) → DeviceInfo
  | [] => info
  | e :: es => { info with regBase := e.1, regSize := e.2, regExtra := info.regExtra ++ es }

/-- A property of the node that `current_info` is about: `len` bytes at `data`. -/
def property (d : DeviceTree) (info : DeviceInfo) (c : Cells) (name : Bytes) (data len : Nat) :
    Except Stop DeviceInfo :=
  if name = ascii "compatible" then
    match fromUtf8 (d.bytes data len) with
    | some _ => .ok { info with compatible := trimEnd (d.bytes data len) }
    | none => .ok info
  else if name = ascii "reg" then
    if c.entrySize = 0 then .error .panic
    else .ok (info.addRegs ((List.range (len / c.entrySize)).map fun i =>
      c.entry d (data + i * c.entrySize)))
  else if name = ascii "interrupts" then
    .ok { info with interrupts := info.interrupts ++
      (List.range (len / 4)).map fun i => d.readU32 (data + i * 4) }
  else if name = ascii "clock-frequency" then
    .ok (if len = 4 then { info with clockFrequency := some (d.readU32 data) } else info)
  else .ok info

end DeviceInfo

/-- The variables of `scan_nodes`, and what the callback has been called with. -/
structure Scan where
  depth : Int
  root : Cells
  current : Cells
  currentInfo : Option DeviceInfo
  log : List DeviceInfo

namespace Scan

def new : Scan := ⟨0, ⟨2, 1⟩, ⟨2, 1⟩, none, []⟩

/-- `FDT_BEGIN_NODE`. -/
def beginNode (s : Scan) (name : Bytes) : Scan :=
  if 0 < s.depth then
    { s with currentInfo := some (.new name), current := s.root, depth := s.depth + 1 }
  else { s with depth := s.depth + 1 }

/-- `FDT_END_NODE`. -/
def endNode (s : Scan) : Scan where
  depth := s.depth - 1
  root := s.root
  current := s.current
  currentInfo := none
  log := match s.currentInfo with
    | some info => if info.regBase ≠ 0 ∨ info.compatible ≠ [] then s.log ++ [info] else s.log
    | none => s.log

/-- The cells of the root node, which are the current ones as well. -/
def rootProperty (d : DeviceTree) (s : Scan) (name : Bytes) (data len : Nat) : Scan :=
  if s.depth = 1 then
    { s with root := s.root.property d name data len, current := s.current.property d name data len }
  else s

def property (d : DeviceTree) (s : Scan) (name : Bytes) (data len : Nat) : Except Stop Scan :=
  let s := s.rootProperty d name data len
  match s.currentInfo with
  | none => .ok s
  | some info =>
    (info.property d s.current name data len).map fun info' =>
      { s with currentInfo := some info', current := s.current.property d name data len }

end Scan

namespace DeviceTree

variable (d : DeviceTree)

/-- The loop of `scan_nodes` from a state and an offset on. -/
def scanFrom : Nat → Scan → Nat → Except Stop (List DeviceInfo)
  | 0, _, _ => .error .fuel
  | fuel + 1, s, offset =>
    let token := d.readU32 (d.structBase + offset)
    if token = fdtBeginNode then
      match d.readCstring fuel (d.structBase + (offset + 4)) with
      | none => .error .fuel
      | some name => scanFrom fuel (s.beginNode name) (align4 (offset + 4 + (name.length + 1)))
    else if token = fdtEndNode then scanFrom fuel s.endNode (offset + 4)
    else if token = fdtProp then
      let len := d.readU32 (d.structBase + (offset + 4))
      let nameoff := d.readU32 (d.structBase + (offset + 8))
      match d.getString fuel nameoff with
      | none => .error .fuel
      | some propName =>
        match s.property d propName (d.structBase + (offset + 12)) len with
        | .error e => .error e
        | .ok s' => scanFrom fuel s' (align4 (offset + 12 + len))
    else if token = fdtNop then scanFrom fuel s (offset + 4)
    else .ok s.log

def scanNodes (fuel : Nat) : Except Stop (List DeviceInfo) := d.scanFrom fuel .new 0

def findCompatible (fuel : Nat) (target : Bytes) : Except Stop (List DeviceInfo) :=
  (d.scanNodes fuel).map fun log => log.filter fun info => target ∈ info.compatible.splitOn 0

/-- `starts_with("cpu@")`. -/
def isCpu (name : Bytes) : Bool := (ascii "cpu@").isPrefixOf name

def countCpus (fuel : Nat) : Except Stop Nat :=
  (d.scanNodes fuel).map fun log =>
    let cpuCount := log.countP fun info => isCpu info.name
    if cpuCount = 0 then 1 else cpuCount

end DeviceTree

end Kerners.Dtb
