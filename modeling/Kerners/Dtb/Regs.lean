import Kerners.Dtb.Memory
import Mathlib.Data.List.Forall2

/-!
# The regions of devices (`dtb/mod.rs`)

The `reg` of a node is a list of addresses and sizes, of as many cells as the **parent** of the node
declares. `scan_nodes` decodes it with the cells of the root, whatever the depth, and with those of
the node itself if they come before `reg`.
-/

namespace Kerners.Dtb

open Lib List

open DtNode

mutual

/-- The nodes below a node, each with its parent, as they come in the blob. -/
def DtNode.edges : DtNode → List (DtNode × DtNode)
  | .mk name props children => DtNode.edgesOf (.mk name props children) children

def DtNode.edgesOf (parent : DtNode) : List DtNode → List (DtNode × DtNode)
  | [] => []
  | n :: ns => (parent, n) :: (n.edges ++ DtNode.edgesOf parent ns)

end

section

variable {d : DeviceTree} {c : Cells}

mutual

theorem DtNode.edges_snd : ∀ n : DtNode, n.edges.map Prod.snd = n.devices
  | .mk name props children => by
    rw [edges, edgesOf_snd]
    rfl

theorem DtNode.edgesOf_snd (parent : DtNode) :
    ∀ ns : List DtNode, (edgesOf parent ns).map Prod.snd = allOf ns
  | [] => rfl
  | .mk name props children :: ns => by
    rw [edgesOf, map_cons, map_append, edges_snd, edgesOf_snd, allOf,
      all]
    rfl

end

def Cells.Small (c : Cells) : Prop := c.address ≤ 2 ∧ c.size ≤ 2

/-- The properties stand where they say, and every `#…-cells` is small. -/
structure SmallProps (d : DeviceTree) (ps : List DtProp) : Prop where
  holds : ∀ p ∈ ps, d.Holds p.addr p.data
  small : ∀ p ∈ ps, p.name = ascii "#address-cells" ∨ p.name = ascii "#size-cells" →
    ∃ k ≤ 2, p.data = beBytes k

theorem SmallProps.after {p : DtProp} {ps : List DtProp} (h : SmallProps d (p :: ps)) (hc : c.Small) :
    (c.after d p).Small ∧ SmallProps d ps := by
  have hread : p.name = ascii "#address-cells" ∨ p.name = ascii "#size-cells" →
      d.readU32 p.addr ≤ 2 := fun hp => by
    obtain ⟨k, hk, hdata⟩ := h.small p mem_cons_self hp
    have hholds := h.holds p mem_cons_self
    rw [hdata] at hholds
    rw [hholds.readU32 (by omega)]
    exact hk
  refine ⟨?_, fun q hq => h.holds q (mem_cons_of_mem p hq),
    fun q hq => h.small q (mem_cons_of_mem p hq)⟩
  unfold Cells.after Cells.property
  split_ifs with h1 h2
  · exact ⟨hread (.inl h1.1), hc.2⟩
  · exact ⟨hc.1, hread (.inr h2.1)⟩
  · exact hc

end

end Kerners.Dtb
