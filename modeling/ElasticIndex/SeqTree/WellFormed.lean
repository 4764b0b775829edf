import ElasticIndex.Shared.BlindSequence
import ElasticIndex.Shared.SlotTree
import ElasticIndex.SeqTree.Node

set_option autoImplicit false

namespace ElasticIndex.SeqTree

open BitOrder BlindSequence CartesianTree SlotTree

variable {c : Params}

def SeqTreeBlindiNode.keys (node : SeqTreeBlindiNode) (mem : Addr → Bytes c.keyLen) :
    Nat → Bytes c.keyLen :=
  fun i => mem (node.keyPtr i)

/-- Keys increase, blindiKeys are their first differing bits, and blindiTree is the Cartesian tree
of blindiKeys cut at TREE_LEVELS levels. -/
structure WellFormed (mem : Addr → Bytes c.keyLen) (node : SeqTreeBlindiNode) : Prop where
  nonempty : 1 ≤ node.validLen
  fits : node.validLen ≤ c.numSlots
  idx : node.validLen ≤ c.endTree
  blind : Blind (keyBits c.keyLen) (node.keys mem) node.blindiKeys node.validLen
  tree : ∃ t, IsCartesian node.blindiKeys 0 (node.validLen - 1) t ∧
    Cut c.endTree c.treeLevels node.blindiTree t

/-- The depths and key lengths for which the slot and bit numbers fit their 16-bit types. -/
structure Params.Representable (c : Params) : Prop where
  depth : c.treeLevels ≤ 16
  key : c.keyLen ≤ 8191

theorem Params.Representable.bit_le {d : Nat} (small : c.Representable) (lt : d < 8 * c.keyLen) :
    d ≤ c.maxHighMiss := by
  have := small.key
  unfold Params.maxHighMiss Params.bitidxSize
  split_ifs <;> omega

theorem endTree_eq (c : Params) : c.endTree = 255 ∨ c.endTree = 65535 := by
  unfold Params.endTree Params.idxSize
  split_ifs <;> simp

end ElasticIndex.SeqTree
