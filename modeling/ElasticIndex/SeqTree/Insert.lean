import ElasticIndex.Shared.CartesianInsert
import ElasticIndex.SeqTree.Predecessor

set_option autoImplicit false

namespace ElasticIndex.SeqTree

open SequenceEdit BitOrder BlindSequence CartesianTree CartesianTree.PosTree SlotTree

variable (c : Params)

def isNeedBreath (node : SeqTreeBlindiNode) : Bool := node.validLen == node.currentMaxSlot

def firstInsert (node : SeqTreeBlindiNode) (insertKey : Addr) : SeqTreeBlindiNode :=
  { validLen := 1
    blindiTree := fill 0 c.treeSize c.endTree node.blindiTree
    currentMaxSlot := c.numSlots % 65536
    keyPtr := Function.update node.keyPtr 0 insertKey
    blindiKeys := Function.update node.blindiKeys 0 0 }

def breathe (node : SeqTreeBlindiNode) : SeqTreeBlindiNode :=
  if isNeedBreath node then
    if c.numSlots % 65536 < node.currentMaxSlot + breathingBlindiSize then
      { node with currentMaxSlot := c.numSlots % 65536 }
    else { node with currentMaxSlot := node.currentMaxSlot + breathingBlindiSize }
  else node

-- The shifted node and insert_blindikey_position.
def shiftSequence (node : SeqTreeBlindiNode) (insertPosition diffPos : Nat)
    (largeSmall smallerThanNode : Bool) :
    SeqTreeBlindiNode × Nat :=
  if smallerThanNode ∨ insertPosition ≠ node.validLen - 1 ∧ node.validLen ≠ 0 then
    let tempKey := node.keyPtr (node.validLen - 1)
    let count := node.validLen - 2 - insertPosition
    let blindiKeys := moveUp (insertPosition + 1) count node.blindiKeys
    let keyPtr := moveUp (insertPosition + 1) count node.keyPtr
    let keyPtr := Function.update keyPtr node.validLen tempKey
    let keyPtr := if smallerThanNode then Function.update keyPtr 1 (keyPtr 0) else keyPtr
    let blindiKeys := if smallerThanNode ∧ 1 < node.validLen
      then Function.update blindiKeys 1 (blindiKeys 0)
      else blindiKeys
    let next := insertPosition + 1 - smallerThanNode.toNat
    if largeSmall then
      ({ node with keyPtr,
                   blindiKeys := Function.update blindiKeys next (blindiKeys insertPosition) },
        insertPosition)
    else ({ node with keyPtr,
                      blindiKeys := Function.update blindiKeys next (diffPos % c.bitidxSize) },
                      next)
  else (node, insertPosition)

def insertSequence (node : SeqTreeBlindiNode) (insertKey : Addr) (insertPosition diffPos : Nat)
    (largeSmall smallerThanNode : Bool) : SeqTreeBlindiNode × Nat :=
  let (shifted, blindiKeyPosition) :=
    shiftSequence c node insertPosition diffPos largeSmall smallerThanNode
  let blindiKeys := if !smallerThanNode ∧ node.validLen ≠ 0 ∧ largeSmall then
      Function.update shifted.blindiKeys insertPosition (diffPos % c.bitidxSize)
    else shifted.blindiKeys
  let keyPtr := Function.update shifted.keyPtr
    (insertPosition + 1 - smallerThanNode.toNat) insertKey
  ({ shifted with keyPtr, blindiKeys, validLen := (node.validLen + 1) % c.idxSize },
    blindiKeyPosition)

-- One level, from its last slot i - 1 to its first; the break leaves the smaller slots alone.
def bumpLevel (blindiKeys : Nat → Nat) (insertPosition diffPos : Nat) :
    Nat → Nat → (Nat → Nat) → Nat → Nat
  | 0, _, tree => tree
  | rest + 1, i, tree =>
    let pos := tree (i - 1)
    if (pos ≠ c.endTree ∧ insertPosition < pos) ∨ (pos = insertPosition ∧ diffPos = blindiKeys pos)
      then
      bumpLevel blindiKeys insertPosition diffPos rest (i - 1)
        (Function.update tree (i - 1) ((pos + 1) % c.idxSize))
    else if pos < insertPosition then tree
    else bumpLevel blindiKeys insertPosition diffPos rest (i - 1) tree

def bumpLevels (blindiKeys : Nat → Nat) (insertPosition diffPos : Nat) :
    Nat → (Nat → Nat) → Nat → Nat
  | 0, tree => tree
  | l + 1, tree =>
    bumpLevel c blindiKeys insertPosition diffPos (2 ^ l) (2 ^ (l + 1) - 1)
      (bumpLevels blindiKeys insertPosition diffPos l tree)

-- Each round writes the level saved by the round before and saves the one it overwrites.
def pushDown : Nat → Nat → Nat → Nat → Nat → Nat → (Nat → Nat) → (Nat → Nat) → Nat → Nat
  | 0, _, _, _, _, _, _, tree => tree
  | rest + 1, l, i, curPos, savePos, endTreePos, temp, tree =>
    let curPos := 2 * (curPos + 1) - 1
    let savePos := 2 * (savePos + 1) - 1
    let endTreePos := 2 * (endTreePos + 1) - 1
    let temp := if l < c.treeLevels then blit (2 ^ i - 1) savePos (2 ^ i) tree temp else temp
    let power := 2 ^ (i - 1)
    let tree := fill endTreePos power c.endTree (blit curPos (power - 1) power temp tree)
    pushDown rest (l + 1) (i + 1) curPos savePos endTreePos temp tree

def insertTree (position last len : Nat) (tree : Nat → Nat) : Nat → Nat :=
  let top := tree last
  let temp : Nat → Nat := Function.update (fun _ => 0) 0 top
  let tree := Function.update tree last (position % c.idxSize)
  let levels := len + 1
  if 1 < c.treeLevels ∧ levels ≤ c.treeLevels then
    let child := 2 * (last + 1) - 1
    let temp := if levels + 1 ≤ c.treeLevels then
        Function.update (Function.update temp 1 (tree child)) 2 (tree (child + 1))
      else temp
    if top < position then
      pushDown c (c.treeLevels - levels) (levels + 1) 2 child child (child + 1) temp
        (Function.update (Function.update tree child top) (child + 1) c.endTree)
    else
      pushDown c (c.treeLevels - levels) (levels + 1) 2 (child + 1) child child temp
        (Function.update (Function.update tree child c.endTree) (child + 1) top)
  else tree

def insert2BlindiNodeInPosition (node : SeqTreeBlindiNode) (insertKey : Addr)
    (insertPosition diffPos : Nat) (largeSmall smallerThanNode : Bool) (traverse : Traverse) :
    SeqTreeBlindiNode :=
  let node := breathe c node
  let (node, position) :=
    insertSequence c node insertKey insertPosition diffPos largeSmall smallerThanNode
  if 0 < c.treeLevels then
    let tree := bumpLevels c node.blindiKeys insertPosition diffPos c.treeLevels node.blindiTree
    if traverse.inTree then { node with
      blindiTree := insertTree c position traverse.last traverse.len tree }
    else { node with blindiTree := tree }
  else node

variable {c} (mem : Addr → Bytes c.keyLen)

def insert2BlindiNodeWithKey (node : SeqTreeBlindiNode) (insertKey : Addr) :
    InsertResult × SeqTreeBlindiNode :=
  if node.validLen = c.numSlots % 65536 then (.overflow, node)
  else if node.validLen ≠ 0 then
    let r := searchBlindiNode mem node (mem insertKey) .predecessor .zero
    if r.hit then
      (.duplicatedKey, insert2BlindiNodeInPosition c node insertKey r.position c.duplicate
        true r.smallerThanNode
        r.traverse)
    else
      (.success, insert2BlindiNodeInPosition c node insertKey r.position r.diffPos
        r.largeSmall r.smallerThanNode
        r.traverse)
  else (.success, firstInsert c node insertKey)

def upsert2BlindiNodeWithKey (node : SeqTreeBlindiNode) (insertKey : Addr) :
    InsertResult × SeqTreeBlindiNode :=
  if node.validLen = 0 then (.success, firstInsert c node insertKey)
  else
    let r := searchBlindiNode mem node (mem insertKey) .predecessor .zero
    if node.validLen = c.numSlots ∧ r.hit = false then (.overflow, node)
    else
      (if r.hit then .duplicatedKey else .success,
        insert2BlindiNodeInPosition c node insertKey r.position r.diffPos r.largeSmall
        r.smallerThanNode r.traverse)

end ElasticIndex.SeqTree
