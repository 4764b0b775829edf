import ElasticIndex.Shared.BlindErase
import ElasticIndex.SeqTree.InsertCorrect

set_option autoImplicit false

namespace ElasticIndex.SeqTree

open SequenceEdit BitOrder BlindSequence CartesianTree CartesianTree.PosTree SlotTree

variable (c : Params)

-- Remaining steps, index, min_pos, min_value.
def minPosScan (blindiKeys : Nat → Nat) : Nat → Nat → Nat → Nat → Nat
  | 0, _, minPos, _ => minPos
  | rest + 1, i, minPos, minValue =>
    if blindiKeys i < minValue then minPosScan blindiKeys rest (i + 1) i (blindiKeys i)
    else minPosScan blindiKeys rest (i + 1) minPos minValue

def minPosValueInRange (blindiKeys : Nat → Nat) (startPos endPos : Int) : Nat :=
  minPosScan blindiKeys (endPos + 1 - startPos).toNat startPos.toNat c.endTree c.endTree

-- Only the first three slots have a case; beyond them both ends stay unset.
def bringEdgesSeqFromPos (tree : Nat → Nat) (validLen pos : Nat) : Option (Int × Int) :=
  match pos with
  | 0 => some (0, validLen - 2)
  | 1 => if 1 < c.treeLevels then some (0, tree 0 - 1) else none
  | 2 => if 1 < c.treeLevels then some (tree 0 + 1, validLen - 2) else none
  | _ => none

-- An unset range is taken as empty.
def minPosOfSlot (blindiKeys tree : Nat → Nat) (validLen pos : Nat) : Nat :=
  let (startPos, endPos) := (bringEdgesSeqFromPos c tree validLen pos).getD (0, -1)
  minPosValueInRange c blindiKeys startPos endPos

/-- blindiTree and range_min_value_array while the tree is repaired. -/
structure Repair where
  tree : Nat → Nat
  rangeMinValue : Nat → Bool

def Repair.set (s : Repair) (pos value : Nat) : Repair :=
  { s with tree := Function.update s.tree pos value }

def Repair.recompute (s : Repair) (blindiKeys : Nat → Nat) (validLen l pos : Nat) : Repair :=
  let s := s.set pos (minPosOfSlot c blindiKeys s.tree validLen pos % c.idxSize)
  if l < c.treeLevels then
    { s with
      rangeMinValue := Function.update (Function.update s.rangeMinValue (2 * (pos + 1) - 1) true)
        (2 * (pos + 1)) true }
  else s

def repairRoot (blindiKeys tree : Nat → Nat) (validLen removePosition : Nat)
    (isFirst isLast : Bool) : Repair :=
  let both : Nat → Bool := Function.update (Function.update (fun _ => false) 1 true) 2 true
  let none : Nat → Bool := fun _ => false
  if isFirst ∧ tree 0 = 0 then
    if 1 < c.treeLevels then { tree := Function.update tree 0 (toU16 (tree 2 - 1) % c.idxSize),
                               rangeMinValue := both }
    else
      { tree := Function.update tree 0 (minPosValueInRange c blindiKeys 0
        (validLen - 2) % c.idxSize)
        rangeMinValue := none }
  else if isLast ∧ tree 0 + 1 = validLen then
    if 1 < c.treeLevels then { tree := Function.update tree 0 (tree 1), rangeMinValue := both }
    else
      { tree := Function.update tree 0 (minPosValueInRange c blindiKeys 0
        (validLen - 2) % c.idxSize)
        rangeMinValue := none }
  else if removePosition ≤ tree 0
    then { tree := Function.update tree 0 (tree 0 - 1), rangeMinValue := none }
  else { tree, rangeMinValue := none }

def repairSlot (blindiKeys : Nat → Nat) (validLen removePosition : Nat)
    (isFirst isLast : Bool) (l pos : Nat) (s : Repair) : Repair :=
  let parent := s.tree ((pos + 1) / 2 - 1)
  if parent = c.endTree then s.set pos c.endTree
  else if parent = 0 ∧ pos % 2 = 1 then s.set pos c.endTree
  else if parent + 2 = validLen ∧ pos % 2 = 0 then s.set pos c.endTree
  else if s.rangeMinValue pos then s.recompute c blindiKeys validLen l pos
  else if s.tree pos = c.endTree then s
  else if (isFirst ∧ s.tree pos = 0) ∨ (isLast ∧ s.tree pos + 1 = validLen) then
    s.recompute c blindiKeys validLen l pos
  else if s.tree pos = parent ∨ s.tree pos + 1 = removePosition
    then s.recompute c blindiKeys validLen l pos
  else
    let s := if removePosition ≤ s.tree pos then s.set pos (s.tree pos - 1) else s
    if s.tree pos = s.tree ((pos + 1) / 2 - 1) then s.recompute c blindiKeys validLen l pos else s

def repairLevel (blindiKeys : Nat → Nat) (validLen removePosition : Nat)
    (isFirst isLast : Bool) (l : Nat) :
    Nat → Nat → Repair → Repair
  | 0, _, s => s
  | rest + 1, i, s =>
    repairLevel blindiKeys validLen removePosition isFirst isLast l rest (i - 1)
      (repairSlot c blindiKeys validLen removePosition isFirst isLast l (i - 1) s)

def repairLevels (blindiKeys : Nat → Nat) (validLen removePosition : Nat) (isFirst isLast : Bool) :
    Nat → Nat → Repair → Repair
  | 0, _, s => s
  | rest + 1, l, s =>
    repairLevels blindiKeys validLen removePosition isFirst isLast rest (l + 1)
      (repairLevel c blindiKeys validLen removePosition isFirst isLast l
        (2 ^ (l - 1)) (2 ^ l - 1) s)

def removeSequence (node : SeqTreeBlindiNode) (removePosition : Nat) : SeqTreeBlindiNode :=
  let n := node.validLen
  if removePosition + 1 = n then
    { node with
      keyPtr := Function.update node.keyPtr removePosition 0
      blindiKeys := Function.update node.blindiKeys (removePosition - 1) 0
      validLen := n - 1 }
  else
    let blindiKeys := if removePosition ≠ 0 then
        Function.update node.blindiKeys (removePosition - 1)
          (min (node.blindiKeys removePosition) (node.blindiKeys (removePosition - 1)))
      else node.blindiKeys
    let count := n - 2 - removePosition
    { node with
      keyPtr := Function.update (moveDown (removePosition + 1) count node.keyPtr) (n - 2)
        (node.keyPtr (n - 1))
      blindiKeys := moveDown (removePosition + 1) count blindiKeys
      validLen := n - 1 }

def removeFromBlindiNodeInPosition (node : SeqTreeBlindiNode) (removePosition : Nat) :
    RemoveResult × SeqTreeBlindiNode :=
  if node.validLen ≤ 2 ∧ ¬ (node.validLen = 2 ∧ removePosition = 1) then
    if node.validLen = 2 then
      (.success, { node with
        blindiKeys := Function.update node.blindiKeys 0 0
        keyPtr := Function.update (Function.update node.keyPtr 0 (node.keyPtr 1)) 1 0
        validLen := 1 })
    else (.nodeEmpty, { node with validLen := 0 })
  else
    let isFirst := decide (removePosition = 0)
    let isLast := decide (removePosition + 1 = node.validLen)
    let node := removeSequence node removePosition
    if 0 < c.treeLevels then
      let s := repairRoot c node.blindiKeys node.blindiTree node.validLen
        removePosition isFirst isLast
      let s := repairLevels c node.blindiKeys node.validLen removePosition isFirst isLast
        (c.treeLevels - 1) 2 s
      (.success, { node with blindiTree := s.tree })
    else (.success, node)

variable {c} (mem : Addr → Bytes c.keyLen)

def removeFromBlindiNodeWithKey (node : SeqTreeBlindiNode) (removeKey : Bytes c.keyLen) :
    RemoveResult × SeqTreeBlindiNode :=
  let r := searchBlindiNode mem node removeKey .point .zero
  if r.hit = false then (.keyNotFound, node)
  else
    let (result, node) := removeFromBlindiNodeInPosition c node r.position
    if node.validLen < c.numSlots / 2 then
      if result = .success then (.underflow, node) else (result, node)
    else (result, node)

end ElasticIndex.SeqTree
