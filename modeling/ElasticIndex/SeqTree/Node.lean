import ElasticIndex.Key

set_option autoImplicit false

namespace ElasticIndex

-- Keys live at stable addresses outside the index; zero is the null pointer.
abbrev Addr := Nat

inductive SearchType where
  | point
  | predecessor
  deriving DecidableEq, Repr

inductive InsertResult where
  | success
  | duplicatedKey
  | overflow
  deriving DecidableEq, Repr

inductive RemoveResult where
  | success
  | nodeEmpty
  | underflow
  | keyNotFound
  deriving DecidableEq, Repr

def toU16 (value : Int) : Nat := (value % 65536).toNat

theorem toU16_nat {value : Nat} (small : value < 65536) : toU16 value = value := by
  unfold toU16
  omega

namespace SeqTree

/-- The template arguments and build constants of one node type. -/
structure Params where
  treeLevels : Nat
  numSlots : Nat
  keyLen : Nat
  even : numSlots % 2 = 0

def breathingBlindiSize : Nat := 4

namespace Params

def idxSize (c : Params) : Nat := if c.numSlots < 254 then 256 else 65536
def bitidxSize (c : Params) : Nat := if c.keyLen ≤ 31 then 256 else 65536
def endTree (c : Params) : Nat := c.idxSize - 1
def duplicate (c : Params) : Nat := c.bitidxSize - 2
def maxHighMiss (c : Params) : Nat := c.bitidxSize - 3
def treeSize (c : Params) : Nat := 2 ^ c.treeLevels - 1

end Params

structure SeqTreeBlindiNode where
  validLen : Nat
  blindiTree : Nat → Nat
  currentMaxSlot : Nat
  keyPtr : Nat → Addr
  blindiKeys : Nat → Nat

/-- The entries 0 .. 5 of tree_traverse, and tree_traverse_len. -/
structure Traverse where
  startBkSeqPos : Nat
  endBkSeqPos : Nat
  last : Nat
  previous : Nat
  inTree : Bool
  seq : Bool
  len : Nat
  deriving DecidableEq, Repr

def Traverse.zero : Traverse :=
  { startBkSeqPos := 0, endBkSeqPos := 0, last := 0, previous := 0
    inTree := false, seq := false, len := 0 }

/-- The locals of SearchFirstStage while it walks down the tree. -/
structure Descent where
  firstStageKeyPosition : Nat
  startBkSeqPos : Nat
  endBkSeqPos : Int
  isStartPos : Bool
  isEndPos : Bool
  isLastLarge : Bool
  treePosP1 : Nat
  traverse : Traverse

variable (c : Params)

def descend (node : SeqTreeBlindiNode) (key : Bytes c.keyLen) : Nat → Descent → Option Nat × Descent
  | 0, s => (none, s)
  | levels + 1, s =>
    let pos := node.blindiTree (s.treePosP1 - 1)
    let s := { s with traverse := { s.traverse with
      previous := s.traverse.last
      last := s.treePosP1 - 1
      len := s.traverse.len + 1 } }
    if pos = c.endTree then
      (some (node.blindiTree s.traverse.previous + s.isLastLarge.toNat), s)
    else if isNthBitSetInString key (node.blindiKeys pos) then
      descend node key levels { s with
        firstStageKeyPosition := pos + 1
        startBkSeqPos := pos
        isStartPos := true
        treePosP1 := (2 * (s.treePosP1 + 1) - 1) % 65536
        isLastLarge := true }
    else
      descend node key levels { s with
        endBkSeqPos := pos
        isEndPos := true
        treePosP1 := 2 * s.treePosP1 % 65536
        isLastLarge := false }

-- Remaining steps, index, high_miss, first_stage_key_position.
def scanFirstStage (node : SeqTreeBlindiNode) (key : Bytes c.keyLen) : Nat → Nat → Nat → Nat → Nat
  | 0, _, _, position => position
  | rest + 1, i, highMiss, position =>
    let idx := node.blindiKeys i
    if idx ≤ highMiss then
      if isNthBitSetInString key idx then scanFirstStage node key rest (i + 1) c.maxHighMiss (i + 1)
      else scanFirstStage node key rest (i + 1) (min highMiss idx) position
    else scanFirstStage node key rest (i + 1) highMiss position

def seqFirstStage (node : SeqTreeBlindiNode) (key : Bytes c.keyLen)
    (s : Descent) : Nat × Traverse :=
  let start := s.startBkSeqPos + s.isStartPos.toNat
  let steps := (s.endBkSeqPos - s.isEndPos.toNat + 1 - start).toNat
  (scanFirstStage c node key steps start c.maxHighMiss s.firstStageKeyPosition,
    { s.traverse with
      startBkSeqPos := s.startBkSeqPos
      endBkSeqPos := toU16 s.endBkSeqPos
      seq := s.traverse.seq || decide (0 < steps) })

def searchFirstStage (node : SeqTreeBlindiNode) (key : Bytes c.keyLen) (traverse : Traverse) :
    Nat × Traverse :=
  let s : Descent :=
    { firstStageKeyPosition := 0
      startBkSeqPos := 0
      endBkSeqPos := (node.validLen : Int) - 2
      isStartPos := false
      isEndPos := false
      isLastLarge := false
      treePosP1 := 1
      traverse := traverse }
  if 0 < c.treeLevels then
    let s := { s with traverse := { Traverse.zero with endBkSeqPos := toU16 s.endBkSeqPos } }
    if node.validLen = 1 ∨ node.blindiTree 0 = c.endTree then (0, s.traverse)
    else
      match descend c node key c.treeLevels s with
      | (some position, s) => (position, s.traverse)
      | (none, s) => seqFirstStage c node key s
  else seqFirstStage c node key s

def bringLargestInSubtree (node : SeqTreeBlindiNode) : Nat → Nat → Nat → Nat
  | 0, _, _ => node.validLen - 1
  | steps + 1, top, bottom =>
    if (bottom + 1) % 2 = 0 then node.blindiTree top
    else bringLargestInSubtree node steps ((top + 1) / 2 - 1) top

def bringSmallestInSubtree (node : SeqTreeBlindiNode) : Nat → Nat → Nat → Nat × Bool
  | 0, _, _ => (0, true)
  | steps + 1, top, bottom =>
    if (bottom + 1) % 2 = 1 then (node.blindiTree top, false)
    else bringSmallestInSubtree node steps ((top + 1) / 2 - 1) top

def scanLarge (node : SeqTreeBlindiNode) (diffPos : Nat) : Nat → Nat → Option Nat
  | 0, _ => none
  | rest + 1, i =>
    if node.blindiKeys i < diffPos then some i else scanLarge node diffPos rest (i + 1)

def scanSmall (node : SeqTreeBlindiNode) (diffPos : Nat) : Nat → Nat → Option Nat
  | 0, _ => none
  | rest + 1, i =>
    if node.blindiKeys i < diffPos then some i else scanSmall node diffPos rest (i - 1)

-- The position and smaller_than_node.
def searchSecondStageSeq (node : SeqTreeBlindiNode) (firstStagePos diffPos : Nat)
    (largeSmall : Bool) (traverse : Traverse) : Nat × Bool :=
  if largeSmall then
    match scanLarge node diffPos (traverse.endBkSeqPos + 1 - firstStagePos) firstStagePos with
    | some i => (i, false)
    | none => (traverse.endBkSeqPos + 1, false)
  else if firstStagePos = 0 then (0, true)
  else
    match scanSmall node diffPos (firstStagePos - traverse.startBkSeqPos) (firstStagePos - 1) with
    | some i => (i, false)
    | none => (traverse.startBkSeqPos, true)

-- The assertions of this function are compiled out; the last case is the one they guard.
def searchSecondStageTree (node : SeqTreeBlindiNode) (diffPos : Nat) (largeSmall : Bool) :
    Nat → Traverse → (Nat × Bool) × Traverse
  | 0, traverse => ((0, false), traverse)
  | steps + 1, traverse =>
    if node.blindiKeys (node.blindiTree traverse.previous) ≤ diffPos then
      if (traverse.last + 1) % 2 = 1 then
        if largeSmall then
          ((bringLargestInSubtree node (traverse.len - 1) traverse.previous traverse.last, false),
            traverse)
        else ((node.blindiTree traverse.previous, false), traverse)
      else if largeSmall then ((node.blindiTree traverse.previous, false), traverse)
      else (bringSmallestInSubtree node (traverse.len - 1) traverse.previous traverse.last,
        traverse)
    else
      searchSecondStageTree node diffPos largeSmall steps { traverse with
        last := traverse.previous
        previous := (traverse.previous + 1) / 2 - 1
        len := traverse.len - 1 }

structure SearchResult where
  position : Nat
  hit : Bool
  smallerThanNode : Bool
  diffPos : Nat
  largeSmall : Bool
  traverse : Traverse
  deriving DecidableEq, Repr

variable {c} (mem : Addr → Bytes c.keyLen)

def searchBlindiNode (node : SeqTreeBlindiNode) (searchKey : Bytes c.keyLen)
    (searchType : SearchType) (traverse : Traverse) : SearchResult :=
  let (firstStagePos, traverse) := searchFirstStage c node searchKey traverse
  let compare := compareStage searchKey (mem (node.keyPtr firstStagePos))
  let diffPos := compare.position
  let largeSmall := compare.bigSmall
  let result (position : Nat) (smallerThanNode : Bool) (traverse : Traverse) : SearchResult :=
    { position, hit := compare.eq, smallerThanNode, diffPos, largeSmall, traverse }
  if searchType = .point ∨ compare.eq = true then result firstStagePos false traverse
  else if 0 < c.treeLevels ∧ (node.blindiTree traverse.last = c.endTree ∨
      diffPos < node.blindiKeys (node.blindiTree traverse.last)) then
    let traverse := { traverse with inTree := true }
    if node.blindiTree 0 = c.endTree ∨ diffPos < node.blindiKeys (node.blindiTree 0) then
      let traverse := { traverse with len := 1, last := 0 }
      if largeSmall then result (node.validLen - 1) false traverse else result 0 true traverse
    else
      let ((position, smallerThanNode), traverse) :=
        searchSecondStageTree node diffPos largeSmall traverse.len traverse
      result position smallerThanNode traverse
  else
    let (position, smallerThanNode) :=
      searchSecondStageSeq node firstStagePos diffPos largeSmall traverse
    result position smallerThanNode traverse

end SeqTree

end ElasticIndex
