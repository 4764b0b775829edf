import ElasticIndex.SubTrie.Merge

set_option autoImplicit false

namespace ElasticIndex.SubTrie

open SequenceEdit BitOrder BlindSequence BlindTrie BlindTrie.Trie Loop

/-- An index into an array of one of the nodes, into tree_traverse or large_tree_traverse of a
split, or into new_subtrie_array and new_blindikeys_array of a merge. -/
inductive Access where
  | blindiKeys (i : Int)
  | subtrieArray (i : Int)
  | keyPtr (i : Int)
  | treeTraverse (i : Nat)
  | largeTreeTraverse (i : Nat)
  | newArray (i : Nat)
  deriving DecidableEq, Repr

variable (c : Params)

-- newLength is the length of the two arrays of a merge.
def Access.Inside (newLength : Int) : Access → Prop
  | blindiKeys i => 0 ≤ i ∧ i < (c.numSlots : Int) - 1
  | subtrieArray i => 0 ≤ i ∧ i < (c.numSlots : Int) - 1
  | keyPtr i => 0 ≤ i ∧ i < c.numSlots
  | treeTraverse i => i < c.numSlots
  | largeTreeTraverse i => i < c.numSlots
  | newArray i => (i : Int) < newLength

def AllInside (newLength : Int) (accesses : List Access) : Prop :=
  ∀ access ∈ accesses, access.Inside c newLength

-- The indices of both arrays of entries.
def entryAccesses (i : Int) : List Access := [.subtrieArray i, .blindiKeys i]

def copyAccesses (dst : Int) (src count : Nat) : List Access :=
  (List.range count).flatMap fun k : Nat => entryAccesses (src + k : Nat) ++ entryAccesses (dst + k)

variable {c}

-- The test and the body of one round of each descent; the test ends at n = 0.
def firstStageAccesses (s : Walk) : List Access := if 0 < s.n
    then entryAccesses s.blindiKeyPos else []

def secondStageAccesses (node : SubTrieBlindiNode) (diffPos : Nat) (s : Walk) : List Access :=
  if 0 < s.n then
    .blindiKeys s.blindiKeyPos :: if node.blindiKeys s.blindiKeyPos < diffPos
      then [.subtrieArray s.blindiKeyPos] else []
  else []

def searchSecondStageAccesses (rounds : Nat) (mem : Addr → Bytes c.keyLen)
    (node : SubTrieBlindiNode) (searchKey : Bytes c.keyLen) (searchType : SearchType)
    (firstStagePos : Nat) : List Access :=
  let compare := compareStage searchKey (mem (node.keyPtr firstStagePos))
  .keyPtr firstStagePos ::
    if searchType = .point ∨ compare.eq = true then []
    else
      log (secondStageStep node compare.position)
        (fun s => secondStageAccesses node compare.position s.1) (fun _ => []) rounds
        ({ keyPtrPos := 0, blindiKeyPos := 0, n := node.validLen - 1 }, firstStagePos)

def searchBlindiNodeAccesses (rounds : Nat) (mem : Addr → Bytes c.keyLen) (node : SubTrieBlindiNode)
    (searchKey : Bytes c.keyLen) (searchType : SearchType) : List Access :=
  let afterFirst := searchSecondStageAccesses rounds mem node searchKey searchType
  if 1 < node.validLen then
    log (firstStageStep node searchKey) firstStageAccesses afterFirst rounds
      { keyPtrPos := 0, blindiKeyPos := 0, n := node.validLen - 1 }
  else afterFirst 0

def firstInsertAccesses : List Access := entryAccesses 0 ++ [.keyPtr 0]

def insertStepAccesses (blindiKeys : Nat → Nat) (diffPos : Nat) (s : InsertWalk) : List Access :=
  if 0 < s.n then
    .blindiKeys s.blindiKeyPos :: if blindiKeys s.blindiKeyPos < diffPos
      then [.subtrieArray s.blindiKeyPos] else []
  else []

-- The three shifts and the stores of the new entry.
def putEntryAccesses (node : SubTrieBlindiNode) (searchPos : Nat) (smallerThanNode : Bool)
    (s : InsertWalk) : List Access :=
  let place := searchPos + 1 - smallerThanNode.toNat
  ((List.range (node.validLen - place)).flatMap fun k : Nat =>
    [.keyPtr (place + k + 1 : Nat), .keyPtr (place + k : Nat)]) ++
    [.keyPtr place] ++
    ((List.range (node.validLen - 1 - s.blindiKeyPos)).flatMap fun k : Nat =>
      entryAccesses (s.blindiKeyPos + k + 1 : Nat) ++ entryAccesses (s.blindiKeyPos + k : Nat)) ++
    entryAccesses s.blindiKeyPos

def insert2BlindiNodeInPositionAccesses (c : Params) (rounds : Nat) (node : SubTrieBlindiNode)
    (searchPos diffPos : Nat) (largeSmall smallerThanNode : Bool) : List Access :=
  log (insertStep c node.blindiKeys diffPos largeSmall smallerThanNode)
    (insertStepAccesses node.blindiKeys diffPos)
    (putEntryAccesses node searchPos smallerThanNode) rounds
    { keyPtrPos := 0, blindiKeyPos := 0, n := node.validLen - 1, k := searchPos,
      subtrieArray := node.subtrieArray }

def insert2BlindiNodeWithKeyAccesses (rounds : Nat) (mem : Addr → Bytes c.keyLen)
    (node : SubTrieBlindiNode) (insertKey : Addr) : List Access :=
  if node.validLen = c.numSlots then []
  else if node.validLen ≠ 0 then
    searchBlindiNodeAccesses rounds mem node (mem insertKey) .predecessor ++
      match searchBlindiNode rounds mem node (mem insertKey) .predecessor with
      | none => []
      | some r =>
        if r.hit then []
        else insert2BlindiNodeInPositionAccesses c rounds node r.position r.diffPos
          r.largeSmall r.smallerThanNode
  else firstInsertAccesses

def splitStepAccesses (node : SubTrieBlindiNode) (mid : Nat) (s : SplitWalk) : List Access :=
  let subtrie := node.subtrieArray s.curI
  let next := s.curI + subtrie
  let large := copyAccesses ((next : Int) - mid) next (s.largeI + 1 - next)
  .subtrieArray s.curI ::
    if s.keyPtrPos + subtrie ≤ mid - 1 then copyAccesses s.smallI s.curI subtrie ++
    [.treeTraverse s.treeTraverse.length]
    else if mid < s.keyPtrPos + subtrie then
      large ++ [.largeTreeTraverse s.largeTreeTraverse.length, .treeTraverse s.treeTraverse.length]
    else copyAccesses s.smallI (s.curI + 1) (subtrie - 1) ++ large

-- Without a break the unsigned counter goes from 0 to 65535.
def collectAccesses : List Nat → List Nat → List Access
  | [], _ => [.treeTraverse 65535]
  | pos :: traverse, kept =>
    [.treeTraverse traverse.length, .largeTreeTraverse (kept.length - 1)] ++
      if kept.head? = some pos then
        entryAccesses pos ++ entryAccesses (kept.length - 1 : Nat) ++
          if kept.length = 1 then [] else collectAccesses traverse kept.tail
      else .subtrieArray pos :: collectAccesses traverse kept

def splitBlindiNodeAccesses (rounds : Nat)
    (node nodeSmall nodeLarge : SubTrieBlindiNode) : List Access :=
  let mid := node.validLen / 2
  ((List.range mid).flatMap fun i : Nat => [.keyPtr i, .keyPtr (i + mid : Nat)]) ++
    log (splitStep node mid) (splitStepAccesses node mid)
      (fun (s, _) => if s.largeTreeTraverse.length = 0 then []
        else collectAccesses s.treeTraverse s.largeTreeTraverse) rounds
      { curI := 0, smallI := 0, largeI := node.validLen - 2, keyPtrPos := 0
        small := { blindiKeys := nodeSmall.blindiKeys, subtrieArray := nodeSmall.subtrieArray }
        large := { blindiKeys := nodeLarge.blindiKeys, subtrieArray := nodeLarge.subtrieArray }
        treeTraverse := [], largeTreeTraverse := [] }

def removeStepAccesses (s : RemoveWalk) : List Access := if 0 < s.n
    then [.subtrieArray s.blindiKeyPos] else []

-- The two shifts; the second runs up to valid_len - 1 as the first does.
def takeEntryAccesses (node : SubTrieBlindiNode) (removePosition : Nat)
    (s : RemoveWalk) : List Access :=
  ((List.range (node.validLen - 1 - removePosition)).flatMap fun k : Nat =>
      [.keyPtr (removePosition + k : Nat), .keyPtr (removePosition + k + 1 : Nat)]) ++
    (List.range (node.validLen - 1 - s.blindiKeyPos)).flatMap fun k : Nat =>
      entryAccesses (s.blindiKeyPos + k : Nat) ++ entryAccesses (s.blindiKeyPos + k + 1 : Nat)

def removeFromBlindiNodeInPositionAccesses (rounds : Nat) (node : SubTrieBlindiNode)
    (removePosition : Nat) : List Access :=
  log (removeStep removePosition) removeStepAccesses (takeEntryAccesses node removePosition) rounds
    { keyPtrPos := 0, blindiKeyPos := 0, n := node.validLen - 1, k := removePosition,
      subtrieArray := node.subtrieArray }

def removeFromBlindiNodeWithKeyAccesses (rounds : Nat) (mem : Addr → Bytes c.keyLen)
    (node : SubTrieBlindiNode) (removeKey : Bytes c.keyLen) : List Access :=
  searchBlindiNodeAccesses rounds mem node removeKey .point ++
    match searchBlindiNode rounds mem node removeKey .point with
    | none => []
    | some r =>
      if r.hit = false then []
      else if node.validLen = 1 then []
      else removeFromBlindiNodeInPositionAccesses rounds node r.position

-- i_new_forward is a uint16_t.
def mergeCopyAccesses (iNewForward src count : Nat) : List Access :=
  (List.range count).flatMap fun k : Nat => .newArray ((iNewForward + k) % 65536) ::
    entryAccesses (src + k : Nat)

-- The tests read blindiKeys of each side that has not come to its end.
def mergeStepAccesses (node nodeLarge : SubTrieBlindiNode) (diffPos : Nat)
    (s : MergeWalk) : List Access :=
  if s.isSmallEnd ∧ s.isLargeEnd then []
  else
    (if s.isSmallEnd then [] else [.blindiKeys s.iSmall]) ++
      (if s.isLargeEnd then [] else [.blindiKeys s.iLarge]) ++
      if (s.isSmallEnd ∨ diffPos < node.blindiKeys s.iSmall) ∧
      (s.isLargeEnd ∨ diffPos < nodeLarge.blindiKeys s.iLarge) then []
      else if s.isLargeEnd ∨ ¬ s.isSmallEnd ∧ node.blindiKeys s.iSmall <
        nodeLarge.blindiKeys s.iLarge then
        .subtrieArray s.iSmall :: mergeCopyAccesses s.iNewForward s.iSmall
          (node.subtrieArray s.iSmall)
      else
        let next := nodeLarge.subtrieArray s.iLarge + s.iLarge
        .newArray (s.iNewForward % 65536) :: entryAccesses s.iLarge ++
          (List.range (s.iNewBackwords - next)).flatMap fun k : Nat =>
            .newArray (next + node.validLen + k) :: entryAccesses (next + k : Nat)

def MergeWalk.finishAccesses (node : SubTrieBlindiNode) (newValidLen : Nat)
    (s : MergeWalk) : List Access :=
  let rest := node.validLen - 1 - s.iSmall
  [.newArray (s.iNewForward % 65536)] ++ mergeCopyAccesses (s.iNewForward + 1) s.iSmall rest ++
    mergeCopyAccesses (s.iNewForward + 1 + rest) s.iLarge (s.iNewBackwords - s.iLarge) ++
    (List.range (newValidLen - 1)).flatMap fun i : Nat => .newArray i :: entryAccesses i

def SubTrieBlindiNode.mergeBlindiNodesAccesses (rounds : Nat) (mem : Addr → Bytes c.keyLen)
    (new : EntryArrays) (this nodeLarge : SubTrieBlindiNode) : List Access :=
  let diffPos := (compareStage (mem (this.keyPtr (this.validLen - 1)))
    (mem (nodeLarge.keyPtr 0))).position
  let node := { this with
    keyPtr := blit this.validLen 0 nodeLarge.validLen nodeLarge.keyPtr this.keyPtr
    blindiKeys := Function.update
      (blit this.validLen 0 (nodeLarge.validLen - 1) nodeLarge.blindiKeys this.blindiKeys)
      this.validLen (diffPos % c.bitidxSize) }
  let newValidLen := (this.validLen + nodeLarge.validLen) % 65536
  ((List.range nodeLarge.validLen).flatMap fun i : Nat =>
    [.keyPtr (this.validLen + i : Nat), .keyPtr i]) ++
    ((List.range (nodeLarge.validLen - 1)).flatMap fun i : Nat =>
    [.blindiKeys (this.validLen + i : Nat), .blindiKeys i]) ++
    [.keyPtr (this.validLen - 1 : Nat), .keyPtr 0, .blindiKeys this.validLen] ++
    log (mergeStep c node nodeLarge diffPos) (mergeStepAccesses node nodeLarge diffPos)
      (MergeWalk.finishAccesses node newValidLen) rounds
      { iSmall := 0, iLarge := 0, iNewForward := 0, iNewBackwords := nodeLarge.validLen - 1
        isSmallEnd := this.validLen < 2, isLargeEnd := nodeLarge.validLen < 2, new }

-- large_node_len is an int.
def copyNodeAccesses (nodeLarge : SubTrieBlindiNode) : List Access :=
  ((List.range (nodeLarge.validLen - 1)).flatMap fun i : Nat => .keyPtr i :: entryAccesses i) ++
    [.keyPtr ((nodeLarge.validLen : Int) - 1)]

def mergeBlindiNodesAccesses (rounds : Nat) (mem : Addr → Bytes c.keyLen) (new : EntryArrays)
    (node largeNode : SubTrieBlindiNode) : List Access :=
  if node.validLen = 0 then copyNodeAccesses largeNode
  else if largeNode.validLen = 0 then []
  else node.mergeBlindiNodesAccesses rounds mem new largeNode

/-- A call of one of the four operations. -/
inductive Call (c : Params) where
  | insert2BlindiNodeWithKey (node : SubTrieBlindiNode) (insertKey : Addr)
  | splitBlindiNode (node nodeSmall nodeLarge : SubTrieBlindiNode)
  | removeFromBlindiNodeWithKey (node : SubTrieBlindiNode) (removeKey : Bytes c.keyLen)
  | mergeBlindiNodes (new : EntryArrays) (node largeNode : SubTrieBlindiNode)

namespace Call

def accesses (rounds : Nat) (mem : Addr → Bytes c.keyLen) : Call c → List Access
  | insert2BlindiNodeWithKey node insertKey =>
    insert2BlindiNodeWithKeyAccesses rounds mem node insertKey
  | splitBlindiNode node nodeSmall nodeLarge =>
    splitBlindiNodeAccesses rounds node nodeSmall nodeLarge
  | removeFromBlindiNodeWithKey node removeKey =>
    removeFromBlindiNodeWithKeyAccesses rounds mem node removeKey
  | mergeBlindiNodes new node largeNode => mergeBlindiNodesAccesses rounds mem new node largeNode

def newLength : Call c → Int
  | mergeBlindiNodes _ node largeNode => ((node.validLen + largeNode.validLen) % 65536 : Nat) - 1
  | _ => 0

-- What the callers keep to; nodes that are merged may be empty.
def Allowed (mem : Addr → Bytes c.keyLen) : Call c → Prop
  | insert2BlindiNodeWithKey node _ =>
    (node.validLen = 0 ∨ Encodes mem node) ∧ node.validLen < c.numSlots
  | splitBlindiNode node _ _ => Encodes mem node ∧ node.validLen = c.numSlots
  | removeFromBlindiNodeWithKey node _ => Encodes mem node
  | mergeBlindiNodes _ node largeNode => (node.validLen = 0 ∨ Encodes mem node) ∧
      (largeNode.validLen = 0 ∨ Encodes mem largeNode) ∧
      node.validLen + largeNode.validLen ≤ c.numSlots

-- However many rounds its loops have made.
def StaysInside (mem : Addr → Bytes c.keyLen) (call : Call c) : Prop :=
  ∀ rounds, AllInside c call.newLength (call.accesses rounds mem)

def Fits (mem : Addr → Bytes c.keyLen) : Call c → Prop
  | insert2BlindiNodeWithKey _ _ => True
  | splitBlindiNode _ _ _ => True
  | removeFromBlindiNodeWithKey node removeKey =>
      node.validLen < c.numSlots ∨ ∀ i, i < node.validLen → node.keys mem i ≠ removeKey
  | mergeBlindiNodes _ node largeNode =>
      if node.validLen = 0 then largeNode.validLen ≠ 0
      else largeNode.validLen = 0 ∨ node.validLen + 1 < c.numSlots ∧
        node.validLen + largeNode.validLen < 65536

end Call

end ElasticIndex.SubTrie
