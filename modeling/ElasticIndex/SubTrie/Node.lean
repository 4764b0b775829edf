import ElasticIndex.Shared.Loop
import ElasticIndex.SeqTree.Node

set_option autoImplicit false

namespace ElasticIndex.SubTrie

/-- The template arguments of one node type; key_len is a uint16_t. -/
structure Params where
  numSlots : Nat
  keyLen : Nat
  even : numSlots % 2 = 0
  length : keyLen < 65536

namespace Params

def idxSize (c : Params) : Nat := if c.numSlots < 256 then 256 else 65536
def bitidxSize (c : Params) : Nat := if c.keyLen < 32 then 256 else 65536

theorem idxSize_le (c : Params) : c.idxSize ≤ 65536 := by
  unfold idxSize
  split_ifs <;> omega

end Params

structure SubTrieBlindiNode where
  blindiKeys : Nat → Nat
  subtrieArray : Nat → Nat
  keyPtr : Nat → Addr
  validLen : Nat

/-- The locals of the two descents. Counts of a trie with valid_len leaves stay below valid_len. -/
structure Walk where
  keyPtrPos : Nat
  blindiKeyPos : Nat
  n : Nat

variable {c : Params}

def firstStageStep (node : SubTrieBlindiNode) (key : Bytes c.keyLen) (s : Walk) : Walk ⊕ Nat :=
  let subtrie := node.subtrieArray s.blindiKeyPos
  if 0 < s.n then
    if isNthBitSetInString key (node.blindiKeys s.blindiKeyPos) then
      .inl { keyPtrPos := s.keyPtrPos + subtrie, blindiKeyPos := s.blindiKeyPos + subtrie,
             n := s.n - subtrie }
    else .inl { s with blindiKeyPos := s.blindiKeyPos + 1, n := subtrie - 1 }
  else .inr s.keyPtrPos

def searchFirstStage (rounds : Nat) (node : SubTrieBlindiNode)
    (key : Bytes c.keyLen) : Option Nat :=
  Loop.run (firstStageStep node key) rounds
    { keyPtrPos := 0, blindiKeyPos := 0, n := node.validLen - 1 }

-- The second descent follows position k.
def secondStageStep (node : SubTrieBlindiNode) (diffPos : Nat) : Walk × Nat → (Walk × Nat) ⊕ Walk
  | (s, k) =>
    let subtrie := node.subtrieArray s.blindiKeyPos
    if 0 < s.n ∧ node.blindiKeys s.blindiKeyPos < diffPos then
      if subtrie ≤ k then
        .inl ({ keyPtrPos := s.keyPtrPos + subtrie, blindiKeyPos := s.blindiKeyPos + subtrie,
                n := s.n - subtrie },
          k - subtrie)
      else .inl ({ s with blindiKeyPos := s.blindiKeyPos + 1, n := subtrie - 1 }, k)
    else .inr s

-- The position and smaller_than_node.
def searchSecondStage (rounds : Nat) (node : SubTrieBlindiNode) (diffPos : Nat) (largeSmall : Bool)
    (firstStagePos : Nat) : Option (Nat × Bool) :=
  (Loop.run (secondStageStep node diffPos) rounds
    ({ keyPtrPos := 0, blindiKeyPos := 0, n := node.validLen - 1 }, firstStagePos)).map fun s =>
      if largeSmall then (s.keyPtrPos + s.n, false)
      else if s.keyPtrPos = 0 then (s.keyPtrPos, true)
      else (s.keyPtrPos - 1, false)

/-- diff_pos and large_small keep their initial values when the second stage is not reached. -/
structure SearchResult where
  position : Nat
  hit : Bool
  smallerThanNode : Bool
  diffPos : Nat
  largeSmall : Bool
  deriving DecidableEq, Repr

def searchBlindiNode (rounds : Nat) (mem : Addr → Bytes c.keyLen) (node : SubTrieBlindiNode)
    (searchKey : Bytes c.keyLen) (searchType : SearchType) : Option SearchResult :=
  (if 1 < node.validLen then searchFirstStage rounds node searchKey else some 0).bind
      fun firstStagePos =>
    let compare := compareStage searchKey (mem (node.keyPtr firstStagePos))
    if searchType = .point ∨ compare.eq = true then
      some { position := firstStagePos, hit := compare.eq, smallerThanNode := false, diffPos := 0,
             largeSmall := false }
    else
      (searchSecondStage rounds node compare.position compare.bigSmall firstStagePos).map
        fun (position, smallerThanNode) =>
          { position, hit := compare.eq, smallerThanNode, diffPos := compare.position,
                      largeSmall := compare.bigSmall }

end ElasticIndex.SubTrie
