import ElasticIndex.SeqTree.Split
import ElasticIndex.SeqTree.Convert
import ElasticIndex.SeqTree.Widen

set_option autoImplicit false

namespace ElasticIndex.SeqTree

variable (c : Params)

-- What each operation that allocates key_ptr adds to breathing_sum.
def transferBtree2blindiBreathing (validLen : Nat) : Int :=
  if c.numSlots < validLen + breathingBlindiSize then (c.numSlots % 65536 : Nat)
    else validLen + breathingBlindiSize

def breatheBreathing (node : SeqTreeBlindiNode) : Int :=
  if isNeedBreath node then
    if c.numSlots % 65536 < node.currentMaxSlot + breathingBlindiSize then
      (c.numSlots % 65536 : Nat) - (node.currentMaxSlot : Int)
    else breathingBlindiSize
  else 0

def insert2BlindiNodeWithKeyBreathing (node : SeqTreeBlindiNode) : Int :=
  if node.validLen = c.numSlots % 65536 then 0
  else if node.validLen ≠ 0 then breatheBreathing c node
  else (c.numSlots % 65536 : Nat)

def splitBlindiNodeBreathing : Int :=
  let slots := c.numSlots % 65536
  if slots < slots / 2 + breathingBlindiSize then slots else 2 * breathingBlindiSize

def transferNodeBreathing : Int :=
  if c.numSlots < c.numSlots / 2 + breathingBlindiSize then (c.numSlots % 65536 / 2 : Nat)
    else breathingBlindiSize

/-- key_ptr has room for the keys of the node, and for no more than NUM_SLOTS. -/
structure Breathes (c : Params) (node : SeqTreeBlindiNode) : Prop where
  room : node.validLen ≤ node.currentMaxSlot
  most : node.currentMaxSlot ≤ c.numSlots

variable {c} {keys : Nat → Bytes c.keyLen} {keysPtr : Nat → Addr}
  {node small large : SeqTreeBlindiNode} {i n : Nat}

theorem Breathes.full (breathes : Breathes c node) (full : node.validLen = c.numSlots) :
    node.currentMaxSlot = c.numSlots :=
  le_antisymm breathes.most (full ▸ breathes.room)

theorem Breathes.whole (breathes : Breathes c node) (full : c.numSlots ≤ node.validLen) :
    node.validLen = c.numSlots :=
  le_antisymm (breathes.room.trans breathes.most) full

theorem length_mod (slots : c.numSlots < 65536) (fits : n ≤ c.numSlots) : n % c.idxSize = n := by
  refine Nat.mod_eq_of_lt ?_
  unfold Params.idxSize
  split_ifs <;> omega

theorem transferKeys_currentMaxSlot (rest : Nat) :
    (transferKeys c keys keysPtr rest i node).currentMaxSlot = node.currentMaxSlot := by
  induction rest generalizing i node with
  | zero => rfl
  | succ rest ih =>
    rw [transferKeys, ih]
    rfl

theorem transferBtree2blindi_breathes (slots : c.numSlots < 65536) (fits : n ≤ c.numSlots)
    (keys : Nat → Bytes c.keyLen) (keysPtr : Nat → Addr) (target : SeqTreeBlindiNode) :
    let new := transferBtree2blindi c n keys keysPtr target
    new.validLen = n ∧ Breathes c new ∧ (new.currentMaxSlot : Int) =
        transferBtree2blindiBreathing c n := by
  intro new
  have length : new.validLen = n :=
    (transferBtree2blindi_validLen target).trans (length_mod slots fits)
  have size : new.currentMaxSlot = if c.numSlots < n + breathingBlindiSize then c.numSlots % 65536
      else n + breathingBlindiSize :=
    transferKeys_currentMaxSlot _
  refine ⟨length, ⟨?_, ?_⟩, ?_⟩
  · rw [length, size]
    split_ifs <;> omega
  · rw [size]
    split_ifs <;> omega
  · rw [size, transferBtree2blindiBreathing]
    split_ifs
    · rfl
    · push_cast
      rfl

theorem insert2BlindiNodeInPosition_currentMaxSlot (insertKey : Addr) (insertPosition diffPos : Nat)
    (large smaller : Bool) (traverse : Traverse) :
    (insert2BlindiNodeInPosition c node insertKey insertPosition diffPos large smaller
      traverse).currentMaxSlot =
      (breathe c node).currentMaxSlot := by
  have sequence : (insertSequence c (breathe c node) insertKey insertPosition diffPos large
    smaller).1.currentMaxSlot =
      (breathe c node).currentMaxSlot := by
    unfold insertSequence shiftSequence
    dsimp only
    split_ifs <;> rfl
  unfold insert2BlindiNodeInPosition
  dsimp only
  split_ifs <;> exact sequence

theorem breathe_breathes (slots : c.numSlots < 65536) (breathes : Breathes c node)
    (room : node.validLen < c.numSlots) :
    node.validLen + 1 ≤ (breathe c node).currentMaxSlot ∧
    (breathe c node).currentMaxSlot ≤ c.numSlots ∧
      ((breathe c node).currentMaxSlot : Int) = node.currentMaxSlot + breatheBreathing c node := by
  obtain ⟨enough, most⟩ := breathes
  have whole : c.numSlots % 65536 = c.numSlots := Nat.mod_eq_of_lt slots
  have size : breathingBlindiSize = 4 := rfl
  unfold breathe breatheBreathing isNeedBreath
  rw [whole]
  simp only [beq_iff_eq]
  split_ifs
  · dsimp only
    omega
  · dsimp only
    omega
  · omega

-- A repeated key takes room as well.
theorem insert2BlindiNodeWithKey_breathes (mem : Addr → Bytes c.keyLen) (slots : c.numSlots < 65536)
    (breathes : Breathes c node) (some_ : 1 ≤ node.validLen) (key : Addr) :
    let new := (insert2BlindiNodeWithKey mem node key).2
    new.validLen = min (node.validLen + 1) c.numSlots ∧ Breathes c new ∧
      (new.currentMaxSlot : Int) =
      node.currentMaxSlot + insert2BlindiNodeWithKeyBreathing c node := by
  intro new
  have whole : c.numSlots % 65536 = c.numSlots := Nat.mod_eq_of_lt slots
  have most := breathes.room.trans breathes.most
  by_cases full : node.validLen = c.numSlots
  · have same : new = node := by
      unfold new insert2BlindiNodeWithKey
      rw [whole, if_pos full]
    rw [same, insert2BlindiNodeWithKeyBreathing, whole, if_pos full]
    exact ⟨by omega, breathes, by omega⟩
  have room : node.validLen < c.numSlots := by omega
  obtain ⟨enough, most, grows⟩ := breathe_breathes slots breathes room
  obtain ⟨position, diffPos, large, smaller, traverse, inserted⟩ :
    ∃ position diffPos large smaller traverse,
      new = insert2BlindiNodeInPosition c node key position diffPos large smaller traverse := by
    unfold new insert2BlindiNodeWithKey
    rw [if_neg (by omega), if_pos (by omega)]
    dsimp only
    split_ifs <;> exact ⟨_, _, _, _, _, rfl⟩
  have length : new.validLen = node.validLen + 1 := by
    rw [inserted, insert2BlindiNodeInPosition_validLen]
    exact length_mod slots room
  have size : new.currentMaxSlot = (breathe c node).currentMaxSlot := by
    rw [inserted, insert2BlindiNodeInPosition_currentMaxSlot]
  refine ⟨by omega, ⟨by omega, by omega⟩, ?_⟩
  rw [insert2BlindiNodeWithKeyBreathing, if_neg (by omega), if_pos (by omega), size, grows]

theorem splitBlindiNode_breathes (slots : c.numSlots < 65536) (breathes : Breathes c node)
    (full : node.validLen = c.numSlots) (nodeSmall nodeLarge : SeqTreeBlindiNode) :
    let r := splitBlindiNode c node nodeSmall nodeLarge
    r.1.validLen = c.numSlots / 2 ∧ r.2.validLen = c.numSlots / 2 ∧
      Breathes c r.1 ∧ Breathes c r.2 ∧
      (r.1.currentMaxSlot : Int) + r.2.currentMaxSlot =
      node.currentMaxSlot + splitBlindiNodeBreathing c := by
  intro r
  have even := c.even
  have whole : c.numSlots % 65536 = c.numSlots := Nat.mod_eq_of_lt slots
  have lengths : r.1.validLen = c.numSlots / 2 ∧ r.2.validLen = c.numSlots / 2 := by
    unfold r splitBlindiNode
    dsimp only
    rw [full]
    split_ifs <;> exact ⟨rfl, rfl⟩
  have sizes : r.1.currentMaxSlot =
    (if c.numSlots < c.numSlots / 2 + breathingBlindiSize then c.numSlots
      else c.numSlots / 2 + breathingBlindiSize) ∧ r.2.currentMaxSlot = r.1.currentMaxSlot := by
    unfold r splitBlindiNode
    dsimp only
    rw [whole]
    split_ifs <;> exact ⟨rfl, rfl⟩
  have size : breathingBlindiSize = 4 := rfl
  rw [breathes.full full, splitBlindiNodeBreathing, whole]
  split_ifs at sizes ⊢ <;> exact ⟨lengths.1, lengths.2, ⟨by omega, by omega⟩,
    ⟨by omega, by omega⟩, by omega⟩

theorem transferBlindixtoblibdi2x_breathes (slots : 2 * c.numSlots < 65536)
    (breathes : Breathes c node) (full : node.validLen = c.numSlots) (target : SeqTreeBlindiNode) :
    let new := transferBlindixtoblibdi2x c node target
    new.validLen = node.validLen ∧ Breathes c.widened new ∧
      (new.currentMaxSlot : Int) = node.currentMaxSlot + transferNodeBreathing c.widened := by
  intro new
  have wider : c.widened.numSlots = 2 * c.numSlots := rfl
  have whole : c.widened.numSlots % 65536 = c.widened.numSlots := Nat.mod_eq_of_lt slots
  have length : new.validLen = node.validLen := length_mod (c := c.widened) slots (by omega)
  have size : new.currentMaxSlot =
    if c.widened.numSlots < c.widened.numSlots / 2 + breathingBlindiSize then c.widened.numSlots
      else c.widened.numSlots / 2 + breathingBlindiSize := by
    unfold new transferBlindixtoblibdi2x transferNode
    dsimp only
    rw [whole]
  have four : breathingBlindiSize = 4 := rfl
  rw [breathes.full full, transferNodeBreathing, whole]
  split_ifs at size ⊢ <;> exact ⟨length, ⟨by omega, by omega⟩, by omega⟩

end ElasticIndex.SeqTree
