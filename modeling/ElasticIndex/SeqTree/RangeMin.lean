import ElasticIndex.SeqTree.Merge
import ElasticIndex.SeqTree.Split

set_option autoImplicit false

namespace ElasticIndex.SeqTree

open BitOrder BlindSequence CartesianTree CartesianTree.PosTree SlotTree

variable {c : Params} {mem : Addr → Bytes c.keyLen} {node : SeqTreeBlindiNode}
  {b : Nat → Nat} {s e : Int}

-- The scan keeps the first of the least values below the one it started with.
theorem minPosScan_least (rest i minPos minValue : Nat) :
    minPosScan b rest i minPos minValue = minPos ∧ (∀ t, i ≤ t → t < i + rest → minValue ≤ b t) ∨
      ∃ m, minPosScan b rest i minPos minValue = m ∧ i ≤ m ∧ m < i + rest ∧ b m < minValue ∧
        ∀ t, i ≤ t → t < i + rest → b m ≤ b t ∧ (t < m → b m < b t) := by
  induction rest generalizing i minPos minValue with
  | zero => exact .inl ⟨rfl, fun t _ _ => by omega⟩
  | succ rest ih =>
    rw [minPosScan]
    by_cases smaller : b i < minValue
    · rw [if_pos smaller]
      rcases ih (i + 1) i (b i) with ⟨same, least⟩ | ⟨m, same, left, right, less, least⟩
      · refine .inr ⟨i, same, le_rfl, by omega, smaller, fun t ht ht' => ⟨?_, fun lt => by omega⟩⟩
        rcases Nat.eq_or_lt_of_le ht with rfl | later
        · exact le_rfl
        · exact least t later (by omega)
      · refine .inr ⟨m, same, by omega, by omega, less.trans smaller, fun t ht ht' => ?_⟩
        rcases Nat.eq_or_lt_of_le ht with rfl | later
        · exact ⟨less.le, fun _ => less⟩
        · exact least t later (by omega)
    · rw [if_neg smaller]
      rcases ih (i + 1) minPos minValue with ⟨same, least⟩ | ⟨m, same, left, right, less, least⟩
      · refine .inl ⟨same, fun t ht ht' => ?_⟩
        rcases Nat.eq_or_lt_of_le ht with rfl | later
        · omega
        · exact least t later (by omega)
      · refine .inr ⟨m, same, by omega, by omega, less, fun t ht ht' => ?_⟩
        rcases Nat.eq_or_lt_of_le ht with rfl | later
        · exact ⟨by omega, fun _ => by omega⟩
        · exact least t later (by omega)

/-- The answer on the range [s, e]: END_TREE exactly when it is empty, and otherwise its first
minimum. -/
structure RangeMin (c : Params) (b : Nat → Nat) (s e : Int) : Prop where
  empty : minPosValueInRange c b s e = c.endTree ↔ e < s
  left : s ≤ e → s ≤ minPosValueInRange c b s e
  right : s ≤ e → (minPosValueInRange c b s e : Int) ≤ e
  least : ∀ i : Nat, s ≤ i → (i : Int) ≤ e → b (minPosValueInRange c b s e) ≤ b i
  first : ∀ i : Nat, s ≤ i → (i : Int) ≤ e → i < minPosValueInRange c b s e →
    b (minPosValueInRange c b s e) < b i

/-- The slots that SplitBlindiNode and RemoveFromBlindiNodeInPosition recompute from the range [s,
e]. -/
structure Recomputed (c : Params) (node : SeqTreeBlindiNode) (s e : Int) : Prop where
  split : ∀ tree pos, bringEdgesSeqFromPos c tree node.validLen pos = some (s, e) →
    updateBlindiTreeFromSeq c node.blindiKeys node.validLen pos tree pos = c.endTree → e < s
  remove : ∀ (r : Repair) l pos, bringEdgesSeqFromPos c r.tree node.validLen pos = some (s, e) →
    (r.recompute c node.blindiKeys node.validLen l pos).tree pos = c.endTree → e < s

-- A slot below a filled one is END_TREE exactly when its range is empty.
def Filled (c : Params) (node : SeqTreeBlindiNode) : Prop :=
  ∀ pos s e, pos < c.treeSize → (0 < pos → node.blindiTree ((pos + 1) / 2 - 1) ≠ c.endTree) →
    bringEdgesSeqFromPos c node.blindiTree node.validLen pos = some (s, e) →
    (node.blindiTree pos = c.endTree ↔ e < s)

theorem minPosValueInRange_empty (empty : e < s) : minPosValueInRange c b s e = c.endTree := by
  rw [minPosValueInRange, show (e + 1 - s).toNat = 0 by omega, minPosScan]

theorem rangeMin_of_visible (typed : node.validLen ≤ c.endTree) (start : 0 ≤ s)
    (stop : e + 2 ≤ node.validLen)
    (visible : s ≤ e → ∃ i : Nat, s ≤ i ∧ (i : Int) ≤ e ∧ node.blindiKeys i < c.endTree) :
    RangeMin c node.blindiKeys s e := by
  by_cases empty : e < s
  · have none := minPosValueInRange_empty (c := c) (b := node.blindiKeys) empty
    exact ⟨by simp [none, empty], fun _ => by omega, fun _ => by omega, fun i _ _ => by omega,
      fun i _ _ => by omega⟩
  · obtain ⟨i, above, below, small⟩ := visible (by omega)
    rcases minPosScan_least (b := node.blindiKeys) (e + 1 - s).toNat s.toNat
        c.endTree c.endTree with
      ⟨_, none⟩ | ⟨m, same, left, right, less, least⟩
    · exact absurd (none i (by omega) (by omega)) (by omega)
    · have found : minPosValueInRange c node.blindiKeys s e = m := same
      refine ⟨?_, fun _ => ?_, fun _ => ?_, fun t ht ht' => ?_, fun t ht ht' => ?_⟩
      · rw [found]
        constructor <;> intro _ <;> omega
      · omega
      · omega
      · rw [found]
        exact (least t (by omega) (by omega)).1
      · rw [found]
        exact (least t (by omega) (by omega)).2

theorem visible_of_rangeMin (start : 0 ≤ s) (answer : RangeMin c b s e) (some : s ≤ e) :
    ∃ i : Nat, s ≤ i ∧ (i : Int) ≤ e ∧ b i < c.endTree := by
  rcases minPosScan_least (b := b) (e + 1 - s).toNat s.toNat c.endTree c.endTree with
    ⟨same, _⟩ | ⟨m, _, left, right, less, _⟩
  · exact absurd (answer.empty.mp same) (by omega)
  · exact ⟨m, by omega, by omega, less⟩

theorem minPosOfSlot_of_edges {tree : Nat → Nat} {len pos : Nat}
    (edges : bringEdgesSeqFromPos c tree len pos = some (s, e)) :
    minPosOfSlot c b tree len pos = minPosValueInRange c b s e := by
  rw [minPosOfSlot, edges]
  rfl

theorem RangeMin.recomputed (typed : node.validLen ≤ c.endTree) (stop : e + 2 ≤ node.validLen)
    (answer : RangeMin c node.blindiKeys s e) : Recomputed c node s e := by
  have size : c.endTree = c.idxSize - 1 := rfl
  have sentinel := endTree_eq c
  have stored (full : minPosValueInRange c node.blindiKeys s e % c.idxSize = c.endTree) : e <
      s := by
    by_contra some
    have := answer.right (by omega)
    rw [Nat.mod_eq_of_lt (by omega)] at full
    exact some (answer.empty.mp full)
  refine ⟨fun tree pos edges none => stored ?_, fun r l pos edges none => stored ?_⟩
  · rwa [updateBlindiTreeFromSeq, Function.update_self, minPosOfSlot_of_edges edges] at none
  · have slot : (r.recompute c node.blindiKeys node.validLen l pos).tree pos =
        minPosOfSlot c node.blindiKeys r.tree node.validLen pos % c.idxSize := by
      unfold Repair.recompute Repair.set
      dsimp only
      split_ifs <;> exact Function.update_self _ _ _
    rwa [slot, minPosOfSlot_of_edges edges] at none

theorem EntryOf.none_iff {lo hi v : Nat} (entry : EntryOf c.endTree b lo hi v)
    (fits : hi ≤ c.endTree) :
    v = c.endTree ↔ hi ≤ lo := by
  rcases entry with ⟨empty, rfl⟩ | min
  · simp [empty]
  · have := min.left
    have := min.right
    constructor <;> intro _ <;> omega

theorem WellFormed.filled (levels : c.treeLevels = 1 ∨ c.treeLevels = 2)
    (wf : WellFormed mem node) : Filled c node := by
  intro pos s e short parent edges
  have idx := wf.idx
  have nonempty := wf.nonempty
  have size : c.treeSize ≤ 3 := by
    rcases levels with one | two
    · rw [Params.treeSize, one]
      decide
    · rw [Params.treeSize, two]
      decide
  have root (more : 1 < c.treeLevels) (present : node.blindiTree 0 ≠ c.endTree) : 2 ≤
      node.validLen := by
    by_contra single
    exact present (wf.root_of_single (by omega) (by omega))
  obtain rfl | rfl | rfl : pos = 0 ∨ pos = 1 ∨ pos = 2 := by omega
  · obtain ⟨rfl, rfl⟩ : 0 = s ∧ (node.validLen : Int) - 2 = e := by
      simpa [bringEdgesSeqFromPos] using edges
    by_cases single : node.validLen = 1
    · simp [wf.root_of_single (by omega) single, single]
    · have min := (wf.root_of_several (by omega) (by omega)).right
      constructor <;> intro _ <;> omega
  · have more : 1 < c.treeLevels := by
      by_contra one
      simp [bringEdgesSeqFromPos, one] at edges
    obtain ⟨rfl, rfl⟩ : 0 = s ∧ (node.blindiTree 0 : Int) - 1 = e := by
      simpa [bringEdgesSeqFromPos, more] using edges
    have several := root more (parent (by omega))
    have min := (wf.root_of_several (by omega) several).right
    rw [(wf.children more several).1.none_iff (by omega)]
    omega
  · have more : 1 < c.treeLevels := by
      by_contra one
      simp [bringEdgesSeqFromPos, one] at edges
    obtain ⟨rfl, rfl⟩ : (node.blindiTree 0 : Int) + 1 = s ∧ (node.validLen : Int) - 2 = e := by
      simpa [bringEdgesSeqFromPos, more] using edges
    have several := root more (parent (by omega))
    rw [(wf.children more several).2.none_iff (by omega)]
    omega

/-- The trees that a split and a removal leave when no bit index reaches END_TREE. -/
structure FilledAfter (c : Params) (node : SeqTreeBlindiNode) : Prop where
  split : node.validLen = c.numSlots →
    ∀ nodeSmall nodeLarge, Filled c (splitBlindiNode c node nodeSmall nodeLarge).1 ∧
    Filled c (splitBlindiNode c node nodeSmall nodeLarge).2
  remove : ∀ p, 2 ≤ node.validLen → p < node.validLen → ¬ (node.validLen = 2 ∧ p = 0) →
    Filled c (removeFromBlindiNodeInPosition c node p).2

theorem WellFormed.filledAfter (levels : c.treeLevels = 1 ∨ c.treeLevels = 2)
    (wf : WellFormed mem node) (narrow : node.Narrow c) : FilledAfter c node := by
  refine ⟨fun full nodeSmall nodeLarge => ?_, fun p several bound second => ?_⟩
  · have halves := splitBlindiNode_parts levels wf narrow full nodeSmall nodeLarge
    exact ⟨halves.small.filled levels, halves.large.filled levels⟩
  · exact (removeFromBlindiNodeInPosition_spec levels wf narrow several bound second).2.1.filled
      levels

-- A range gets the right answer exactly when it is empty or holds a bit index below END_TREE.
theorem minPosValueInRange_minimum (c : Params) (node : SeqTreeBlindiNode)
    (typed : node.validLen ≤ c.endTree) :
    (∀ s e : Int, 0 ≤ s → e + 2 ≤ node.validLen →
      (RangeMin c node.blindiKeys s e ∧ Recomputed c node s e ↔
      (s ≤ e → ∃ i : Nat, s ≤ i ∧ (i : Int) ≤ e ∧ node.blindiKeys i < c.endTree))) ∧
    ∀ mem : Addr → Bytes c.keyLen, c.treeLevels = 1 ∨ c.treeLevels = 2 →
    WellFormed mem node → node.Narrow c →
      FilledAfter c node := by
  refine ⟨fun s e start stop =>
    ⟨fun answer some => visible_of_rangeMin start answer.1 some, fun visible => ?_⟩,
    fun mem levels wf narrow => wf.filledAfter levels narrow⟩
  have answer := rangeMin_of_visible typed start stop visible
  exact ⟨answer, answer.recomputed typed stop⟩

abbrev longKeyParams : Params :=
  { treeLevels := 2, numSlots := 6, keyLen := 33, even := sampleParams.even }

theorem minPosValueInRange_minimum_sample :
    RangeMin longKeyParams (chainNode longKeyParams 6 250).blindiKeys 0 4 ∧
      Recomputed longKeyParams (chainNode longKeyParams 6 250) 0 4 ↔
        ((0 : Int) ≤ 4 → ∃ i : Nat, (0 : Int) ≤ i ∧ (i : Int) ≤ 4 ∧
          (chainNode longKeyParams 6 250).blindiKeys i < 255) :=
  (minPosValueInRange_minimum longKeyParams (chainNode longKeyParams 6 250) (by decide)).1 0
    4 (by decide) (by decide)

-- Six keys of 33 bytes that differ first at the bits 255 to 259, before and after a split.
theorem chainNode_unseen :
    WellFormed (c := longKeyParams) (chainKey 33) (chainNode longKeyParams 6 255) ∧
      ¬ RangeMin longKeyParams (chainNode longKeyParams 6 255).blindiKeys 0 4 ∧
      ¬ Filled longKeyParams (splitBlindiNode longKeyParams (chainNode longKeyParams 6 255)
        (chainNode longKeyParams 6 255) (chainNode longKeyParams 6 255)).2 := by
  have unseen (i : Nat) : ¬ (chainNode longKeyParams 6 255).blindiKeys i <
      longKeyParams.endTree := by
    change ¬ 255 + i < 255
    omega
  refine ⟨chainNode_wellFormed (by decide) (by decide) (by decide) (by decide),
    fun answer => ?_, fun filled => ?_⟩
  · obtain ⟨i, _, _, small⟩ := visible_of_rangeMin (by decide) answer (by decide)
    exact unseen i small
  · have empty := (filled 0 0 1 (by decide) (by decide) (by decide)).mp (by decide)
    exact absurd empty (by decide)

end ElasticIndex.SeqTree
