import ElasticIndex.SeqTree.Remove

set_option autoImplicit false

namespace ElasticIndex.SeqTree

open BitOrder BlindSequence CartesianTree CartesianTree.PosTree SlotTree

variable {c : Params} {tree : Nat → Nat} {t : PosTree} {validLen pos : Nat} {s e : Int}

/-- The gap of a slot in the sequence, from the positions of its nearest ancestors on both sides. -/
structure IsGap (tree : Nat → Nat) (validLen pos : Nat) (s e : Int) : Prop where
  left : ∀ a, LeftAncestor pos a → s = tree a + 1
  first : (∀ a, ¬ LeftAncestor pos a) → s = 0
  right : ∀ a, RightAncestor pos a → e = tree a - 1
  last : (∀ a, ¬ RightAncestor pos a) → e = validLen - 2

theorem isGap_root : IsGap tree validLen 0 0 (validLen - 2) where
  left a above := absurd above (not_leftAncestor_zero a)
  first _ := rfl
  right a above := absurd above (not_rightAncestor_zero a)
  last _ := rfl

theorem IsGap.child_false (gap : IsGap tree validLen pos s e) :
    IsGap tree validLen (2 * pos + 1) s (tree pos - 1) where
  left a above := gap.left a ((leftAncestor_child_false pos a).mp above)
  first none := gap.first fun a above => none a (.above above)
  right a above := by rw [(rightAncestor_child_false pos a).mp above]
  last none := absurd (.parent pos) (none pos)

theorem IsGap.child_true (gap : IsGap tree validLen pos s e) :
    IsGap tree validLen (2 * pos + 2) (tree pos + 1) e where
  left a above := by rw [(leftAncestor_child_true pos a).mp above]
  first none := absurd (.parent pos) (none pos)
  right a above := gap.right a ((rightAncestor_child_true pos a).mp above)
  last none := gap.last fun a above => none a (.above above)

theorem bringEdgesSeqFromPos_unset (deep : 3 ≤ pos) :
    bringEdgesSeqFromPos c tree validLen pos = none := by
  match pos, deep with
  | pos + 3, _ => rfl

-- The cases past slot 2 are compiled out of the switch.
theorem bringEdgesSeqFromPos_gap (inside : pos < c.treeSize) :
    (∃ s e, bringEdgesSeqFromPos c tree validLen pos = some (s, e) ∧ IsGap tree validLen pos s e) ↔
    pos < 3 := by
  constructor
  · rintro ⟨s, e, set, -⟩
    by_contra deep
    rw [bringEdgesSeqFromPos_unset (by omega)] at set
    cases set
  · intro shallow
    rcases (show pos = 0 ∨ 1 ≤ pos by omega) with rfl | later
    · exact ⟨_, _, rfl, isGap_root⟩
    · have several : 1 < c.treeLevels := by
        by_contra one
        have small : 2 ^ c.treeLevels ≤ 2 ^ 1 := Nat.pow_le_pow_right (by omega) (by omega)
        unfold Params.treeSize at inside
        omega
      rcases (show pos = 1 ∨ pos = 2 by omega) with rfl | rfl
      · exact ⟨_, _, if_pos several, isGap_root.child_false⟩
      · exact ⟨_, _, if_pos several, isGap_root.child_true⟩

theorem bringEdgesSeqFromPos_gap_sample :
    2 < sampleParams.treeSize ∧
      ((∃ s e, bringEdgesSeqFromPos sampleParams sampleNode.blindiTree 3 2 = some (s, e) ∧
        IsGap sampleNode.blindiTree 3 2 s e) ↔ 2 < 3) :=
  ⟨by decide, bringEdgesSeqFromPos_gap (by decide)⟩

-- The keys 1, 2, 4 and 8 under three levels.
abbrev stairParams : Params :=
  { treeLevels := 3, numSlots := 6, keyLen := 1, even := sampleParams.even }

def stairNode : SeqTreeBlindiNode :=
  { validLen := 4
    blindiTree := cutArray 255 3 (.node (.node (.node .nil 0 .nil) 1 .nil) 2 .nil)
    currentMaxSlot := 6
    keyPtr := fun i => 2 ^ i
    blindiKeys := fun i => 6 - i }

theorem stairNode_wellFormed : WellFormed (c := stairParams) sampleKey stairNode := by
  have compares : ∀ i : Nat, i < 3 → compareStage (sampleKey (2 ^ i)) (sampleKey (2 ^ (i + 1))) =
      { eq := false, bigSmall := false, position := 6 - i } := by decide
  refine ⟨by decide, by decide, by decide, fun i hi => ?_,
    .node (.node (.node .nil 0 .nil) 1 .nil) 2 .nil, by decide,
    cut_cutArray 255 3 _⟩
  change i + 1 < 4 at hi
  have result := compares i (by omega)
  exact lessAt_of_compare result

-- Slot 3 has the gap [0, 0], and neither end is set.
theorem stairNode_unset :
    WellFormed (c := stairParams) sampleKey stairNode ∧ 3 < stairParams.treeSize ∧
      stairNode.blindiTree ((3 + 1) / 2 - 1) ≠ stairParams.endTree ∧
      IsGap stairNode.blindiTree stairNode.validLen 3 0 0 ∧
      bringEdgesSeqFromPos stairParams stairNode.blindiTree stairNode.validLen 3 = none := by
  have one : stairNode.blindiTree 1 = 1 := by decide
  have gap : IsGap stairNode.blindiTree stairNode.validLen 3 0 (stairNode.blindiTree 1 - 1) :=
    isGap_root.child_false.child_false
  rw [one] at gap
  exact ⟨stairNode_wellFormed, by decide, by decide, gap, rfl⟩

end ElasticIndex.SeqTree
