import ElasticIndex.SeqTree.Predecessor

set_option autoImplicit false

namespace ElasticIndex.SeqTree

open BitOrder BlindSequence CartesianTree CartesianTree.PosTree SlotTree

variable {c : Params} {mem : Addr → Bytes c.keyLen} {node : SeqTreeBlindiNode} {x : Bytes c.keyLen}

theorem WellFormed.slot_cases (wf : WellFormed mem node) {s : Nat} (inside : s < c.treeSize) :
    node.blindiTree s = c.endTree ∨ node.blindiTree s + 1 < node.validLen := by
  obtain ⟨t, tree, cut⟩ := wf.tree
  obtain ⟨p, rfl⟩ := exists_path s
  rw [cut p (length_of_slot_lt inside)]
  cases root : (t.sub p).root with
  | none => exact .inl rfl
  | some m =>
    have := tree.sub_bounds root
    exact .inr (by rw [Option.getD_some]; omega)

theorem scanFirstStage_lt {n : Nat} (rest i highMiss p : Nat) (key : p < n) (bound : i + rest < n) :
    scanFirstStage c node x rest i highMiss p < n := by
  induction rest generalizing i highMiss p with
  | zero => exact key
  | succ rest ih =>
    unfold scanFirstStage
    dsimp only
    split_ifs
    · exact ih (i + 1) _ (i + 1) (by omega) (by omega)
    · exact ih (i + 1) _ p key (by omega)
    · exact ih (i + 1) _ p key (by omega)

-- The state of SearchFirstStage after a turn at a slot that is filled.
def Descent.turn (c : Params) (node : SeqTreeBlindiNode) (key : Bytes c.keyLen)
    (s : Descent) : Descent :=
  let pos := node.blindiTree (s.treePosP1 - 1)
  let s := { s with traverse := { s.traverse with
    previous := s.traverse.last
    last := s.treePosP1 - 1
    len := s.traverse.len + 1 } }
  if isNthBitSetInString key (node.blindiKeys pos) then
    { s with
      firstStageKeyPosition := pos + 1
      startBkSeqPos := pos
      isStartPos := true
      treePosP1 := (2 * (s.treePosP1 + 1) - 1) % 65536
      isLastLarge := true }
  else
    { s with
      endBkSeqPos := pos
      isEndPos := true
      treePosP1 := 2 * s.treePosP1 % 65536
      isLastLarge := false }

theorem descend_succ (levels : Nat) (s : Descent) :
    descend c node x (levels + 1) s =
      if node.blindiTree (s.treePosP1 - 1) = c.endTree then
        (some (node.blindiTree s.traverse.last + s.isLastLarge.toNat),
          { s with traverse := { s.traverse with
          previous := s.traverse.last
          last := s.treePosP1 - 1
          len := s.traverse.len + 1 } })
      else descend c node x levels (s.turn c node x) := by
  rw [descend, Descent.turn]
  dsimp only
  split_ifs <;> rfl

/-- The positions of a descent that has levels left stay below valid_len, however deep the tree. -/
structure Inside (c : Params) (node : SeqTreeBlindiNode) (levels : Nat) (s : Descent) : Prop where
  slot : s.treePosP1 < 2 ^ (c.treeLevels - levels + 1)
  key : s.firstStageKeyPosition < node.validLen
  start : s.startBkSeqPos + s.isStartPos.toNat < node.validLen
  stop : s.endBkSeqPos - s.isEndPos.toNat + 2 ≤ node.validLen
  last : node.blindiTree s.traverse.last + 1 < node.validLen ∨ s.treePosP1 = 1 ∧
    node.blindiTree 0 ≠ c.endTree

theorem Inside.slot_inside {levels : Nat} {s : Descent} (inside : Inside c node (levels + 1) s)
    (deep : levels + 1 ≤ c.treeLevels) : s.treePosP1 - 1 < c.treeSize := by
  have slot := inside.slot
  have most : 2 ^ (c.treeLevels - (levels + 1) + 1) ≤ 2 ^ c.treeLevels :=
    Nat.pow_le_pow_right (by omega) (by omega)
  have := Nat.one_le_two_pow (n := c.treeLevels)
  unfold Params.treeSize
  omega

theorem Inside.turn {levels : Nat} {s : Descent} (inside : Inside c node (levels + 1) s)
    (deep : levels + 1 ≤ c.treeLevels)
    (here : node.blindiTree (s.treePosP1 - 1) + 1 < node.validLen) :
    Inside c node levels (s.turn c node x) := by
  obtain ⟨slot, key, start, stop, last⟩ := inside
  have grows : 2 ^ (c.treeLevels - levels + 1) = 2 * 2 ^ (c.treeLevels - (levels + 1) + 1) := by
    rw [show c.treeLevels - levels = c.treeLevels - (levels + 1) + 1 by omega, pow_succ, pow_succ]
    ring
  unfold Descent.turn
  dsimp only
  split_ifs
  · refine ⟨?_, by dsimp only; omega, ?_, stop, .inl here⟩
    · dsimp only
      have := Nat.mod_le (2 * (s.treePosP1 + 1) - 1) 65536
      omega
    · simp only [Bool.toNat_true]
      omega
  · refine ⟨?_, key, start, ?_, .inl here⟩
    · dsimp only
      have := Nat.mod_le (2 * s.treePosP1) 65536
      omega
    · simp only [Bool.toNat_true]
      omega

theorem descend_inside (wf : WellFormed mem node) (levels : Nat) (s : Descent)
    (deep : levels ≤ c.treeLevels) (inside : Inside c node levels s) :
    (∃ position s', descend c node x levels s = (some position, s') ∧ position < node.validLen) ∨
      ∃ s', descend c node x levels s = (none, s') ∧ Inside c node 0 s' := by
  induction levels generalizing s with
  | zero => exact .inr ⟨s, rfl, inside⟩
  | succ levels ih =>
    rw [descend_succ]
    by_cases none : node.blindiTree (s.treePosP1 - 1) = c.endTree
    · rw [if_pos none]
      have above : node.blindiTree s.traverse.last + 1 < node.validLen := by
        rcases inside.last with above | ⟨top, present⟩
        · exact above
        · rw [top] at none
          exact absurd none present
      have turn := Bool.toNat_le s.isLastLarge
      exact .inl ⟨_, _, rfl, by omega⟩
    · rw [if_neg none]
      have here := (wf.slot_cases (inside.slot_inside deep)).resolve_left none
      exact ih _ (by omega) (inside.turn deep here)

theorem seqFirstStage_lt {s : Descent} (inside : Inside c node 0 s) :
    (seqFirstStage c node x s).1 < node.validLen := by
  obtain ⟨_, key, start, stop, _⟩ := inside
  unfold seqFirstStage
  dsimp only
  exact scanFirstStage_lt _ _ _ _ key (by omega)

theorem searchFirstStage_lt (wf : WellFormed mem node) (traverse : Traverse) :
    (searchFirstStage c node x traverse).1 < node.validLen := by
  have nonempty := wf.nonempty
  have start (t : Traverse) (last : node.blindiTree t.last + 1 < node.validLen ∨
    node.blindiTree 0 ≠ c.endTree) :
      Inside c node c.treeLevels { firstStageKeyPosition := 0, startBkSeqPos := 0,
                                   endBkSeqPos := (node.validLen : Int) - 2
                                   isStartPos := false, isEndPos := false, isLastLarge :=
                                     false, treePosP1 := 1
                                   traverse := t } := by
    refine ⟨by simp, by dsimp only; omega, ?_, ?_, last.imp_right fun present => ⟨rfl, present⟩⟩
    · dsimp only [Bool.toNat_false]
      omega
    · dsimp only [Bool.toNat_false]
      omega
  unfold searchFirstStage
  dsimp only
  by_cases levels : 0 < c.treeLevels
  · rw [if_pos levels]
    by_cases tiny : node.validLen = 1 ∨ node.blindiTree 0 = c.endTree
    · rw [if_pos tiny]
      exact nonempty
    · rw [if_neg tiny]
      push Not at tiny
      rcases descend_inside (x := x) wf c.treeLevels _ le_rfl (start _ (.inr tiny.2)) with
        ⟨position, s', found, inside⟩ | ⟨s', found, inside⟩
      · rw [found]
        exact inside
      · rw [found]
        exact seqFirstStage_lt inside
  · rw [if_neg levels]
    exact scanFirstStage_lt _ _ _ _ nonempty (by simp only [Bool.toNat_false]; omega)

-- A hit is a stored key whatever the depth of the tree and the length of the keys.
theorem searchBlindiNode_hit_stored (wf : WellFormed mem node) {type : SearchType}
    {traverse : Traverse} (hit : (searchBlindiNode mem node x type traverse).hit = true) :
    ∃ i, i < node.validLen ∧ node.keys mem i = x := by
  rw [searchBlindiNode_hit_eq, compareStage_eq_iff] at hit
  exact ⟨_, searchFirstStage_lt wf traverse, hit.symm⟩

end ElasticIndex.SeqTree
