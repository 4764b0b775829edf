import ElasticIndex.SubTrie.Insert

set_option autoImplicit false

namespace ElasticIndex.SubTrie

open SequenceEdit BitOrder BlindSequence BlindTrie BlindTrie.Trie Loop

structure RemoveWalk where
  keyPtrPos : Nat
  blindiKeyPos : Nat
  n : Nat
  k : Nat
  subtrieArray : Nat → Nat

-- The entry number stays on the parent of the removed leaf.
def removeStep (removePosition : Nat) (s : RemoveWalk) : RemoveWalk ⊕ RemoveWalk :=
  let subtrie := s.subtrieArray s.blindiKeyPos
  if 0 < s.n then
    if s.keyPtrPos + subtrie < removePosition + 1 then
      .inl { s with
        k := s.k - subtrie
        keyPtrPos := s.keyPtrPos + subtrie
        n := s.n - subtrie
        blindiKeyPos := s.blindiKeyPos + if 0 < s.n - subtrie then subtrie else 0 }
    else
      .inl { s with
        n := subtrie - 1
        subtrieArray := Function.update s.subtrieArray s.blindiKeyPos (subtrie - 1)
        blindiKeyPos := s.blindiKeyPos + if 0 < subtrie - 1 then 1 else 0 }
  else .inr s

def takeEntry (node : SubTrieBlindiNode) (removePosition : Nat) (s : RemoveWalk) :
    SubTrieBlindiNode :=
  let count := node.validLen - 1 - s.blindiKeyPos
  { blindiKeys := moveDown (s.blindiKeyPos + 1) count node.blindiKeys
    subtrieArray := moveDown (s.blindiKeyPos + 1) count s.subtrieArray
    keyPtr := moveDown (removePosition + 1) (node.validLen - 1 - removePosition) node.keyPtr
    validLen := node.validLen - 1 }

def removeFromBlindiNodeInPosition (rounds : Nat) (node : SubTrieBlindiNode)
    (removePosition : Nat) :
    Option (RemoveResult × SubTrieBlindiNode) :=
  (run (removeStep removePosition) rounds
    { keyPtrPos := 0, blindiKeyPos := 0, n := node.validLen - 1, k := removePosition
      subtrieArray := node.subtrieArray }).map fun s => (.success, takeEntry node removePosition s)

variable {c : Params}

def removeFromBlindiNodeWithKey (rounds : Nat) (mem : Addr → Bytes c.keyLen)
    (node : SubTrieBlindiNode) (removeKey : Bytes c.keyLen) :
    Option (RemoveResult × SubTrieBlindiNode) :=
  (searchBlindiNode rounds mem node removeKey .point).bind fun r =>
    if r.hit = false then some (.keyNotFound, node)
    else if node.validLen = 1 then some (.nodeEmpty, { node with validLen := 0 })
    else
      (removeFromBlindiNodeInPosition rounds node r.position).map fun (result, node) =>
        if node.validLen < c.numSlots / 2 ∧ result = .success then (.underflow, node)
          else (result, node)

variable {mem : Addr → Bytes c.keyLen} {node : SubTrieBlindiNode} {t : Trie}
  {bits counts : Nat → Nat} {j lo p : Nat}

/-- Where the descent to leaf p stops, and what is left once the entry there is gone. -/
structure Emptied (bits counts : Nat → Nat) (j : Nat) (t : Trie) (p : Nat)
    (s : RemoveWalk) : Prop where
  left : j ≤ s.blindiKeyPos
  right : s.blindiKeyPos + 1 < j + t.leaves
  outside : ∀ i, i < j ∨ s.blindiKeyPos < i → s.subtrieArray i = counts i
  lists : ∀ bits' counts' : Nat → Nat,
    (∀ i, j ≤ i → i < s.blindiKeyPos → bits' i = bits i ∧ counts' i = s.subtrieArray i) →
    (∀ i, s.blindiKeyPos ≤ i → i + 2 < j + t.leaves → bits' i = bits (i + 1) ∧
    counts' i = counts (i + 1)) →
    Lists bits' counts' j (prune t p)

theorem removeStep_ends (lists : Lists bits counts j t) (several : 2 ≤ t.leaves)
    (bound : p < t.leaves) {s : RemoveWalk} (place : s.blindiKeyPos = j) (start : s.keyPtrPos = lo)
    (size : s.n + 1 = t.leaves) (array : s.subtrieArray = counts) :
    ∃ s', Ends (removeStep (lo + p)) s s' ∧ Emptied bits counts j t p s' := by
  induction t generalizing j lo p counts s with
  | leaf =>
    rw [leaves_leaf] at several
    omega
  | branch e l r ihl ihr =>
    obtain ⟨bit, count, left, right⟩ := id lists
    have posL := l.leaves_pos
    have posR := r.leaves_pos
    rw [leaves_branch] at size bound several
    subst place start array
    have goes : removeStep (s.keyPtrPos + p) s = _ := if_pos (by omega)
    rw [count] at goes
    by_cases turn : p < l.leaves
    · rw [if_neg (by omega)] at goes
      have other (i : Nat) (ne : i ≠ s.blindiKeyPos) :
          Function.update s.subtrieArray s.blindiKeyPos (l.leaves - 1) i = s.subtrieArray i :=
          Function.update_of_ne ne _ _
      by_cases one : l.leaves = 1
      · rw [if_neg (by omega)] at goes
        refine ⟨{ s with
            n := l.leaves - 1
            subtrieArray := Function.update s.subtrieArray s.blindiKeyPos (l.leaves - 1) },
          .turn goes (.leave (if_neg (by dsimp only; omega))), le_rfl,
          by rw [leaves_branch]; dsimp only; omega,
          fun i hi => other i (by dsimp only at hi; omega), fun bits' counts' _ after => ?_⟩
        rw [leaves_branch] at after
        rw [prune, if_pos turn, if_pos one]
        refine right.move fun i hi => ?_
        have := after (s.blindiKeyPos + i) (Nat.le_add_right _ _) (by omega)
        rwa [show s.blindiKeyPos + i + 1 = s.blindiKeyPos + l.leaves + i by omega] at this
      · rw [if_pos (by omega)] at goes
        have lowered : Lists bits (Function.update s.subtrieArray s.blindiKeyPos (l.leaves - 1))
            (s.blindiKeyPos + 1) l :=
          left.congr fun i hi _ => ⟨rfl, other i (by omega)⟩
        obtain ⟨s', ends, emptied⟩ := ihl (p := p)
          (s := { s with
            n := l.leaves - 1
            subtrieArray := Function.update s.subtrieArray s.blindiKeyPos (l.leaves - 1)
            blindiKeyPos := s.blindiKeyPos + 1 })
          lowered (by omega) turn rfl rfl (by dsimp only; omega) rfl
        refine ⟨s', .turn goes ends, ?_⟩
        have := emptied.left
        have := emptied.right
        refine ⟨by omega, by rw [leaves_branch]; omega, fun i hi => ?_,
          fun bits' counts' before after => ?_⟩
        · rw [emptied.outside i (by omega), other i (by omega)]
        · rw [leaves_branch] at after
          have rest := leaves_prune (p := p) (t := l) (by omega) turn
          rw [prune, if_pos turn, if_neg one]
          obtain ⟨sameBit, sameCount⟩ := before s.blindiKeyPos le_rfl (by omega)
          rw [emptied.outside _ (.inl (by omega)), Function.update_self] at sameCount
          refine ⟨sameBit.trans bit, by omega, ?_, right.move fun i hi => ?_⟩
          · refine emptied.lists bits' counts' (fun i hi hi' => before i (by omega) hi')
              fun i hi hi' => ?_
            rw [other (i + 1) (by omega)]
            exact after i hi (by omega)
          · have := after (s.blindiKeyPos + (prune l p).leaves + i) (by omega) (by omega)
            rwa [show s.blindiKeyPos + (prune l p).leaves + i + 1 =
              s.blindiKeyPos + l.leaves + i by omega] at this
    · rw [if_pos (by omega)] at goes
      by_cases one : r.leaves = 1
      · rw [if_neg (by omega)] at goes
        refine ⟨{ s with
            k := s.k - l.leaves
            keyPtrPos := s.keyPtrPos + l.leaves
            n := s.n - l.leaves },
          .turn goes (.leave (if_neg (by dsimp only; omega))), le_rfl,
          by rw [leaves_branch]; dsimp only; omega,
          fun i _ => rfl, fun bits' counts' _ after => ?_⟩
        rw [leaves_branch] at after
        rw [prune, if_neg turn, if_pos one]
        refine left.move fun i hi => ?_
        have := after (s.blindiKeyPos + i) (Nat.le_add_right _ _) (by omega)
        rwa [Nat.add_right_comm] at this
      · rw [if_pos (by omega)] at goes
        obtain ⟨s', ends, emptied⟩ := ihr (p := p - l.leaves)
          (s := { s with
            k := s.k - l.leaves
            keyPtrPos := s.keyPtrPos + l.leaves
            n := s.n - l.leaves
            blindiKeyPos := s.blindiKeyPos + l.leaves })
          right (by omega) (by omega) rfl rfl (by dsimp only; omega) rfl
        rw [show s.keyPtrPos + l.leaves + (p - l.leaves) = s.keyPtrPos + p by omega] at ends
        refine ⟨s', .turn goes ends, ?_⟩
        have := emptied.left
        have := emptied.right
        refine ⟨by omega, by rw [leaves_branch]; omega, fun i hi => emptied.outside i (by omega),
          fun bits' counts' before after => ?_⟩
        rw [leaves_branch] at after
        rw [prune, if_neg turn, if_neg one]
        have kept (i : Nat) (hi : s.blindiKeyPos ≤ i) (hi' : i < s.blindiKeyPos + l.leaves) :
            bits' i = bits i ∧ counts' i = s.subtrieArray i := by
          obtain ⟨sameBit, sameCount⟩ := before i hi (by omega)
          exact ⟨sameBit, sameCount.trans (emptied.outside i (.inl hi'))⟩
        obtain ⟨sameBit, sameCount⟩ := kept s.blindiKeyPos le_rfl (by omega)
        refine ⟨sameBit.trans bit, sameCount.trans count,
          left.congr fun i hi hi' => kept i (by omega) (by omega), ?_⟩
        exact emptied.lists bits' counts' (fun i hi hi' => before i (by omega) hi') fun i hi hi' =>
          after i hi (by omega)

theorem moveDown_eraseAt {A : Type} (q : Nat) (g : Nat → A) {n i : Nat} (bound : i < n) :
    moveDown (q + 1) (n - q) g i = eraseAt q g i := by
  rw [moveDown_eq _ _ _ _ (Nat.succ_pos q)]
  by_cases before : i < q
  · rw [if_neg (by omega), eraseAt_below _ before]
  · rw [if_pos (by omega), eraseAt_above _ (by omega)]

structure Pruned (mem : Addr → Bytes c.keyLen) (node : SubTrieBlindiNode) (t : Trie) (p : Nat)
    (node' : SubTrieBlindiNode) : Prop where
  validLen : node'.validLen = node.validLen - 1
  keyPtr : ∀ i, i < node.validLen - 1 → node'.keyPtr i = eraseAt p node.keyPtr i
  bits : ∃ pos, ∀ i, i < node.validLen - 1 → node'.blindiKeys i = eraseAt pos node.blindiKeys i
  splits : Splits (keyBits c.keyLen) (node'.keys mem) 0 (prune t p)
  lists : Lists node'.blindiKeys node'.subtrieArray 0 (prune t p)

theorem removeFromBlindiNodeInPosition_returns (size : t.leaves = node.validLen)
    (splits : Splits (keyBits c.keyLen) (node.keys mem) 0 t)
    (lists : Lists node.blindiKeys node.subtrieArray 0 t) (several : 2 ≤ node.validLen)
    (bound : p < node.validLen) :
    ∃ node', Returns (fun rounds => removeFromBlindiNodeInPosition rounds node p)
      (.success, node') ∧
      Pruned mem node t p node' := by
  obtain ⟨s, ends, emptied⟩ := removeStep_ends (p := p) lists (by omega) (by omega)
    (s := { keyPtrPos := 0, blindiKeyPos := 0, n := node.validLen - 1, k := p,
            subtrieArray := node.subtrieArray })
    rfl rfl (by dsimp only; omega) rfl
  rw [Nat.zero_add] at ends
  refine ⟨_, ends.returns.map _, ?_⟩
  obtain ⟨node', taken⟩ : ∃ node', takeEntry node p s = node' := ⟨_, rfl⟩
  rw [taken]
  rw [takeEntry] at taken
  have keyPtr : ∀ i, i < node.validLen - 1 → node'.keyPtr i = eraseAt p node.keyPtr i := by
    intro i hi
    rw [← taken]
    exact moveDown_eraseAt _ _ hi
  have bits' : ∀ i, i < node.validLen - 1 → node'.blindiKeys i =
      eraseAt s.blindiKeyPos node.blindiKeys i := by
    intro i hi
    rw [← taken]
    exact moveDown_eraseAt _ _ hi
  have counts' : ∀ i, i < node.validLen - 1 → node'.subtrieArray i =
      eraseAt s.blindiKeyPos s.subtrieArray i := by
    intro i hi
    rw [← taken]
    exact moveDown_eraseAt _ _ hi
  have inside := emptied.right
  have rest := leaves_prune (t := t) (p := p) (by omega) (by omega)
  refine ⟨by rw [← taken], keyPtr, ⟨_, bits'⟩, ?_,
    emptied.lists _ _ (fun i _ hi => ?_) fun i hi hi' => ?_⟩
  · have erased := splits.prune (p := p) (by omega) (by omega)
    rw [Nat.zero_add] at erased
    refine erased.congr fun i _ hi => ?_
    rw [SubTrieBlindiNode.keys, keyPtr i (by omega), map_eraseAt mem]
    rfl
  · rw [bits' i (by omega), counts' i (by omega), eraseAt_below _ hi, eraseAt_below _ hi]
    exact ⟨rfl, rfl⟩
  · rw [bits' i (by omega), counts' i (by omega), eraseAt_above _ hi, eraseAt_above _ hi]
    exact ⟨rfl, emptied.outside _ (by omega)⟩

theorem Pruned.encodes {node' : SubTrieBlindiNode} (encodes : Encodes mem node)
    (size : t.leaves = node.validLen) (several : 2 ≤ node.validLen) (bound : p < node.validLen)
    (pruned : Pruned mem node t p node') :
    Encodes mem node' := by
  have len := pruned.validLen
  have rest := leaves_prune (t := t) (p := p) (by omega) (by omega)
  have fits := encodes.fits
  have idx := encodes.idx
  have leaves : (prune t p).leaves = node'.validLen := by omega
  refine ⟨by omega, by omega, fun i hi => ?_, _, leaves, pruned.splits,
    entries_of_lists leaves pruned.lists⟩
  obtain ⟨pos, bits⟩ := pruned.bits
  rw [bits i (by omega)]
  by_cases before : i < pos
  · rw [eraseAt_below _ before]
    exact encodes.bits i (by omega)
  · rw [eraseAt_above _ (by omega)]
    exact encodes.bits (i + 1) (by omega)

/-- The parts of two nodes that their lengths make live. -/
structure SameNode (a b : SubTrieBlindiNode) : Prop where
  validLen : a.validLen = b.validLen
  keyPtr : ∀ i, i < a.validLen → a.keyPtr i = b.keyPtr i
  blindiKeys : ∀ i, i + 1 < a.validLen → a.blindiKeys i = b.blindiKeys i
  subtrieArray : ∀ i, i + 1 < a.validLen → a.subtrieArray i = b.subtrieArray i

theorem Encodes.bit_of_mem (encodes : Encodes mem node) (size : t.leaves = node.validLen)
    (lists : Lists node.blindiKeys node.subtrieArray 0 t) {d m : Nat}
    (inside : (d, m) ∈ t.preorder) : d < c.bitidxSize := by
  rw [← entries_of_lists size lists] at inside
  obtain ⟨i, bound, entry⟩ := mem_entries.mp inside
  obtain ⟨rfl, _⟩ := Prod.mk.inj entry
  exact encodes.bits i (by omega)

theorem Pruned.keys {node' : SubTrieBlindiNode} (pruned : Pruned mem node t p node') (i : Nat)
    (hi : i < node.validLen - 1) :
    node'.keys mem i = eraseAt p (node.keys mem) i := by
  rw [SubTrieBlindiNode.keys, pruned.keyPtr i hi, map_eraseAt mem]
  rfl

-- Putting the removed key back leads to the trie it was taken from, the only one its keys have.
theorem Pruned.restored {node' : SubTrieBlindiNode} (encodes : Encodes mem node)
    (size : t.leaves = node.validLen) (splits : Splits (keyBits c.keyLen) (node.keys mem) 0 t)
    (lists : Lists node.blindiKeys node.subtrieArray 0 t) (several : 2 ≤ node.validLen)
    (bound : p < node.validLen) (pruned : Pruned mem node t p node') :
    ∃ back, Returns (fun rounds => insert2BlindiNodeWithKey rounds mem node' (node.keyPtr p))
      (.success, back) ∧
      SameNode node back := by
  have encodes' := pruned.encodes encodes size several bound
  have len := pruned.validLen
  have fits := encodes.fits
  have idx := encodes.idx
  have rest := leaves_prune (t := t) (p := p) (by omega) (by omega)
  have size' : (prune t p).leaves = node'.validLen := by omega
  have less {i j : Nat} (lt : i < j) (hj : j < node.validLen) :=
    splits.less (i := i) (j := j) (Nat.zero_le _) lt (by omega)
  have missing : ∀ i, i < node'.validLen → node'.keys mem i ≠ mem (node.keyPtr p) := by
    intro i hi same
    rw [pruned.keys i (by omega)] at same
    by_cases before : i < p
    · rw [eraseAt_below _ before] at same
      exact (less before bound).ne same
    · rw [eraseAt_above _ (by omega)] at same
      exact (less (i := p) (j := i + 1) (by omega) (by omega)).ne same.symm
  obtain ⟨f, d, large, departs, grafts⟩ :=
    insert2BlindiNodeWithKey_graft encodes' (by omega) size' pruned.splits
    pruned.lists missing (by omega)
  obtain ⟨below, above⟩ := sides_of_departs pruned.splits departs
  have le := gap_le d large (prune t p) f
  have place : gap d large (prune t p) f = p := by
    rcases Nat.lt_trichotomy (gap d large (prune t p) f) p with lt | same | lt
    · have more := above _ le_rfl (by omega)
      rw [pruned.keys _ (by omega), eraseAt_below _ lt] at more
      exact absurd more (less lt bound).asymm
    · exact same
    · have more := below p lt
      rw [pruned.keys _ (by omega), eraseAt_above _ le_rfl] at more
      exact absurd more (less (Nat.lt_succ_self p) (by omega)).asymm
  have whole := pruned.splits.graft departs
  rw [Nat.zero_add, place] at whole
  have again : Splits (keyBits c.keyLen) (node.keys mem) 0 (graft d large (prune t p) f) := by
    refine whole.congr fun i _ hi => ?_
    rw [leaves_graft] at hi
    rw [insertAt_congr (n := node.validLen - 1) _ pruned.keys (by omega) (by omega)]
    exact (insertAt_eraseAt p (node.keys mem) i).symm
  have same : graft d large (prune t p) f = t := again.unique splits (by rw [leaves_graft]; omega)
  obtain ⟨m, listed⟩ := graft_mem d large (prune t p) f
  rw [same] at listed
  obtain ⟨back, grafted, returns⟩ := grafts (encodes.bit_of_mem size lists listed)
  refine ⟨back, returns, by have := grafted.validLen; omega, fun i hi => ?_,
    fun i hi => ?_, fun i hi => ?_⟩
  · rw [grafted.keyPtr i (by omega), place,
      insertAt_congr (n := node.validLen - 1) _ pruned.keyPtr (by omega) (by omega)]
    exact (insertAt_eraseAt p node.keyPtr i).symm
  · have lists' := grafted.lists
    rw [same] at lists'
    exact (lists.same lists' (by omega)).1
  · have lists' := grafted.lists
    rw [same] at lists'
    exact (lists.same lists' (by omega)).2

structure Removed (mem : Addr → Bytes c.keyLen) (node : SubTrieBlindiNode) (p : Nat)
    (r : RemoveResult × SubTrieBlindiNode) :
    Prop where
  result : r.1 = if node.validLen - 1 < c.numSlots / 2 then .underflow else .success
  encodes : Encodes mem r.2
  keyPtr : entries r.2.validLen r.2.keyPtr = (entries node.validLen node.keyPtr).eraseIdx p
  restored : ∃ back, Returns (fun rounds => insert2BlindiNodeWithKey rounds mem r.2 (node.keyPtr p))
    (.success, back) ∧
    SameNode node back

structure RemoveAnswer (mem : Addr → Bytes c.keyLen) (node : SubTrieBlindiNode)
    (removeKey : Bytes c.keyLen) (r : RemoveResult × SubTrieBlindiNode) : Prop where
  missing : (∀ i, i < node.validLen → node.keys mem i ≠ removeKey) → r = (.keyNotFound, node)
  stored : ∀ p, p < node.validLen → node.keys mem p = removeKey → Removed mem node p r

-- A removal ends, leaves the node without the key, and the key put back gives the old node.
theorem removeFromBlindiNodeWithKey_restored (mem : Addr → Bytes c.keyLen)
    (node : SubTrieBlindiNode) (encodes : Encodes mem node) (several : 2 ≤ node.validLen)
    (removeKey : Bytes c.keyLen) :
    ∃ r, Returns (fun rounds => removeFromBlindiNodeWithKey rounds mem node removeKey) r ∧
      RemoveAnswer mem node removeKey r := by
  obtain ⟨t, size, splits, lists⟩ := encodes.listed
  unfold removeFromBlindiNodeWithKey
  by_cases present : ∃ p, p < node.validLen ∧ node.keys mem p = removeKey
  · obtain ⟨p, bound, same⟩ := present
    have search := searchBlindiNode_hit size splits lists .point bound same
    obtain ⟨node', returns, pruned⟩ :=
      removeFromBlindiNodeInPosition_returns size splits lists several bound
    obtain ⟨r, answer⟩ : ∃ r,
      (if node'.validLen < c.numSlots / 2 ∧ RemoveResult.success = .success then
      (RemoveResult.underflow, node') else (.success, node')) = r := ⟨_, rfl⟩
    have node_ : r.2 = node' := by
      rw [← answer]
      split_ifs <;> rfl
    have result : r.1 = if node.validLen - 1 < c.numSlots / 2 then .underflow else .success := by
      rw [← answer, pruned.validLen]
      by_cases under : node.validLen - 1 < c.numSlots / 2
      · rw [if_pos ⟨under, rfl⟩, if_pos under]
      · rw [if_neg fun both => under both.1, if_neg under]
    refine ⟨r, search.bind ?_, fun missing => absurd same (missing p bound),
      fun q bound' same' => ?_⟩
    · simp only [Bool.true_eq_false, if_false, if_neg (show node.validLen ≠ 1 by omega)]
      have mapped := returns.map fun found : RemoveResult × SubTrieBlindiNode =>
        if found.2.validLen < c.numSlots / 2 ∧ found.1 = .success
          then (RemoveResult.underflow, found.2) else found
      rw [show (if node'.validLen < c.numSlots / 2 ∧ RemoveResult.success = .success then
        (RemoveResult.underflow, node') else (.success, node')) = r from answer] at mapped
      exact mapped
    · obtain rfl : p = q :=
        splits.injective (Nat.zero_le _) (by omega) (Nat.zero_le _) (by omega)
        (same.trans same'.symm)
      refine ⟨result, ?_, ?_, ?_⟩
      · rw [node_]
        exact pruned.encodes encodes size several bound
      · rw [node_, pruned.validLen, entries_congr pruned.keyPtr, entries_eraseAt bound]
      · rw [node_]
        exact pruned.restored encodes size splits lists several bound
  · have missing : ∀ i, i < node.validLen → node.keys mem i ≠ removeKey :=
      fun i bound same => present ⟨i, bound, same⟩
    refine ⟨_, (searchBlindiNode_point_miss size lists missing).bind ?_, fun _ => rfl,
      fun p bound same => absurd same (missing p bound)⟩
    simp only [if_true]
    exact Returns.pure _

theorem removeFromBlindiNodeWithKey_restored_sample :
    ∃ r, Returns (fun rounds =>
      removeFromBlindiNodeWithKey (c := sampleParams) rounds sampleKey sampleNode (sampleKey 2)) r ∧
      RemoveAnswer (c := sampleParams) sampleKey sampleNode (sampleKey 2) r :=
  removeFromBlindiNodeWithKey_restored (c := sampleParams) sampleKey sampleNode
    sampleNode_encodes (by decide) (sampleKey 2)

end ElasticIndex.SubTrie
