import ElasticIndex.Shared.BlindTrie
import ElasticIndex.SubTrie.Node

set_option autoImplicit false

namespace ElasticIndex.SubTrie

open SequenceEdit BitOrder BlindSequence BlindTrie BlindTrie.Trie Loop

variable {c : Params} {mem : Addr → Bytes c.keyLen} {node : SubTrieBlindiNode}
  {x : Bytes c.keyLen} {t : Trie} {p j f d : Nat}

def SubTrieBlindiNode.keys (node : SubTrieBlindiNode) (mem : Addr → Bytes c.keyLen) :
    Nat → Bytes c.keyLen :=
  fun i => mem (node.keyPtr i)

/-- The arrays list the blind trie of the keys, and everything fits its type. -/
structure Encodes (mem : Addr → Bytes c.keyLen) (node : SubTrieBlindiNode) : Prop where
  fits : node.validLen ≤ c.numSlots
  idx : node.validLen < c.idxSize
  bits : ∀ i, i + 1 < node.validLen → node.blindiKeys i < c.bitidxSize
  trie : ∃ t : Trie, t.leaves = node.validLen ∧ Splits (keyBits c.keyLen) (node.keys mem) 0 t ∧
    entries (node.validLen - 1) (fun i => (node.blindiKeys i, node.subtrieArray i)) = t.preorder

theorem Encodes.listed (encodes : Encodes mem node) : ∃ t : Trie, t.leaves = node.validLen ∧
    Splits (keyBits c.keyLen) (node.keys mem) 0 t ∧
    Lists node.blindiKeys node.subtrieArray 0 t := by
  obtain ⟨t, size, splits, listing⟩ := encodes.trie
  refine ⟨t, size, splits, lists_iff.mpr ?_⟩
  simp only [Nat.zero_add]
  rwa [size]

theorem entries_of_lists {node : SubTrieBlindiNode} (size : t.leaves = node.validLen)
    (lists : Lists node.blindiKeys node.subtrieArray 0 t) :
    entries (node.validLen - 1)
      (fun i => (node.blindiKeys i, node.subtrieArray i)) = t.preorder := by
  have listing := lists_iff.mp lists
  simp only [Nat.zero_add] at listing
  rwa [size] at listing

-- The keys of a node that encodes them increase.
theorem Encodes.increasing (encodes : Encodes mem node) {i j : Nat} (lt : i < j)
    (bound : j < node.validLen) :
    (keyBits c.keyLen).Less (node.keys mem i) (node.keys mem j) := by
  obtain ⟨t, size, splits, _⟩ := encodes.listed
  exact splits.less (Nat.zero_le _) lt (by omega)

theorem Encodes.nonempty (encodes : Encodes mem node) : 1 ≤ node.validLen := by
  obtain ⟨t, size, _⟩ := encodes.trie
  have := t.leaves_pos
  omega

theorem firstStage_ends (lists : Lists node.blindiKeys node.subtrieArray j t) :
    Ends (firstStageStep node x) { keyPtrPos := p, blindiKeyPos := j, n := t.leaves - 1 }
      (p + blindLeaf (isNthBitSetInString x) t) := by
  induction t generalizing p j with
  | leaf => exact .leave rfl
  | branch e l r ihl ihr =>
    obtain ⟨bit, count, left, right⟩ := lists
    have posL := l.leaves_pos
    have posR := r.leaves_pos
    rw [leaves_branch]
    cases turn : isNthBitSetInString x e with
    | true =>
      rw [blindLeaf, turn, if_pos rfl, ← Nat.add_assoc]
      refine .turn ?_ (ihr right)
      rw [firstStageStep, bit, count, if_pos (by dsimp only; omega), if_pos turn]
      dsimp only
      rw [show l.leaves + r.leaves - 1 - l.leaves = r.leaves - 1 by omega]
    | false =>
      rw [blindLeaf, turn, if_neg Bool.false_ne_true]
      refine .turn ?_ (ihl left)
      rw [firstStageStep, bit, count, if_pos (by dsimp only; omega), turn,
        if_neg Bool.false_ne_true]

-- Both ends of the group the second descent stops at.
theorem secondStage_ends (lists : Lists node.blindiKeys node.subtrieArray j t)
    (bound : f < t.leaves) :
    ∃ s : Walk, Ends (secondStageStep node d)
      ({ keyPtrPos := p, blindiKeyPos := j, n := t.leaves - 1 }, f) s ∧
      s.keyPtrPos = p + gap d false t f ∧ s.keyPtrPos + s.n + 1 = p + gap d true t f := by
  induction t generalizing p j f with
  | leaf => exact ⟨_, .leave rfl, rfl, rfl⟩
  | branch e l r ihl ihr =>
    obtain ⟨bit, count, left, right⟩ := lists
    have posL := l.leaves_pos
    have posR := r.leaves_pos
    rw [leaves_branch] at bound ⊢
    unfold gap
    by_cases shallow : e < d
    · rw [if_pos shallow, if_pos shallow]
      by_cases turn : f < l.leaves
      · obtain ⟨s, ends, first, last⟩ := ihl (p := p) left turn
        rw [if_pos turn, if_pos turn]
        refine ⟨s, .turn ?_ ends, first, last⟩
        rw [secondStageStep, bit, count, if_pos ⟨by dsimp only; omega, shallow⟩, if_neg (by omega)]
      · obtain ⟨s, ends, first, last⟩ :=
          ihr (p := p + l.leaves) (f := f - l.leaves) right (by omega)
        rw [if_neg turn, if_neg turn, ← Nat.add_assoc, ← Nat.add_assoc]
        refine ⟨s, .turn ?_ ends, first, last⟩
        rw [secondStageStep, bit, count, if_pos ⟨by dsimp only; omega, shallow⟩, if_pos (by omega)]
        dsimp only
        rw [show l.leaves + r.leaves - 1 - l.leaves = r.leaves - 1 by omega]
    · rw [if_neg shallow, if_neg shallow]
      refine ⟨_, .leave (by rw [secondStageStep, bit, if_neg fun both => shallow both.2]), rfl, ?_⟩
      rw [if_pos rfl]
      dsimp only
      omega

-- The first stage of a search, which a single key does not need.
theorem firstStage_returns (size : t.leaves = node.validLen)
    (lists : Lists node.blindiKeys node.subtrieArray 0 t) :
    Returns (fun rounds => if 1 < node.validLen then searchFirstStage rounds node x else some 0)
      (blindLeaf (isNthBitSetInString x) t) := by
  by_cases several : 1 < node.validLen
  · have ends := (firstStage_ends (x := x) (p := 0) lists).returns
    rw [Nat.zero_add, size] at ends
    exact ends.congr fun rounds => if_pos several
  · have one : blindLeaf (isNthBitSetInString x) t = 0 := by
      have := blindLeaf_lt (isNthBitSetInString x) t
      omega
    rw [one]
    exact (Returns.pure 0).congr fun rounds => if_neg several

theorem blindLeaf_best (splits : Splits (keyBits c.keyLen) (node.keys mem) 0 t) :
    BestIn (keyBits c.keyLen) (node.keys mem) x 0 (t.leaves - 1)
      (blindLeaf (isNthBitSetInString x) t) := by
  have best := splits.bestIn (x := x)
  rw [Nat.zero_add, Nat.zero_add] at best
  exact best

theorem searchBlindiNode_hit (size : t.leaves = node.validLen)
    (splits : Splits (keyBits c.keyLen) (node.keys mem) 0 t)
    (lists : Lists node.blindiKeys node.subtrieArray 0 t) (searchType : SearchType) {i : Nat}
    (bound : i < node.validLen) (stored : node.keys mem i = x) :
    Returns (fun rounds => searchBlindiNode rounds mem node x searchType)
      { position := i, hit := true, smallerThanNode := false, diffPos := 0,
        largeSmall := false } := by
  have best := blindLeaf_best (x := x) splits
  have found : blindLeaf (isNthBitSetInString x) t = i := by
    have inside := blindLeaf_lt (isNthBitSetInString x) t
    refine splits.injective (Nat.zero_le _) (by omega) (Nat.zero_le _) (by omega) ?_
    rw [stored]
    refine ((keyBits c.keyLen).ext _ _ fun m hm => ?_).symm
    have agree := best.most i (Nat.zero_le _) (by omega) (m + 1) (by
      rw [stored]; exact agree_refl _ _)
    exact agree m (Nat.lt_succ_self m)
  have first := firstStage_returns (x := x) size lists
  rw [found] at first
  have equal : (compareStage x (mem (node.keyPtr i))).eq = true :=
    (compareStage_eq_iff _ _).mpr stored.symm
  refine first.bind ((Returns.pure _).congr fun rounds => ?_)
  dsimp only
  rw [if_pos (.inr equal), equal]

theorem searchBlindiNode_point_miss (size : t.leaves = node.validLen)
    (lists : Lists node.blindiKeys node.subtrieArray 0 t)
    (missing : ∀ i, i < node.validLen → node.keys mem i ≠ x) :
    Returns (fun rounds => searchBlindiNode rounds mem node x .point)
      { position := blindLeaf (isNthBitSetInString x) t, hit := false,
        smallerThanNode := false, diffPos := 0
        largeSmall := false } := by
  have inside := blindLeaf_lt (isNthBitSetInString x) t
  have differ := compareStage_ne (Ne.symm (missing _ (size ▸ inside)))
  rw [SubTrieBlindiNode.keys] at differ
  refine (firstStage_returns (x := x) size lists).bind ((Returns.pure _).congr fun rounds => ?_)
  dsimp only
  rw [if_pos (.inl rfl), differ]

-- A predecessor search that misses stops next to the place of the key.
theorem searchBlindiNode_miss (size : t.leaves = node.validLen)
    (splits : Splits (keyBits c.keyLen) (node.keys mem) 0 t)
    (lists : Lists node.blindiKeys node.subtrieArray 0 t)
    (missing : ∀ i, i < node.validLen → node.keys mem i ≠ x) :
    ∃ f d large, Departs (keyBits c.keyLen) (node.keys mem) x 0 t.leaves f d large ∧
      Returns (fun rounds => searchBlindiNode rounds mem node x .predecessor)
        { position := gap d large t f - 1, hit := false,
          smallerThanNode := decide (gap d large t f = 0), diffPos := d
          largeSmall := large } := by
  obtain ⟨f, leaf⟩ : ∃ f, blindLeaf (isNthBitSetInString x) t = f := ⟨_, rfl⟩
  have best := blindLeaf_best (x := x) splits
  have inside := blindLeaf_lt (isNthBitSetInString x) t
  have first := firstStage_returns (x := x) size lists
  rw [leaf] at best inside first
  have differ := compareStage_ne (Ne.symm (missing f (by omega)))
  have correct := compareStage_correct x (node.keys mem f)
  obtain ⟨result, compare⟩ : ∃ result, compareStage x (node.keys mem f) = result := ⟨_, rfl⟩
  rw [compare] at differ correct
  have beside : Beside (keyBits c.keyLen) x result.position result.bigSmall
      (node.keys mem (0 + f)) := by
    rw [Nat.zero_add]
    cases side : result.bigSmall with
    | true => exact correct.big differ side
    | false => exact correct.small differ side
  have best' : BestIn (keyBits c.keyLen) (node.keys mem) x 0 (0 + t.leaves - 1) (0 + f) := by
    simpa only [Nat.zero_add] using best
  refine ⟨f, result.position, result.bigSmall, departs_of_best best' inside beside, ?_⟩
  obtain ⟨s, ends, low, high⟩ := secondStage_ends (d := result.position) (p := 0) lists inside
  rw [Nat.zero_add] at low high
  rw [size] at ends
  have second := ends.returns.map fun s : Walk =>
    if result.bigSmall then (s.keyPtrPos + s.n, false)
    else if s.keyPtrPos = 0 then (s.keyPtrPos, true)
    else (s.keyPtrPos - 1, false)
  have place : (if result.bigSmall then (s.keyPtrPos + s.n, false)
      else if s.keyPtrPos = 0 then (s.keyPtrPos, true) else (s.keyPtrPos - 1, false)) =
        (gap result.position result.bigSmall t f - 1,
        decide (gap result.position result.bigSmall t f = 0)) := by
    cases side : result.bigSmall with
    | true =>
      rw [if_pos rfl, ← high]
      simp
    | false =>
      rw [if_neg Bool.false_ne_true, ← low]
      by_cases zero : s.keyPtrPos = 0 <;> simp [zero]
  rw [place] at second
  refine first.bind ?_
  rw [show mem (node.keyPtr f) = node.keys mem f from rfl, compare]
  have answer := second.map fun found : Nat × Bool =>
    ({ position := found.1, hit := false, smallerThanNode := found.2, diffPos := result.position
       largeSmall := result.bigSmall } : SearchResult)
  refine answer.congr fun rounds => ?_
  rw [if_neg (by simp [differ]), differ]
  rfl

/-- What a search says: whether the key is stored and where, or where it would go. -/
structure SearchAnswer (mem : Addr → Bytes c.keyLen) (node : SubTrieBlindiNode) (x : Bytes c.keyLen)
    (searchType : SearchType) (r : SearchResult) : Prop where
  hit : r.hit = true ↔ ∃ i, i < node.validLen ∧ node.keys mem i = x
  found : r.hit = true → r.position < node.validLen ∧ node.keys mem r.position = x
  smaller : searchType = .predecessor → r.hit = false →
    (r.smallerThanNode = true ↔ ∀ i, i < node.validLen →
    (keyBits c.keyLen).Less x (node.keys mem i))
  largest : searchType = .predecessor → r.hit = false → r.smallerThanNode = false →
    r.position < node.validLen ∧
    (keyBits c.keyLen).Less (node.keys mem r.position) x ∧
    ∀ i, i < node.validLen → (keyBits c.keyLen).Less (node.keys mem i) x → i ≤ r.position

-- The keys before the gap are smaller than x, the others larger.
theorem sides_of_departs {k : Nat → Bytes c.keyLen} {large : Bool}
    (splits : Splits (keyBits c.keyLen) k 0 t)
    (departs : Departs (keyBits c.keyLen) k x 0 t.leaves f d large) :
    (∀ i, i < gap d large t f → (keyBits c.keyLen).Less (k i) x) ∧
      ∀ i, gap d large t f ≤ i → i < t.leaves → (keyBits c.keyLen).Less x (k i) := by
  have whole := splits.graft departs
  have le := gap_le d large t f
  rw [Nat.zero_add] at whole
  refine ⟨fun i hi => ?_, fun i hi hi' => ?_⟩
  · have less := whole.less (i := i) (j := gap d large t f) (Nat.zero_le _)
      hi (by rw [leaves_graft]; omega)
    rwa [insertAt_below _ _ hi, insertAt_self] at less
  · have less := whole.less (i := gap d large t f) (j := i + 1)
      (Nat.zero_le _) (by omega) (by rw [leaves_graft]; omega)
    rwa [insertAt_self, insertAt_succ _ _ hi] at less

-- Both kinds of search end; a key below the node has the position 0.
theorem search_placed (mem : Addr → Bytes c.keyLen) (node : SubTrieBlindiNode)
    (encodes : Encodes mem node) (x : Bytes c.keyLen) (searchType : SearchType) :
    ∃ r, Returns (fun rounds => searchBlindiNode rounds mem node x searchType) r ∧
      SearchAnswer mem node x searchType r ∧ (r.hit = true → r.smallerThanNode = false) ∧
      (searchType = .predecessor → r.hit = false → r.smallerThanNode = true → r.position = 0) := by
  obtain ⟨t, size, splits, lists⟩ := encodes.listed
  by_cases stored : ∃ i, i < node.validLen ∧ node.keys mem i = x
  · obtain ⟨i, bound, same⟩ := stored
    refine ⟨_, searchBlindiNode_hit size splits lists searchType bound same, ?_,
      fun _ => rfl, fun _ => nofun⟩
    exact ⟨⟨fun _ => ⟨i, bound, same⟩, fun _ => rfl⟩, fun _ => ⟨bound, same⟩, fun _ => nofun,
      fun _ => nofun⟩
  · have missing : ∀ i, i < node.validLen → node.keys mem i ≠ x :=
      fun i bound same => stored ⟨i, bound, same⟩
    cases searchType with
    | point =>
      refine ⟨_, searchBlindiNode_point_miss size lists missing, ?_, nofun, nofun⟩
      exact ⟨⟨nofun, fun h => absurd h stored⟩, nofun, nofun,
        nofun⟩
    | predecessor =>
      obtain ⟨f, d, large, departs, returns⟩ := searchBlindiNode_miss size splits lists missing
      obtain ⟨below, above⟩ := sides_of_departs splits departs
      have bound := gap_le d large t f
      have nonempty := t.leaves_pos
      refine ⟨_, returns, ⟨⟨nofun, fun h => absurd h stored⟩, nofun,
        fun _ _ => ?_, fun _ _ larger => ?_⟩, nofun, fun _ _ zero => ?_⟩
      · dsimp only
        rw [decide_eq_true_eq]
        refine ⟨fun zero i hi => above i (by omega) (by omega), fun all => ?_⟩
        by_contra positive
        exact (all 0 (by omega)).asymm (below 0 (by omega))
      · dsimp only at larger ⊢
        rw [decide_eq_false_iff_not] at larger
        refine ⟨by omega, below _ (by omega), fun i hi less => ?_⟩
        by_contra past
        exact less.asymm (above i (by omega) (by omega))
      · dsimp only at zero ⊢
        rw [decide_eq_true_eq] at zero
        rw [zero]

theorem searchBlindiNode_answer (mem : Addr → Bytes c.keyLen) (node : SubTrieBlindiNode)
    (encodes : Encodes mem node) (x : Bytes c.keyLen) (searchType : SearchType) :
    ∃ r, Returns (fun rounds => searchBlindiNode rounds mem node x searchType) r ∧
      SearchAnswer mem node x searchType r := by
  obtain ⟨r, returns, answer, _⟩ := search_placed mem node encodes x searchType
  exact ⟨r, returns, answer⟩

theorem sampleSlots_even : 6 % 2 = 0 := rfl

abbrev sampleParams : Params :=
  { numSlots := 6, keyLen := 1, even := sampleSlots_even, length := by decide }

def sampleKey (a : Addr) : Bytes 1 := Vector.replicate 1 (UInt8.ofNat a)

-- The keys 1, 2, 4 and 6.
def sampleNode : SubTrieBlindiNode :=
  { blindiKeys := fun i => [5, 6, 6].getD i 0
    subtrieArray := fun i => [2, 1, 1].getD i 0
    keyPtr := fun i => [1, 2, 4, 6].getD i 0
    validLen := 4 }

theorem sampleNode_encodes : Encodes (c := sampleParams) sampleKey sampleNode := by
  have compares : ∀ i : Nat, i < 4 → ∀ j : Nat, j < 4 → i < j →
      compareStage (sampleNode.keys (c := sampleParams) sampleKey i)
      (sampleNode.keys (c := sampleParams) sampleKey j) =
        { eq := false, bigSmall := false, position := if i / 2 = j / 2 then 6 else 5 } := by decide
  have small : ∀ i : Nat, i < 3 → sampleNode.blindiKeys i < sampleParams.bitidxSize := by decide
  refine ⟨by decide, by decide, fun i hi => small i (Nat.lt_of_succ_lt_succ hi),
    .branch 5 (.branch 6 .leaf .leaf) (.branch 6 .leaf .leaf), rfl,
    ⟨fun i j _ hi hj hj' => ?_, ⟨fun i j _ hi hj hj' => ?_,
      trivial, trivial⟩, fun i j hi hi' hj hj' => ?_, trivial, trivial⟩, rfl⟩
  all_goals
    simp only [leaves_branch, leaves_leaf] at *
    have result := compares i (by omega) j (by omega) (by omega)
  · rw [if_neg (by omega)] at result
    exact lessAt_of_compare result
  · rw [if_pos (by omega)] at result
    exact lessAt_of_compare result
  · rw [if_pos (by omega)] at result
    exact lessAt_of_compare result

theorem searchBlindiNode_answer_sample :
    ∃ r, Returns (fun rounds =>
      searchBlindiNode (c := sampleParams) rounds sampleKey sampleNode
        (sampleKey 5) .predecessor) r ∧
      SearchAnswer (c := sampleParams) sampleKey sampleNode (sampleKey 5) .predecessor r :=
  searchBlindiNode_answer (c := sampleParams) sampleKey sampleNode sampleNode_encodes
    (sampleKey 5) .predecessor

end ElasticIndex.SubTrie
