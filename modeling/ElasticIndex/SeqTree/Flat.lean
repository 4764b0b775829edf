import ElasticIndex.SeqTree.Widen

set_option autoImplicit false

namespace ElasticIndex.SeqTree

open SequenceEdit BitOrder BlindSequence CartesianTree CartesianTree.PosTree SlotTree

variable {c : Params} {mem : Addr → Bytes c.keyLen} {keys : Nat → Bytes c.keyLen}
  {keysPtr : Nat → Addr} {node : SeqTreeBlindiNode} {x : Bytes c.keyLen} {i n : Nat}

/-- The builds of the hybrid tree: no tree in a node, or one of at most two levels. -/
structure Params.Low (c : Params) : Prop where
  levels : c.treeLevels ≤ 2
  key : c.keyLen ≤ 31

theorem Params.Low.representable (low : c.Low) : c.Representable :=
  ⟨le_trans low.levels (by decide), le_trans low.key (by decide)⟩

theorem Params.Low.shallow (low : c.Low) (some : c.treeLevels ≠ 0) : c.Shallow := by
  have := low.levels
  exact ⟨by omega, low.key⟩

/-- Without a tree the search of a single key runs past the bits of the node. -/
structure Stocked (mem : Addr → Bytes c.keyLen) (node : SeqTreeBlindiNode) : Prop where
  wellFormed : WellFormed mem node
  several : 2 ≤ node.validLen

theorem searchFirstStage_flat (flat : c.treeLevels = 0) (small : c.Representable)
    (stocked : Stocked mem node) (x : Bytes c.keyLen) :
    Best (keyBits c.keyLen) (node.keys mem) node.validLen x (searchFirstStage c node x .zero).1 ∧
      (searchFirstStage c node x .zero).2.startBkSeqPos = 0 ∧
      (searchFirstStage c node x .zero).2.endBkSeqPos = min (node.validLen - 1)
      (node.validLen - 2) ∧
      (searchFirstStage c node x .zero).2.inTree = false := by
  obtain ⟨t, tree, cut⟩ := stocked.wellFormed.tree
  have none : ¬ 0 < c.treeLevels := by omega
  unfold searchFirstStage
  dsimp only
  rw [if_neg none]
  generalize start : Descent.mk 0 0 ((node.validLen : Int) - 2) false false false 1 .zero = s
  have init : AtPath mem node x t [] 0 (node.validLen - 1) s := by
    subst start
    exact {
      reaches := .root
      cover := covers_all
      pos := fun _ => rfl
      key := rfl
      start := .inr ⟨rfl, rfl, rfl⟩
      stop := .inr ⟨rfl, rfl, rfl⟩
      len := rfl
      inTree := rfl
      last := rfl
      turn := fun q d same => by simp at same }
  obtain ⟨best, _, _, first, last⟩ :=
    seqFirstStage_spec small stocked.wellFormed stocked.several ⟨Nat.zero_le _, le_rfl⟩ init
  exact ⟨best, first, last, init.inTree⟩

theorem searchBlindiNode_flat_hit (flat : c.treeLevels = 0) (small : c.Representable)
    (stocked : Stocked mem node) (type : SearchType) (stored : i < node.validLen)
    (same : node.keys mem i = x) :
    (searchBlindiNode mem node x type .zero).hit = true ∧
    (searchBlindiNode mem node x type .zero).position = i := by
  obtain ⟨best, _⟩ := searchFirstStage_flat flat small stocked x
  subst same
  have found := best.eq_of_stored stocked.wellFormed.blind stored
  unfold searchBlindiNode
  generalize searchFirstStage c node (node.keys mem i) .zero = stage at found
  obtain ⟨firstStagePos, passed⟩ := stage
  change firstStagePos = i at found
  subst found
  have eq : (compareStage (node.keys mem firstStagePos) (mem (node.keyPtr firstStagePos))).eq =
      true :=
    compareStage_self _
  dsimp only
  rw [if_pos (.inr eq)]
  exact ⟨eq, rfl⟩

theorem searchBlindiNode_flat_miss (flat : c.treeLevels = 0) (small : c.Representable)
    (stocked : Stocked mem node) {t : PosTree}
    (tree : IsCartesian node.blindiKeys 0 (node.validLen - 1) t)
    (missing : ∀ i, i < node.validLen → node.keys mem i ≠ x) :
    ∃ q f glo ghi, Located mem node x t q f glo ghi
      (searchBlindiNode mem node x .predecessor .zero) := by
  have wf := stocked.wellFormed
  obtain ⟨best, start, stop, inTree⟩ := searchFirstStage_flat flat small stocked x
  unfold searchBlindiNode
  generalize searchFirstStage c node x .zero = stage at best start stop inTree
  obtain ⟨f, passed⟩ := stage
  dsimp only at best start stop inTree ⊢
  have miss : (compareStage x (mem (node.keyPtr f))).eq = false :=
    compareStage_ne fun same => missing f best.bound same.symm
  have correct := compareStage_correct x (mem (node.keyPtr f))
  have above := correct.big miss
  have below := correct.small miss
  generalize compareStage x (mem (node.keyPtr f)) = compare at miss above below
  obtain ⟨eq, largeSmall, d⟩ := compare
  dsimp only at miss above below ⊢
  subst miss
  have differ : (keyBits c.keyLen).LessAt (node.keys mem f) x d ∨
      (keyBits c.keyLen).LessAt x (node.keys mem f) d := by
    cases largeSmall with
    | true => exact .inl (above rfl)
    | false => exact .inr (below rfl)
  rw [if_neg (by simp), if_neg fun some => absurd some.1 (by omega)]
  obtain ⟨glo, ghi, group⟩ := best.exists_group wf.blind differ
  have bound := group.bound
  obtain ⟨q, reaches⟩ :=
    Reaches.root.exists_group tree (Nat.zero_le glo) (le_trans group.left group.right) (by omega)
    group.deep (fun positive => group.prev (by omega)) fun lt => group.next (by omega)
  rw [searchSecondStageSeq_spec group stocked.several (Nat.zero_le glo)
    (show ghi ≤ node.validLen - 1 by omega) start stop]
  refine ⟨_, f, glo, ghi, rfl, best, above, below, group, reaches, rfl, fun some => ?_,
    fun _ => by omega⟩
  rw [inTree] at some
  cases some

-- The search of a node of the hybrid tree.
theorem Stocked.located (low : c.Low) (stocked : Stocked mem node)
    (missing : ∀ i, i < node.validLen → node.keys mem i ≠ x) :
    ∃ t q f glo ghi, IsCartesian node.blindiKeys 0 (node.validLen - 1) t ∧
    Cut c.endTree c.treeLevels node.blindiTree t ∧
      Located mem node x t q f glo ghi (searchBlindiNode mem node x .predecessor .zero) := by
  obtain ⟨t, tree, cut⟩ := stocked.wellFormed.tree
  by_cases flat : c.treeLevels = 0
  · obtain ⟨q, f, glo, ghi, found⟩ :=
      searchBlindiNode_flat_miss flat low.representable stocked tree missing
    exact ⟨t, q, f, glo, ghi, tree, cut, found⟩
  · obtain ⟨q, f, glo, ghi, found⟩ :=
      searchBlindiNode_miss low.representable stocked.wellFormed (by omega) tree cut .zero
      missing
    exact ⟨t, q, f, glo, ghi, tree, cut, found⟩

theorem Stocked.search (low : c.Low) (stocked : Stocked mem node) (x : Bytes c.keyLen) :
    let r := searchBlindiNode mem node x .predecessor .zero
    PredecessorAnswer mem node x r ∧ (r.hit = true → r.smallerThanNode = false) ∧
      (r.hit = false → r.smallerThanNode = true → r.position = 0) := by
  intro r
  have wf := stocked.wellFormed
  by_cases stored : ∃ i, i < node.validLen ∧ node.keys mem i = x
  · obtain ⟨i, bound, same⟩ := stored
    have found : r.hit = true ∧ r.position = i := by
      by_cases flat : c.treeLevels = 0
      · exact searchBlindiNode_flat_hit flat low.representable stocked .predecessor bound same
      · exact searchBlindiNode_hit low.representable wf (by omega) .predecessor .zero bound same
    exact ⟨answer_of_hit bound same found.1 found.2, searchBlindiNode_inner,
      fun miss => absurd (miss.symm.trans found.1) (by simp)⟩
  · have missing : ∀ i, i < node.validLen → node.keys mem i ≠ x :=
      fun i bound same => stored ⟨i, bound, same⟩
    obtain ⟨t, q, f, glo, ghi, _, _, found⟩ := stocked.located low missing
    exact ⟨found.answer wf missing, searchBlindiNode_inner, fun _ => found.first⟩

theorem Stocked.insert (low : c.Low) (stocked : Stocked mem node) {insertKey : Addr}
    (room : node.validLen < c.numSlots) (slots : c.numSlots < 65536)
    (missing : ∀ i, i < node.validLen → node.keys mem i ≠ mem insertKey) :
    InsertAnswer mem node insertKey (insert2BlindiNodeWithKey mem node insertKey) ∧
      Stocked mem (insert2BlindiNodeWithKey mem node insertKey).2 := by
  have wf := stocked.wellFormed
  have several := stocked.several
  have inside : node.validLen < c.endTree := by
    have even := c.even
    unfold Params.endTree Params.idxSize
    split_ifs <;> omega
  obtain ⟨t, q, f, glo, ghi, tree, cut, found⟩ := stocked.located low missing
  obtain ⟨wellFormed, validLen, keyPtr⟩ :=
    insert2BlindiNodeInPosition_spec low.representable wf inside room tree cut found
  have bound := found.group.bound
  have order := le_trans found.group.left found.group.right
  have free : ¬ node.validLen = c.numSlots % 65536 := by rw [Nat.mod_eq_of_lt slots]; omega
  unfold insert2BlindiNodeWithKey
  rw [if_neg free, if_pos (show node.validLen ≠ 0 by omega)]
  dsimp only
  rw [if_neg (by simp [found.miss])]
  refine ⟨⟨rfl, wellFormed, validLen, _, ?_, keyPtr⟩, wellFormed, by dsimp only; omega⟩
  cases (searchBlindiNode mem node (mem insertKey) .predecessor .zero).largeSmall <;>
    simp only [gapOf, if_true, Bool.false_eq_true, if_false, Bool.toNat_true,
    Bool.toNat_false] <;> omega

-- A node over h neighbouring keys, when nodes have no tree.
theorem WellFormed.flat_part (flat : c.treeLevels = 0) (wf : WellFormed mem node)
    {half : SeqTreeBlindiNode} {o h : Nat} (positive : 1 ≤ h) (window : o + h ≤ node.validLen)
    (len : half.validLen = h) (keyPtr : ∀ i, i < h → half.keyPtr i = node.keyPtr (o + i))
    (bits : ∀ i, i + 1 < h → half.blindiKeys i = node.blindiKeys (o + i)) :
    WellFormed mem half := by
  have fits := wf.fits
  have idx := wf.idx
  have blind : Blind (keyBits c.keyLen) (half.keys mem) half.blindiKeys h := by
    refine (wf.blind.window window).congr (fun i hi => ?_) bits
    rw [SeqTreeBlindiNode.keys, keyPtr i hi]
    rfl
  obtain ⟨t, cartesian⟩ := blind.exists_cartesian h 0 (h - 1) le_rfl (by omega)
  exact ⟨by omega, by omega, by omega, len ▸ blind, t, len ▸ cartesian,
    fun p short => absurd short (by omega)⟩

theorem splitBlindiNode_flat (flat : c.treeLevels = 0) (wf : WellFormed mem node)
    (full : node.validLen = c.numSlots) (nodeSmall nodeLarge : SeqTreeBlindiNode) :
    Halves mem node (splitBlindiNode c node nodeSmall nodeLarge) := by
  have nonempty := wf.nonempty
  have slots := c.even
  obtain ⟨h, even⟩ : ∃ h, node.validLen = 2 * h := ⟨node.validLen / 2, by omega⟩
  have half : node.validLen / 2 = h := by omega
  obtain ⟨⟨smallLen, largeLen⟩, keyPtr, bits⟩ :=
    splitBlindiNode_arrays node nodeSmall nodeLarge full even (by omega)
  generalize splitBlindiNode c node nodeSmall nodeLarge = r at smallLen largeLen keyPtr bits
  refine ⟨?_, ?_, ?_, ?_⟩
  · refine wf.flat_part (o := 0) flat (h := h) (by omega) (by omega) smallLen
      (fun i hi => ?_) fun i hi => ?_
    · rw [Nat.zero_add]
      exact (keyPtr i hi).1
    · rw [Nat.zero_add]
      exact (bits i hi).1
  · exact wf.flat_part flat (by omega) (by omega) largeLen (fun i hi => (keyPtr i hi).2) fun i hi =>
      (bits i hi).2
  · rw [smallLen, half, ← entries_take (by omega)]
    exact entries_congr fun i hi => (keyPtr i hi).1
  · rw [largeLen, half, ← entries_drop, show node.validLen - h = h by omega]
    exact entries_congr fun i hi => (keyPtr i hi).2

theorem Stocked.split (low : c.Low) (stocked : Stocked mem node) (full : node.validLen = c.numSlots)
    (slots : 4 ≤ c.numSlots) (nodeSmall nodeLarge : SeqTreeBlindiNode) :
    let r := splitBlindiNode c node nodeSmall nodeLarge
    Halves mem node r ∧ Stocked mem r.1 ∧ Stocked mem r.2 := by
  intro r
  have halves : Halves mem node r := by
    by_cases flat : c.treeLevels = 0
    · exact splitBlindiNode_flat flat stocked.wellFormed full nodeSmall nodeLarge
    · exact splitBlindiNode_parts (low.shallow flat).levels stocked.wellFormed
        (stocked.wellFormed.narrow (low.shallow flat)) full
        nodeSmall nodeLarge
  have first := congrArg List.length halves.first
  have second := congrArg List.length halves.second
  simp only [length_entries, List.length_take, List.length_drop] at first second
  exact ⟨halves, ⟨halves.small, by omega⟩, halves.large, by omega⟩

theorem transferKeys_entries (keys : Nat → Bytes c.keyLen) (keysPtr : Nat → Addr) (rest : Nat)
    (node : SeqTreeBlindiNode) (i : Nat) :
    let r := transferKeys c keys keysPtr rest i node
    (∀ j, i ≤ j → j < i + rest → r.keyPtr j = keysPtr j ∧
        r.blindiKeys j = (compareStage (keys j) (keys (j + 1))).position % c.bitidxSize) ∧
      ∀ j, j < i → r.keyPtr j = node.keyPtr j ∧ r.blindiKeys j = node.blindiKeys j := by
  induction rest generalizing i node with
  | zero => exact ⟨fun j _ _ => by omega, fun j _ => ⟨rfl, rfl⟩⟩
  | succ rest ih =>
    obtain ⟨inside, below⟩ := ih (transferKey c keys keysPtr i node) (i + 1)
    refine ⟨fun j le lt => ?_, fun j lt => ?_⟩
    · by_cases here : j = i
      · obtain ⟨keyPtr, bit⟩ := below j (by omega)
        rw [transferKeys, keyPtr, bit, here]
        exact ⟨Function.update_self _ _ _, Function.update_self _ _ _⟩
      · exact inside j (by omega) (by omega)
    · obtain ⟨keyPtr, bit⟩ := below j (by omega)
      rw [transferKeys, keyPtr, bit]
      exact ⟨Function.update_of_ne (by omega) _ _, Function.update_of_ne (by omega) _ _⟩

theorem transferBtree2blindi_flat (flat : c.treeLevels = 0) (key : c.keyLen ≤ 31)
    (source : Source c mem n keys keysPtr) (some : 1 ≤ n) (fits : n ≤ c.numSlots)
    (idx : n ≤ c.endTree) (target : SeqTreeBlindiNode) :
    let r := transferBtree2blindi c n keys keysPtr target
    WellFormed mem r ∧ r.validLen = n ∧ ∀ i, i < n → r.keyPtr i = keysPtr i := by
  intro r
  have size : c.endTree = c.idxSize - 1 := rfl
  have sentinel := endTree_eq c
  have validLen : r.validLen = n :=
    (transferBtree2blindi_validLen target).trans (Nat.mod_eq_of_lt (by omega))
  have unfolded : r = transferBtree2blindi c n keys keysPtr target := rfl
  rw [transferBtree2blindi] at unfolded
  generalize start : SeqTreeBlindiNode.mk _ _ _ target.keyPtr target.blindiKeys = node at unfolded
  obtain ⟨inside, _⟩ := transferKeys_entries keys keysPtr (n - 1) node 0
  have keyPtr (i : Nat) (hi : i < n) : r.keyPtr i = keysPtr i := by
    rw [unfolded]
    by_cases last : i = n - 1
    · rw [last]
      exact Function.update_self _ _ _
    · exact (Function.update_of_ne last _ _).trans (inside i (Nat.zero_le i) (by omega)).1
  have blind : Blind (keyBits c.keyLen) (r.keys mem) r.blindiKeys n := by
    refine source.blind.congr (fun i hi => ?_) fun i hi => ?_
    · rw [SeqTreeBlindiNode.keys, keyPtr i hi]
      exact source.stored i hi
    · rw [unfolded]
      refine ((inside i (Nat.zero_le i) (by omega)).2).trans (Nat.mod_eq_of_lt ?_)
      have bit : (compareStage (keys i) (keys (i + 1))).position < 8 * c.keyLen :=
        (source.blind i hi).inside
      rw [Params.bitidxSize, if_pos key]
      omega
  obtain ⟨t, cartesian⟩ := blind.exists_cartesian n 0 (n - 1) le_rfl (by omega)
  exact ⟨⟨by omega, by omega, by omega, validLen ▸ blind, t, validLen ▸ cartesian,
    fun p short => absurd short (by omega)⟩, validLen, keyPtr⟩

theorem transferBtree2blindi_stocked (low : c.Low)
    (source : Source c mem n keys keysPtr) (several : 2 ≤ n) (fits : n ≤ c.numSlots)
    (idx : n ≤ c.endTree) (target : SeqTreeBlindiNode) :
    let r := transferBtree2blindi c n keys keysPtr target
    Stocked mem r ∧ r.validLen = n ∧ ∀ i, i < n → r.keyPtr i = keysPtr i := by
  intro r
  have result : WellFormed mem r ∧ r.validLen = n ∧ ∀ i, i < n → r.keyPtr i = keysPtr i := by
    by_cases flat : c.treeLevels = 0
    · exact transferBtree2blindi_flat flat low.key source (by omega) fits idx target
    · exact transferBtree2blindi_wellFormed (low.shallow flat) source several fits idx target
  exact ⟨⟨result.1, by omega⟩, result.2⟩

theorem Stocked.widen (stocked : Stocked mem node) (full : node.validLen = c.numSlots)
    (widens : Widens c node) (leafNew : SeqTreeBlindiNode) :
    let r := transferBlindixtoblibdi2x c node leafNew
    Stocked (c := c.widened) mem r ∧ r.validLen = node.validLen ∧ ∀ i, i < node.validLen →
        r.keyPtr i = node.keyPtr i := by
  intro r
  have widened : Widened mem node r :=
    widens.widened stocked.wellFormed full leafNew
  exact ⟨⟨widened.wellFormed, le_of_le_of_eq stocked.several widened.validLen.symm⟩,
    widened.validLen, widened.keyPtr⟩

end ElasticIndex.SeqTree
