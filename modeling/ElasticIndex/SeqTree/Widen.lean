import ElasticIndex.SeqTree.Convert
import ElasticIndex.SeqTree.Merge

set_option autoImplicit false

namespace ElasticIndex.SeqTree

open SequenceEdit BitOrder BlindSequence CartesianTree CartesianTree.PosTree SlotTree

variable (c : Params)

-- The node type of twice the capacity.
abbrev Params.widened : Params :=
  { treeLevels := c.treeLevels, numSlots := 2 * c.numSlots, keyLen := c.keyLen, even := by omega }

-- The bytes of blindiTree, the low byte of an entry first.
def getPtr2blindiTree (node : SeqTreeBlindiNode) : Nat → Nat :=
  fun i => if c.idxSize = 256 then node.blindiTree i % 256
    else node.blindiTree (i / 2) / 256 ^ (i % 2) % 256

-- TREE_LEVEL_HYBRID is 0, so the tree is always copied. node is the target with whatever it held.
def transferNode (oldNodeLen : Nat) (oldblindiKeys : Nat → Nat) (oldkeyPtr : Nat → Addr)
    (oldblindiTree : Nat → Nat) (node : SeqTreeBlindiNode) : SeqTreeBlindiNode :=
  { validLen := oldNodeLen % c.idxSize
    blindiTree := if 0 < c.treeLevels then blit 0 0 c.treeSize oldblindiTree node.blindiTree
      else node.blindiTree
    currentMaxSlot := if c.numSlots < c.numSlots / 2 + breathingBlindiSize then c.numSlots % 65536
      else c.numSlots % 65536 / 2 + breathingBlindiSize
    keyPtr := Function.update (blit 0 0 (oldNodeLen - 1) oldkeyPtr node.keyPtr) (oldNodeLen - 1)
      (oldkeyPtr (oldNodeLen - 1))
    blindiKeys := blit 0 0 (oldNodeLen - 1) oldblindiKeys node.blindiKeys }

def transferBlindixtoblibdi2x (leafOld leafNew : SeqTreeBlindiNode) : SeqTreeBlindiNode :=
  transferNode c.widened leafOld.validLen leafOld.blindiKeys leafOld.keyPtr
    (getPtr2blindiTree c leafOld) leafNew

variable {c} {mem : Addr → Bytes c.keyLen} {node old : SeqTreeBlindiNode}

theorem Params.Representable.widened (small : c.Representable) : c.widened.Representable :=
  ⟨small.depth, small.key⟩

/-- Two searches that say the same about the key; a point search that misses says nothing more. -/
structure SameAnswer (type : SearchType) (r r' : SearchResult) : Prop where
  hit : r.hit = r'.hit
  found : r.hit = true → r.position = r'.position
  smaller : type = .predecessor → r.hit = false → r.smallerThanNode = r'.smallerThanNode
  largest : type = .predecessor → r.hit = false → r.smallerThanNode = false →
    r.position = r'.position

structure Widened (mem : Addr → Bytes c.keyLen) (old new : SeqTreeBlindiNode) : Prop where
  wellFormed : WellFormed (c := c.widened) mem new
  validLen : new.validLen = old.validLen
  keyPtr : ∀ i, i < old.validLen → new.keyPtr i = old.keyPtr i
  answers : c.Representable → 1 ≤ c.treeLevels →
    ∀ (x : Bytes c.keyLen) (type : SearchType) (traverse : Traverse),
    SameAnswer type (searchBlindiNode mem old x type traverse)
      (searchBlindiNode (c := c.widened) mem new x type traverse)

-- The copy keeps the tree when both index types are bytes, when no slot has to become the wider
-- END_TREE, or when the only slot of a wide tree fits a byte.
def Widens (c : Params) (old : SeqTreeBlindiNode) : Prop :=
  2 * c.numSlots < 254 ∨
    c.numSlots < 254 ∧ 254 ≤ 2 * c.numSlots ∧ (∀ s, s < c.treeSize → old.blindiTree s ≠ c.endTree) ∨
    254 ≤ c.numSlots ∧ (c.treeLevels = 0 ∨ c.treeLevels = 1 ∧ old.blindiTree 0 < 256)

theorem transferBlindixtoblibdi2x_arrays (wf : WellFormed mem old) (leafNew : SeqTreeBlindiNode) :
    let new := transferBlindixtoblibdi2x c old leafNew
    new.validLen = old.validLen ∧ (∀ i, i < old.validLen → new.keyPtr i = old.keyPtr i) ∧
      (∀ i, i + 1 < old.validLen → new.blindiKeys i = old.blindiKeys i) ∧
      ∀ s, s < c.treeSize → new.blindiTree s = getPtr2blindiTree c old s := by
  intro new
  have idx := wf.idx
  have size : c.endTree = c.idxSize - 1 := rfl
  have wider : c.idxSize ≤ c.widened.idxSize := by
    unfold Params.idxSize
    dsimp only
    split_ifs <;> omega
  have nonempty := wf.nonempty
  refine ⟨Nat.mod_eq_of_lt (by omega), fun i hi => ?_, fun i hi => ?_, fun s hs => ?_⟩
  · change Function.update (blit 0 0 (old.validLen - 1) old.keyPtr leafNew.keyPtr)
      (old.validLen - 1)
      (old.keyPtr (old.validLen - 1)) i = _
    by_cases last : i = old.validLen - 1
    · rw [last, Function.update_self]
    · rw [Function.update_of_ne last, blit, if_pos (by omega)]
      simp
  · change blit 0 0 (old.validLen - 1) old.blindiKeys leafNew.blindiKeys i = _
    rw [blit, if_pos (by omega)]
    simp
  · have levels : 0 < c.treeLevels := by
      by_contra none
      have zero : c.treeLevels = 0 := by omega
      rw [Params.treeSize, zero] at hs
      exact absurd hs (Nat.not_lt_zero s)
    change (if 0 < c.treeLevels
      then blit 0 0 c.treeSize (getPtr2blindiTree c old) leafNew.blindiTree
      else leafNew.blindiTree) s = _
    rw [if_pos levels, blit, if_pos (by omega)]
    simp

-- A slot is empty in both nodes, or holds the same position.
theorem WellFormed.slots {new : SeqTreeBlindiNode} (wf : WellFormed mem old)
    (wf' : WellFormed (c := c.widened) mem new) (len : new.validLen = old.validLen)
    (bits : ∀ i, i + 1 < old.validLen → new.blindiKeys i = old.blindiKeys i) (s : Nat)
    (inside : s < c.treeSize) :
    old.blindiTree s = c.endTree ∧ new.blindiTree s = c.widened.endTree ∨
      old.blindiTree s = new.blindiTree s ∧ old.blindiTree s + 1 < old.validLen := by
  obtain ⟨t, tree, cut⟩ := wf.tree
  obtain ⟨t', tree', cut'⟩ := wf'.tree
  rw [len] at tree'
  obtain rfl := tree'.unique (tree.congr fun i _ hi => bits i (by omega))
  obtain ⟨p, rfl⟩ := exists_path s
  have short := length_of_slot_lt inside
  rw [cut p short, cut' p short]
  cases root : (t'.sub p).root with
  | none => exact .inl ⟨rfl, rfl⟩
  | some m =>
    have := tree.sub_bounds root
    exact .inr ⟨rfl, by rw [Option.getD_some]; omega⟩

theorem searchBlindiNode_same {new : SeqTreeBlindiNode} (small : c.Representable)
    (levels : 1 ≤ c.treeLevels) (wf : WellFormed mem old)
    (wf' : WellFormed (c := c.widened) mem new) (len : new.validLen = old.validLen)
    (keyPtr : ∀ i, i < old.validLen → new.keyPtr i = old.keyPtr i) (x : Bytes c.keyLen)
    (type : SearchType) (traverse : Traverse) :
    SameAnswer type (searchBlindiNode mem old x type traverse)
      (searchBlindiNode (c := c.widened) mem new x type traverse) := by
  have keys (i : Nat) (hi : i < old.validLen) :
      SeqTreeBlindiNode.keys (c := c.widened) new mem i = old.keys mem i := by
    unfold SeqTreeBlindiNode.keys
    rw [keyPtr i hi]
  have stored : (∃ i, i < new.validLen ∧ SeqTreeBlindiNode.keys (c := c.widened) new mem i = x) ↔
      ∃ i, i < old.validLen ∧ old.keys mem i = x := by
    rw [len]
    exact exists_congr fun i => and_congr_right fun hi => by rw [keys i hi]
  have hit : (searchBlindiNode mem old x type traverse).hit =
      (searchBlindiNode (c := c.widened) mem new x type traverse).hit := by
    rw [Bool.eq_iff_iff, searchBlindiNode_hit_iff small wf levels,
      searchBlindiNode_hit_iff (c := c.widened) small.widened wf' levels]
    exact stored.symm
  refine ⟨hit, fun found => ?_, ?_, ?_⟩
  · obtain ⟨i, bound, same⟩ := (searchBlindiNode_hit_iff small wf levels type traverse).mp found
    have here := searchBlindiNode_hit small wf levels type traverse bound same
    have there := searchBlindiNode_hit (c := c.widened) small.widened wf' levels type traverse
      (i := i) (by omega)
      ((keys i bound).trans same)
    rw [here.2, there.2]
  · rintro rfl miss
    have here := (searchBlindiNode_placed small wf levels x traverse).1
    have there := (searchBlindiNode_placed (c := c.widened) small.widened wf' levels x traverse).1
    rw [Bool.eq_iff_iff, here.smaller miss, there.smaller (hit ▸ miss), len]
    exact forall_congr' fun i => imp_congr_right fun hi => by rw [keys i hi]
  · rintro rfl miss larger
    have here := (searchBlindiNode_placed small wf levels x traverse).1
    have there := (searchBlindiNode_placed (c := c.widened) small.widened wf' levels x traverse).1
    have larger' : (searchBlindiNode (c := c.widened) mem new x .predecessor
        traverse).smallerThanNode = false := by
      by_contra small'
      rw [Bool.not_eq_false, there.smaller (hit ▸ miss), len] at small'
      have all := (here.smaller miss).mpr fun i hi => by
        have less := small' i hi
        rwa [keys i hi] at less
      rw [all] at larger
      cases larger
    obtain ⟨bound, less, most⟩ := here.largest miss larger
    obtain ⟨bound', less', most'⟩ := there.largest (hit ▸ miss) larger'
    rw [len] at bound' most'
    rw [keys _ bound'] at less'
    refine le_antisymm (most' _ bound ?_) (most _ bound' less')
    rw [keys _ bound]
    exact less

theorem getPtr2blindiTree_narrow (narrow : c.numSlots < 254) (s : Nat) :
    getPtr2blindiTree c old s = old.blindiTree s % 256 := by
  have size : c.idxSize = 256 := if_pos narrow
  rw [getPtr2blindiTree, if_pos size]

theorem getPtr2blindiTree_wide (wide : 254 ≤ c.numSlots) (s : Nat) :
    getPtr2blindiTree c old s = old.blindiTree (s / 2) / 256 ^ (s % 2) % 256 := by
  have size : c.idxSize = 65536 := if_neg (by omega)
  rw [getPtr2blindiTree, if_neg (by omega)]

theorem endTree_narrow (narrow : c.numSlots < 254) : c.endTree = 255 := by
  rw [Params.endTree, Params.idxSize, if_pos narrow]

theorem endTree_wide (wide : 254 ≤ c.numSlots) : c.endTree = 65535 := by
  rw [Params.endTree, Params.idxSize, if_neg (by omega)]

theorem one_lt_treeSize (levels : 2 ≤ c.treeLevels) : 2 < c.treeSize := by
  have power : 2 ^ 2 ≤ 2 ^ c.treeLevels := Nat.pow_le_pow_right (by decide) levels
  unfold Params.treeSize
  omega

-- Two bytes of one wide entry cannot stand for two entries, let alone for three.
theorem not_copied_wide {new : SeqTreeBlindiNode} (wf : WellFormed mem old)
    (wf' : WellFormed (c := c.widened) mem new) (len : new.validLen = old.validLen)
    (bits : ∀ i, i + 1 < old.validLen → new.blindiKeys i = old.blindiKeys i)
    (copied : ∀ s, s < c.treeSize → new.blindiTree s = getPtr2blindiTree c old s)
    (several : 2 ≤ old.validLen) (wide : 254 ≤ c.numSlots) (levels : 2 ≤ c.treeLevels) : False := by
  have size := one_lt_treeSize levels
  have same (s : Nat) (inside : s < 3) := wf.slots wf' len bits s (by omega)
  have sentinel := endTree_wide wide
  have sentinel' : c.widened.endTree = 65535 := endTree_wide (by dsimp only; omega)
  have byte (s : Nat) (inside : s < 3) :=
    (copied s (by omega)).trans (getPtr2blindiTree_wide wide s)
  have root := wf.root_of_several (by omega) several
  have inside := root.right
  have top := same 0 (by omega)
  have left := same 1 (by omega)
  have right := same 2 (by omega)
  have byte0 := byte 0 (by omega)
  have byte1 := byte 1 (by omega)
  have byte2 := byte 2 (by omega)
  simp only [Nat.zero_div, Nat.zero_mod, pow_zero, Nat.div_one, Nat.reduceDiv, Nat.reduceMod,
    pow_one] at byte0 byte1 byte2
  have small : old.blindiTree 0 < 256 := by omega
  have leftZero : old.blindiTree 1 = 0 := by omega
  have rightZero : new.blindiTree 2 = 0 := by omega
  obtain ⟨_, below⟩ := wf.children (by omega) several
  have rightEntry : old.blindiTree 2 = 0 := by omega
  rcases below with ⟨_, none⟩ | min
  · omega
  · have := min.left
    omega

theorem Widens.of_widened {new : SeqTreeBlindiNode} (wf : WellFormed mem old)
    (full : old.validLen = c.numSlots) (wf' : WellFormed (c := c.widened) mem new)
    (len : new.validLen = old.validLen)
    (bits : ∀ i, i + 1 < old.validLen → new.blindiKeys i = old.blindiKeys i)
    (copied : ∀ s, s < c.treeSize → new.blindiTree s = getPtr2blindiTree c old s) :
    Widens c old := by
  by_cases both : 2 * c.numSlots < 254
  · exact .inl both
  by_cases narrow : c.numSlots < 254
  · refine .inr (.inl ⟨narrow, by omega, fun s inside none => ?_⟩)
    have sentinel' : c.widened.endTree = 65535 := endTree_wide (by dsimp only; omega)
    have byte := (copied s inside).trans (getPtr2blindiTree_narrow narrow s)
    have sentinel := endTree_narrow narrow
    rcases wf.slots wf' len bits s inside with ⟨_, none'⟩ | ⟨_, bound⟩
    · omega
    · omega
  · refine .inr (.inr ⟨by omega, ?_⟩)
    by_cases none : c.treeLevels = 0
    · exact .inl none
    by_cases one : c.treeLevels = 1
    · refine .inr ⟨one, ?_⟩
      have size : 0 < c.treeSize := by
        rw [Params.treeSize, one]
        decide
      have byte := (copied 0 size).trans (getPtr2blindiTree_wide (by omega) 0)
      have root := (wf.root_of_several (by omega) (by omega)).right
      have sentinel := endTree_wide (c := c) (by omega)
      simp only [Nat.zero_div, Nat.zero_mod, pow_zero, Nat.div_one] at byte
      rcases wf.slots wf' len bits 0 size with ⟨none, _⟩ | ⟨same, _⟩
      · have := wf.idx
        omega
      · omega
    · exact (not_copied_wide wf wf' len bits copied (by omega) (by omega) (by omega)).elim

theorem Widens.copied (widens : Widens c old) {t : PosTree}
    (tree : IsCartesian old.blindiKeys 0 (old.validLen - 1) t)
    (cut : Cut c.endTree c.treeLevels old.blindiTree t) (full : old.validLen = c.numSlots) :
    Cut c.widened.endTree c.treeLevels (getPtr2blindiTree c old) t := by
  intro p short
  have inside := slot_lt_of_length short
  have slot_ := cut p short
  have bound (m : Nat) (root : (t.sub p).root = some m) : m + 1 < old.validLen := by
    have := tree.sub_bounds root
    omega
  rcases widens with narrow | ⟨narrow, wide, present⟩ | ⟨wide, none | ⟨one, byte⟩⟩
  · have sentinel := endTree_narrow (c := c) (by omega)
    have sentinel' : c.widened.endTree = 255 := endTree_narrow narrow
    rw [getPtr2blindiTree_narrow (by omega), slot_, sentinel, sentinel']
    cases root : (t.sub p).root with
    | none => rfl
    | some m =>
      have := bound m root
      exact Nat.mod_eq_of_lt (by rw [Option.getD_some]; omega)
  · have here := present (slot p) inside
    rw [getPtr2blindiTree_narrow narrow, slot_]
    rw [slot_] at here
    cases root : (t.sub p).root with
    | none =>
      rw [root] at here
      exact absurd rfl here
    | some m =>
      have := bound m root
      exact Nat.mod_eq_of_lt (by rw [Option.getD_some]; omega)
  · omega
  · obtain rfl : p = [] := List.length_eq_zero_iff.mp (by omega)
    rw [slot_nil] at slot_
    rw [slot_nil, getPtr2blindiTree_wide wide, Nat.zero_div, Nat.zero_mod, pow_zero, Nat.div_one,
      Nat.mod_eq_of_lt byte, slot_, sub_nil]
    obtain ⟨m, root⟩ := tree.root_of_lt (by omega)
    rw [root]
    rfl

theorem Widens.widened {mem : Addr → Bytes c.keyLen} {old : SeqTreeBlindiNode}
    (widens : Widens c old) (wf : WellFormed mem old) (full : old.validLen = c.numSlots)
    (leafNew : SeqTreeBlindiNode) : Widened mem old (transferBlindixtoblibdi2x c old leafNew) := by
  obtain ⟨len, keyPtr, bits, copied⟩ := transferBlindixtoblibdi2x_arrays wf leafNew
  generalize transferBlindixtoblibdi2x c old leafNew = new at len keyPtr bits copied
  obtain ⟨t, tree, cut⟩ := wf.tree
  have nonempty := wf.nonempty
  have sentinel := endTree_eq c.widened
  have idx : new.validLen ≤ c.widened.endTree := by
    have := wf.idx
    have wider : c.endTree ≤ c.widened.endTree := by
      unfold Params.endTree Params.idxSize
      dsimp only
      split_ifs <;> omega
    omega
  have wf' : WellFormed (c := c.widened) mem new := by
    refine ⟨by omega, by dsimp only; omega, idx, ?_, t, ?_, fun p short => ?_⟩
    · rw [len]
      refine wf.blind.congr (fun i hi => ?_) bits
      unfold SeqTreeBlindiNode.keys
      rw [keyPtr i hi]
    · rw [len]
      exact tree.congr fun i _ hi => bits i (by omega)
    · rw [copied _ (slot_lt_of_length short)]
      exact widens.copied tree cut full p short
  exact ⟨wf', len, keyPtr, fun small levels x type traverse =>
    searchBlindiNode_same small levels wf wf' len keyPtr x type traverse⟩

-- Widening a full node keeps its contents exactly when the copied bytes are its tree in the wider
-- type.
theorem transferNode_widened (mem : Addr → Bytes c.keyLen) (old : SeqTreeBlindiNode)
    (wf : WellFormed mem old) (full : old.validLen = c.numSlots) (leafNew : SeqTreeBlindiNode) :
    Widened mem old (transferBlindixtoblibdi2x c old leafNew) ↔ Widens c old := by
  refine ⟨fun widened => ?_, fun widens => widens.widened wf full leafNew⟩
  obtain ⟨len, keyPtr, bits, copied⟩ := transferBlindixtoblibdi2x_arrays wf leafNew
  exact Widens.of_widened wf full widened.wellFormed len bits copied

theorem transferNode_widened_sample :
    Widened (c := sampleParams) sampleKey fullNode
      (transferBlindixtoblibdi2x sampleParams fullNode fullNode) :=
  (transferNode_widened (c := sampleParams) sampleKey fullNode fullNode_wellFormed rfl fullNode).mpr
    (.inl (by decide))

-- From 128 to 256 slots: the empty slot 1 is copied as 255, which the wider type takes for a
-- position.
abbrev chainParams : Params := { treeLevels := 2, numSlots := 128, keyLen := 16, even := rfl }

theorem chainNode_not_widened :
    WellFormed (c := chainParams) (chainKey 16) (chainNode chainParams 128 0) ∧
      (chainNode chainParams 128 0).validLen = chainParams.numSlots ∧
      ¬ Widened (c := chainParams) (chainKey 16) (chainNode chainParams 128 0)
        (transferBlindixtoblibdi2x chainParams (chainNode chainParams 128 0) emptyNode) := by
  have wf : WellFormed (c := chainParams) (chainKey 16) (chainNode chainParams 128 0) :=
    chainNode_wellFormed (by decide) (by decide) (by decide) (by decide)
  refine ⟨wf, rfl, fun widened => ?_⟩
  obtain ⟨len, _, bits, copied⟩ := transferBlindixtoblibdi2x_arrays wf emptyNode
  rcases Widens.of_widened wf rfl widened.wellFormed len bits copied
    with narrow | ⟨_, _, present⟩ | ⟨wide, _⟩
  · revert narrow
    decide
  · exact present 1 (by decide) (by decide)
  · revert wide
    decide

end ElasticIndex.SeqTree
