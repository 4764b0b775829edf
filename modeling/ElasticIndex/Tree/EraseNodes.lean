import ElasticIndex.SeqTree.Merge
import ElasticIndex.SeqTree.RemoveCorrect
import ElasticIndex.SubTrie.Merge
import ElasticIndex.SubTrie.Remove
import ElasticIndex.Tree.InsertIntact

set_option autoImplicit false

namespace ElasticIndex.SeqTree

open SequenceEdit BitOrder BlindSequence CartesianTree SlotTree

variable {c : Params}

-- CopyNode, for a node that holds no key; the loop and the assignment behind it copy every key_ptr.
def copyNode (node nodeLarge : SeqTreeBlindiNode) : SeqTreeBlindiNode :=
  { node with
    keyPtr := blit 0 0 nodeLarge.validLen nodeLarge.keyPtr node.keyPtr
    blindiKeys := blit 0 0 (nodeLarge.validLen - 1) nodeLarge.blindiKeys node.blindiKeys
    validLen := (node.validLen + nodeLarge.validLen) % c.idxSize
    blindiTree := if 0 < c.treeLevels then blit 0 0 c.treeSize nodeLarge.blindiTree node.blindiTree
      else node.blindiTree }

-- MergeBlindiNodes of GenericBlindiSeqTreeNode
def genericMergeBlindiNodes (mem : Addr → Bytes c.keyLen) (node largeNode : SeqTreeBlindiNode) :
    SeqTreeBlindiNode :=
  if node.validLen = 0 then copyNode (c := c) node largeNode
  else if largeNode.validLen = 0 then node
  else mergeBlindiNodes mem node largeNode

variable {mem : Addr → Bytes c.keyLen} {node nodeLarge : SeqTreeBlindiNode}

-- An emptied node takes the entries of the other one.
theorem copyNode_wellFormed (empty : node.validLen = 0) (wf : WellFormed mem nodeLarge) :
    WellFormed mem (copyNode (c := c) node nodeLarge) ∧
    (copyNode (c := c) node nodeLarge).validLen = nodeLarge.validLen ∧
      entries nodeLarge.validLen (copyNode (c := c) node nodeLarge).keyPtr =
      entries nodeLarge.validLen nodeLarge.keyPtr := by
  have copied {A : Type} (f g : Nat → A) {n i : Nat} (hi : i < n) : blit 0 0 n f g i = f i := by
    rw [blit, if_pos (by omega), Nat.sub_zero, Nat.zero_add]
  have idx := wf.idx
  have nonempty := wf.nonempty
  have validLen : (copyNode (c := c) node nodeLarge).validLen = nodeLarge.validLen := by
    change (node.validLen + nodeLarge.validLen) % c.idxSize = nodeLarge.validLen
    rw [empty, Nat.zero_add]
    refine Nat.mod_eq_of_lt ?_
    unfold Params.endTree at idx
    omega
  have keyPtr {i : Nat} (hi : i < nodeLarge.validLen) :
    (copyNode (c := c) node nodeLarge).keyPtr i = nodeLarge.keyPtr i := copied _ _ hi
  have blindiKeys {i : Nat} (hi : i + 1 < nodeLarge.validLen) :
      (copyNode (c := c) node nodeLarge).blindiKeys i = nodeLarge.blindiKeys i :=
      copied _ _ (by omega)
  obtain ⟨t, tree, cut⟩ := wf.tree
  refine ⟨⟨by rw [validLen]; exact nonempty, by rw [validLen]; exact wf.fits,
    by rw [validLen]; exact idx, ?_, t, ?_, ?_⟩, validLen,
    entries_congr fun i hi => keyPtr hi⟩
  · rw [validLen]
    exact wf.blind.congr (fun i hi => congrArg mem (keyPtr hi)) fun i hi => blindiKeys hi
  · rw [validLen]
    exact tree.congr fun i _ hi => blindiKeys (by omega)
  · intro p short
    have slot_ : slot p < c.treeSize := slot_lt_of_length short
    change (if 0 < c.treeLevels then blit 0 0 c.treeSize nodeLarge.blindiTree node.blindiTree
      else node.blindiTree) (slot p) = _
    rw [if_pos (show 0 < c.treeLevels by omega), copied _ _ slot_]
    exact cut p short

end ElasticIndex.SeqTree

namespace ElasticIndex.Tree

open Separators SequenceEdit BitOrder BlindTrie Loop

section Keys

variable {K N : Type} [LinearOrder K] {T : NodeType K N} {mem : Addr → K}
  {node node' : N} {x : K} {p : Nat}

omit [LinearOrder K] in
theorem mem_keys : x ∈ T.keys mem node ↔ ∃ i, i < T.getValidLen node ∧
    mem (T.getKeyPtr node i) = x := by
  simp [NodeType.keys, NodeType.pointers, mem_entries]

theorem keys_erase (increasing : (T.keys mem node).Pairwise (· < ·))
    (bound : p < T.getValidLen node) (same : mem (T.getKeyPtr node p) = x)
    (pointers : T.pointers node' = (T.pointers node).eraseIdx p) :
    T.keys mem node' = (T.keys mem node).erase x := by
  obtain ⟨lt, here⟩ :=
    List.getElem?_eq_some_iff.mp ((keys_getElem node bound).trans (congrArg some same))
  rw [← here, List.Nodup.erase_getElem (increasing.imp fun h => h.ne) p lt,
    keys_of_pointers pointers, ← List.eraseIdx_map]
  rfl

omit [LinearOrder K] in
theorem keys_append {small large : N}
    (pointers : T.pointers node = T.pointers small ++ T.pointers large) :
    T.keys mem node = T.keys mem small ++ T.keys mem large := by
  rw [keys_of_pointers pointers, List.map_append]
  rfl

end Keys

section SubTrie

variable (c : SubTrie.Params)

-- new stands for the arrays in which MergeBlindiNodes builds the entries.
def subTrieErase (blank : SubTrie.SubTrieBlindiNode) (new : SubTrie.EntryArrays) :
    EraseType (Key c.keyLen) SubTrie.SubTrieBlindiNode where
  toNodeType := subTrieType c blank
  removeFromBlindiNodeWithKey rounds mem node key :=
    (SubTrie.removeFromBlindiNodeWithKey (c := c) rounds mem node key).map Prod.snd
  mergeBlindiNodes rounds mem small large :=
    SubTrie.mergeBlindiNodes (c := c) rounds mem new small large

variable {c} {mem : Addr → Key c.keyLen} {node : SubTrie.SubTrieBlindiNode} {x : Key c.keyLen}

-- An emptied node takes the entries of the other one.
theorem copyNode_encodes (encodes : SubTrie.Encodes (c := c) mem node)
    (old : SubTrie.SubTrieBlindiNode) :
    SubTrie.Encodes (c := c) mem (SubTrie.copyNode old node) ∧
      entries node.validLen (SubTrie.copyNode old node).keyPtr =
      entries node.validLen node.keyPtr := by
  have copied {A : Type} (f g : Nat → A) {n i : Nat} (hi : i < n) : blit 0 0 n f g i = f i := by
    rw [blit, if_pos (by omega), Nat.sub_zero, Nat.zero_add]
  obtain ⟨t, size, splits, lists⟩ := encodes.listed
  refine ⟨SubTrie.encodes_of_lists (t := t) encodes.fits encodes.idx size
    (splits.congr fun i _ hi => ?_) (encodes.under size lists)
    (lists.congr fun i _ hi => ⟨copied _ _ (by omega), copied _ _ (by omega)⟩),
    entries_congr fun i hi => copied _ _ hi⟩
  exact congrArg mem (copied _ _ (by omega))

-- A stored key goes, also the last one.
theorem remove_stored (encodes : SubTrie.Encodes (c := c) mem node) {p : Nat}
    (bound : p < node.validLen) (same : node.keys (c := c) mem p = x) :
    ∃ r, Returns (fun rounds => SubTrie.removeFromBlindiNodeWithKey (c := c) rounds mem node x) r ∧
      (2 ≤ node.validLen → SubTrie.Encodes (c := c) mem r.2) ∧ r.2.validLen = node.validLen - 1 ∧
      entries r.2.validLen r.2.keyPtr = (entries node.validLen node.keyPtr).eraseIdx p := by
  obtain ⟨t, size, splits, lists⟩ := encodes.listed
  have search := SubTrie.searchBlindiNode_hit (c := c) size splits lists .point bound same
  unfold SubTrie.removeFromBlindiNodeWithKey
  by_cases one : node.validLen = 1
  · refine ⟨(.nodeEmpty, { node with validLen := 0 }), search.bind ?_, fun two => by omega,
      by dsimp only; omega, ?_⟩
    · simp only [Bool.true_eq_false, if_false, if_pos one]
      exact Returns.pure _
    · obtain rfl : p = 0 := by omega
      rw [one]
      rfl
  · obtain ⟨node', returns, pruned⟩ :=
      SubTrie.removeFromBlindiNodeInPosition_returns (c := c) size splits lists
      (p := p) (by omega) bound
    have mapped := returns.map fun found : RemoveResult × SubTrie.SubTrieBlindiNode =>
      if found.2.validLen < c.numSlots / 2 ∧ found.1 = .success
        then (RemoveResult.underflow, found.2) else found
    obtain ⟨r, answer⟩ : ∃ r,
      (if node'.validLen < c.numSlots / 2 ∧ RemoveResult.success = .success then
      (RemoveResult.underflow, node') else (.success, node')) = r := ⟨_, rfl⟩
    have node_ : r.2 = node' := by
      rw [← answer]
      split_ifs <;> rfl
    rw [answer] at mapped
    refine ⟨r, search.bind ?_, fun two => ?_, by rw [node_]; exact pruned.validLen, ?_⟩
    · simp only [Bool.true_eq_false, if_false, if_neg one]
      exact mapped
    · rw [node_]
      exact pruned.encodes encodes size two bound
    · rw [node_, pruned.validLen, entries_congr pruned.keyPtr, entries_eraseAt bound]

-- Nodes of which one may have been emptied.
theorem merge_stored (length : c.keyLen ≤ 8192) {small large : SubTrie.SubTrieBlindiNode}
    (new : SubTrie.EntryArrays)
    (validSmall : SubTrie.Encodes (c := c) mem small ∨ small.validLen = 0)
    (validLarge : SubTrie.Encodes (c := c) mem large ∨ large.validLen = 0)
    (one : SubTrie.Encodes (c := c) mem small ∨ SubTrie.Encodes (c := c) mem large)
    (below : ∀ i j, i < small.validLen → j < large.validLen →
      (keyBits c.keyLen).Less (small.keys (c := c) mem i) (large.keys (c := c) mem j))
    (fits : small.validLen + large.validLen ≤ c.numSlots) (slots : c.numSlots < 65536) :
    ∃ node, Returns (fun rounds => SubTrie.mergeBlindiNodes (c := c) rounds mem new small large)
    node ∧ SubTrie.Encodes (c := c) mem node ∧
      entries node.validLen node.keyPtr = entries small.validLen small.keyPtr ++
      entries large.validLen large.keyPtr := by
  by_cases emptySmall : small.validLen = 0
  · have valid := one.resolve_left fun encodes => by
      have := encodes.nonempty
      omega
    obtain ⟨encodes, keyPtr⟩ := copyNode_encodes valid small
    refine ⟨SubTrie.copyNode small large, (Returns.pure _).congr fun rounds => ?_, encodes, ?_⟩
    · unfold SubTrie.mergeBlindiNodes
      rw [if_pos emptySmall]
    · rw [emptySmall]
      exact keyPtr
  · have encodes := validSmall.resolve_right emptySmall
    by_cases emptyLarge : large.validLen = 0
    · refine ⟨small, (Returns.pure _).congr fun rounds => ?_, encodes, ?_⟩
      · unfold SubTrie.mergeBlindiNodes
        rw [if_neg emptySmall, if_pos emptyLarge]
      · rw [emptyLarge]
        exact (List.append_nil _).symm
    · obtain ⟨merged, returns, joined⟩ :=
        SubTrie.merge_joined (c.bits_fit length) mem encodes
        (validLarge.resolve_right emptyLarge) below
        fits (c.length_fits fits (by omega)) new
      exact ⟨merged, returns, joined.encodes, joined.keyPtr⟩

theorem subTrieErase_lawful (length : c.keyLen ≤ 8192) (slots : 1 ≤ c.numSlots)
    (slots' : c.numSlots < 65536) (mem : Addr → Key c.keyLen) (blank : SubTrie.SubTrieBlindiNode)
    (new : SubTrie.EntryArrays) :
    (subTrieErase c blank new).Lawful mem c.numSlots
    (SubTrie.Encodes (c := c) mem) fun _ _ => True where
  toLawful := subTrie_lawful length slots slots' mem blank
  point := by
    intro node encodes x
    obtain ⟨r, returns, answer, -⟩ := SubTrie.search_placed mem node encodes x .point
    refine ⟨_, returns.map _,
      answer.hit.trans (mem_keys (T := subTrieType c blank)).symm, fun hit => ?_⟩
    obtain ⟨lt, same⟩ := answer.found hit
    exact (keys_getElem (T := subTrieType c blank) node lt).trans (congrArg some same)
  remove := by
    intro node x encodes stored _
    have increasing := (subTrie_lawful length slots slots' mem blank).increasing encodes
    have nonempty := encodes.nonempty
    obtain ⟨p, bound, same⟩ := (mem_keys (T := subTrieType c blank)).mp stored
    obtain ⟨r, returns, valid, validLen, keyPtr⟩ := remove_stored encodes bound same
    refine ⟨r.2, returns.map Prod.snd, fun some_ => valid ?_,
      keys_erase (T := subTrieType c blank) increasing bound same keyPtr⟩
    have more : 1 ≤ r.2.validLen := some_
    omega
  merge := by
    intro small large validSmall validLarge one apart fits
    obtain ⟨node, returns, encodes, keyPtr⟩ :=
      merge_stored (c := c) length new validSmall validLarge one
      (fun i j hi hj => apart _ (mem_keys.mpr ⟨i, hi, rfl⟩) _ (mem_keys.mpr ⟨j, hj, rfl⟩)) fits
        slots'
    exact ⟨node, returns, encodes, keys_append (T := subTrieType c blank) keyPtr⟩

end SubTrie

section SeqTree

variable (c : SeqTree.Params)

def seqTreeErase (blank : SeqTree.SeqTreeBlindiNode) :
    EraseType (Key c.keyLen) SeqTree.SeqTreeBlindiNode where
  toNodeType := seqTreeType c blank
  removeFromBlindiNodeWithKey _ mem node key :=
    some (SeqTree.removeFromBlindiNodeWithKey (c := c) mem node key).2
  mergeBlindiNodes _ mem small large :=
    some (SeqTree.genericMergeBlindiNodes (c := c) mem small large)

variable {c} {mem : Addr → Key c.keyLen} {node : SeqTree.SeqTreeBlindiNode} {x : Key c.keyLen}

-- The keys that a removal takes out of a node without leaving a stale root behind: all but the
-- smaller of two.
def Removable (mem : Addr → Key c.keyLen) (node : SeqTree.SeqTreeBlindiNode)
    (x : Key c.keyLen) : Prop :=
  ¬ (node.validLen = 2 ∧ node.keys (c := c) mem 0 = x)

instance decidableRemovable (mem : Addr → Key c.keyLen) (node : SeqTree.SeqTreeBlindiNode)
    (x : Key c.keyLen) :
    Decidable (Removable mem node x) :=
  inferInstanceAs (Decidable (¬ (node.validLen = 2 ∧ (mem (node.keyPtr 0) : Key c.keyLen) = x)))

theorem seqTree_remove_stored (below : BitsBelow c) (wf : SeqTree.WellFormed (c := c) mem node)
    (removable : Removable mem node x) {p : Nat} (bound : p < node.validLen)
    (same : node.keys (c := c) mem p = x) :
    let r := (SeqTree.removeFromBlindiNodeWithKey (c := c) mem node x).2
    (1 ≤ r.validLen → SeqTree.WellFormed (c := c) mem r) ∧
      entries r.validLen r.keyPtr = (entries node.validLen node.keyPtr).eraseIdx p := by
  intro r
  have small := below.representable
  have positive : 1 ≤ c.treeLevels := by rcases below.levels with one | two <;> omega
  obtain ⟨hit, position⟩ :=
    SeqTree.searchBlindiNode_hit (c := c) small wf positive .point .zero bound same
  have eq : r = (SeqTree.removeFromBlindiNodeInPosition c node p).2 := by
    change (SeqTree.removeFromBlindiNodeWithKey (c := c) mem node x).2 = _
    unfold SeqTree.removeFromBlindiNodeWithKey
    dsimp only
    rw [if_neg (by rw [hit]; simp), position]
    split_ifs <;> rfl
  have nonempty := wf.nonempty
  by_cases several : 2 ≤ node.validLen
  · have narrow : node.Narrow c := fun i hi => lt_of_lt_of_le (wf.blind i hi).inside below.key
    obtain ⟨_, wellFormed, validLen, keyPtr⟩ :=
      SeqTree.removeFromBlindiNodeInPosition_spec (c := c) below.levels wf narrow several bound
      (fun both => removable ⟨both.1, by rw [← both.2]; exact same⟩)
    rw [← eq] at wellFormed validLen keyPtr
    exact ⟨fun _ => wellFormed, by rw [validLen, entries_congr keyPtr, entries_eraseAt bound]⟩
  · have zero : r.validLen = 0 := by
      rw [eq, SeqTree.removeFromBlindiNodeInPosition, if_pos (by omega), if_neg (by omega)]
    refine ⟨fun some_ => by omega, ?_⟩
    obtain rfl : p = 0 := by omega
    rw [zero, show node.validLen = 1 by omega]
    rfl

theorem seqTreeErase_lawful (below : BitsBelow c) (slots : 1 ≤ c.numSlots)
    (slots' : c.numSlots < 65536) (mem : Addr → Key c.keyLen) (blank : SeqTree.SeqTreeBlindiNode) :
    (seqTreeErase c blank).Lawful mem c.numSlots (SeqTree.WellFormed (c := c) mem)
    (Removable mem) where
  toLawful := seqTree_lawful below slots slots' mem blank
  point := by
    intro node wf x
    have small := below.representable
    have positive : 1 ≤ c.treeLevels := by rcases below.levels with one | two <;> omega
    have hit := SeqTree.searchBlindiNode_hit_iff (c := c) (x := x) small wf positive .point .zero
    refine ⟨_, Returns.pure _,
      hit.trans (mem_keys (T := seqTreeType c blank)).symm, fun found => ?_⟩
    obtain ⟨i, bound, same⟩ := hit.mp found
    have position := (SeqTree.searchBlindiNode_hit (c := c) small wf positive .point
      .zero bound same).2
    dsimp only
    rw [position]
    exact (keys_getElem (T := seqTreeType c blank) node bound).trans (congrArg some same)
  remove := by
    intro node x wf stored removable
    have increasing := (seqTree_lawful below slots slots' mem blank).increasing wf
    obtain ⟨p, bound, same⟩ := (mem_keys (T := seqTreeType c blank)).mp stored
    obtain ⟨valid, keyPtr⟩ := seqTree_remove_stored below wf removable bound same
    exact ⟨_, Returns.pure _, valid,
      keys_erase (T := seqTreeType c blank) increasing bound same keyPtr⟩
  merge := by
    intro small large validSmall validLarge one apart fits
    have levels : 1 ≤ c.treeLevels ∧ c.treeLevels ≤ 16 := by
      rcases below.levels with one | two <;> omega
    have key : c.keyLen ≤ 8192 := by
      have := below.key
      have := SeqTree.endTree_eq c
      omega
    refine ⟨_, Returns.pure _, ?_⟩
    suffices SeqTree.WellFormed (c := c) mem
      (SeqTree.genericMergeBlindiNodes (c := c) mem small large) ∧
        entries (SeqTree.genericMergeBlindiNodes (c := c) mem small large).validLen
          (SeqTree.genericMergeBlindiNodes (c := c) mem small large).keyPtr =
          entries small.validLen small.keyPtr ++ entries large.validLen large.keyPtr from
      ⟨this.1, keys_append (T := seqTreeType c blank) this.2⟩
    unfold SeqTree.genericMergeBlindiNodes
    split_ifs with emptySmall emptyLarge
    · have wf := one.resolve_left fun wf => by
        have := wf.nonempty
        omega
      obtain ⟨wellFormed, validLen, keyPtr⟩ := SeqTree.copyNode_wellFormed emptySmall wf
      exact ⟨wellFormed, by rw [validLen, emptySmall]; exact keyPtr⟩
    · exact ⟨validSmall.resolve_right emptySmall,
        by rw [emptyLarge]; exact (List.append_nil _).symm⟩
    · have joined := SeqTree.merge_joined (c := c) levels.1 levels.2 (c.bits_fit key) mem
        (validSmall.resolve_right emptySmall)
        (validLarge.resolve_right emptyLarge) (c.length_fits slots' fits) fits
        fun i hi j hj => apart _ (mem_keys.mpr ⟨i, hi, rfl⟩) _ (mem_keys.mpr ⟨j, hj, rfl⟩)
      exact ⟨joined.wellFormed, joined.entries⟩

end SeqTree

end ElasticIndex.Tree
