import ElasticIndex.SeqTree.SearchBounds
import ElasticIndex.SeqTree.InsertCorrect
import ElasticIndex.SubTrie.Insert

set_option autoImplicit false

namespace ElasticIndex

open Loop BitOrder BlindSequence BlindTrie CartesianTree CartesianTree.PosTree SlotTree

namespace SeqTree

variable {c : Params} {mem : Addr → Bytes c.keyLen} {node : SeqTreeBlindiNode} {x : Bytes c.keyLen}

theorem succ_mod_ne (c : Params) (n : Nat) (inside : n ≤ c.endTree) : (n + 1) % c.idxSize ≠ n := by
  have size : c.endTree = c.idxSize - 1 := rfl
  have sentinel := endTree_eq c
  intro same
  rcases Nat.lt_or_eq_of_le inside with lt | rfl
  · rw [Nat.mod_eq_of_lt (by omega)] at same
    omega
  · rw [show c.endTree + 1 = c.idxSize by omega, Nat.mod_self] at same
    omega

/-- What the upsert of a key pointer is to do, key by key. -/
structure Upserts (mem : Addr → Bytes c.keyLen) (node : SeqTreeBlindiNode) (key : Addr)
    (r : InsertResult × SeqTreeBlindiNode) : Prop where
  stored : ∀ i, i < node.validLen → node.keys mem i = mem key →
    r = (.duplicatedKey, { node with keyPtr := Function.update node.keyPtr i key })
  absent : (∀ i, i < node.validLen → node.keys mem i ≠ mem key) → node.validLen < c.numSlots →
    r = insert2BlindiNodeWithKey mem node key
  full : (∀ i, i < node.validLen → node.keys mem i ≠ mem key) → node.validLen = c.numSlots →
    r = (.overflow, node)

theorem upsert_stored_ne {i : Nat} (wf : WellFormed mem node) {key : Addr}
    (bound : i < node.validLen) :
    upsert2BlindiNodeWithKey mem node key ≠
      (.duplicatedKey, { node with keyPtr := Function.update node.keyPtr i key }) := by
  intro same
  have len : (upsert2BlindiNodeWithKey mem node key).2.validLen = node.validLen := by rw [same]
  have result : (upsert2BlindiNodeWithKey mem node key).1 = .duplicatedKey := by rw [same]
  have some : node.validLen ≠ 0 := by omega
  unfold upsert2BlindiNodeWithKey at len result
  rw [if_neg some] at len result
  dsimp only at len result
  by_cases full : node.validLen = c.numSlots ∧
      (searchBlindiNode mem node (mem key) .predecessor .zero).hit = false
  · rw [if_pos full] at result
    cases result
  · rw [if_neg full] at len
    dsimp only at len
    rw [insert2BlindiNodeInPosition_validLen] at len
    exact succ_mod_ne c _ wf.idx len

-- An upsert does what it is to do when the key is absent and NUM_SLOTS is not cut to the length of
-- a node with room.
theorem upserts_iff (ready : node.validLen = 0 ∧ 1 ≤ c.numSlots ∨ WellFormed mem node)
    (key : Addr) :
    Upserts mem node key (upsert2BlindiNodeWithKey mem node key) ↔
      (∀ i, i < node.validLen → node.keys mem i ≠ mem key) ∧
        ¬ (node.validLen < c.numSlots ∧ node.validLen = c.numSlots % 65536) := by
  constructor
  · intro upserts
    have absent : ∀ i, i < node.validLen → node.keys mem i ≠ mem key := by
      intro i bound same
      rcases ready with ⟨empty, _⟩ | wf
      · omega
      · exact upsert_stored_ne wf bound (upserts.stored i bound same)
    refine ⟨absent, fun ⟨room, cut⟩ => ?_⟩
    have same := upserts.absent absent room
    have result : (upsert2BlindiNodeWithKey mem node key).1 = .overflow := by
      rw [same, insert2BlindiNodeWithKey, if_pos cut]
    unfold upsert2BlindiNodeWithKey at result
    dsimp only at result
    split_ifs at result with empty full hit
    exact absurd full.1 (by omega)
  · rintro ⟨absent, uncut⟩
    refine ⟨fun i bound same => absurd same (absent i bound), fun _ room => ?_, fun _ full => ?_⟩
    · have open_ : ¬ node.validLen = c.numSlots % 65536 := fun cut => uncut ⟨room, cut⟩
      unfold upsert2BlindiNodeWithKey insert2BlindiNodeWithKey
      by_cases empty : node.validLen = 0
      · rw [if_pos empty, if_neg open_, if_neg (by omega)]
      · have wf := ready.resolve_left fun first => empty first.1
        have miss : (searchBlindiNode mem node (mem key) .predecessor .zero).hit = false := by
          rw [Bool.eq_false_iff]
          intro hit
          obtain ⟨i, bound, same⟩ := searchBlindiNode_hit_stored wf hit
          exact absent i bound same
        rw [if_neg empty, if_neg open_, if_pos empty]
        dsimp only
        rw [if_neg (by omega), miss]
        simp
    · have some : node.validLen ≠ 0 := by
        rcases ready with ⟨empty, slots⟩ | wf
        · omega
        · have := wf.nonempty
          omega
      have wf := ready.resolve_left fun first => some first.1
      have miss : (searchBlindiNode mem node (mem key) .predecessor .zero).hit = false := by
        rw [Bool.eq_false_iff]
        intro hit
        obtain ⟨i, bound, same⟩ := searchBlindiNode_hit_stored wf hit
        exact absent i bound same
      unfold upsert2BlindiNodeWithKey
      rw [if_neg some]
      dsimp only
      rw [if_pos ⟨full, miss⟩]

end SeqTree

namespace SubTrie

variable {c : Params} {mem : Addr → Bytes c.keyLen} {node : SubTrieBlindiNode} {key : Addr}

structure Upserts (mem : Addr → Bytes c.keyLen) (node : SubTrieBlindiNode) (key : Addr)
    (f : Nat → Option (InsertResult × SubTrieBlindiNode)) : Prop where
  stored : ∀ i, i < node.validLen → node.keys mem i = mem key →
    Returns f (.duplicatedKey, { node with keyPtr := Function.update node.keyPtr i key })
  absent : (∀ i, i < node.validLen → node.keys mem i ≠ mem key) → node.validLen < c.numSlots →
    ∀ r, Returns f r ↔ Returns (fun rounds => insert2BlindiNodeWithKey rounds mem node key) r
  full : (∀ i, i < node.validLen → node.keys mem i ≠ mem key) → node.validLen = c.numSlots →
    Returns f (.overflow, node)

theorem succ_mod_ne {n : Nat} (inside : n < c.idxSize) : (n + 1) % c.idxSize ≠ n := by
  have wide : 256 ≤ c.idxSize := by
    unfold Params.idxSize
    split_ifs <;> omega
  intro same
  by_cases last : n + 1 = c.idxSize
  · rw [last, Nat.mod_self] at same
    omega
  · rw [Nat.mod_eq_of_lt (by omega)] at same
    omega

-- A hit reaches the insertion with a differing bit of 0, and a second entry is put in front of the
-- trie.
theorem upsert_stored (encodes : Encodes mem node) {i : Nat} (bound : i < node.validLen)
    (same : node.keys mem i = mem key) :
    ∃ node', Returns (fun rounds => upsert2BlindiNodeWithKey rounds mem node key)
      (.duplicatedKey, node') ∧
      node'.validLen = (node.validLen + 1) % c.idxSize := by
  obtain ⟨t, size, splits, lists⟩ := encodes.listed
  have search := searchBlindiNode_hit size splits lists .predecessor bound same
  have inserted (rounds : Nat) : insert2BlindiNodeInPosition c (rounds + 1) node i
    key 0 false false =
      some (putEntry c node key i 0 false false
        { keyPtrPos := 0, blindiKeyPos := 0, n := node.validLen - 1, k := i,
          subtrieArray := node.subtrieArray }) := by
    unfold insert2BlindiNodeInPosition
    rw [run, insertStep, if_neg (by simp), Option.map_some]
  refine ⟨putEntry c node key i 0 false false
    { keyPtrPos := 0, blindiKeyPos := 0, n := node.validLen - 1, k := i,
      subtrieArray := node.subtrieArray }, ?_, rfl⟩
  unfold upsert2BlindiNodeWithKey
  simp only [if_neg (show node.validLen ≠ 0 by omega)]
  refine search.bind ⟨1, fun rounds le => ?_⟩
  obtain ⟨rest, rfl⟩ := Nat.exists_eq_add_of_le' le
  simp only [Bool.true_eq_false, and_false, if_false, if_true]
  rw [inserted, Option.map_some]

theorem upserts_iff (ready : node.validLen = 0 ∧ 1 ≤ c.numSlots ∨ Encodes mem node) (key : Addr) :
    Upserts mem node key (fun rounds => upsert2BlindiNodeWithKey rounds mem node key) ↔
      ∀ i, i < node.validLen → node.keys mem i ≠ mem key := by
  constructor
  · intro upserts i bound same
    rcases ready with ⟨empty, _⟩ | encodes
    · omega
    · obtain ⟨node', returns, len⟩ := upsert_stored encodes bound same
      have one := congrArg (fun r => r.2.validLen) (returns.unique (upserts.stored i bound same))
      dsimp only at one
      rw [len] at one
      exact succ_mod_ne encodes.idx one
  · intro absent
    by_cases empty : node.validLen = 0
    · have slots : 1 ≤ c.numSlots := by
        rcases ready with ⟨_, slots⟩ | encodes
        · exact slots
        · have := encodes.nonempty
          omega
      refine ⟨fun i bound => by omega, fun _ _ r => ?_, fun _ full => by omega⟩
      unfold upsert2BlindiNodeWithKey insert2BlindiNodeWithKey
      simp only [if_pos empty, if_neg (show ¬ node.validLen = c.numSlots by omega),
        if_neg (not_not.mpr empty)]
    · have encodes := ready.resolve_left fun first => empty first.1
      obtain ⟨t, size, splits, lists⟩ := encodes.listed
      obtain ⟨f, d, large, _, bound, search⟩ := searchBlindiNode_miss size splits lists absent
      dsimp only at search
      refine ⟨fun i inside same => absurd same (absent i inside),
        fun _ room r => ?_, fun _ full => ?_⟩
      · have same : ∀ rounds, bound ≤ rounds → upsert2BlindiNodeWithKey rounds mem node key =
            insert2BlindiNodeWithKey rounds mem node key := by
          intro rounds le
          unfold upsert2BlindiNodeWithKey insert2BlindiNodeWithKey
          rw [if_neg empty, if_neg room.ne, if_pos empty, search rounds le,
            Option.bind_some, Option.bind_some, if_neg (by simp [room.ne]), if_neg (by simp)]
          rfl
        exact ⟨Returns.of_eventually fun rounds le => (same rounds le).symm,
          Returns.of_eventually same⟩
      · refine ⟨bound, fun rounds le => ?_⟩
        dsimp only
        unfold upsert2BlindiNodeWithKey
        rw [if_neg empty, search rounds le, Option.bind_some, if_pos ⟨full, rfl⟩]

end SubTrie

-- The upserts of both nodes replace no pointer: they are right exactly for absent keys.
theorem upsert2BlindiNodeWithKey_iff (key : Addr) :
    (∀ (c : SeqTree.Params) (mem : Addr → Bytes c.keyLen) (node : SeqTree.SeqTreeBlindiNode),
      node.validLen = 0 ∧ 1 ≤ c.numSlots ∨ SeqTree.WellFormed mem node →
        (SeqTree.Upserts mem node key (SeqTree.upsert2BlindiNodeWithKey mem node key) ↔
          (∀ i, i < node.validLen → node.keys mem i ≠ mem key) ∧
            ¬ (node.validLen < c.numSlots ∧ node.validLen = c.numSlots % 65536))) ∧
    (∀ (c : SubTrie.Params) (mem : Addr → Bytes c.keyLen) (node : SubTrie.SubTrieBlindiNode),
      node.validLen = 0 ∧ 1 ≤ c.numSlots ∨ SubTrie.Encodes mem node →
        (SubTrie.Upserts mem node key
          (fun rounds => SubTrie.upsert2BlindiNodeWithKey rounds mem node key) ↔
          ∀ i, i < node.validLen → node.keys mem i ≠ mem key)) :=
  ⟨fun _ _ _ ready => SeqTree.upserts_iff ready key,
    fun _ _ _ ready => SubTrie.upserts_iff ready key⟩

theorem upsert2BlindiNodeWithKey_iff_sample :
    (SeqTree.Upserts (c := SeqTree.sampleParams) SeqTree.sampleKey SeqTree.sampleNode 3
      (SeqTree.upsert2BlindiNodeWithKey (c := SeqTree.sampleParams) SeqTree.sampleKey
        SeqTree.sampleNode 3) ↔
        (∀ i, i < 3 → SeqTree.sampleNode.keys (c := SeqTree.sampleParams) SeqTree.sampleKey i ≠
          SeqTree.sampleKey 3) ∧
          ¬ (3 < 6 ∧ 3 = 6 % 65536)) ∧
    (SubTrie.Upserts (c := SubTrie.sampleParams) SubTrie.sampleKey SubTrie.sampleNode 5
      (fun rounds => SubTrie.upsert2BlindiNodeWithKey (c := SubTrie.sampleParams)
        rounds SubTrie.sampleKey
        SubTrie.sampleNode 5) ↔
          ∀ i, i < SubTrie.sampleNode.validLen →
            SubTrie.sampleNode.keys (c := SubTrie.sampleParams) SubTrie.sampleKey i ≠
              SubTrie.sampleKey 5) :=
  ⟨(upsert2BlindiNodeWithKey_iff 3).1 SeqTree.sampleParams SeqTree.sampleKey SeqTree.sampleNode
      (.inr SeqTree.sampleNode_wellFormed),
    (upsert2BlindiNodeWithKey_iff 5).2 SubTrie.sampleParams SubTrie.sampleKey SubTrie.sampleNode
      (.inr SubTrie.sampleNode_encodes)⟩

-- The upsert of a pointer to a stored key, into a node of either kind.
theorem upsert2BlindiNodeWithKey_duplicates :
    (SeqTree.WellFormed (c := SeqTree.sampleParams) SeqTree.sampleKey SeqTree.sampleNode ∧
      ¬ SeqTree.Upserts (c := SeqTree.sampleParams) SeqTree.sampleKey SeqTree.sampleNode 1
        (SeqTree.upsert2BlindiNodeWithKey (c := SeqTree.sampleParams) SeqTree.sampleKey
          SeqTree.sampleNode 1)) ∧
    SubTrie.Encodes (c := SubTrie.sampleParams) SubTrie.sampleKey SubTrie.sampleNode ∧
      ¬ SubTrie.Upserts (c := SubTrie.sampleParams) SubTrie.sampleKey SubTrie.sampleNode 1
        (fun rounds => SubTrie.upsert2BlindiNodeWithKey (c := SubTrie.sampleParams) rounds
            SubTrie.sampleKey SubTrie.sampleNode 1) := by
  refine ⟨⟨SeqTree.sampleNode_wellFormed, fun upserts => ?_⟩, SubTrie.sampleNode_encodes,
    fun upserts => ?_⟩
  · have absent := (SeqTree.upserts_iff (.inr SeqTree.sampleNode_wellFormed) _).mp upserts
    exact absent.1 0 (by decide) rfl
  · have absent := (SubTrie.upserts_iff (.inr SubTrie.sampleNode_encodes) _).mp upserts
    exact absent 0 (by decide) rfl

end ElasticIndex
