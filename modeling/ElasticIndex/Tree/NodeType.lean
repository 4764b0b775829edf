import Mathlib.Order.RelClasses
import ElasticIndex.SeqTree.Split
import ElasticIndex.SubTrie.Split
import ElasticIndex.SubTrie.Insert

set_option autoImplicit false

namespace ElasticIndex.Tree

open BitOrder SequenceEdit Loop

-- Keys of a type whose operator< is the order of CompareStage.
def Key (len : Nat) : Type := Bytes len

def keyLess {len : Nat} (x y : Key len) : Prop := (keyBits len).Less x y

instance decidableLess (len : Nat) : DecidableRel (@keyLess len) := fun x y =>
  decidable_of_iff ((compareStage x y).eq = false ∧ (compareStage x y).bigSmall = false) <| by
    constructor
    · rintro ⟨miss, small⟩
      exact ((compareStage_correct x y).small miss small).less
    · rintro ⟨d, less⟩
      rw [compareStage_of_less less]
      exact ⟨rfl, rfl⟩

instance strictTotalOrder (len : Nat) : IsStrictTotalOrder (Key len) keyLess where
  trichotomous x y first second := by
    rcases less_trichotomy (B := keyBits len) x y with less | same | more
    · exact absurd less first
    · exact same
    · exact absurd more second
  irrefl x := less_irrefl x
  trans _ _ _ h g := h.trans g

instance linearOrder (len : Nat) : LinearOrder (Key len) := linearOrderOfSTO keyLess

structure Found where
  position : Nat
  hit : Bool
  smallerThanNode : Bool
  deriving DecidableEq, Repr

/-- What the B+trees use of their blindi nodes; rounds bounds the loops of a call, and a new node
has no key. -/
structure NodeType (K N : Type) where
  blank : N
  getValidLen : N → Nat
  getKeyPtr : N → Nat → Addr
  searchBlindiNode : Nat → (Addr → K) → N → K → SearchType → Option Found
  insert2BlindiNodeWithKey : Nat → (Addr → K) → N → Addr → Option (InsertResult × N)
  splitBlindiNode : Nat → N → N → N → Option (N × N)

variable {K N : Type} [LinearOrder K]

namespace NodeType

def pointers (T : NodeType K N) (node : N) : List Addr :=
  entries (T.getValidLen node) (T.getKeyPtr node)

def keys (T : NodeType K N) (mem : Addr → K) (node : N) : List K := (T.pointers node).map mem

end NodeType

/-- The answer of a PREDECESSOR_SEARCH in increasing keys. -/
structure Predecessor (keys : List K) (x : K) (r : Found) : Prop where
  hit : r.hit = true ↔ x ∈ keys
  found : r.hit = true → keys[r.position]? = some x ∧ r.smallerThanNode = false
  smaller : r.hit = false → (r.smallerThanNode = true ↔ ∀ k ∈ keys, x < k)
  first : r.hit = false → r.smallerThanNode = true → r.position = 0
  largest : r.hit = false → r.smallerThanNode = false →
    ∃ k, keys[r.position]? = some k ∧ k < x ∧ ∀ i k', keys[i]? = some k' → k' < x → i ≤ r.position

/-- The nodes the operations keep, with what each operation does to their keys. -/
structure NodeType.Lawful (T : NodeType K N) (mem : Addr → K) (slots : Nat)
    (Valid : N → Prop) : Prop where
  blank : T.getValidLen T.blank = 0
  nonempty : ∀ {node}, Valid node → 1 ≤ T.getValidLen node
  increasing : ∀ {node}, Valid node → (T.keys mem node).Pairwise (· < ·)
  first : ∀ key, ∃ node, Returns (fun rounds => T.insert2BlindiNodeWithKey rounds mem T.blank key)
    (.success, node) ∧
    Valid node ∧ T.pointers node = [key]
  insert : ∀ {node key}, Valid node → T.getValidLen node < slots → mem key ∉ T.keys mem node →
    ∃ node', Returns (fun rounds => T.insert2BlindiNodeWithKey rounds mem node key) (.success,
    node') ∧ Valid node' ∧
      ∃ p, p ≤ T.getValidLen node ∧ T.pointers node' = (T.pointers node).insertIdx p key
  split : ∀ {node}, Valid node → T.getValidLen node = slots →
    ∃ small large, Returns (fun rounds => T.splitBlindiNode rounds node T.blank T.blank) (small,
    large) ∧ Valid small ∧
      Valid large ∧ T.pointers small = (T.pointers node).take (slots / 2) ∧
      T.pointers large = (T.pointers node).drop (slots / 2)
  search : ∀ {node}, Valid node →
    ∀ x, ∃ r, Returns (fun rounds => T.searchBlindiNode rounds mem node x .predecessor) r ∧
    Predecessor (T.keys mem node) x r

-- Increasing keys given by position.
theorem predecessor_of_positions {n : Nat} {k : Nat → K} {x : K} {r : Found}
    (increasing : ∀ i j, i < j → j < n → k i < k j)
    (hit : r.hit = true ↔ ∃ i, i < n ∧ k i = x)
    (found : r.hit = true → r.position < n ∧ k r.position = x)
    (inside : r.hit = true → r.smallerThanNode = false)
    (smaller : r.hit = false → (r.smallerThanNode = true ↔ ∀ i, i < n → x < k i))
    (first : r.hit = false → r.smallerThanNode = true → r.position = 0)
    (largest : r.hit = false → r.smallerThanNode = false →
      r.position < n ∧ k r.position < x ∧ ∀ i, i < n → k i < x → i ≤ r.position) :
    (entries n k).Pairwise (· < ·) ∧ Predecessor (entries n k) x r := by
  have at_ {i : Nat} (lt : i < n) : (entries n k)[i]? = some (k i) := by
    simp [entries, lt]
  refine ⟨?_, ⟨hit.trans mem_entries.symm, fun h => ⟨?_, inside h⟩, fun h => (smaller h).trans ?_,
    first, fun h g => ?_⟩⟩
  · rw [List.pairwise_iff_getElem]
    intro i j hi hj lt
    rw [getElem_entries, getElem_entries]
    exact increasing i j lt (by simpa using hj)
  · obtain ⟨lt, same⟩ := found h
    rw [at_ lt, same]
  · simp [entries]
  · obtain ⟨lt, less, most⟩ := largest h g
    refine ⟨k r.position, at_ lt, less, fun i k' here below => ?_⟩
    have lt' : i < n := by simpa using (List.getElem?_eq_some_iff.mp here).1
    rw [at_ lt'] at here
    exact most i lt' (Option.some.inj here ▸ below)

section SeqTree

variable (c : SeqTree.Params)

-- The arrays of a new node hold nothing in particular.
def seqTreeType (blank : SeqTree.SeqTreeBlindiNode) :
    NodeType (Key c.keyLen) SeqTree.SeqTreeBlindiNode where
  blank := { blank with validLen := 0 }
  getValidLen node := node.validLen
  getKeyPtr node := node.keyPtr
  searchBlindiNode _ mem node key type :=
    let r := SeqTree.searchBlindiNode (c := c) mem node key type .zero
    some { position := r.position, hit := r.hit, smallerThanNode := r.smallerThanNode }
  insert2BlindiNodeWithKey _ mem node key :=
    some (SeqTree.insert2BlindiNodeWithKey (c := c) mem node key)
  splitBlindiNode _ node small large := some (SeqTree.splitBlindiNode c node small large)

variable {c} {mem : Addr → Key c.keyLen} {node : SeqTree.SeqTreeBlindiNode} {x : Key c.keyLen}

/-- The builds in which every bit index lies below END_TREE of the slot index type: keys of at most
255 bits, or nodes whose slots need 16 bits. -/
structure BitsBelow (c : SeqTree.Params) : Prop where
  levels : c.treeLevels = 1 ∨ c.treeLevels = 2
  key : 8 * c.keyLen ≤ c.endTree

omit c in
theorem BitsBelow.representable {c : SeqTree.Params} (below : BitsBelow c) : c.Representable := by
  have sentinel := SeqTree.endTree_eq c
  have key := below.key
  refine ⟨by rcases below.levels with one | two <;> omega, by omega⟩

theorem seqTree_lawful (below : BitsBelow c) (slots : 1 ≤ c.numSlots) (slots' : c.numSlots < 65536)
    (mem : Addr → Key c.keyLen) (blank : SeqTree.SeqTreeBlindiNode) :
    (seqTreeType c blank).Lawful mem c.numSlots (SeqTree.WellFormed (c := c) mem) := by
  have small := below.representable
  have levels : 1 ≤ c.treeLevels := by rcases below.levels with one | two <;> omega
  have keys (node : SeqTree.SeqTreeBlindiNode) : (seqTreeType c blank).keys mem node =
      entries node.validLen (node.keys (c := c) mem) := List.map_map
  have searches {node : SeqTree.SeqTreeBlindiNode} (wf : SeqTree.WellFormed (c := c) mem node)
    (x : Key c.keyLen) :
      @List.Pairwise (Key c.keyLen) (· < ·) (entries node.validLen (node.keys (c := c) mem)) ∧
        Predecessor (K := Key c.keyLen) (entries node.validLen (node.keys (c := c) mem)) x
          { position := (SeqTree.searchBlindiNode (c := c) mem node x .predecessor .zero).position
            hit := (SeqTree.searchBlindiNode (c := c) mem node x .predecessor .zero).hit
            smallerThanNode := (SeqTree.searchBlindiNode (c := c) mem node x .predecessor
              .zero).smallerThanNode } := by
    obtain ⟨answer, inside, first⟩ := SeqTree.searchBlindiNode_placed small wf levels x .zero
    exact predecessor_of_positions (K := Key c.keyLen) (fun i j lt bound => wf.blind.less lt bound)
      answer.hit answer.found
      inside answer.smaller first answer.largest
  constructor
  case blank => rfl
  case nonempty => exact fun wf => wf.nonempty
  case increasing =>
    intro node wf
    rw [keys]
    exact (searches wf (mem 0)).1
  case first =>
    intro key
    refine ⟨SeqTree.firstInsert c { blank with validLen := 0 } key,
      (Returns.pure _).congr fun rounds => ?_,
      SeqTree.firstInsert_wellFormed _ key slots, ?_⟩
    · have some_ : ¬ 0 = c.numSlots % 65536 := by rw [Nat.mod_eq_of_lt slots']; omega
      change some (SeqTree.insert2BlindiNodeWithKey (c := c) mem { blank with validLen := 0 } key) =
        _
      unfold SeqTree.insert2BlindiNodeWithKey
      rw [if_neg some_]
      rfl
    · simp [NodeType.pointers, seqTreeType, SeqTree.firstInsert, entries]
  case insert =>
    intro node key wf room missing
    rw [keys] at missing
    have answer := SeqTree.insert2BlindiNodeWithKey_room small levels
      wf (by rwa [Nat.mod_eq_of_lt slots'])
      fun i hi same => missing (mem_entries.mpr ⟨i, hi, same⟩)
    obtain ⟨p, le, keyPtr⟩ := answer.keyPtr
    refine ⟨_, (Returns.pure _).congr fun rounds => ?_, answer.wellFormed, p, le, ?_⟩
    · exact congrArg some (Prod.ext answer.success rfl)
    · change entries (SeqTree.insert2BlindiNodeWithKey (c := c) mem node key).2.validLen _ = _
      rw [answer.validLen]
      refine (entries_congr fun i hi => keyPtr i (by omega)).trans ?_
      exact entries_insertAt le key node.keyPtr
  case split =>
    intro node wf full
    have halves := SeqTree.splitBlindiNode_parts below.levels wf
      (fun i hi => lt_of_lt_of_le (wf.blind i hi).inside below.key) full (seqTreeType c blank).blank
        (seqTreeType c blank).blank
    have half : node.validLen / 2 = c.numSlots / 2 := by
      rw [show node.validLen = c.numSlots from full]
    refine ⟨_, _, Returns.pure _, halves.small, halves.large, ?_, ?_⟩
    · rw [← half]
      exact halves.first
    · rw [← half]
      exact halves.second
  case search =>
    intro node wf x
    refine ⟨_, Returns.pure _, ?_⟩
    rw [keys]
    exact (searches wf x).2

end SeqTree

section SubTrie

variable (c : SubTrie.Params)

def subTrieType (blank : SubTrie.SubTrieBlindiNode) :
    NodeType (Key c.keyLen) SubTrie.SubTrieBlindiNode where
  blank := { blank with validLen := 0 }
  getValidLen node := node.validLen
  getKeyPtr node := node.keyPtr
  searchBlindiNode rounds mem node key type :=
    (SubTrie.searchBlindiNode (c := c) rounds mem node key type).map fun r =>
      { position := r.position, hit := r.hit, smallerThanNode := r.smallerThanNode }
  insert2BlindiNodeWithKey rounds mem node key :=
    SubTrie.insert2BlindiNodeWithKey (c := c) rounds mem node key
  splitBlindiNode rounds node small large := SubTrie.splitBlindiNode rounds node small large

variable {c} {mem : Addr → Key c.keyLen} {node : SubTrie.SubTrieBlindiNode} {x : Key c.keyLen}

theorem subTrie_lawful (length : c.keyLen ≤ 8192) (slots : 1 ≤ c.numSlots)
    (slots' : c.numSlots < 65536) (mem : Addr → Key c.keyLen) (blank : SubTrie.SubTrieBlindiNode) :
    (subTrieType c blank).Lawful mem c.numSlots (SubTrie.Encodes (c := c) mem) := by
  have keys (node : SubTrie.SubTrieBlindiNode) : (subTrieType c blank).keys mem node =
      entries node.validLen (node.keys (c := c) mem) := List.map_map
  have searches {node : SubTrie.SubTrieBlindiNode} (encodes : SubTrie.Encodes (c := c) mem node)
    (x : Key c.keyLen) :
      ∃ r, Returns (fun rounds => SubTrie.searchBlindiNode (c := c) rounds mem node x .predecessor)
      r ∧
        @List.Pairwise (Key c.keyLen) (· < ·) (entries node.validLen (node.keys (c := c) mem)) ∧
        Predecessor (K := Key c.keyLen) (entries node.validLen (node.keys (c := c) mem)) x
          { position := r.position, hit := r.hit, smallerThanNode := r.smallerThanNode } := by
    obtain ⟨r, returns, answer, inside, first⟩ :=
      SubTrie.search_placed mem node encodes x .predecessor
    exact ⟨r, returns, predecessor_of_positions (K := Key c.keyLen)
      (fun i j lt bound => encodes.increasing lt bound)
      answer.hit answer.found inside (answer.smaller rfl) (first rfl) (answer.largest rfl)⟩
  constructor
  case blank => rfl
  case nonempty => exact fun encodes => encodes.nonempty
  case increasing =>
    intro node encodes
    obtain ⟨r, _, sorted, _⟩ := searches encodes (mem 0)
    rwa [keys]
  case first =>
    intro key
    refine ⟨SubTrie.firstInsert { blank with validLen := 0 } key,
      (Returns.pure _).congr fun rounds => ?_, ?_, ?_⟩
    · have some_ : ¬ 0 = c.numSlots := by omega
      change SubTrie.insert2BlindiNodeWithKey (c := c) rounds mem { blank with validLen := 0 } key =
        _
      unfold SubTrie.insert2BlindiNodeWithKey
      rw [if_neg some_]
      rfl
    · refine ⟨slots, ?_, fun i hi => ?_, .leaf, rfl, ?_, rfl⟩
      · change 1 < c.idxSize
        unfold SubTrie.Params.idxSize
        split_ifs <;> omega
      · change i + 1 < 1 at hi
        omega
      · trivial
    · simp [NodeType.pointers, subTrieType, SubTrie.firstInsert, entries]
  case insert =>
    intro node key encodes room missing
    rw [keys] at missing
    obtain ⟨node', returns, inserted⟩ := SubTrie.insert_missing length mem encodes room
      (show node.validLen < 65535 from Nat.lt_of_lt_of_le room (by omega)) key
      fun i hi same => missing (mem_entries.mpr ⟨i, hi, same⟩)
    obtain ⟨p, le, keyPtr⟩ := inserted.keyPtr
    exact ⟨node', returns, inserted.encodes, p, le, keyPtr⟩
  case split =>
    intro node encodes full
    have even : node.validLen % 2 = 0 :=
      (congrArg (· % 2) (show node.validLen = c.numSlots from full)).trans c.even
    obtain ⟨r, returns, halves⟩ := SubTrie.split_halved encodes even (subTrieType c blank).blank
      (subTrieType c blank).blank
    have half : node.validLen / 2 = c.numSlots / 2 := by
      rw [show node.validLen = c.numSlots from full]
    refine ⟨r.1, r.2, returns, halves.small, halves.large, ?_, ?_⟩
    · rw [← half]
      exact halves.smallKeys
    · rw [← half]
      exact halves.largeKeys
  case search =>
    intro node encodes x
    obtain ⟨r, returns, _, answer⟩ := searches encodes x
    refine ⟨_, returns.map _, ?_⟩
    rwa [keys]

end SubTrie

end ElasticIndex.Tree
