import ElasticIndex.SeqTree.Breathing
import ElasticIndex.SeqTree.Flat
import ElasticIndex.Tree.NodeType
import ElasticIndex.Tree.Replace

set_option autoImplicit false

namespace ElasticIndex.Tree

open Separators SeqTree

inductive BlindiLeafType where
  | blindi1
  | blindi2
  | blindi4
  | blindi8
  deriving DecidableEq, Repr

/-- hybrid_status -/
inductive HybridStatus where
  | goOn
  | mayUncompress
  | shouldCompress
  | mustCompress
  deriving DecidableEq, Repr

def BlindiLeafType.size : BlindiLeafType → Nat
  | blindi1 => 1
  | blindi2 => 2
  | blindi4 => 4
  | blindi8 => 8

/-- NUM_SLOTS of the node of a leaf. -/
def BlindiLeafType.slots (leafslotmax : Nat) : BlindiLeafType → Nat
  | blindi1 => leafslotmax
  | blindi2 => 2 * leafslotmax
  | blindi4 => 2 * (2 * leafslotmax)
  | blindi8 => 2 * (2 * (2 * leafslotmax))

/-- The type of twice the size, if the leaf can be extended. -/
def BlindiLeafType.extended : BlindiLeafType → Option BlindiLeafType
  | blindi1 => some blindi2
  | blindi2 => some blindi4
  | blindi4 => some blindi8
  | blindi8 => none

namespace Hybrid

/-- The template arguments, TREE_LEVELS, what the limits of the stats start from, and the sizes of
node and inner_node. -/
structure Config where
  treeLevels : Nat
  keyLen : Nat
  leafslotmax : Nat
  innerslotmax : Nat
  even : leafslotmax % 2 = 0
  limit2MustCompress : Nat
  limit2ShouldCompress : Nat
  sizeofNode : Nat
  sizeofInner : Nat

abbrev Config.Key (c : Config) : Type := Tree.Key c.keyLen

abbrev Config.params (c : Config) (type : BlindiLeafType) : Params :=
  { treeLevels := c.treeLevels
    numSlots := type.slots c.leafslotmax
    keyLen := c.keyLen
    even := by
      have := c.even
      cases type <;> simp only [BlindiLeafType.slots] <;> omega }

/-- blindileaftype with what the leaf holds: the slots of key and data of a btree leaf, or a blindi
node. -/
inductive HybridNode (K : Type) where
  | btree (slots : List (K × Addr))
  | blindi (blindileaftype : BlindiLeafType) (node : SeqTreeBlindiNode)

/-- m_stats and the global breathing_sum. -/
structure Stats where
  hybridstatus : HybridStatus
  itemcount : Nat
  btreeleaves : Nat
  limit2MustCompress : Nat
  breathingSum : Int

structure HybridTree (c : Config) where
  root : Option ((level : Nat) × Node c.Key Ptr level)
  store : Store (HybridNode c.Key)
  stats : Stats

variable (c : Config) (mem : Addr → c.Key) (blank : SeqTreeBlindiNode)

/-- Size type arithmetic. -/
def lower (limit size : Nat) : Nat := (limit + 2 ^ 64 - size % 2 ^ 64) % 2 ^ 64

def HybridTree.empty : HybridTree c :=
  { root := none
    store := .empty
    stats :=
      { hybridstatus := .goOn, itemcount := 0, btreeleaves := 0,
        limit2MustCompress := c.limit2MustCompress, breathingSum := 0 } }

/-- The end of insert_start. MUST_ONLY is 0; the limits of the ways back from SHOULD_COMPRESS and
MAY_UNCOMPRESS are 0. -/
def Stats.next (stats : Stats) : Stats :=
  match stats.hybridstatus with
  | .goOn =>
    if 0 < stats.btreeleaves ∧ c.limit2ShouldCompress < stats.itemcount
      then { stats with hybridstatus := .shouldCompress }
    else stats
  | .mayUncompress => if 0 < stats.itemcount then { stats with hybridstatus := .goOn } else stats
  | .shouldCompress =>
    if stats.limit2MustCompress < stats.itemcount
      then { stats with hybridstatus := .mustCompress } else stats
  | .mustCompress => if stats.btreeleaves = 0 then { stats with hybridstatus := .goOn } else stats

variable {c}

/-- What an insertion changes besides the inner nodes. -/
structure Heap (c : Config) where
  store : Store (HybridNode c.Key)
  btreeleaves : Nat
  breathingSum : Int

abbrev Parent (c : Config) : Type := Option (InnerNode c.Key Ptr × Nat)

/-- transfer_btree2blindi into a new leaf; the slots past slotuse are never read. -/
def transferSlots (blindileaftype : BlindiLeafType) (slotuse : Nat) (slots : List (c.Key × Addr)) :
    HybridNode c.Key :=
  .blindi blindileaftype <|
    transferBtree2blindi (c.params blindileaftype) slotuse
      (fun i => (slots[i]?.map Prod.fst).getD (.replicate _ 0))
      (fun i => (slots[i]?.map Prod.snd).getD 0) blank

/-- transfer_btree_node_blindi1_node and transfer_btree_node_blindi2_node -/
def transferBtreeNode (blindileaftype : BlindiLeafType) (h : Heap c) (parent : Parent c) (a : Ptr)
    (leaf : Leaf (HybridNode c.Key)) (slots : List (c.Key × Addr)) :
    Option (Heap c × Parent c × Ptr) :=
  (replaceLeaf h.store parent a leaf (transferSlots blank blindileaftype leaf.slotuse slots)).map
    fun (s, parent, new) =>
      ({ store := s
         btreeleaves := h.btreeleaves - 1
         breathingSum := h.breathingSum +
           transferBtree2blindiBreathing (c.params blindileaftype) leaf.slotuse }, parent, new)

/-- The first btree leaf among the children i .. i + rest - 1. -/
def firstBtree (s : Store (HybridNode c.Key)) (inner : InnerNode c.Key Ptr) :
    Nat → Nat → Option (Option (Nat × Leaf (HybridNode c.Key) × List (c.Key × Addr)))
  | 0, _ => some none
  | rest + 1, i => (s.leaf (inner.childid i)).bind fun leaf =>
    match leaf.node with
    | .btree slots => some (some (i, leaf, slots))
    | .blindi .. => firstBtree s inner rest (i + 1)

/-- The loop runs over i < slotuse. -/
def sweep (h : Heap c) (inner : InnerNode c.Key Ptr) : Option (Heap c × InnerNode c.Key Ptr) :=
  (firstBtree h.store inner inner.slotuse 0).bind fun
    | none => some (h, { inner with alreadycomprerss := true })
    | some (i, leaf, slots) =>
      (transferBtreeNode blank .blindi1 h (some (inner, i)) (inner.childid i) leaf slots).map
          fun (h, parent, _) =>
        (h, (parent.map Prod.fst).getD inner)

/-- The start of the leaf part, up to leaf_tmp. A blindi leaf at the root is taken for its own
parent. -/
def compress (status : HybridStatus) (h : Heap c) (parent : Parent c) (a : Ptr) :
    Option (Heap c × Parent c × Ptr) :=
  (h.store.leaf a).bind fun leaf =>
    match leaf.node with
    | .btree slots =>
      if status = .mustCompress ∨ status = .shouldCompress ∧ leaf.slotuse = c.leafslotmax then
        transferBtreeNode blank (if leaf.slotuse ≠ c.leafslotmax then .blindi1 else .blindi2) h
          parent a leaf slots
      else some (h, parent, a)
    | .blindi .. =>
      if status = .mustCompress then
        parent.bind fun (inner, slot) =>
          if inner.alreadycomprerss then some (h, parent, a)
          else (sweep blank h inner).map fun (h, inner) => (h, some (inner, slot), a)
      else some (h, parent, a)

/-- The last key of a leaf. -/
def maxKey : HybridNode c.Key → c.Key
  | .btree slots => (slots.getLast?.map Prod.fst).getD (.replicate _ 0)
  | .blindi _ node => mem (node.keyPtr (node.validLen - 1))

def splitNode (mid : Nat) : HybridNode c.Key → Option (HybridNode c.Key × HybridNode c.Key)
  | .btree slots => some (.btree (slots.take mid), .btree (slots.drop mid))
  | .blindi type node =>
    let (small, large) := splitBlindiNode (c.params type) node blank blank
    some (.blindi type small, .blindi type large)

/-- The leaf for the key, its slot there, what goes up, and what has been added to breathing_sum. -/
structure Target (c : Config) where
  store : Store (HybridNode c.Key)
  leaf : Ptr
  slot : Nat
  split : Option (c.Key × Ptr)
  breathed : Int

/-- split_btree_leaf_node when the leaf is full. -/
def splitBtree (key : Addr) (s : Store (HybridNode c.Key)) (a : Ptr)
    (leaf : Leaf (HybridNode c.Key)) (slots : List (c.Key × Addr)) : Option (Target c) :=
  let slot := findLower (slots.map Prod.fst) (mem key)
  if leaf.slotuse = c.leafslotmax then
    (splitLeafNode (.btree []) (splitNode blank (leaf.slotuse / 2)) (maxKey mem) s a leaf).map
        fun (s, splitkey, newleaf) =>
      if leaf.slotuse / 2 ≤ slot then
        { store := s, leaf := newleaf, slot := slot - leaf.slotuse / 2,
          split := some (splitkey, newleaf), breathed := 0 }
      else { store := s, leaf := a, slot, split := some (splitkey, newleaf), breathed := 0 }
  else some { store := s, leaf := a, slot, split := none, breathed := 0 }

def insertBtree (key : Addr) (h : Heap c) (parent : Parent c) (a : Ptr)
    (leaf : Leaf (HybridNode c.Key)) (slots : List (c.Key × Addr)) :
    Option (LeafOutcome (Heap c) c.Key Ptr (Iterator × Bool)) :=
  (splitBtree mem blank key h.store a leaf slots).bind fun target =>
  (target.store.leaf target.leaf).bind fun leaf =>
    match leaf.node with
    | .blindi .. => none
    | .btree slots =>
      let node := HybridNode.btree (slots.insertIdx target.slot (mem key, key))
      some {
        state :=
          { store := target.store.put target.leaf { leaf with node, slotuse := leaf.slotuse + 1 }
            btreeleaves := h.btreeleaves + if target.split.isSome then 1 else 0
            breathingSum := h.breathingSum + target.breathed }
        parent := parent.map Prod.fst
        split := target.split.map fun (splitkey, newleaf) =>
          (if target.leaf ≠ newleaf ∧ target.slot = leaf.slotuse then mem key
            else splitkey, newleaf)
        result := (⟨some target.leaf, target.slot⟩, true) }

/-- A full leaf is extended as long as it can be, and split after that. -/
def makeRoom (key : Addr) (s : Store (HybridNode c.Key)) (parent : Parent c) (a : Ptr)
    (leaf : Leaf (HybridNode c.Key)) (type : BlindiLeafType) (node : SeqTreeBlindiNode) :
    Option (Parent c × Target c) :=
  if leaf.slotuse = c.leafslotmax * type.size then
    match type.extended with
    | some wider =>
      (replaceLeaf s parent a leaf
        (.blindi wider (transferBlindixtoblibdi2x (c.params type) node blank))).map
        fun (s, parent, new) =>
          (parent, { store := s, leaf := new, slot := 0, split := none,
                     breathed := transferNodeBreathing (c.params wider) })
    | none =>
      (splitLeafNode (.blindi type blank) (splitNode blank 0) (maxKey mem) s a leaf).bind
          fun (s, splitkey, newleaf) =>
        if splitkey < mem key then
          some (parent, { store := s, leaf := newleaf, slot := 0, split := some (splitkey, newleaf)
                          breathed := splitBlindiNodeBreathing (c.params type) })
        else
          (s.leaf a).bind fun left =>
            match left.node with
            | .btree _ => none
            | .blindi type node =>
              let splitkey := if mem (node.keyPtr (type.size * c.leafslotmax / 2 - 1)) < mem key
                then mem key else splitkey
              some (parent, { store := s, leaf := a, slot := 0, split := some (splitkey, newleaf)
                              breathed := splitBlindiNodeBreathing (c.params type) })
  else some (parent, { store := s, leaf := a, slot := 0, split := none, breathed := 0 })

/-- A repeated key gets a second entry in the node, which slotuse does not count; a key that the
node has no room for counts. -/
def insertBlindi (key : Addr) (h : Heap c) (parent : Parent c) (a : Ptr)
    (leaf : Leaf (HybridNode c.Key)) (type : BlindiLeafType) (node : SeqTreeBlindiNode) :
    Option (LeafOutcome (Heap c) c.Key Ptr (Iterator × Bool)) :=
  (makeRoom mem blank key h.store parent a leaf type node).bind fun (parent, target) =>
  (target.store.leaf target.leaf).bind fun leaf =>
    match leaf.node with
    | .btree _ => none
    | .blindi type node =>
      let r := insert2BlindiNodeWithKey (c := c.params type) mem node key
      let slotuse := if r.1 = .duplicatedKey then leaf.slotuse else leaf.slotuse + 1
      some {
        state :=
          { store := target.store.put target.leaf { leaf with node := .blindi type r.2, slotuse }
            btreeleaves := h.btreeleaves
            breathingSum := h.breathingSum + target.breathed +
              insert2BlindiNodeWithKeyBreathing (c.params type) node }
        parent := parent.map Prod.fst
        split := target.split
        result := (⟨some target.leaf, target.slot⟩, r.1 ≠ .duplicatedKey) }

/-- The leaf part of insert_descend. -/
def leafPart (status : HybridStatus) (key : Addr) (h : Heap c) (parent : Parent c) (a : Ptr) :
    Option (LeafOutcome (Heap c) c.Key Ptr (Iterator × Bool)) :=
  (compress blank status h parent a).bind fun (h, parent, a) =>
  (h.store.leaf a).bind fun leaf =>
    match leaf.node with
    | .btree slots => insertBtree mem blank key h parent a leaf slots
    | .blindi type node => insertBlindi mem blank key h parent a leaf type node

/-- insert_start -/
def HybridTree.insert (t : HybridTree c) (key : Addr) : Option (HybridTree c × Iterator × Bool) :=
  let (root, h, stats) := match t.root with
    | some root =>
      (root, { store := t.store, btreeleaves := t.stats.btreeleaves,
               breathingSum := t.stats.breathingSum : Heap c }, t.stats)
    | none =>
      let (leaf, s) := t.store.allocateLeaf (.btree [])
      (⟨0, leaf⟩, { store := { s with headleaf := some leaf, tailleaf := some leaf }
                    btreeleaves := t.stats.btreeleaves + 1
                    breathingSum := t.stats.breathingSum },
        { t.stats with limit2MustCompress := lower t.stats.limit2MustCompress c.sizeofNode })
  (insertDescend c.innerslotmax (leafPart mem blank stats.hybridstatus key) (mem key)
    root.1 h root.2).map
    fun (h, node, newchild, r) =>
      let stats := { stats with
        btreeleaves := h.btreeleaves
        breathingSum := h.breathingSum
        itemcount := stats.itemcount + if r.2 then 1 else 0
        limit2MustCompress :=
          if newchild.isSome then lower stats.limit2MustCompress c.sizeofInner
            else stats.limit2MustCompress }
      ({ root := some (growRoot node newchild), store := h.store, stats := stats.next c }, r)

/-- The keys of a leaf in order. -/
def HybridNode.keys (mem : Addr → c.Key) : HybridNode c.Key → List c.Key
  | .btree slots => slots.map Prod.fst
  | .blindi _ node => (SequenceEdit.entries node.validLen node.keyPtr).map mem

/-- The data of a leaf in order, slotdata or key_ptr. -/
def HybridNode.data {K : Type} : HybridNode K → List Addr
  | .btree slots => slots.map Prod.snd
  | .blindi _ node => SequenceEdit.entries node.validLen node.keyPtr

/-- data of an iterator -/
def HybridTree.data (t : HybridTree c) (it : Iterator) : Option Addr :=
  it.currnode.bind fun a => (t.store.leaf a).bind fun leaf => leaf.node.data[it.currslot]?

/-- find; the search in a blindi leaf is search_blindi with POINT_SEARCH. -/
def HybridTree.find (t : HybridTree c) (key : c.Key) : Option Iterator :=
  match t.root with
  | none => t.store.end_
  | some root =>
    let a := descend key root.1 root.2
    (t.store.leaf a).bind fun leaf =>
      match leaf.node with
      | .btree slots =>
        let slot := findLower (slots.map Prod.fst) key
        if slot < leaf.slotuse ∧ slots[slot]?.map Prod.fst = some key
          then some ⟨some a, slot⟩ else t.store.end_
      | .blindi type node =>
        let r := searchBlindiNode (c := c.params type) mem node key .point .zero
        if r.hit then some ⟨some a, r.position⟩ else t.store.end_

/-- iterator(leaf, slot++) is iterator(leaf, slot). -/
def HybridTree.lowerBound (t : HybridTree c) (key : c.Key) : Option Iterator :=
  match t.root with
  | none => t.store.end_
  | some root =>
    let a := descend key root.1 root.2
    (t.store.leaf a).bind fun leaf =>
      match leaf.node with
      | .btree slots => some ⟨some a, findLower (slots.map Prod.fst) key⟩
      | .blindi type node =>
        let r := searchBlindiNode (c := c.params type) mem node key .predecessor .zero
        if r.hit ∨ r.smallerThanNode then some ⟨some a, r.position⟩
        else if t.store.tailleaf = some a ∧ r.position + 1 = leaf.slotuse then t.store.end_
        else some ⟨some a, r.position⟩

end Hybrid

end ElasticIndex.Tree
