import ElasticIndex.Tree.NodeType
import ElasticIndex.Tree.Store

set_option autoImplicit false

namespace ElasticIndex.Tree

open Separators Loop

variable {K N : Type} [LinearOrder K]

/-- leafslotmax and innerslotmax. -/
structure Slots where
  leaf : Nat
  inner : Nat

/-- A B+tree whose leaves are all blindi nodes: m_root, and the leaves with m_headleaf and
m_tailleaf. -/
structure BTree (K N : Type) where
  root : Option ((level : Nat) × Node K Ptr level)
  store : Store N

def BTree.empty : BTree K N := { root := none, store := .empty }

variable (T : NodeType K N) (slots : Slots) (mem : Addr → K)

-- get_max_key_in_node
def getMaxKeyInNode (node : N) : K := mem (T.getKeyPtr node (T.getValidLen node - 1))

-- The split of a full leaf, and the leaf that takes the key with what goes up.
def splitForKey (rounds : Nat) (key : Addr) (s : Store N) (a : Ptr) (leaf : Leaf N) :
    Option (Store N × Ptr × Option (K × Ptr)) :=
  (splitLeafNode T.blank (fun node => T.splitBlindiNode rounds node T.blank T.blank)
    (getMaxKeyInNode T mem) s a leaf).bind
    fun (s, splitkey, newleaf) =>
      if splitkey < mem key then some (s, newleaf, some (splitkey, newleaf))
      else
        (s.leaf a).map fun left =>
          let splitkey := if mem (T.getKeyPtr left.node (slots.leaf / 2 - 1)) < mem key
            then mem key else splitkey
          (s, a, some (splitkey, newleaf))

-- The leaf part of insert_descend.
def insertLeaf (rounds : Nat) (key : Addr) (s : Store N)
    (_ : Option (InnerNode K Ptr × Nat)) (a : Ptr) :
    Option (LeafOutcome (Store N) K Ptr (Iterator × Bool)) :=
  (s.leaf a).bind fun leaf =>
  (if leaf.slotuse = slots.leaf then splitForKey T slots mem rounds key s a leaf
    else some (s, a, none)).bind
    fun (s, target, split) =>
      (s.leaf target).bind fun leaf =>
      (T.insert2BlindiNodeWithKey rounds mem leaf.node key).map fun (result, node) =>
        if result = .duplicatedKey then
          { state := s.put target { leaf with node }, parent := none, split,
            result := (⟨some target, 0⟩, false) }
        else
          { state := s.put target { leaf with node, slotuse := leaf.slotuse + 1 },
            parent := none, split
            result := (⟨some target, 0⟩, true) }

def BTree.insert (rounds : Nat) (t : BTree K N) (key : Addr) :
    Option (BTree K N × Iterator × Bool) :=
  let (root, s) := match t.root with
    | some root => (root, t.store)
    | none =>
      let (leaf, s) := t.store.allocateLeaf T.blank
      (⟨0, leaf⟩, { s with headleaf := some leaf, tailleaf := some leaf })
  (insertDescend slots.inner (insertLeaf T slots mem rounds key) (mem key) root.1 s root.2).map
    fun (s, node, newchild, r) => ({ root := some (growRoot node newchild), store := s }, r)

-- Prefix and postfix ++ move alike.
def Iterator.next (s : Store N) (it : Iterator) : Option Iterator := it.advance Leaf.slotuse s

-- The slot of end() is slotuse in the SeqTree header and leafslotmax in the SubTrie header.
variable (endSlot : Leaf N → Nat)

-- The last case returns slot++, which is slot.
def BTree.lowerBound (rounds : Nat) (t : BTree K N) (key : K) : Option Iterator :=
  match t.root with
  | none => t.store.endAt endSlot
  | some root =>
    let a := descend key root.1 root.2
    (t.store.leaf a).bind fun leaf =>
    (T.searchBlindiNode rounds mem leaf.node key .predecessor).bind fun r =>
      if r.hit ∨ r.smallerThanNode then some ⟨some a, r.position⟩
      else if t.store.tailleaf = some a ∧ r.position + 1 = leaf.slotuse then t.store.endAt endSlot
      else some ⟨some a, r.position⟩

def BTree.upperBound (rounds : Nat) (t : BTree K N) (key : K) : Option Iterator :=
  match t.root with
  | none => t.store.endAt endSlot
  | some root =>
    let a := descend key root.1 root.2
    (t.store.leaf a).bind fun leaf =>
    (T.searchBlindiNode rounds mem leaf.node key .predecessor).bind fun r =>
      if r.smallerThanNode then some ⟨some a, r.position⟩
      else if t.store.tailleaf = some a ∧ r.position + 1 = leaf.slotuse then t.store.endAt endSlot
      else Iterator.next t.store ⟨some a, r.position⟩

end ElasticIndex.Tree
