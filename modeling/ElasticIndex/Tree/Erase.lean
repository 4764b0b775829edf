import ElasticIndex.Tree.BlindLeaf
import ElasticIndex.Tree.Cursor

set_option autoImplicit false

namespace ElasticIndex.Tree

open Separators Loop

variable {K N : Type} [LinearOrder K] {level : Nat}

/-- What the erasing trees use of their blindi nodes besides; nothing reads the code that a removal
returns. -/
structure EraseType (K N : Type) extends NodeType K N where
  removeFromBlindiNodeWithKey : Nat → (Addr → K) → N → K → Option N
  mergeBlindiNodes : Nat → (Addr → K) → N → N → Option N

/-- result_t: btree_not_found, btree_update_lastkey with its lastkey, and btree_fixmerge. -/
structure EraseResult (K : Type) where
  notFound : Bool
  updateLastkey : Option K
  fixmerge : Bool

/-- left, right, leftparent, rightparent, parent and parentslot of erase_one_descend. The parents
lie on the path from the root, where the level tells them apart; m_root is the node without one. -/
structure Around (K : Type) (level : Nat) where
  left : Option (Node K Ptr level)
  right : Option (Node K Ptr level)
  leftparent : Option Nat
  rightparent : Option Nat
  parent : Option (InnerNode K (Node K Ptr level) × Nat)

def Around.root : Around K level :=
  { left := none, right := none, leftparent := none, rightparent := none, parent := none }

/-- myleft, myright, myleftparent and myrightparent. -/
def Around.below (around : Around K (level + 1)) (inner : InnerNode K (Node K Ptr level))
    (slot : Nat) : Around K level :=
  { left :=
      if slot = 0 then
        around.left.map fun left => InnerNode.childid left (InnerNode.slotuse left - 1)
      else some (inner.childid (slot - 1))
    leftparent := if slot = 0 then around.leftparent else some (level + 1)
    right := if slot = inner.slotuse then around.right.map fun right => InnerNode.childid right 0
      else some (inner.childid (slot + 1))
    rightparent := if slot = inner.slotuse then around.rightparent else some (level + 1)
    parent := some (inner, slot) }

/-- The parent with the nodes below it written back, and what m_root becomes if the node is
m_root. -/
structure EraseOutcome (K N : Type) (level : Nat) where
  store : Store N
  parent : Option (InnerNode K (Node K Ptr level))
  root : Option ((level : Nat) × Node K Ptr level)
  result : EraseResult K

namespace InnerNode

variable {C : Type}

/-- slotkey[slot] = key; the slots from slotuse on hold nothing. -/
def setKey (inner : InnerNode K C) (slot : Nat) (key : K) : InnerNode K C :=
  { inner with rest := inner.rest.modify slot fun entry => (key, entry.2) }

/-- slotkey[slot - 1] and childid[slot] go. -/
def removeChild (inner : InnerNode K C) : Nat → Option (InnerNode K C)
  | 0 => none
  | i + 1 => some { inner with rest := inner.rest.eraseIdx i }

end InnerNode

section Inner

variable {C : Type}

/-- left, parent->slotkey[parentslot] and right, as merge_inner, shift_left_inner and
shift_right_inner leave them. -/
def mergeInner (left : InnerNode K C) (key : K) (right : InnerNode K C) :
    Option (InnerNode K C × K × InnerNode K C) :=
  some ({ left with rest := left.rest ++ (key, right.first) :: right.rest }, key,
    { right with rest := [] })

def shiftLeftInner (left : InnerNode K C) (key : K) (right : InnerNode K C) :
    Option (InnerNode K C × K × InnerNode K C) :=
  let shiftnum := (right.slotuse - left.slotuse) / 2
  if shiftnum = 0 then none
  else match right.rest.drop (shiftnum - 1) with
    | [] => none
    | (newkey, child) :: rest =>
      some ({ left with rest := left.rest ++ (key, right.first) :: right.rest.take (shiftnum - 1) },
        newkey,
        { right with first := child, rest })

def shiftRightInner (left : InnerNode K C) (key : K) (right : InnerNode K C) :
    Option (InnerNode K C × K × InnerNode K C) :=
  let shiftnum := (left.slotuse - right.slotuse) / 2
  match left.rest.drop (left.slotuse - shiftnum) with
  | [] => none
  | (newkey, child) :: rest =>
    some ({ left with rest := left.rest.take (left.slotuse - shiftnum) }, newkey,
      { right with first := child, rest := rest ++ (key, right.first) :: right.rest })

/-- One of the three on childid[i] and childid[i + 1]. -/
def InnerNode.balance (parent : InnerNode K (InnerNode K C)) (i : Nat)
    (by_ : InnerNode K C → K → InnerNode K C → Option (InnerNode K C × K × InnerNode K C)) :
    Option (InnerNode K (InnerNode K C)) :=
  parent.slotkey[i]?.bind fun key =>
    (by_ (parent.childid i) key (parent.childid (i + 1))).map fun (left, key, right) =>
      ((parent.setChild i left).setKey i key).setChild (i + 1) right

end Inner

variable (T : EraseType K N) (slots : Slots) (mem : Addr → K)

/-- isfew and isunderflow of an inner node. -/
def Slots.few (slots : Slots) {C : Type} (inner : InnerNode K C) : Prop :=
  inner.slotuse ≤ slots.inner / 2

def Slots.underflow (slots : Slots) {C : Type} (inner : InnerNode K C) : Prop :=
  inner.slotuse < slots.inner / 2

instance decidableFew {C : Type} (inner : InnerNode K C) : Decidable (slots.few inner) :=
  inferInstanceAs (Decidable (_ ≤ _))

instance decidableUnderflow {C : Type} (inner : InnerNode K C) :
    Decidable (slots.underflow inner) :=
  inferInstanceAs (Decidable (_ < _))

/-- merge_leaves -/
def mergeLeaves (rounds : Nat) (s : Store N) (left right : Ptr) : Option (Store N) :=
  (s.leaf left).bind fun l =>
  (s.leaf right).bind fun r =>
  (T.mergeBlindiNodes rounds mem l.node r.node).bind fun node =>
  let s := s.put left { l with slotuse := l.slotuse + r.slotuse, nextleaf := r.nextleaf, node }
  (match r.nextleaf with
    | none => some { s with tailleaf := some left }
    | some next =>
        (s.leaf next).map fun (behind : Leaf N) =>
          s.put next { behind with prevleaf := some left }).map fun (s : Store N) =>
  s.put right { r with slotuse := 0 }

/-- get_key_ptr(leaf->slotuse - 1) -/
def lastOf (leaf : Leaf N) : K := mem (T.getKeyPtr leaf.node (leaf.slotuse - 1))

/-- The parent is told when the last key of a leaf has gone; asserts says that assert is compiled
in. -/
def updateLast (asserts : Bool) (leaf : Leaf N) (slot : Nat) :
    Option (InnerNode K Ptr × Nat) → Option (Option (InnerNode K Ptr) × Option K)
  | some (parent, parentslot) =>
    if slot ≠ leaf.slotuse then some (some parent, none)
    else if parentslot < parent.slotuse then
      some (some (if 0 < leaf.slotuse then parent.setKey parentslot (lastOf T mem leaf)
        else parent), none)
    else if 1 ≤ leaf.slotuse then some (some parent, some (lastOf T mem leaf))
    else if asserts then none
    else some (some parent, none)
  | none =>
    some (none, if slot = leaf.slotuse ∧ 1 ≤ leaf.slotuse then some (lastOf T mem leaf) else none)

/-- Whether there is a sibling below the same parent that has room for both. -/
def joins (s : Store N) (slotuse : Nat) (sibling : Option Ptr) (siblings : Bool) : Option Bool :=
  match sibling with
  | none => some false
  | some a => (s.leaf a).map fun leaf => decide (slotuse + leaf.slotuse ≤ slots.leaf) && siblings

/-- The part of erase_one_descend for a leaf with too few keys. -/
def underflowLeaf (rounds : Nat) (s : Store N) (around : Around K 0)
    (parent : Option (InnerNode K Ptr)) (lastkey : Option K) (curr : Ptr) (slotuse : Nat) :
    Option (EraseOutcome K N 0) :=
  let kept : EraseOutcome K N 0 :=
    { store := s, parent, root := some ⟨0, curr⟩,
      result := { notFound := false, updateLastkey := lastkey, fixmerge := false } }
  let merged (s : Store N) : EraseOutcome K N 0 :=
    { kept with store := s, result := { kept.result with fixmerge := true } }
  if slots.leaf / 2 ≤ slotuse then some kept
  else match around.parent with
    | none =>
      if slotuse = 0 ∧ around.left.isNone ∧ around.right.isNone then
        some { store := { s.free curr with headleaf := none, tailleaf := none },
               parent, root := none
               result := { notFound := false, updateLastkey := none, fixmerge := false } }
      else some kept
    | some _ =>
      (joins slots s slotuse around.left (around.leftparent = some 1)).bind fun toLeft =>
      if toLeft then around.left.bind fun left => (mergeLeaves T mem rounds s left curr).map merged
      else
        (joins slots s slotuse around.right (around.rightparent = some 1)).bind fun toRight =>
        if toRight then around.right.bind fun right =>
          (mergeLeaves T mem rounds s curr right).map merged
        else some kept

def eraseLeaf (asserts : Bool) (rounds : Nat) (key : K) (s : Store N)
    (around : Around K 0) (curr : Ptr) :
    Option (EraseOutcome K N 0) :=
  (s.leaf curr).bind fun leaf =>
  (T.searchBlindiNode rounds mem leaf.node key .point).bind fun found =>
  if found.hit = false then
    some { store := s, parent := around.parent.map Prod.fst, root := some ⟨0, curr⟩
           result := { notFound := true, updateLastkey := none, fixmerge := false } }
  else
    (T.removeFromBlindiNodeWithKey rounds mem leaf.node key).bind fun node =>
    let leaf := { leaf with slotuse := leaf.slotuse - 1, node }
    (updateLast T mem asserts leaf found.position around.parent).bind fun (parent, lastkey) =>
    underflowLeaf T slots mem rounds (s.put curr leaf) around parent lastkey curr leaf.slotuse

/-- The child that a merge has emptied goes; above leaves the key beside the other one is set
anew. -/
def fixMerge : (level : Nat) → Store N → InnerNode K (Node K Ptr level) → Nat →
    Option (Store N × InnerNode K (Node K Ptr level))
  | 0, s, (inner : InnerNode K Ptr), slot =>
    (s.leaf (inner.childid slot)).bind fun child =>
    let slot := if child.slotuse ≠ 0 then slot + 1 else slot
    let s := s.free (inner.childid slot)
    (inner.removeChild slot).bind fun inner =>
    (s.leaf (inner.childid (slot - 1))).map fun child =>
      (s, inner.setKey (slot - 1) (getMaxKeyInNode T.toNodeType mem child.node))
  | _ + 1, s, (inner : InnerNode K (InnerNode K (Node K Ptr _))), slot =>
    let slot := if (inner.childid slot).slotuse ≠ 0 then slot + 1 else slot
    (inner.removeChild slot).map fun inner => (s, inner)

/-- The parent takes the last key, or passes it on. -/
def forwardLast {C : Type} : Option (InnerNode K C × Nat) → Option K →
    Option (InnerNode K C) × Option K
  | none, lastkey => (none, lastkey)
  | some (parent, _), none => (some parent, none)
  | some (parent, parentslot), some lastkey =>
    if parentslot < parent.slotuse then (some (parent.setKey parentslot lastkey), none)
      else (some parent, some lastkey)

/-- The cases for an inner node with too few children, and whether there has been a merge. The node
on the other side of a merge or a shift is a child of the same parent. -/
def rebalance (around : Around K (level + 1))
    (parent : InnerNode K (InnerNode K (Node K Ptr level))) (parentslot : Nat) :
    Option (InnerNode K (InnerNode K (Node K Ptr level)) × Bool) :=
  let leftHere := around.leftparent = some (level + 2)
  let rightHere := around.rightparent = some (level + 2)
  let mergeLeft := if leftHere then (parent.balance (parentslot - 1) mergeInner).map fun parent =>
    (parent, true) else none
  let mergeRight := if rightHere then (parent.balance parentslot mergeInner).map fun parent =>
    (parent, true) else none
  let shiftLeft := if rightHere then (parent.balance parentslot shiftLeftInner).map fun parent =>
    (parent, false) else none
  let shiftRight := if leftHere
    then (parent.balance (parentslot - 1) shiftRightInner).map fun parent =>
    (parent, false) else none
  match around.left, around.right with
  | none, none => none
  | none, some right =>
    if slots.few right then if leftHere then mergeLeft else mergeRight
    else if around.leftparent = around.rightparent then none
    else if leftHere then shiftRight else shiftLeft
  | some left, none =>
    if slots.few left then if leftHere then mergeLeft else mergeRight
    else if around.leftparent = around.rightparent then none
    else if leftHere then shiftRight else shiftLeft
  | some left, some right =>
    if slots.few left ∧ slots.few right then if leftHere then mergeLeft else mergeRight
    else if slots.few left then if rightHere then shiftLeft else mergeLeft
    else if slots.few right then if leftHere then shiftRight else mergeRight
    else if around.leftparent = around.rightparent then
      if InnerNode.slotuse left ≤ InnerNode.slotuse right then shiftLeft else shiftRight
    else if leftHere then shiftRight else shiftLeft

/-- The part of erase_one_descend for an inner node with too few children. -/
def underflowInner (s : Store N) (around : Around K (level + 1))
    (parent : Option (InnerNode K (Node K Ptr (level + 1)))) (lastkey : Option K)
    (inner : InnerNode K (Node K Ptr level)) : Option (EraseOutcome K N (level + 1)) :=
  let result (fixmerge : Bool) : EraseResult K :=
    { notFound := false, updateLastkey := lastkey, fixmerge }
  match around.parent, parent with
  | some (_, parentslot), some parent =>
    let parent := InnerNode.setChild parent parentslot inner
    if slots.underflow inner then
      (rebalance slots around parent parentslot).map fun (parent, fixmerge) =>
        { store := s, parent := some parent, root := some ⟨level + 1, inner⟩,
          result := result fixmerge }
    else some { store := s, parent := some parent, root := some ⟨level + 1, inner⟩,
                result := result false }
  | _, _ =>
    if slots.underflow inner ∧ ¬ 1 ≤ inner.slotuse then
      some { store := s, parent := none, root := some ⟨level, inner.first⟩
             result := { notFound := false, updateLastkey := none, fixmerge := false } }
    else some { store := s, parent := none, root := some ⟨level + 1, inner⟩,
                result := result false }

def eraseOneDescend (asserts : Bool) (rounds : Nat) (key : K) : (level : Nat) → Store N →
    Around K level → Node K Ptr level →
    Option (EraseOutcome K N level)
  | 0, s, around, leaf => eraseLeaf T slots mem asserts rounds key s around leaf
  | level + 1, s, around, (inner : InnerNode K (Node K Ptr level)) =>
    let slot := findLower inner.slotkey key
    (eraseOneDescend asserts rounds key level s (around.below inner slot) (inner.childid slot)).bind
        fun out =>
    if out.result.notFound then
      some { store := out.store, parent := around.parent.map Prod.fst,
             root := some ⟨level + 1, inner⟩, result := out.result }
    else
      let inner := out.parent.getD inner
      let (parent, lastkey) := forwardLast around.parent out.result.updateLastkey
      (if out.result.fixmerge then fixMerge T mem level out.store inner slot
          else some (out.store, inner)).bind fun (s, inner) =>
      underflowInner slots s around parent lastkey inner

/-- m_root->slotuse -/
def rootSlotuse (s : Store N) : ((level : Nat) × Node K Ptr level) → Option Nat
  | ⟨0, leaf⟩ => (s.leaf leaf).map Leaf.slotuse
  | ⟨_ + 1, inner⟩ => some (InnerNode.slotuse inner)

def BTree.eraseOne (asserts : Bool) (rounds : Nat) (t : BTree K N) (key : K) :
    Option (BTree K N × Bool) :=
  match t.root with
  | none => some (t, false)
  | some root =>
    (rootSlotuse t.store root).bind fun slotuse =>
    if slotuse = 0 then some (t, false)
    else
      (eraseOneDescend T slots mem asserts rounds key root.1 t.store .root root.2).map fun out =>
        ({ root := out.root, store := out.store }, !out.result.notFound)

/-- SearchBlindiNode(POINT_SEARCH) in the leaf of the key. -/
def BTree.search (rounds : Nat) (t : BTree K N) (key : K) : Option (Option (Ptr × Found)) :=
  match t.root with
  | none => some none
  | some root =>
    let a := descend key root.1 root.2
    (t.store.leaf a).bind fun leaf =>
    (T.searchBlindiNode rounds mem leaf.node key .point).map fun found => some (a, found)

def BTree.exists_ (rounds : Nat) (t : BTree K N) (key : K) : Option Bool :=
  (t.search T mem rounds key).map fun found => found.elim false fun found => found.2.hit

def BTree.find (endSlot : Leaf N → Nat) (rounds : Nat) (t : BTree K N) (key : K) :
    Option Iterator :=
  (t.search T mem rounds key).bind fun found =>
    match found with
    | some (a, found) => if found.hit then some ⟨some a, found.position⟩ else t.store.endAt endSlot
    | none => t.store.endAt endSlot

end ElasticIndex.Tree
