import ElasticIndex.Tree.Blind

set_option autoImplicit false

namespace ElasticIndex.Tree

open Separators SequenceEdit LinkedRow Loop

variable {K N : Type} [LinearOrder K] {T : NodeType K N} {slots : Slots} {mem : Addr → K}
  {Valid : N → Prop} {s s' : Store N} {row before after : Row K Ptr} {sep : WithBot K} {a : Ptr}
  {leaf : Leaf N} {key : Addr}

omit [LinearOrder K] in
theorem keys_length (node : N) : (T.keys mem node).length = T.getValidLen node := by
  simp [NodeType.keys, NodeType.pointers]

omit [LinearOrder K] in
theorem keys_getElem (node : N) {i : Nat} (lt : i < T.getValidLen node) :
    (T.keys mem node)[i]? = some (mem (T.getKeyPtr node i)) := by
  simp [NodeType.keys, NodeType.pointers, entries, lt]

omit [LinearOrder K] in
theorem keys_getLast {node : N} (some_ : 1 ≤ T.getValidLen node) :
    (T.keys mem node).getLast? = some (getMaxKeyInNode T mem node) := by
  rw [List.getLast?_eq_getElem?, keys_length, keys_getElem node (by omega)]
  rfl

omit [LinearOrder K] in
theorem keys_of_pointers {node : N} {l : List Addr} (eq : T.pointers node = l) :
    T.keys mem node = l.map mem := by
  rw [NodeType.keys, eq]

omit [LinearOrder K] in
theorem validLen_of_pointers {node : N} {l : List Addr} (eq : T.pointers node = l) :
    T.getValidLen node = l.length := by
  rw [← eq]
  simp [NodeType.pointers]

/-- What a leaf of the tree is: a node the operations keep, counted right. -/
structure LeafSound (T : NodeType K N) (slots : Slots) (Valid : N → Prop) (slotuse : Nat)
    (node : N) : Prop where
  valid : Valid node
  counted : slotuse = T.getValidLen node
  fits : slotuse ≤ slots.leaf

omit [LinearOrder K] in
theorem mem_insertIdx_keys {l : List Addr} {p : Nat} (le : p ≤ l.length) (k : K) :
    k ∈ (l.insertIdx p key).map mem ↔ k = mem key ∨ k ∈ l.map mem := by
  simp only [List.mem_map, List.mem_insertIdx le]
  constructor
  · rintro ⟨x, rfl | inside, rfl⟩
    · exact .inl rfl
    · exact .inr ⟨x, inside, rfl⟩
  · rintro (rfl | ⟨x, inside, rfl⟩)
    · exact ⟨key, .inl rfl, rfl⟩
    · exact ⟨x, .inr inside, rfl⟩

omit [LinearOrder K] in
theorem mem_allKeys_page {front back : Row K (List K)} {low : WithBot K} {keys : List K} {k : K} :
    k ∈ allKeys (front ++ (low, keys) :: back) ↔ k ∈ allKeys front ∨ k ∈ keys ∨
    k ∈ allKeys back := by
  simp [allKeys]

-- One more key in the leaf it is routed to.
theorem Sound.insert_key {content : N → List K} {ok : Nat → N → Prop} {k : K} (leaf' : Leaf N)
    (sound : Sound content ok s row) (routes : Routes row k before sep a after)
    (live : s.leaf a = some leaf) (missing : k ∉ content leaf.node)
    (prev : leaf'.prevleaf = leaf.prevleaf) (next : leaf'.nextleaf = leaf.nextleaf)
    (valid : ok leaf'.slotuse leaf'.node) (increasing : (content leaf'.node).Pairwise (· < ·))
    (members : ∀ x, x ∈ content leaf'.node ↔ x = k ∨ x ∈ content leaf.node) :
    Sound content ok (s.put a leaf') row ∧ ∀ x, x ∈ allKeys ((s.put a leaf').pages content row) ↔
      x = k ∨ x ∈ allKeys (s.pages content row) := by
  obtain rfl := routes.eq
  obtain ⟨left, right⟩ := sound.apart
  have tight := sound.tight
  rw [pages_append, pages_cons, keysAt_of_leaf live] at tight
  have routes' : Routes (s.pages content before ++ (sep, content leaf.node) ::
    s.pages content after) k
      (s.pages content before) sep (content leaf.node) (s.pages content after) := by
    refine ⟨rfl, routes.below, fun e inside => ?_⟩
    obtain ⟨e', inside', rfl⟩ := List.mem_map.mp inside
    exact routes.above e' inside'
  refine ⟨sound.write live prev next valid (tight.insert routes' missing increasing members),
    fun x => ?_⟩
  rw [pages_append, pages_cons, pages_append, pages_cons, keysAt_of_leaf live,
    keysAt_of_leaf put_self, pages_congr fun x mem => put_other (left x mem),
    pages_congr fun x mem => put_other (right x mem),
    mem_allKeys_page, mem_allKeys_page, members]
  tauto

-- The keys of a leaf that stay with a new key: all of them, or those of the half it goes to when
-- the leaf is full.
def takingPart (slots : Nat) (keys : List K) (x : K) : List K :=
  if keys.length = slots then
    if ∀ k ∈ keys.take (slots / 2), k < x then keys.drop (slots / 2) else keys.take (slots / 2)
  else keys

theorem takingPart_sub {slots_ : Nat} {keys : List K} {x k : K}
    (mem : k ∈ takingPart slots_ keys x) : k ∈ keys := by
  unfold takingPart at mem
  split_ifs at mem
  · exact List.mem_of_mem_drop mem
  · exact List.mem_of_mem_take mem
  · exact mem

theorem first_iff {keys keys' : List K} {x : K} (increasing : keys'.Pairwise (· < ·))
    (missing : x ∉ keys) (mem : ∀ k, k ∈ keys' ↔ k = x ∨ k ∈ keys) : keys'[0]? = some x ↔
    ∀ k ∈ keys, x < k := by
  cases keys' with
  | nil => exact absurd ((mem x).mpr (.inl rfl)) List.not_mem_nil
  | cons y rest =>
    have above := (List.pairwise_cons.mp increasing).1
    simp only [List.getElem?_cons_zero, Option.some.injEq]
    constructor
    · rintro rfl k inside
      rcases List.mem_cons.mp ((mem k).mpr (.inr inside)) with rfl | later
      · exact absurd inside missing
      · exact above k later
    · intro least
      by_contra ne
      rcases (mem y).mp List.mem_cons_self with same | inside
      · exact ne same
      · rcases List.mem_cons.mp ((mem x).mpr (.inl rfl)) with same | later
        · exact ne same.symm
        · exact (least y inside).asymm (above x later)

def BTree.leaves (t : BTree K N) : Row K Ptr :=
  match t.root with
  | none => []
  | some root => Tree.leaves root.1 ⊥ root.2

end ElasticIndex.Tree
