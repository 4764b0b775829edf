import ElasticIndex.Tree.SortedMap

set_option autoImplicit false

namespace ElasticIndex.Tree

open Separators LinkedRow Loop

variable {K L N : Type} [LinearOrder K] {slots : Slots} {mem : Addr → K} {T : NodeType K N}
  {Valid : N → Prop} {Q : Row K (List K) → Prop} {tight : Prop} {t : BTree K N}
  {m : CountedTree K N} {S : Finset K} {least most a b : Nat}

omit [LinearOrder K] in
theorem length_flatMap_bounds {A B : Type} {l : List A} {f : A → List B}
    (bounds : ∀ x ∈ l, a ≤ (f x).length ∧ (f x).length ≤ b) :
    l.length * a ≤ (l.flatMap f).length ∧ (l.flatMap f).length ≤ l.length * b := by
  have lower := List.card_nsmul_le_sum (l.map fun x => (f x).length)
    a (by simpa using fun x mem => (bounds x mem).1)
  have upper := List.sum_le_card_nsmul (l.map fun x => (f x).length)
    b (by simpa using fun x mem => (bounds x mem).2)
  rw [List.length_map, smul_eq_mul] at lower upper
  rw [List.length_flatMap]
  exact ⟨lower, upper⟩

omit [LinearOrder K] in
theorem leaves_bounds {level : Nat} {node : Node K L level} (filled : Filled least most level node)
    (low : WithBot K) :
    (least + 1) ^ level ≤ (leaves level low node).length ∧ (leaves level low node).length ≤
    (most + 1) ^ level := by
  induction level generalizing low with
  | zero => exact ⟨le_rfl, le_rfl⟩
  | succ level ih =>
    obtain ⟨lower, upper, all⟩ := filled
    have all := (all_iff_row low).mp all
    obtain ⟨first, second⟩ :=
      length_flatMap_bounds (f := fun e => leaves level e.1 e.2) fun e inside =>
      ih (all e inside) e.1
    have length : (row low node).length = InnerNode.slotuse node + 1 := by
      simp [row, InnerNode.slotuse]
    rw [length] at first second
    constructor
    · calc (least + 1) ^ (level + 1) = (least + 1) * (least + 1) ^ level := Nat.pow_succ'
        _ ≤ (InnerNode.slotuse node + 1) * (least + 1) ^ level := Nat.mul_le_mul_right _ (by omega)
        _ ≤ (leaves (level + 1) low node).length := first
    · calc (leaves (level + 1) low node).length ≤
        (InnerNode.slotuse node + 1) * (most + 1) ^ level := second
        _ ≤ (most + 1) * (most + 1) ^ level := Nat.mul_le_mul_right _ (by omega)
        _ = (most + 1) ^ (level + 1) := Nat.pow_succ'.symm

-- A leaf holds one key at least, whatever erasures have left of it.
theorem Intact.content_bounds (lawful : T.Lawful mem slots.leaf Valid)
    (intact : Intact T slots mem Valid Q t) :
    t.leaves.length ≤ (t.content T mem).length ∧ (t.content T mem).length ≤
      t.leaves.length * slots.leaf := by
  have bounds : ∀ e ∈ t.store.pages (T.keys mem) t.leaves, 1 ≤ e.2.length ∧
      e.2.length ≤ slots.leaf := by
    intro e inside
    obtain ⟨e', inside', rfl⟩ := List.mem_map.mp inside
    obtain ⟨leaf, live, sound⟩ := intact.strung.live e'.2 (List.mem_map_of_mem inside')
    have length : (T.keys mem leaf.node).length = T.getValidLen leaf.node := keys_length leaf.node
    have nonempty := lawful.nonempty sound.valid
    have counted := sound.counted
    have fits := sound.fits
    dsimp only
    rw [keysAt_of_leaf live]
    omega
  have both := length_flatMap_bounds bounds
  rw [Store.pages, List.length_map, Nat.mul_one] at both
  exact both

-- The height of a tree with an inner root is logarithmic in the number of its keys.
theorem Abstracts.height (lawful : T.Lawful mem slots.leaf Valid)
    (abstracts : Abstracts T slots mem Valid Q m S) {level : Nat} {node : Node K Ptr (level + 1)}
    (eq : m.tree.root = some ⟨level + 1, node⟩) :
    2 * (slots.inner / 2 + 1) ^ level ≤ S.card ∧ S.card ≤
      (slots.inner + 1) ^ (level + 1) * slots.leaf := by
  obtain ⟨some_, fits, all⟩ := abstracts.intact.filled _ eq
  have all := (all_iff_row ⊥).mp all
  obtain ⟨lower, upper⟩ := abstracts.intact.content_bounds lawful
  have card : (m.tree.content T mem).length = S.card := by
    rw [abstracts.content, Finset.length_sort]
  have row_ : m.tree.leaves = leaves (level + 1) ⊥ node := by rw [BTree.leaves, eq]
  rw [card, row_] at lower upper
  obtain ⟨first, second⟩ :=
    length_flatMap_bounds (f := fun e => leaves level e.1 e.2) fun e inside =>
    leaves_bounds (all e inside) e.1
  have length : (row ⊥ node).length = InnerNode.slotuse node + 1 := by simp [row, InnerNode.slotuse]
  rw [length] at first second
  constructor
  · calc 2 * (slots.inner / 2 + 1) ^ level ≤ (InnerNode.slotuse node + 1) *
        (slots.inner / 2 + 1) ^ level :=
        Nat.mul_le_mul_right _ (by omega)
      _ ≤ (leaves (level + 1) ⊥ node).length := first
      _ ≤ S.card := lower
  · calc S.card ≤ (leaves (level + 1) ⊥ node).length * slots.leaf := upper
      _ ≤ (InnerNode.slotuse node + 1) * (slots.inner + 1) ^ level * slots.leaf :=
        Nat.mul_le_mul_right _ second
      _ ≤ (slots.inner + 1) * (slots.inner + 1) ^ level * slots.leaf :=
        Nat.mul_le_mul_right _ (Nat.mul_le_mul_right _ (by omega))
      _ = (slots.inner + 1) ^ (level + 1) * slots.leaf := by rw [Nat.pow_succ']

/-- What the sizes of the nodes come to: the inner nodes are half full, the leaves hold a key at
least. -/
structure Balanced (T : NodeType K N) (slots : Slots) (t : BTree K N) (S : Finset K) : Prop where
  filled : ∀ root ∈ t.root, FilledRoot slots root
  leaf : ∀ a ∈ cells t.leaves, ∃ leaf, t.store.leaf a = some leaf ∧
    leaf.slotuse = T.getValidLen leaf.node ∧ 1 ≤ leaf.slotuse ∧
    leaf.slotuse ≤ slots.leaf
  height : ∀ level node, t.root = some ⟨level + 1, node⟩ →
    2 * (slots.inner / 2 + 1) ^ level ≤ S.card ∧ S.card ≤
    (slots.inner + 1) ^ (level + 1) * slots.leaf

theorem Abstracts.balances (lawful : T.Lawful mem slots.leaf Valid)
    (abstracts : Abstracts T slots mem Valid Q m S) :
    Balanced T slots m.tree S := by
  refine ⟨abstracts.intact.filled, fun a inside => ?_,
    fun level node eq => abstracts.height lawful eq⟩
  obtain ⟨leaf, live, sound⟩ := abstracts.intact.strung.live a inside
  have nonempty := lawful.nonempty sound.valid
  have counted := sound.counted
  exact ⟨leaf, live, counted, by omega, sound.fits⟩

/-- m_headleaf, m_tailleaf and the links run over the leaves below m_root, and no other leaf is
allocated. -/
structure LeafChain (t : BTree K N) : Prop where
  live : ∀ a, t.store.leaf a ≠ none ↔ a ∈ cells t.leaves
  distinct : (cells t.leaves).Nodup
  forward : Visits (fun a => (t.store.links a).map Prod.snd) t.store.headleaf (cells t.leaves)
  backward : Visits (fun a => (t.store.links a).map Prod.fst) t.store.tailleaf
    (cells t.leaves).reverse

omit [LinearOrder K] in
theorem Intact.leafChain (intact : Intact T slots mem Valid Q t) : LeafChain t := by
  have strung := intact.strung
  refine ⟨fun a => ⟨strung.only a, strung.alive⟩, strung.distinct, ?_, ?_⟩
  · rw [strung.head]
    exact strung.linked.forward
  · rw [strung.tail]
    exact strung.linked.backward

end ElasticIndex.Tree
