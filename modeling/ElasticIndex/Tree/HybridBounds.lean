import ElasticIndex.Tree.Bounds
import ElasticIndex.Tree.HybridReached

set_option autoImplicit false

namespace ElasticIndex.Tree.Hybrid

open Separators SeqTree SequenceEdit

variable {c : Config} {mem : Addr → c.Key} {known : List Addr} {blank : SeqTreeBlindiNode}
  {t : HybridTree c} {stored : List c.Key} {x : c.Key} {root : (level : Nat) × Node c.Key Ptr level}
  {leaf : Leaf (HybridNode c.Key)} {before after : Row c.Key Ptr}
  {sep : WithBot c.Key}

/-- The leaf in which a search for x ends. -/
structure Reaches (mem : Addr → c.Key) (known : List Addr) (t : HybridTree c)
    (stored : List c.Key) (x : c.Key) (root : (level : Nat) × Node c.Key Ptr level)
    (before : Row c.Key Ptr) (sep : WithBot c.Key) (leaf : Leaf (HybridNode c.Key))
    (after : Row c.Key Ptr) : Prop where
  good : HybridGood mem known (min 2 stored.length) t.store t.leaves
  routes : Routes t.leaves x before sep (descend x root.1 root.2) after
  live : t.store.leaf (descend x root.1 root.2) = some leaf
  valid : HybridSound mem known (min 2 stored.length) leaf.slotuse leaf.node

theorem Keeps.reaches (keeps : Keeps mem known t stored) (x : c.Key) (eq : t.root = some root) :
    ∃ before sep leaf after, Reaches mem known t stored x root before sep leaf after := by
  have good := keeps.good (by simp [eq])
  have row : t.leaves = leaves root.1 ⊥ root.2 := by rw [HybridTree.leaves, eq]
  have ascending := good.ascending
  rw [row] at ascending
  obtain ⟨before, sep, after, routes⟩ :=
    descend_routes root.1 root.2 (WithBot.bot_lt_coe x) ascending
  rw [← row] at routes
  have here := good
  rw [routes.eq] at here
  obtain ⟨leaf, live, valid, _, _⟩ := here.leaf_at
  exact ⟨before, sep, leaf, after, good, routes, live, valid⟩

theorem end_of_tail {a : Ptr} (live : t.store.leaf a = some leaf)
    (last : t.store.tailleaf = some a) :
    t.store.end_ = some ⟨some a, leaf.slotuse⟩ := by
  rw [Store.end_, Store.endAt, last]
  dsimp only
  rw [live]
  rfl

/-- Where lower_bound comes out in a leaf at a: at the first key from x on; in a blind leaf without
x at the last key below x; or behind the last entry, when all keys are below x. -/
inductive Lands (mem : Addr → c.Key) (t : HybridTree c) (stored : List c.Key) (x : c.Key) (a : Ptr)
    (leaf : Leaf (HybridNode c.Key)) : Iterator → Prop where
  | first {it : Iterator} {front back : List c.Key}
      (stands : Stands (HybridNode.keys mem) t.store t.leaves it front back)
      (below : ∀ k ∈ front, k < x) (above : ∀ k ∈ back, x ≤ k)
      (right : leaf.node.Plain ∨ x ∈ stored ∨ ∀ k ∈ leaf.node.keys mem, x < k) :
      Lands mem t stored x a leaf it
  | before {it : Iterator} {front back : List c.Key} {k : c.Key}
      (stands : Stands (HybridNode.keys mem) t.store t.leaves it front (k :: back))
      (blind : ¬ leaf.node.Plain) (inside : k ∈ leaf.node.keys mem) (less : k < x)
      (above : ∀ k ∈ back, x < k) (more : t.store.tailleaf = some a → back ≠ []) :
      Lands mem t stored x a leaf it
  | behind (all : ∀ k ∈ stored, k < x) (right : leaf.node.Plain ∨ t.store.tailleaf = some a) :
      Lands mem t stored x a leaf ⟨some a, leaf.slotuse⟩

theorem Reaches.lowerBound_plain (keeps : Keeps mem known t stored)
    (reaches : Reaches mem known t stored x root before sep leaf after) (eq : t.root = some root)
    {slots : List (c.Key × Addr)} (node : leaf.node = .btree slots) :
    ∃ it, t.lowerBound mem x = some it ∧
      Lands mem t stored x (descend x root.1 root.2) leaf it := by
  have good := reaches.good
  have routes := reaches.routes
  have live := reaches.live
  have plain : leaf.node.Plain := by rw [node]; trivial
  refine ⟨⟨some (descend x root.1 root.2), findLower (leaf.node.keys mem) x⟩, ?_, ?_⟩
  · rw [HybridTree.lowerBound, eq]
    dsimp only
    rw [live, Option.bind_some, node]
    rfl
  · have increasing := good.increasing (by rw [routes.eq]; simp) live
    have length := counted_hybrid.length reaches.valid
    by_cases more : findLower (leaf.node.keys mem) x < (leaf.node.keys mem).length
    · have stop : x ≤ (leaf.node.keys mem)[findLower (leaf.node.keys mem) x] :=
        findLower_stop (List.getElem?_eq_getElem more)
      refine .first (.inside routes.eq live more)
        (good.front_below routes live fun k inside => ?_)
        (good.back_above routes live (fun _ => le_of_lt) fun k inside => ?_) (.inl plain)
      · obtain ⟨i, lt, rfl⟩ := List.mem_take_iff_getElem.mp inside
        exact findLower_lt (by omega) (List.getElem?_eq_getElem _)
      · have tail := increasing.sublist (List.drop_sublist (findLower (leaf.node.keys mem) x) _)
        rw [List.drop_eq_getElem_cons more] at inside tail
        rcases List.mem_cons.mp inside with rfl | past
        · exact stop
        · exact (stop.trans_lt ((List.pairwise_cons.mp tail).1 k past)).le
    · have le := findLower_le (leaf.node.keys mem) x
      have whole : findLower (leaf.node.keys mem) x = (leaf.node.keys mem).length := by omega
      have all := (good.none_from keeps.keys routes live (findLower_full.mp whole.ge)).2
      rw [whole, ← length]
      exact .behind all (.inl plain)

theorem Reaches.lowerBound_blind (fits : c.Fits) (keeps : Keeps mem known t stored)
    (reaches : Reaches mem known t stored x root before sep leaf after) (eq : t.root = some root)
    {type : BlindiLeafType} {n : SeqTreeBlindiNode} (node : leaf.node = .blindi type n) :
    ∃ it, t.lowerBound mem x = some it ∧
      Lands mem t stored x (descend x root.1 root.2) leaf it := by
  have good := reaches.good
  have routes := reaches.routes
  have live := reaches.live
  have valid := reaches.valid
  have length := counted_hybrid.length valid
  have some_ := List.length_pos_iff.mpr (counted_hybrid.nonempty valid)
  have increasing := good.increasing (by rw [routes.eq]; simp) live
  have blind : ¬ leaf.node.Plain := by rw [node]; exact id
  have answer := search_hybrid fits (show Stocked (c := c.params type) mem n by
    rw [node] at valid
    exact valid.2.1) x
  dsimp only at answer
  have value : t.lowerBound mem x =
    (let r := searchBlindiNode (c := c.params type) mem n x .predecessor .zero
      if r.hit ∨ r.smallerThanNode then some ⟨some (descend x root.1 root.2), r.position⟩
      else if t.store.tailleaf = some (descend x root.1 root.2) ∧ r.position + 1 = leaf.slotuse
      then t.store.end_
      else some ⟨some (descend x root.1 root.2), r.position⟩) := by
    rw [HybridTree.lowerBound, eq]
    dsimp only
    rw [live, Option.bind_some, node]
  rw [value]
  rw [← node] at answer
  generalize searchBlindiNode (c := c.params type) mem n x .predecessor .zero = r at answer
  dsimp only
  by_cases hit : r.hit = true
  · obtain ⟨lt, below, above, -⟩ := answer.found_cut increasing hit
    rw [if_pos (.inl hit)]
    exact ⟨_, rfl, .first (.inside routes.eq live lt) (good.front_below routes live below)
      (good.back_above routes live (fun _ => le_of_lt) above)
      (.inr (.inl (Routes.stored_of_leaf keeps.keys routes live (answer.hit.mp hit))))⟩
  · have miss : r.hit = false := by simpa using hit
    by_cases smaller : r.smallerThanNode = true
    · have all := (answer.smaller miss).mp smaller
      have zero : r.position = 0 := answer.first miss smaller
      rw [if_pos (.inr smaller), zero]
      exact ⟨_, rfl, .first (.inside routes.eq live some_)
        (good.front_below routes live (by simp))
        (good.back_above routes live (fun _ => le_of_lt) fun k inside => (all k inside).le)
        (.inr (.inr all))⟩
    · have larger : r.smallerThanNode = false := by simpa using smaller
      obtain ⟨lt, ⟨k, at_, less⟩, below, above⟩ := answer.cut increasing miss larger
      dsimp only at lt at_ below above
      rw [if_neg (by simp [miss, larger])]
      by_cases last : t.store.tailleaf = some (descend x root.1 root.2) ∧
        r.position + 1 = leaf.slotuse
      · rw [if_pos last, end_of_tail live last.1]
        rw [last.2, length, List.take_length] at below
        exact ⟨_, rfl, .behind (good.none_from keeps.keys routes live below).2 (.inr last.1)⟩
      · rw [if_neg last]
        have here := List.drop_eq_getElem_cons lt
        rw [(List.getElem?_eq_some_iff.mp at_).2] at here
        have stands : Stands (HybridNode.keys mem) t.store t.leaves
            ⟨some (descend x root.1 root.2), r.position⟩ _ _ :=
          .inside routes.eq live lt
        rw [here, List.cons_append] at stands
        refine ⟨_, rfl, .before stands blind (List.mem_of_getElem? at_) less
          (good.back_above routes live (fun _ => id) above) fun tail none => last ⟨tail, ?_⟩⟩
        have past := List.drop_eq_nil_iff.mp (List.append_eq_nil_iff.mp none).1
        omega

theorem Reaches.lowerBound (fits : c.Fits) (keeps : Keeps mem known t stored)
    (reaches : Reaches mem known t stored x root before sep leaf after)
    (eq : t.root = some root) :
    ∃ it, t.lowerBound mem x = some it ∧
      Lands mem t stored x (descend x root.1 root.2) leaf it := by
  cases node : leaf.node with
  | btree slots => exact reaches.lowerBound_plain keeps eq node
  | blindi type n => exact reaches.lowerBound_blind fits keeps eq node

theorem tail_of_end {a : Ptr} {slot : Nat} (end_ : t.store.end_ = some ⟨some a, slot⟩) :
    t.store.tailleaf = some a := by
  unfold Store.end_ Store.endAt at end_
  cases tail : t.store.tailleaf with
  | none =>
    rw [tail] at end_
    simp at end_
  | some b =>
    rw [tail] at end_
    obtain ⟨leaf, _, same⟩ := Option.map_eq_some_iff.mp end_
    simp only [Iterator.mk.injEq, Option.some.injEq] at same
    rw [same.1]

-- The root is not gone. A plain leaf has a key from x on, or is m_tailleaf; a blind one has x, or
-- only keys above x, or it is m_tailleaf and x is above every key.
def LowerBoundRight (mem : Addr → c.Key) (t : HybridTree c) (stored : List c.Key)
    (x : c.Key) : Prop :=
  ∀ root, t.root = some root → ∃ leaf, t.store.leaf (descend x root.1 root.2) = some leaf ∧
    if leaf.node.Plain then (∃ k ∈ stored, x ≤ k) ∨ t.store.tailleaf =
    some (descend x root.1 root.2)
    else x ∈ stored ∨ (∀ k ∈ leaf.node.keys mem, x < k) ∨
      (∀ k ∈ stored, k < x) ∧ t.store.tailleaf = some (descend x root.1 root.2)

-- What lower_bound returns is right at the first key from x on, and is end() in the last leaf.
theorem Reaches.bound_iff (keeps : Keeps mem known t stored)
    (reaches : Reaches mem known t stored x root before sep leaf after) {it : Iterator}
    (lands : Lands mem t stored x (descend x root.1 root.2) leaf it) :
    Bound (HybridNode.keys mem) Leaf.slotuse t.store (· ∈ stored) (x ≤ ·) it ↔
      if leaf.node.Plain then (∃ k ∈ stored, x ≤ k) ∨ t.store.tailleaf =
        some (descend x root.1 root.2)
      else x ∈ stored ∨ (∀ k ∈ leaf.node.keys mem, x < k) ∨
        (∀ k ∈ stored, k < x) ∧ t.store.tailleaf = some (descend x root.1 root.2) := by
  have good := reaches.good
  have holds := keeps.keys
  cases lands with
  | @first _ front back stands below above right =>
    have bound : Bound (HybridNode.keys mem) Leaf.slotuse t.store (· ∈ stored) (x ≤ ·) it :=
      .of_stands good counted_hybrid endsBehind_slotuse holds stands
        (fun k inside => not_le.mpr (below k inside)) above
    refine iff_of_true bound ?_
    split_ifs with plain
    · obtain ⟨k, inside⟩ := List.exists_mem_of_ne_nil back stands.nonempty
      have stored' : k ∈ stored := by
        rw [holds, stands.split]
        exact List.mem_append_right _ inside
      exact .inl ⟨k, stored', above k inside⟩
    · exact (right.resolve_left plain).imp_right .inl
  | @before _ front back k stands blind inside less above more =>
    have wrong : ¬ Bound (HybridNode.keys mem) Leaf.slotuse t.store (· ∈ stored) (x ≤ ·) it := by
      intro bound
      obtain ⟨k', at_, le⟩ := bound.reaches good counted_hybrid endsBehind_slotuse holds stands
      cases stands.keyOf.symm.trans at_
      exact absurd less (not_lt.mpr le)
    refine iff_of_false wrong ?_
    rw [if_neg blind]
    rintro (hit | all | ⟨none, tail⟩)
    · exact stands.skips good less above ((holds x).mp hit)
    · exact (all k inside).asymm less
    · obtain ⟨k', past⟩ := List.exists_mem_of_ne_nil back (more tail)
      refine (above k' past).asymm (none k' ?_)
      rw [holds, stands.split]
      exact List.mem_append_right _ (List.mem_cons_of_mem _ past)
  | behind all right =>
    have none (k : c.Key) (inside : k ∈ stored) : ¬ x ≤ k := not_le.mpr (all k inside)
    have last : Bound (HybridNode.keys mem) Leaf.slotuse t.store (· ∈ stored) (x ≤ ·)
        ⟨some (descend x root.1 root.2), leaf.slotuse⟩ ↔
          t.store.tailleaf = some (descend x root.1 root.2) :=
      ⟨fun bound => tail_of_end (bound.end_.mpr none),
        fun tail => .of_end none (end_of_tail reaches.live tail)⟩
    rw [last]
    split_ifs with plain
    · exact ⟨.inr, fun some_ => some_.resolve_left fun ⟨k, inside, le⟩ => none k inside le⟩
    · have tail := right.resolve_left plain
      exact iff_of_true tail (.inr (.inr ⟨all, tail⟩))

theorem lowerBound_bound_iff (fits : c.Fits) (reached : Reached mem blank t stored) (x : c.Key) :
    (∃ it, t.lowerBound mem x = some it ∧
      Bound (HybridNode.keys mem) Leaf.slotuse t.store (· ∈ stored) (x ≤ ·) it) ↔
      LowerBoundRight mem t stored x := by
  obtain ⟨known, -, keeps | ⟨a, root, gone⟩⟩ := reached.keeps fits
  · cases eq : t.root with
    | none =>
      obtain ⟨rfl, rfl⟩ := keeps.empty eq
      refine ⟨fun _ root same => (by cases same),
        fun _ => ⟨⟨none, 0⟩, rfl, .of_end (fun k inside => ?_) rfl⟩⟩
      exact absurd inside List.not_mem_nil
    | some root =>
      obtain ⟨before, sep, leaf, after, reaches⟩ := keeps.reaches x eq
      have right : LowerBoundRight mem t stored x ↔
          if leaf.node.Plain then (∃ k ∈ stored, x ≤ k) ∨ t.store.tailleaf =
          some (descend x root.1 root.2)
          else x ∈ stored ∨ (∀ k ∈ leaf.node.keys mem, x < k) ∨
            (∀ k ∈ stored, k < x) ∧ t.store.tailleaf = some (descend x root.1 root.2) := by
        constructor
        · intro all
          obtain ⟨leaf', live', right⟩ := all root eq
          rw [reaches.live] at live'
          cases live'
          exact right
        · rintro right root' same
          rw [eq] at same
          cases same
          exact ⟨leaf, reaches.live, right⟩
      obtain ⟨it, run, lands⟩ := reaches.lowerBound fits keeps eq
      rw [right, ← reaches.bound_iff keeps lands, run]
      simp only [Option.some.injEq, exists_eq_left']
  · constructor
    · rintro ⟨it, run, _⟩
      rw [HybridTree.lowerBound, root] at run
      dsimp only [descend] at run
      rw [gone] at run
      cases run
    · intro all
      obtain ⟨leaf, live, _⟩ := all _ root
      have live : t.store.leaf a = some leaf := live
      rw [gone] at live
      cases live

end ElasticIndex.Tree.Hybrid
