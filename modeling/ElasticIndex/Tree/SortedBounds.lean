import ElasticIndex.Tree.SortedWalk

set_option autoImplicit false

namespace ElasticIndex.Tree

open Separators LinkedRow Loop

variable {K N : Type} [LinearOrder K] {content : N → List K} {s : Store N} {slots : Slots}
  {mem : Addr → K} {T : NodeType K N} {Valid : N → Prop} {Q : Row K (List K) → Prop} {tight : Prop}
  {t : BTree K N} {x : K} {r : Found} {before after : Row K Ptr}
  {sep : WithBot K} {leaf : Leaf N} {a : Ptr} {m : CountedTree K N} {S : Finset K}
  {endSlot : Leaf N → Nat}

/-- The leaf in which a search for x ends, between the leaves with the keys below x and those with
the keys above it. -/
structure Lands (T : NodeType K N) (slots : Slots) (mem : Addr → K) (Valid : N → Prop)
    (t : BTree K N) (x : K) (a : Ptr) (before : Row K Ptr) (sep : WithBot K) (leaf : Leaf N)
    (after : Row K Ptr) (r : Found) : Prop where
  sound : Sound (T.keys mem) (LeafSound T slots Valid) t.store (before ++ (sep, a) :: after)
  content : t.content T mem = allKeys (t.store.pages (T.keys mem) (before ++ (sep, a) :: after))
  tail : t.store.tailleaf = (cells (before ++ (sep, a) :: after)).getLast?
  live : t.store.leaf a = some leaf
  below : ∀ k ∈ allKeys (t.store.pages (T.keys mem) before), k < x
  above : ∀ k ∈ allKeys (t.store.pages (T.keys mem) after), x < k
  counted : leaf.slotuse = (T.keys mem leaf.node).length
  increasing : (T.keys mem leaf.node).Pairwise (· < ·)
  answers : Returns (fun rounds => T.searchBlindiNode rounds mem leaf.node x .predecessor) r
  answer : Predecessor (T.keys mem leaf.node) x r

omit [LinearOrder K] in
theorem allKeys_cells (row : Row K Ptr) : allKeys (s.pages content row) =
    (cells row).flatMap (s.keysAt content) := by
  rw [allKeys, Store.pages, List.flatMap_map, cells, List.flatMap_map]

theorem Intact.lands (lawful : T.Lawful mem slots.leaf Valid) (discipline : Discipline tight Q)
    (intact : Intact T slots mem Valid Q t) {root : (level : Nat) × Node K Ptr level}
    (eq : t.root = some root) (x : K) :
    ∃ before sep leaf after r, Lands T slots mem Valid t x
      (descend x root.1 root.2) before sep leaf after r := by
  have row : t.leaves = leaves root.1 ⊥ root.2 := by rw [BTree.leaves, eq]
  have loose := discipline.loose intact.pages
  have ascending : Ascending t.leaves := by
    have pages := loose.ascending
    rwa [Ascending, Store.pages, List.pairwise_map] at pages
  rw [row] at ascending
  obtain ⟨before, sep, after, routes⟩ :=
    descend_routes root.1 root.2 (WithBot.bot_lt_coe x) ascending
  rw [← row] at routes
  have strung := intact.strung
  rw [routes.eq, cells_append, cells_cons] at strung
  obtain ⟨leaf, live, valid, _⟩ := strung.leaf_at
  obtain ⟨r, answers, answer⟩ := lawful.search valid.valid x
  have pages : Routes (t.store.pages (T.keys mem) t.leaves) x (t.store.pages (T.keys mem) before)
    sep (T.keys mem leaf.node)
      (t.store.pages (T.keys mem) after) := Routes.pages routes live
  have sound := intact.sound lawful discipline
  have content : t.content T mem =
      allKeys (t.store.pages (T.keys mem) (tightened (T.keys mem) t.store ⊥ t.leaves)) :=
    (allKeys_tightened ⊥ t.leaves).symm
  have tail := intact.strung.tail
  have same := cells_tightened (T.keys mem) t.store ⊥ t.leaves
  rw [← same] at tail
  have split : cells t.leaves = cells before ++ descend x root.1 root.2 :: cells after := by
    rw [routes.eq, cells_append, cells_cons]
  rw [split] at same
  generalize tightened (T.keys mem) t.store ⊥ t.leaves = tightRow at sound content tail same
  obtain ⟨before', rest, rfl, front, others⟩ := List.map_eq_append_iff.mp same
  obtain ⟨⟨sep', a'⟩, after', rfl, here, back⟩ := List.map_eq_cons_iff.mp others
  obtain rfl : a' = _ := here
  refine ⟨before', sep', leaf, after', r, sound, content, tail, live,
    fun k mem' => ?_, fun k mem' => ?_,
    (counted_leaves lawful).length valid, lawful.increasing valid.valid, answers, answer⟩
  · rw [allKeys_cells, show cells before' = cells before from front, ← allKeys_cells] at mem'
    exact pages.front_lt loose.holds loose.ascending mem'
  · rw [allKeys_cells, show cells after' = cells after from back, ← allKeys_cells] at mem'
    exact pages.lt_back loose.holds mem'

variable (lands : Lands T slots mem Valid t x a before sep leaf after r)

include lands in
theorem Lands.last (last : t.store.tailleaf = some a) : after = [] := by
  cases after with
  | nil => rfl
  | cons e after =>
    have distinct := lands.sound.distinct
    have tail := lands.tail.symm.trans last
    rw [cells_append, cells_cons] at tail distinct
    rw [List.getLast?_append_of_ne_nil _ (List.cons_ne_nil _ _),
      List.getLast?_cons_of_ne_nil (by simp [cells])] at tail
    exact absurd (List.mem_of_getLast? tail)
      (List.nodup_cons.mp (List.nodup_append.mp distinct).2.1).1

include lands in
theorem Lands.mem_iff (k : K) : k ∈ t.content T mem ↔
    k ∈ allKeys (t.store.pages (T.keys mem) before) ∨ k ∈ T.keys mem leaf.node ∨
    k ∈ allKeys (t.store.pages (T.keys mem) after) := by
  rw [lands.content, pages_append, pages_cons, keysAt_of_leaf lands.live, allKeys_middle,
    List.mem_append, List.mem_append]

include lands in
theorem Lands.hit_iff : x ∈ t.content T mem ↔ r.hit = true := by
  rw [lands.mem_iff, lands.answer.hit]
  refine ⟨fun inside => ?_, fun here => .inr (.inl here)⟩
  rcases inside with inside | inside | inside
  · exact absurd (lands.below x inside) (lt_irrefl x)
  · exact inside
  · exact absurd (lands.above x inside) (lt_irrefl x)

include lands in
-- An entry of the leaf at which the keys with a property begin.
theorem Lands.bound_at (lawful : T.Lawful mem slots.leaf Valid)
    (behind : EndsBehind (LeafSound T slots Valid) endSlot) {P : K → Prop} {i : Nat}
    (lt : i < (T.keys mem leaf.node).length) (before_ : ∀ k, k < x → ¬ P k)
    (after_ : ∀ k, x < k → P k) (below : ∀ k ∈ (T.keys mem leaf.node).take i, ¬ P k)
    (above : ∀ k ∈ (T.keys mem leaf.node).drop i, P k) :
    Bound (T.keys mem) endSlot t.store (· ∈ t.content T mem) P ⟨some a, i⟩ := by
  refine .of_stands lands.sound (counted_leaves lawful) behind (fun k => by rw [lands.content])
    (.inside rfl lands.live lt) (fun k inside => ?_) fun k inside => ?_
  · exact (List.mem_append.mp inside).elim
      (fun inside => before_ k (lands.below k inside)) (below k)
  · exact (List.mem_append.mp inside).elim (above k) fun inside => after_ k (lands.above k inside)

include lands in
-- The last entry of the last leaf, below x.
theorem Lands.top_iff (miss : r.hit = false) (larger : r.smallerThanNode = false)
    (lawful : T.Lawful mem slots.leaf Valid) :
    (t.store.tailleaf = some a ∧ r.position + 1 = leaf.slotuse) ↔ ∀ k ∈ t.content T mem, k < x := by
  obtain ⟨lt, ⟨k, here, less⟩, below, above⟩ := lands.answer.cut lands.increasing miss larger
  rw [lands.counted]
  constructor
  · rintro ⟨last, whole⟩ k' inside
    obtain rfl := lands.last last
    rw [whole, List.take_length] at below
    rcases (lands.mem_iff k').mp inside with inside | inside | inside
    · exact lands.below k' inside
    · exact below k' inside
    · exact absurd inside List.not_mem_nil
  · intro all
    have none : after = [] := by
      by_contra more
      obtain ⟨⟨sep', b⟩, rest, rfl⟩ := List.exists_cons_of_ne_nil more
      obtain ⟨next, live, valid⟩ := lands.sound.live b (by simp [cells])
      obtain ⟨k', rest', eq⟩ := List.exists_cons_of_ne_nil ((counted_leaves lawful).nonempty valid)
      have inside : k' ∈ allKeys (t.store.pages (T.keys mem) ((sep', b) :: rest)) := by
        rw [pages_cons, keysAt_of_leaf live, eq]
        exact List.mem_append_left _ List.mem_cons_self
      exact absurd (all k' ((lands.mem_iff k').mpr (.inr (.inr inside))))
        (lands.above k' inside).asymm
    refine ⟨?_, ?_⟩
    · rw [lands.tail, none]
      simp [cells]
    · by_contra more
      have lt' : r.position + 1 < (T.keys mem leaf.node).length := by omega
      have next : (T.keys mem leaf.node)[r.position + 1] ∈
          (T.keys mem leaf.node).drop (r.position + 1) := by
        rw [List.drop_eq_getElem_cons lt']
        exact List.mem_cons_self
      exact absurd (above _ next)
        (all _ ((lands.mem_iff _).mpr (.inr (.inl (List.getElem_mem lt'))))).asymm

include lands in
theorem Lands.end_ (last : t.store.tailleaf = some a) :
    t.store.endAt endSlot = some ⟨some a, endSlot leaf⟩ := by
  rw [Store.endAt, last]
  dsimp only
  rw [lands.live]
  rfl

include lands in
theorem Lands.lowerBound {root : (level : Nat) × Node K Ptr level} (eq : t.root = some root)
    (at_ : a = descend x root.1 root.2) (lawful : T.Lawful mem slots.leaf Valid)
    (behind : EndsBehind (LeafSound T slots Valid) endSlot) :
    ∃ it, Returns (fun rounds => t.lowerBound T mem endSlot rounds x) it ∧
      (Bound (T.keys mem) endSlot t.store (· ∈ t.content T mem) (x ≤ ·) it ↔
        r.hit = true ∨ (∀ k ∈ t.content T mem, k < x) ∨ ∀ k ∈ T.keys mem leaf.node, x < k) := by
  have runs {it : Iterator} (value : (if r.hit ∨ r.smallerThanNode then some ⟨some a, r.position⟩
      else if t.store.tailleaf = some a ∧ r.position + 1 = leaf.slotuse then t.store.endAt endSlot
      else some ⟨some a, r.position⟩) = some it) :
      Returns (fun rounds => t.lowerBound T mem endSlot rounds x) it := by
    obtain ⟨bound, answers⟩ := lands.answers
    refine ⟨bound, fun rounds le => ?_⟩
    have answers_eq : T.searchBlindiNode rounds mem leaf.node x .predecessor =
      some r := answers rounds le
    change t.lowerBound T mem endSlot rounds x = some it
    rw [BTree.lowerBound, eq]
    dsimp only
    rw [← at_, lands.live, Option.bind_some, answers_eq, Option.bind_some]
    exact value
  by_cases hit : r.hit = true
  · obtain ⟨lt, below, above, _⟩ := lands.answer.found_cut lands.increasing hit
    exact ⟨_, runs (if_pos (.inl hit)), fun _ => .inl hit,
      fun _ => lands.bound_at lawful behind lt (fun _ less => not_le.mpr less)
      (fun _ more => more.le) (fun k inside => not_le.mpr (below k inside)) above⟩
  · have miss : r.hit = false := by simpa using hit
    by_cases smaller : r.smallerThanNode = true
    · have all := (lands.answer.smaller miss).mp smaller
      have zero := lands.answer.first miss smaller
      obtain ⟨leaf', live', valid, _⟩ := lands.sound.leaf_at
      rw [lands.live] at live'
      cases live'
      have some_ := List.length_pos_iff.mpr ((counted_leaves lawful).nonempty valid)
      refine ⟨_, runs (if_pos (.inr smaller)), fun _ => .inr (.inr all), fun _ => ?_⟩
      rw [zero]
      exact lands.bound_at lawful behind some_ (fun _ less => not_le.mpr less)
        (fun _ more => more.le) (by simp)
        fun k inside => (all k (by simpa using inside)).le
    · have larger : r.smallerThanNode = false := by simpa using smaller
      obtain ⟨lt, ⟨k, here, less⟩, below, above⟩ := lands.answer.cut lands.increasing miss larger
      have within : ¬ ∀ k ∈ T.keys mem leaf.node, x < k :=
        fun all => (all k (List.mem_of_getElem? here)).asymm less
      have top := lands.top_iff miss larger lawful
      by_cases last : t.store.tailleaf = some a ∧ r.position + 1 = leaf.slotuse
      · exact ⟨_, runs ((if_neg (by simp [miss, larger])).trans
          ((if_pos last).trans (lands.end_ last.1))), fun _ => .inr (.inl (top.mp last)),
          fun _ => .of_end (fun k' inside => not_le.mpr (top.mp last k' inside))
          (lands.end_ last.1)⟩
      · refine ⟨_, runs ((if_neg (by simp [miss, larger])).trans (if_neg last)),
          fun bound => ?_, fun right => ?_⟩
        · have stands : Stands (T.keys mem) t.store (before ++ (sep, a) :: after) ⟨some a,
            r.position⟩ _ _ := .inside rfl lands.live lt
          obtain ⟨k', here', le⟩ := bound.reaches lands.sound (counted_leaves lawful) behind
            (fun k => by rw [lands.content]) stands
          rw [stands.keyOf, List.head?_append_of_ne_nil _ (by simpa using lt),
            List.head?_drop, here] at here'
          cases here'
          exact absurd less (not_lt.mpr le)
        · rcases right with hit' | all | all
          · exact absurd hit' hit
          · exact absurd (top.mpr all) last
          · exact absurd all within

include lands in
theorem Lands.upperBound {root : (level : Nat) × Node K Ptr level} (eq : t.root = some root)
    (at_ : a = descend x root.1 root.2) (lawful : T.Lawful mem slots.leaf Valid)
    (behind : EndsBehind (LeafSound T slots Valid) endSlot) :
    ∃ it, Returns (fun rounds => t.upperBound T mem endSlot rounds x) it ∧
      Bound (T.keys mem) endSlot t.store (· ∈ t.content T mem) (x < ·) it := by
  have runs {it : Iterator} (value : (if r.smallerThanNode then some ⟨some a, r.position⟩
      else if t.store.tailleaf = some a ∧ r.position + 1 = leaf.slotuse then t.store.endAt endSlot
      else Iterator.next t.store ⟨some a, r.position⟩) = some it) :
      Returns (fun rounds => t.upperBound T mem endSlot rounds x) it := by
    obtain ⟨bound, answers⟩ := lands.answers
    refine ⟨bound, fun rounds le => ?_⟩
    have answers_eq : T.searchBlindiNode rounds mem leaf.node x .predecessor =
      some r := answers rounds le
    change t.upperBound T mem endSlot rounds x = some it
    rw [BTree.upperBound, eq]
    dsimp only
    rw [← at_, lands.live, Option.bind_some, answers_eq, Option.bind_some]
    exact value
  have counted := counted_leaves lawful
  by_cases smaller : r.smallerThanNode = true
  · have miss : r.hit = false := by
      by_contra hit
      have := (lands.answer.found (by simpa using hit)).2
      rw [smaller] at this
      cases this
    have all := (lands.answer.smaller miss).mp smaller
    have zero := lands.answer.first miss smaller
    obtain ⟨leaf', live', valid, _⟩ := lands.sound.leaf_at
    rw [lands.live] at live'
    cases live'
    refine ⟨_, runs (if_pos smaller), ?_⟩
    rw [zero]
    exact lands.bound_at lawful behind (List.length_pos_iff.mpr (counted.nonempty valid))
      (fun _ less => not_lt.mpr less.le) (fun _ more => more)
      (by simp) fun k inside => all k (by simpa using inside)
  · have larger : r.smallerThanNode = false := by simpa using smaller
    have sides : r.position < (T.keys mem leaf.node).length ∧
      (∀ k ∈ (T.keys mem leaf.node).take (r.position + 1), k ≤ x) ∧
        ∀ k ∈ (T.keys mem leaf.node).drop (r.position + 1), x < k := by
      by_cases hit : r.hit = true
      · obtain ⟨lt, _, _, below, above⟩ := lands.answer.found_cut lands.increasing hit
        exact ⟨lt, below, above⟩
      · obtain ⟨lt, _, below, above⟩ :=
          lands.answer.cut lands.increasing (by simpa using hit) larger
        exact ⟨lt, fun k inside => (below k inside).le, above⟩
    obtain ⟨lt, below, above⟩ := sides
    by_cases last : t.store.tailleaf = some a ∧ r.position + 1 = leaf.slotuse
    · refine ⟨_, runs ((if_neg smaller).trans ((if_pos last).trans (lands.end_ last.1))),
        .of_end (fun k inside => not_lt.mpr ?_) (lands.end_ last.1)⟩
      obtain rfl := lands.last last.1
      rw [last.2, lands.counted, List.take_length] at below
      rcases (lands.mem_iff k).mp inside with inside | inside | inside
      · exact (lands.below k inside).le
      · exact below k inside
      · exact absurd inside List.not_mem_nil
    · obtain ⟨it, next, stands | ⟨rfl, whole, rfl⟩⟩ :=
        lands.sound.advance Leaf.slotuse counted rfl lands.live lt
      · refine ⟨it, runs ((if_neg smaller).trans ((if_neg last).trans next)),
          .of_stands lands.sound counted behind
          (fun k => by rw [lands.content]) stands (fun k inside => not_lt.mpr ?_) fun k inside =>
          ?_⟩
        · exact (List.mem_append.mp inside).elim (fun inside => (lands.below k inside).le) (below k)
        · exact (List.mem_append.mp inside).elim (above k) (lands.above k)
      · refine absurd ⟨?_, whole.trans lands.counted.symm⟩ last
        rw [lands.tail]
        simp [cells]

-- Stale separators do not change the answers.
theorem Intact.bounds (lawful : T.Lawful mem slots.leaf Valid) (discipline : Discipline tight Q)
    (behind : EndsBehind (LeafSound T slots Valid) endSlot)
    (intact : Intact T slots mem Valid Q t) :
    AnswersBounds T mem endSlot t (t.content T mem) := by
  cases eq : t.root with
  | none =>
    have leaves : t.leaves = [] := by rw [BTree.leaves, eq]
    have empty (k : K) : k ∉ t.content T mem := by
      rw [BTree.content, leaves]
      simp [allKeys]
    have tail : t.store.tailleaf = none := by
      rw [intact.strung.tail, leaves]
      rfl
    have end_ : t.store.endAt endSlot = some ⟨.none, 0⟩ := by rw [Store.endAt, tail]
    constructor
    · intro x
      refine ⟨fun _ => .inr (.inl fun k inside => absurd inside (empty k)), fun _ =>
        ⟨⟨.none, 0⟩, (Returns.pure _).congr fun rounds => ?_,
          .of_end (fun k inside => absurd inside (empty k)) end_⟩⟩
      rw [BTree.lowerBound, eq]
      exact end_
    · intro x
      refine ⟨⟨.none, 0⟩, (Returns.pure _).congr fun rounds => ?_,
        .of_end (fun k inside => absurd inside (empty k)) end_⟩
      rw [BTree.upperBound, eq]
      exact end_
  | some root =>
    constructor
    · intro x
      obtain ⟨before, sep, leaf, after, r, lands⟩ := intact.lands lawful discipline eq x
      obtain ⟨it, returns, right⟩ := lands.lowerBound eq rfl lawful behind
      have condition : LowerBoundRight T mem t (t.content T mem) x ↔
          r.hit = true ∨ (∀ k ∈ t.content T mem, k < x) ∨ ∀ k ∈ T.keys mem leaf.node, x < k := by
        unfold LowerBoundRight
        rw [lands.hit_iff]
        refine or_congr_right (or_congr_right ⟨fun all => ?_, fun all root' same => ?_⟩)
        · have := all root eq
          rwa [keysAt_of_leaf lands.live] at this
        · rw [eq] at same
          cases same
          rwa [keysAt_of_leaf lands.live]
      rw [condition, ← right]
      constructor
      · rintro ⟨it', returns', bound⟩
        exact returns'.unique returns ▸ bound
      · exact fun bound => ⟨it, returns, bound⟩
    · intro x
      obtain ⟨before, sep, leaf, after, r, lands⟩ := intact.lands lawful discipline eq x
      exact lands.upperBound eq rfl lawful behind

end ElasticIndex.Tree
