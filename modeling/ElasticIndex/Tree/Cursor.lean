import ElasticIndex.Tree.Store

set_option autoImplicit false

namespace ElasticIndex.Tree

open Separators LinkedRow

variable {K N : Type} [LinearOrder K] {content : N → List K} {ok : Nat → N → Prop} {s : Store N}
  {row before after : Row K Ptr} {sep : WithBot K} {a : Ptr} {leaf : Leaf N}
  {it : Iterator} {i : Nat}
  {endSlot : Leaf N → Nat} {front back : List K}

/-- Leaves that have keys, as many as they say. -/
structure Counted (content : N → List K) (ok : Nat → N → Prop) : Prop where
  length : ∀ {slotuse node}, ok slotuse node → slotuse = (content node).length
  nonempty : ∀ {slotuse node}, ok slotuse node → content node ≠ []

/-- An iterator at an entry of a row, with the keys before it and the keys from it on. -/
inductive Stands (content : N → List K) (s : Store N) (row : Row K Ptr) :
    Iterator → List K → List K → Prop where
  | inside {before after : Row K Ptr} {sep : WithBot K} {a : Ptr} {leaf : Leaf N} {i : Nat}
      (eq : row = before ++ (sep, a) :: after) (live : s.leaf a = some leaf)
        (lt : i < (content leaf.node).length) :
      Stands content s row ⟨some a, i⟩
      (allKeys (s.pages content before) ++ (content leaf.node).take i)
        ((content leaf.node).drop i ++ allKeys (s.pages content after))

omit [LinearOrder K] in
theorem Stands.split (stands : Stands content s row it front back) :
    allKeys (s.pages content row) = front ++ back := by
  obtain ⟨rfl, live, lt⟩ := stands
  rw [pages_append, pages_cons, keysAt_of_leaf live, allKeys_middle]
  simp only [List.append_assoc]
  rw [← List.append_assoc (List.take _ _), List.take_append_drop]

omit [LinearOrder K] in
theorem Stands.keyOf (stands : Stands content s row it front back) :
    s.keyOf content it = back.head? := by
  obtain ⟨rfl, live, lt⟩ := stands
  simp only [Store.keyOf, Option.bind_some, live]
  rw [List.head?_append_of_ne_nil _ (by simpa using lt), List.head?_drop]

omit [LinearOrder K] in
theorem Stands.nonempty (stands : Stands content s row it front back) : back ≠ [] := by
  obtain ⟨rfl, live, lt⟩ := stands
  have some_ : ¬ (content _).length ≤ _ := not_le.mpr lt
  simp [List.append_eq_nil_iff, some_]

-- The keys before an entry are smaller than its own.
theorem Stands.passed (sound : Sound content ok s row) {k : K}
    (stands : Stands content s row it front (k :: back)) : ∀ k' ∈ front, k' < k := by
  have sorted := sound.tight.sorted sound.tight.ascending
  rw [stands.split] at sorted
  exact fun k' inside => (List.pairwise_append.mp sorted).2.2 k' inside k List.mem_cons_self

theorem Stands.last_below (sound : Sound content ok s row) {k p x : K}
    (stands : Stands content s row it front (k :: back)) (above : ∀ k' ∈ back, x < k')
    (inside : p ∈ allKeys (s.pages content row)) (less : p < x) : p ≤ k := by
  rw [stands.split] at inside
  rcases List.mem_append.mp inside with passed | from_
  · exact (stands.passed sound p passed).le
  · rcases List.mem_cons.mp from_ with rfl | past
    · exact le_rfl
    · exact absurd less (above p past).not_gt

theorem Stands.skips (sound : Sound content ok s row) {k x : K}
    (stands : Stands content s row it front (k :: back)) (less : k < x)
    (above : ∀ k' ∈ back, x < k') : x ∉ allKeys (s.pages content row) := by
  rw [stands.split]
  intro inside
  rcases List.mem_append.mp inside with passed | from_
  · exact (stands.passed sound x passed).asymm less
  · rcases List.mem_cons.mp from_ with rfl | past
    · exact less.false
    · exact (above x past).false

theorem Sound.first_of (sound : Sound content ok s row) (counted : Counted content ok)
    (eq : row = before ++ (sep, a) :: after) :
    Stands content s row ⟨some a, 0⟩ (allKeys (s.pages content before))
      (allKeys (s.pages content ((sep, a) :: after))) := by
  subst eq
  obtain ⟨leaf, live, valid, _⟩ := sound.leaf_at
  have stands : Stands content s (before ++ (sep, a) :: after) ⟨some a, 0⟩ _ _ :=
    .inside rfl live (List.length_pos_iff.mpr (counted.nonempty valid))
  simpa [allKeys, Store.keysAt, live] using stands

-- ++ moves on by one key, over leaves, or to the end.
theorem Sound.advance (endSlot : Leaf N → Nat) (sound : Sound content ok s row)
    (counted : Counted content ok) (eq : row = before ++ (sep, a) :: after)
    (live : s.leaf a = some leaf) (lt : i < (content leaf.node).length) :
    ∃ it', Iterator.advance endSlot s ⟨some a, i⟩ = some it' ∧
      (Stands content s row it'
        (allKeys (s.pages content before) ++ (content leaf.node).take (i + 1))
          ((content leaf.node).drop (i + 1) ++ allKeys (s.pages content after)) ∨
        after = [] ∧ i + 1 = (content leaf.node).length ∧ it' = ⟨some a, endSlot leaf⟩) := by
  obtain rfl := eq
  obtain ⟨leaf', live', valid, _, next⟩ := sound.leaf_at
  rw [live] at live'
  cases live'
  have length := counted.length valid
  unfold Iterator.advance
  rw [Option.bind_some, live, Option.map_some]
  dsimp only
  by_cases more : i + 1 < leaf.slotuse
  · rw [if_pos more]
    exact ⟨_, rfl, .inl (.inside rfl live (by omega))⟩
  · rw [if_neg more, next]
    have whole : i + 1 = (content leaf.node).length := by omega
    cases after with
    | nil => exact ⟨_, rfl, .inr ⟨rfl, whole, rfl⟩⟩
    | cons e after =>
      obtain ⟨sep', b⟩ := e
      refine ⟨⟨some b, 0⟩, rfl, .inl ?_⟩
      have eq : before ++ (sep, a) :: (sep', b) :: after =
        (before ++ [(sep, a)]) ++ (sep', b) :: after := by simp
      have stands := sound.first_of counted eq
      rw [whole, List.take_length, List.drop_length, List.nil_append]
      simpa [allKeys, Store.keysAt, live] using stands

/-- What a bounds query has to return: the first key with the property, or end() when there is
none. -/
structure Bound (content : N → List K) (endSlot : Leaf N → Nat) (s : Store N) (stored P : K → Prop)
    (answer : Iterator) : Prop where
  first : ∀ k, IsLeast {k | stored k ∧ P k} k → s.keyOf content answer = some k
  end_ : s.endAt endSlot = some answer ↔ ∀ k, stored k → ¬ P k

-- end() is behind every entry of the last leaf.
def EndsBehind (ok : Nat → N → Prop) (endSlot : Leaf N → Nat) : Prop :=
  ∀ leaf : Leaf N, ok leaf.slotuse leaf.node → leaf.slotuse ≤ endSlot leaf

omit [LinearOrder K] in
theorem endsBehind_slotuse : EndsBehind ok Leaf.slotuse := fun _ _ => le_rfl

theorem Stands.not_end (sound : Sound content ok s row) (counted : Counted content ok)
    (behind : EndsBehind ok endSlot) (stands : Stands content s row it front back) :
    s.endAt endSlot ≠ some it := by
  obtain ⟨rfl, live, lt⟩ := stands
  obtain ⟨leaf', live', valid, _⟩ := sound.leaf_at
  rw [live] at live'
  cases live'
  have length := counted.length valid
  have past := behind _ valid
  intro same
  unfold Store.endAt at same
  cases tail : s.tailleaf with
  | none =>
    rw [tail] at same
    simp at same
  | some t =>
    rw [tail] at same
    obtain ⟨last, live', eq⟩ := Option.map_eq_some_iff.mp same
    simp only [Iterator.mk.injEq, Option.some.injEq] at eq
    obtain ⟨rfl, slot⟩ := eq
    rw [live] at live'
    cases live'
    omega

-- begin() of the hybrid tree
def Store.begin_ (s : Store N) : Iterator := ⟨s.headleaf, 0⟩

/-- The keys read from an iterator on, with ++ after each, until it is end(). -/
inductive Walks (content : N → List K) (s : Store N) : Iterator → List K → Prop where
  | stop {it : Iterator} : s.end_ = some it → Walks content s it []
  | step {it it' : Iterator} {k : K} {rest : List K} : s.end_ ≠ some it →
    s.keyOf content it = some k →
    it.advance Leaf.slotuse s = some it' → Walks content s it' rest → Walks content s it (k :: rest)

omit [LinearOrder K] in
theorem Stands.entry (stands : Stands content s row it front back) :
    ∃ before after sep a leaf i, it = ⟨some a, i⟩ ∧
    row = before ++ (sep, a) :: after ∧ s.leaf a = some leaf ∧ i < (content leaf.node).length ∧
    back = (content leaf.node).drop i ++ allKeys (s.pages content after) := by
  obtain ⟨eq, live, lt⟩ := stands
  exact ⟨_, _, _, _, _, _, rfl, eq, live, lt, rfl⟩

theorem Sound.walks (sound : Sound content ok s row) (counted : Counted content ok)
    (tail : s.tailleaf = (cells row).getLast?) (stands : Stands content s row it front back) :
    Walks content s it back := by
  induction back generalizing it front with
  | nil => exact absurd rfl stands.nonempty
  | cons k back ih =>
    have key := stands.keyOf
    have more := stands.not_end sound counted endsBehind_slotuse
    obtain ⟨before, after, sep, a, leaf, i, rfl, eq, live, lt, split⟩ := stands.entry
    rw [List.drop_eq_getElem_cons lt, List.cons_append] at split
    obtain ⟨-, rfl⟩ := List.cons.inj split
    obtain ⟨it', next, stands | ⟨rfl, whole, rfl⟩⟩ := sound.advance Leaf.slotuse counted eq live lt
    · exact .step more key next (ih stands)
    · refine .step more key next ?_
      rw [whole, List.drop_length]
      refine .stop ?_
      rw [eq, cells_append, cells_cons, List.getLast?_append_of_ne_nil _ (List.cons_ne_nil _ _)]
        at tail
      rw [Store.end_, Store.endAt, tail]
      simp [cells, live]

-- From begin() on every key is met once, in order.
theorem Sound.walks_begin (sound : Sound content ok s row) (counted : Counted content ok)
    (some_ : row ≠ []) (head : s.headleaf = (cells row).head?)
    (tail : s.tailleaf = (cells row).getLast?) :
    Walks content s s.begin_ (allKeys (s.pages content row)) := by
  obtain ⟨⟨sep, a⟩, after, rfl⟩ := List.exists_cons_of_ne_nil some_
  rw [Store.begin_, head]
  exact sound.walks counted tail (sound.first_of counted (List.nil_append _).symm)

variable {stored P : K → Prop}

theorem Bound.of_stands (sound : Sound content ok s row) (counted : Counted content ok)
    (behind : EndsBehind ok endSlot) (holds : ∀ k, stored k ↔ k ∈ allKeys (s.pages content row))
    (stands : Stands content s row it front back) (below : ∀ k ∈ front, ¬ P k)
    (above : ∀ k ∈ back, P k) : Bound content endSlot s stored P it := by
  have split := stands.split
  have sorted := sound.tight.sorted sound.tight.ascending
  rw [split] at sorted
  simp only [split] at holds
  refine ⟨fun k least => ?_,
    ⟨fun end_ => absurd end_ (stands.not_end sound counted behind), fun none => ?_⟩⟩
  · rw [stands.keyOf, ← isLeast_suffix sorted below above]
    simpa only [holds] using least
  · obtain ⟨k, rest, eq⟩ := List.exists_cons_of_ne_nil stands.nonempty
    have mem : k ∈ back := eq ▸ List.mem_cons_self
    exact absurd (above k mem) (none k ((holds k).mpr (List.mem_append_right _ mem)))

-- A right answer at an entry stands at a key with the property.
theorem Bound.reaches (sound : Sound content ok s row) (counted : Counted content ok)
    (behind : EndsBehind ok endSlot) (holds : ∀ k, stored k ↔ k ∈ allKeys (s.pages content row))
    (stands : Stands content s row it front back) (bound : Bound content endSlot s stored P it) :
    ∃ k, s.keyOf content it = some k ∧ P k := by
  have some_ : ¬ ∀ k, stored k → ¬ P k := fun none =>
    stands.not_end sound counted behind (bound.end_.mpr none)
  push Not at some_
  obtain ⟨k, mem, property⟩ := some_
  have finite : {k | stored k ∧ P k}.Finite :=
    (List.finite_toSet (allKeys (s.pages content row))).subset fun k h => (holds k).mp h.1
  obtain ⟨least, inside, lower⟩ := Set.exists_min_image _ id finite ⟨k, mem, property⟩
  exact ⟨least, bound.first least ⟨inside, fun k' h => lower k' h⟩, inside.2⟩

theorem Bound.of_end (none : ∀ k, stored k → ¬ P k) (end_ : s.endAt endSlot = some it) :
    Bound content endSlot s stored P it :=
  ⟨fun k least => absurd least.1.2 (none k least.1.1), ⟨fun _ => none, fun _ => end_⟩⟩

section Leaf

variable {x : K} (sound : Sound content ok s row)
  (holds : ∀ k, stored k ↔ k ∈ allKeys (s.pages content row))
  (routes : Routes row x before sep a after)
  (live : s.leaf a = some leaf)

include routes live in
theorem Routes.pages :
    Routes (s.pages content row) x (s.pages content before) sep (content leaf.node)
    (s.pages content after) := by
  obtain rfl := routes.eq
  refine ⟨by rw [pages_append, pages_cons, keysAt_of_leaf live], routes.below, fun e inside => ?_⟩
  obtain ⟨e', inside', rfl⟩ := List.mem_map.mp inside
  exact routes.above e' inside'

include sound routes live in
theorem Sound.below_leaf {k : K} (mem : k ∈ allKeys (s.pages content before)) : k < x :=
  (Routes.pages routes live).front_lt sound.tight.toHolds sound.tight.ascending mem

include sound routes live in
theorem Sound.above_leaf {k : K} (mem : k ∈ allKeys (s.pages content after)) : x < k :=
  (Routes.pages routes live).lt_back sound.tight.toHolds mem

include sound holds routes live in
theorem Sound.stored_iff : stored x ↔ x ∈ content leaf.node :=
  (holds x).trans ((Routes.pages routes live).mem_iff sound.tight.toHolds sound.tight.ascending)

include sound holds routes live in
-- A leaf whose keys are all below x is the last one.
theorem Sound.none_from (all : ∀ k ∈ content leaf.node, k < x) : after = [] ∧
    ∀ k, stored k → k < x := by
  have last : after = [] := by
    by_contra more
    obtain ⟨k, inside, le⟩ :=
      sound.tight.le_last (Routes.pages routes live) (by simpa [Store.pages] using more)
    exact absurd (all k inside) (not_lt.mpr le)
  refine ⟨last, fun k inside => ?_⟩
  rw [holds, routes.eq, last, pages_append, pages_cons, keysAt_of_leaf live,
    allKeys_middle] at inside
  rcases List.mem_append.mp inside with inside | inside
  · exact sound.below_leaf routes live inside
  · exact all k (by simpa [allKeys] using inside)

include sound routes live in
theorem Sound.front_below (below : ∀ k ∈ (content leaf.node).take i, k < x) :
    ∀ k ∈ allKeys (s.pages content before) ++ (content leaf.node).take i, k < x := by
  intro k mem
  rcases List.mem_append.mp mem with mem | mem
  · exact sound.below_leaf routes live mem
  · exact below k mem

include sound routes live in
theorem Sound.back_above {P : K → Prop} (up : ∀ k, x < k → P k)
    (above : ∀ k ∈ (content leaf.node).drop i, P k) :
    ∀ k ∈ (content leaf.node).drop i ++ allKeys (s.pages content after), P k := by
  intro k mem
  rcases List.mem_append.mp mem with mem | mem
  · exact above k mem
  · exact up k (sound.above_leaf routes live mem)

include holds routes live in
theorem Routes.stored_of_leaf {k : K} (inside : k ∈ content leaf.node) : stored k := by
  rw [holds, routes.eq, pages_append, pages_cons, keysAt_of_leaf live, allKeys_middle]
  exact List.mem_append_right _ (List.mem_append_left _ inside)

end Leaf

end ElasticIndex.Tree
