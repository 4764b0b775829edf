import ElasticIndex.Olc.Node

set_option autoImplicit false

namespace ElasticIndex.Olc

open SequenceEdit

variable {K P : Type}

namespace BTreeInner

variable {n : BTreeInner K} {k : K}

-- A node that is split: the left part keeps the keys before the separator, the right part those
-- after it.
section Split

variable {blank : BTreeInner K}

theorem split_counts (blank : BTreeInner K) (two : 2 ≤ n.count) (small : n.count < 65536) :
    (n.split blank).2.1.count + 1 + (n.split blank).2.2.count = n.count ∧
    0 < (n.split blank).2.2.count := by
  simp only [split]
  omega

theorem split_sep : (n.split blank).1 = n.keys (n.split blank).2.1.count := by
  simp only [split]

theorem split_left_keys : (n.split blank).2.1.keys = n.keys := by
  cases n
  rfl

theorem split_left_children : (n.split blank).2.1.children = n.children := by
  cases n
  rfl

theorem split_right_keys {x : Nat} (le : x ≤ (n.split blank).2.2.count) :
    (n.split blank).2.2.keys x = n.keys ((n.split blank).2.1.count + 1 + x) := by
  simp only [split] at le ⊢
  rw [blit, if_pos (by omega), Nat.sub_zero]

theorem split_right_children {x : Nat} (le : x ≤ (n.split blank).2.2.count) :
    (n.split blank).2.2.children x = n.children ((n.split blank).2.1.count + 1 + x) := by
  simp only [split] at le ⊢
  rw [blit, if_pos (by omega), Nat.sub_zero]

end Split

variable [LinearOrder K]

/-- A key belongs to child j when it lies above the keys before j and not above the others. -/
structure Routes (n : BTreeInner K) (k : K) (j : Nat) : Prop where
  above : ∀ x : Nat, x < j → n.keys x < k
  below : ∀ x : Nat, j ≤ x → x < n.count → k ≤ n.keys x

def Sorted (n : BTreeInner K) : Prop := ∀ x y : Nat, x < y → y < n.count → n.keys x < n.keys y

theorem Routes.unique {i j : Nat} (hi : n.Routes k i) (hj : n.Routes k j) (ci : i ≤ n.count)
    (cj : j ≤ n.count) :
    i = j := by
  rcases Nat.lt_trichotomy i j with lt | eq | gt
  · exact absurd (hj.above i lt) (not_lt.mpr (hi.below i le_rfl (by omega)))
  · exact eq
  · exact absurd (hi.above j gt) (not_lt.mpr (hj.below j le_rfl (by omega)))

-- Every key before lower is smaller than k and none from upper on is; each round keeps this.
theorem lowerBoundLoop_routes (sorted : n.Sorted) (fuel lower upper : Nat)
    (enough : upper - lower < fuel) (range : lower < upper) (within : upper ≤ n.count)
    (before : ∀ x : Nat, x < lower → n.keys x < k)
    (after : ∀ x : Nat, upper ≤ x → x < n.count → k ≤ n.keys x) :
    lowerBoundLoop n.keys k fuel lower upper ≤ n.count ∧
      n.Routes k (lowerBoundLoop n.keys k fuel lower upper) := by
  induction fuel generalizing lower upper with
  | zero => omega
  | succ fuel ih =>
    obtain ⟨mid, hm⟩ : ∃ mid, mid = (upper - lower) / 2 + lower := ⟨_, rfl⟩
    have inside : lower ≤ mid ∧ mid < upper := by omega
    have sortedLe : ∀ x y : Nat, x ≤ y → y < n.count → n.keys x ≤ n.keys y := fun x y le lt => by
      rcases Nat.lt_or_eq_of_le le with less | rfl
      · exact le_of_lt (sorted x y less lt)
      · exact le_rfl
    simp only [lowerBoundLoop, ← hm]
    by_cases left : k < n.keys mid
    · rw [if_pos left]
      have after' : ∀ x : Nat, mid ≤ x → x < n.count → k ≤ n.keys x := fun x le lt =>
        le_of_lt (lt_of_lt_of_le left (sortedLe mid x le lt))
      by_cases more : lower < mid
      · rw [if_pos more]
        exact ih lower mid (by omega) more (by omega) before after'
      · rw [if_neg more]
        have same : mid = lower := by omega
        exact ⟨by omega, before, same ▸ after'⟩
    · rw [if_neg left]
      by_cases right : n.keys mid < k
      · rw [if_pos right]
        have before' : ∀ x : Nat, x < mid + 1 → n.keys x < k := fun x lt =>
          lt_of_le_of_lt (sortedLe x mid (by omega) (by omega)) right
        by_cases more : mid + 1 < upper
        · rw [if_pos more]
          exact ih (mid + 1) upper (by omega) more within before' after
        · rw [if_neg more]
          have same : mid + 1 = upper := by omega
          exact ⟨by omega, before', same ▸ after⟩
      · rw [if_neg right]
        have eq : n.keys mid = k := le_antisymm (not_lt.mp left) (not_lt.mp right)
        refine ⟨by omega, fun x lt => ?_, fun x le lt => ?_⟩
        · rw [← eq]
          exact sorted x mid lt (by omega)
        · rw [← eq]
          exact sortedLe mid x le lt

theorem lowerBound_routes (sorted : n.Sorted) (empty : n.count = 0 → k ≤ n.keys 0) :
    n.lowerBound k ≤ n.count ∧ n.Routes k (n.lowerBound k) := by
  by_cases none : n.count = 0
  · have zero : n.lowerBound k = 0 := by
      rw [lowerBound, none, lowerBoundLoop]
      rcases lt_or_eq_of_le (empty none) with less | eq
      · simp [less]
      · simp [← eq]
    rw [zero]
    exact ⟨Nat.zero_le _, fun x lt => absurd lt (Nat.not_lt_zero x), fun x _ lt => by omega⟩
  · exact lowerBoundLoop_routes sorted _ _ _ (by omega) (by omega) le_rfl
      (fun x lt => absurd lt (Nat.not_lt_zero x))
      fun x le lt => by omega

-- The place of a key that was found once is where lowerBound leads.
theorem Routes.lowerBound {j : Nat} (sorted : n.Sorted) (empty : n.count = 0 → k ≤ n.keys 0)
    (h : n.Routes k j) (le : j ≤ n.count) : n.lowerBound k = j :=
  (lowerBound_routes sorted empty).2.unique h (lowerBound_routes sorted empty).1 le

section Split

variable {blank : BTreeInner K}

theorem split_sorted (blank : BTreeInner K) (sorted : n.Sorted) (two : 2 ≤ n.count)
    (small : n.count < 65536) :
    (n.split blank).2.1.Sorted ∧ (n.split blank).2.2.Sorted := by
  obtain ⟨counts, _⟩ := split_counts blank two small
  constructor
  · intro x y lt bound
    exact sorted x y lt (by omega)
  · intro x y lt bound
    rw [split_right_keys (by omega), split_right_keys (by omega)]
    exact sorted _ _ (by omega) (by omega)

-- Below the separator the left part routes as the node did.
theorem split_left_routes (sorted : n.Sorted) (two : 2 ≤ n.count)
    (small : n.count < 65536) {j : Nat} (le : j ≤ (n.split blank).2.1.count) :
    n.Routes k j ↔ k ≤ (n.split blank).1 ∧ (n.split blank).2.1.Routes k j := by
  obtain ⟨counts, _⟩ := split_counts blank two small
  constructor
  · intro routes
    refine ⟨routes.below _ le (by omega), routes.above, fun x hx lt => routes.below x hx (by omega)⟩
  · rintro ⟨bounded, routes⟩
    refine ⟨routes.above, fun x hx lt => ?_⟩
    by_cases inside : x < (n.split blank).2.1.count
    · exact routes.below x hx inside
    · rcases Nat.lt_or_eq_of_le (not_lt.mp inside) with less | eq
      · exact le_of_lt (lt_of_le_of_lt bounded (sorted _ x less lt))
      · rw [← eq]
        exact bounded

-- Above it the right part does, with the children renumbered.
theorem split_right_routes (sorted : n.Sorted) (two : 2 ≤ n.count)
    (small : n.count < 65536) {j : Nat} (le : j ≤ (n.split blank).2.2.count) :
    n.Routes k ((n.split blank).2.1.count + 1 + j) ↔ (n.split blank).1 < k ∧
    (n.split blank).2.2.Routes k j := by
  obtain ⟨counts, _⟩ := split_counts blank two small
  constructor
  · intro routes
    refine ⟨routes.above (n.split blank).2.1.count (by omega), fun x lt => ?_, fun x hx lt => ?_⟩
    · rw [split_right_keys (by omega)]
      exact routes.above _ (by omega)
    · rw [split_right_keys (by omega)]
      exact routes.below _ (by omega) (by omega)
  · rintro ⟨bounded, routes⟩
    refine ⟨fun x lt => ?_, fun x hx lt => ?_⟩
    · by_cases right : (n.split blank).2.1.count < x
      · have here := routes.above (x - ((n.split blank).2.1.count + 1)) (by omega)
        rw [split_right_keys (by omega)] at here
        rwa [show (n.split blank).2.1.count + 1 + (x - ((n.split blank).2.1.count + 1)) =
          x by omega] at here
      · rcases Nat.lt_or_eq_of_le (not_lt.mp right) with less | eq
        · exact lt_trans (sorted x _ less (by omega)) bounded
        · rw [eq]
          exact bounded
    · have here := routes.below (x - ((n.split blank).2.1.count + 1)) (by omega) (by omega)
      rw [split_right_keys (by omega)] at here
      rwa [show (n.split blank).2.1.count + 1 + (x - ((n.split blank).2.1.count + 1)) = x by omega]
        at here

end Split

-- A separator goes in where it routes to, and the new child behind the one it was split from.
section Insert

variable {sep : K} {child pos : Nat}

theorem insert_count (small : n.count + 1 < 65536) : (n.insert sep child).count = n.count + 1 :=
  Nat.mod_eq_of_lt small

theorem insert_keys (at_ : n.lowerBound sep = pos) (le : pos ≤ n.count) {x : Nat}
    (inside : x ≤ n.count) :
    (n.insert sep child).keys x = insertAt pos sep n.keys x := by
  simp only [insert, at_]
  rcases Nat.lt_trichotomy x pos with lt | rfl | gt
  · rw [Function.update_of_ne (by omega), moveUp_eq, if_neg (by omega), insertAt_below _ _ lt]
  · rw [Function.update_self, insertAt_self]
  · rw [Function.update_of_ne (by omega), moveUp_eq, if_pos (by omega), insertAt_above _ _ gt]

theorem insert_children (at_ : n.lowerBound sep = pos) (le : pos ≤ n.count) {x : Nat}
    (inside : x ≤ n.count + 1) :
    (n.insert sep child).children x = insertAt (pos + 1) child n.children x := by
  simp only [insert, at_]
  by_cases new : x = pos + 1
  · subst new
    rw [Function.update_self, Function.update_self, insertAt_self]
  · rw [Function.update_of_ne new]
    by_cases old : x = pos
    · subst old
      rw [Function.update_self, Function.update_of_ne (by omega), moveUp_eq, if_pos (by omega),
        Nat.add_sub_cancel, insertAt_below _ _ (by omega)]
    · rw [Function.update_of_ne old, Function.update_of_ne old, moveUp_eq]
      by_cases before : x < pos
      · rw [if_neg (by omega), insertAt_below _ _ (by omega)]
      · rw [if_pos (by omega), insertAt_above _ _ (by omega)]

theorem insert_sorted (sorted : n.Sorted) (small : n.count + 1 < 65536)
    (at_ : n.lowerBound sep = pos) (le : pos ≤ n.count)
    (before : ∀ x : Nat, x < pos → n.keys x < sep)
    (after : ∀ x : Nat, pos ≤ x → x < n.count → sep < n.keys x) : (n.insert sep child).Sorted := by
  intro x y lt bound
  rw [insert_count small] at bound
  rw [insert_keys at_ le (by omega), insert_keys at_ le (by omega)]
  rcases Nat.lt_trichotomy y pos with yless | rfl | ymore
  · rw [insertAt_below _ _ (by omega), insertAt_below _ _ yless]
    exact sorted x y lt (by omega)
  · rw [insertAt_below _ _ lt, insertAt_self]
    exact before x lt
  · rw [insertAt_above _ _ ymore]
    rcases Nat.lt_trichotomy x pos with xless | rfl | xmore
    · rw [insertAt_below _ _ xless]
      exact lt_trans (before x xless) (after (y - 1) (by omega) (by omega))
    · rw [insertAt_self]
      exact after (y - 1) (by omega) (by omega)
    · rw [insertAt_above _ _ xmore]
      exact sorted _ _ (by omega) (by omega)

variable (small : n.count + 1 < 65536) (at_ : n.lowerBound sep = pos) (le : pos ≤ n.count)
  (here : n.Routes sep pos)

include small at_ le here

-- Children before the split one keep their keys.
theorem insert_routes_before {j : Nat} (lt : j < pos) : (n.insert sep child).Routes k j ↔
    n.Routes k j := by
  constructor
  · intro routes
    refine ⟨fun x hx => ?_, fun x hx bound => ?_⟩
    · have old := routes.above x hx
      rwa [insert_keys at_ le (by omega), insertAt_below _ _ (by omega)] at old
    · by_cases less : x < pos
      · have old := routes.below x hx (by rw [insert_count small]; omega)
        rwa [insert_keys at_ le (by omega), insertAt_below _ _ less] at old
      · have old := routes.below (x + 1) (by omega) (by rw [insert_count small]; omega)
        rwa [insert_keys at_ le (by omega), insertAt_succ _ _ (by omega)] at old
  · intro routes
    refine ⟨fun x hx => ?_, fun x hx bound => ?_⟩
    · rw [insert_keys at_ le (by omega), insertAt_below _ _ (by omega)]
      exact routes.above x hx
    · rw [insert_count small] at bound
      rw [insert_keys at_ le (by omega)]
      rcases Nat.lt_trichotomy x pos with less | rfl | more
      · rw [insertAt_below _ _ less]
        exact routes.below x hx (by omega)
      · rw [insertAt_self]
        exact le_of_lt (lt_of_le_of_lt (routes.below j le_rfl (by omega)) (here.above j lt))
      · rw [insertAt_above _ _ more]
        exact routes.below (x - 1) (by omega) (by omega)

omit here in
theorem insert_routes_left : (n.insert sep child).Routes k pos ↔ n.Routes k pos ∧ k ≤ sep := by
  constructor
  · intro routes
    refine ⟨⟨fun x hx => ?_, fun x hx bound => ?_⟩, ?_⟩
    · have old := routes.above x hx
      rwa [insert_keys at_ le (by omega), insertAt_below _ _ hx] at old
    · have old := routes.below (x + 1) (by omega) (by rw [insert_count small]; omega)
      rwa [insert_keys at_ le (by omega), insertAt_succ _ _ hx] at old
    · have old := routes.below pos le_rfl (by rw [insert_count small]; omega)
      rwa [insert_keys at_ le le, insertAt_self] at old
  · rintro ⟨routes, bounded⟩
    refine ⟨fun x hx => ?_, fun x hx bound => ?_⟩
    · rw [insert_keys at_ le (by omega), insertAt_below _ _ hx]
      exact routes.above x hx
    · rw [insert_count small] at bound
      rw [insert_keys at_ le (by omega)]
      rcases Nat.lt_or_eq_of_le hx with more | rfl
      · rw [insertAt_above _ _ more]
        exact routes.below (x - 1) (by omega) (by omega)
      · rw [insertAt_self]
        exact bounded

theorem insert_routes_right : (n.insert sep child).Routes k (pos + 1) ↔
    n.Routes k pos ∧ sep < k := by
  constructor
  · intro routes
    refine ⟨⟨fun x hx => ?_, fun x hx bound => ?_⟩, ?_⟩
    · have old := routes.above x (by omega)
      rwa [insert_keys at_ le (by omega), insertAt_below _ _ hx] at old
    · have old := routes.below (x + 1) (by omega) (by rw [insert_count small]; omega)
      rwa [insert_keys at_ le (by omega), insertAt_succ _ _ hx] at old
    · have old := routes.above pos (by omega)
      rwa [insert_keys at_ le le, insertAt_self] at old
  · rintro ⟨routes, bounded⟩
    refine ⟨fun x hx => ?_, fun x hx bound => ?_⟩
    · rw [insert_keys at_ le (by omega)]
      rcases Nat.lt_or_eq_of_le (Nat.le_of_lt_succ hx) with less | rfl
      · rw [insertAt_below _ _ less]
        exact routes.above x less
      · rw [insertAt_self]
        exact bounded
    · rw [insert_count small] at bound
      rw [insert_keys at_ le (by omega), insertAt_above _ _ (by omega)]
      exact routes.below (x - 1) (by omega) (by omega)

-- Children behind it move up by one.
theorem insert_routes_after {j : Nat} (lt : pos < j) (bound : j ≤ n.count) :
    (n.insert sep child).Routes k (j + 1) ↔ n.Routes k j := by
  constructor
  · intro routes
    refine ⟨fun x hx => ?_, fun x hx hb => ?_⟩
    · by_cases less : x < pos
      · have old := routes.above x (by omega)
        rwa [insert_keys at_ le (by omega), insertAt_below _ _ less] at old
      · have old := routes.above (x + 1) (by omega)
        rwa [insert_keys at_ le (by omega), insertAt_succ _ _ (by omega)] at old
    · have old := routes.below (x + 1) (by omega) (by rw [insert_count small]; omega)
      rwa [insert_keys at_ le (by omega), insertAt_succ _ _ (by omega)] at old
  · intro routes
    refine ⟨fun x hx => ?_, fun x hx hb => ?_⟩
    · rw [insert_keys at_ le (by omega)]
      rcases Nat.lt_trichotomy x pos with less | rfl | more
      · rw [insertAt_below _ _ less]
        exact routes.above x (by omega)
      · rw [insertAt_self]
        exact lt_of_le_of_lt (here.below x le_rfl (by omega)) (routes.above x (by omega))
      · rw [insertAt_above _ _ more]
        exact routes.above (x - 1) (by omega)
    · rw [insert_count small] at hb
      rw [insert_keys at_ le (by omega), insertAt_above _ _ (by omega)]
      exact routes.below (x - 1) (by omega) (by omega)

end Insert

end BTreeInner

namespace BTreeLeaf

variable [LinearOrder K] {key : P → K} {entries : List P} {k : K} {a : P}

-- The keys of a leaf rise strictly.
def Sorted (key : P → K) (entries : List P) : Prop := entries.Pairwise fun a b => key a < key b

theorem mem_insert {x : P} : x ∈ insert key a entries ↔ x = a ∨ x ∈ entries := by
  induction entries with
  | nil => simp [insert]
  | cons b rest ih =>
    rw [insert]
    split
    · exact List.mem_cons
    · rw [List.mem_cons, List.mem_cons, ih]
      tauto

theorem length_insert : (insert key a entries).length = entries.length + 1 := by
  induction entries with
  | nil => rfl
  | cons b rest ih =>
    rw [insert]
    split
    · rfl
    · rw [List.length_cons, List.length_cons, ih]

theorem insert_sorted (sorted : Sorted key entries) (fresh : ∀ b ∈ entries, key b ≠ key a) :
    Sorted key (insert key a entries) := by
  induction entries with
  | nil => exact List.pairwise_singleton _ _
  | cons b rest ih =>
    obtain ⟨first, others⟩ := List.pairwise_cons.mp sorted
    rw [insert]
    split
    · rename_i less
      refine List.pairwise_cons.mpr ⟨fun x hx => ?_, sorted⟩
      rcases List.mem_cons.mp hx with rfl | later
      · exact less
      · exact lt_trans less (first x later)
    · rename_i notLess
      have less : key b < key a := lt_of_le_of_ne (not_lt.mp notLess) (fresh b List.mem_cons_self)
      refine List.pairwise_cons.mpr ⟨fun x hx => ?_,
        ih others fun x hx => fresh x (List.mem_cons_of_mem b hx)⟩
      rcases mem_insert.mp hx with rfl | later
      · exact less
      · exact first x later

theorem search_isSome : (search key entries k).isSome ↔ ∃ a ∈ entries, key a = k := by
  simp [search]

theorem search_hit {slot : Nat} (hit : search key entries k = some slot) :
    ∃ a, entries[slot]? = some a ∧ key a = k := by
  obtain ⟨bound, is, _⟩ := List.findIdx?_eq_some_iff_getElem.mp hit
  exact ⟨entries[slot], List.getElem?_eq_getElem bound, of_decide_eq_true is⟩

-- The halves of a split leaf, with a key in each.
theorem split_spec {sep : K} {left right : List P} (sorted : Sorted key entries)
    (halves : split key entries = some (sep, left, right)) :
    entries = left ++ right ∧ (∃ a ∈ left, key a = sep) ∧ (∀ a ∈ left, key a ≤ sep) ∧
      (∀ a ∈ right, sep < key a) ∧ right ≠ [] := by
  simp only [split, Option.map_eq_some_iff, Prod.mk.injEq] at halves
  obtain ⟨last, found, rfl, rfl, rfl⟩ := halves
  have whole : entries = entries.take (entries.length / 2) ++ entries.drop (entries.length / 2) :=
    (List.take_append_drop _ _).symm
  obtain ⟨before, shape⟩ := List.getLast?_eq_some_iff.mp found
  have member : last ∈ entries.take (entries.length / 2) := by
    rw [shape]
    simp
  have parts : (entries.take (entries.length / 2) ++ entries.drop (entries.length / 2)).Pairwise
      fun a b => key a < key b := whole ▸ sorted
  obtain ⟨leftSorted, _, across⟩ := List.pairwise_append.mp parts
  refine ⟨whole, ⟨last, member, rfl⟩, fun a ha => ?_,
    fun a ha => across last member a ha, fun nil => ?_⟩
  · rw [shape] at leftSorted ha
    rcases List.mem_append.mp ha with earlier | same
    · exact le_of_lt ((List.pairwise_append.mp leftSorted).2.2 a earlier last List.mem_cons_self)
    · rw [List.mem_singleton.mp same]
  · have long : 0 < (entries.take (entries.length / 2)).length := List.length_pos_of_mem member
    have short : (entries.drop (entries.length / 2)).length = 0 := by
      rw [nil]
      rfl
    rw [List.length_take] at long
    rw [List.length_drop] at short
    omega

end BTreeLeaf

end ElasticIndex.Olc
