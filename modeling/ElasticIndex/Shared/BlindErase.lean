import ElasticIndex.Shared.BlindSequence

set_option autoImplicit false

namespace BlindSequence

open BitOrder SequenceEdit CartesianTree

variable {K : Type} {B : BitKeys K} {k : Nat → K} {b : Nat → Nat} {n p lo hi m : Nat}

-- The bits once key p is gone: its two bits give way to the smaller one.
def mergeAt (p : Nat) (b : Nat → Nat) : Nat → Nat :=
  fun i => if i + 1 < p then b i else if i + 1 = p then min (b p) (b i) else b (i + 1)

theorem mergeAt_below {i : Nat} (lt : i + 1 < p) : mergeAt p b i = b i := by
  simp [mergeAt, lt]

theorem mergeAt_here {i : Nat} (eq : i + 1 = p) : mergeAt p b i = min (b p) (b i) := by
  subst eq
  simp [mergeAt]

theorem mergeAt_above {i : Nat} (le : p ≤ i) : mergeAt p b i = b (i + 1) := by
  have h : ¬ i + 1 < p := by omega
  have g : i + 1 ≠ p := by omega
  simp [mergeAt, h, g]

theorem Blind.erase (h : Blind B k b n) : Blind B (eraseAt p k) (mergeAt p b) (n - 1) := by
  intro i hi
  rcases Nat.lt_trichotomy (i + 1) p with lt | same | lt
  · rw [eraseAt_below _ (by omega), eraseAt_below _ lt, mergeAt_below lt]
    exact h i (by omega)
  · subst same
    rw [eraseAt_below _ (Nat.lt_succ_self i), eraseAt_above _ le_rfl,
      mergeAt_here rfl, Nat.min_comm]
    exact ((h i (by omega)).trans (h (i + 1) (by omega))).2
  · rw [eraseAt_above _ (by omega), eraseAt_above _ (by omega), mergeAt_above (by omega)]
    exact h (i + 1) (by omega)

-- A least value away from the merge, after it, and around it.
theorem min_before_merge (min : StrictMin b lo hi m) (le : hi + 1 ≤ p) :
    StrictMin (mergeAt p b) lo hi m :=
  min.congr fun t _ ht => mergeAt_below (by omega)

theorem min_after_merge (min : StrictMin b lo hi m) (lt : p < lo) :
    StrictMin (mergeAt p b) (lo - 1) (hi - 1) (m - 1) := by
  have := min.left
  have := min.right
  have shifted (i : Nat) (le : lo ≤ i + 1) : mergeAt p b i = b (i + 1) := mergeAt_above (by omega)
  refine ⟨by omega, by omega, fun t ht ht' ne => ?_⟩
  rw [shifted _ (by omega), shifted _ (by omega), Nat.sub_add_cancel (by omega)]
  exact min.least (t + 1) (by omega) (by omega) (by omega)

def dropFrom (p i : Nat) : Nat := if p ≤ i then i - 1 else i

theorem min_around_merge (min : StrictMin b lo hi m) (left : lo < p) (right : p < hi) :
    StrictMin (mergeAt p b) lo (hi - 1) (dropFrom p m) := by
  have := min.left
  have := min.right
  have value : mergeAt p b (dropFrom p m) = b m := by
    unfold dropFrom
    split_ifs with past
    · by_cases here : m = p
      · subst here
        rw [mergeAt_here (by omega)]
        have := min.le (t := m - 1) (by omega) (by omega)
        omega
      · rw [mergeAt_above (by omega), Nat.sub_add_cancel (by omega)]
    · by_cases here : m + 1 = p
      · rw [mergeAt_here here]
        have := min.le (t := p) (by omega) (by omega)
        omega
      · exact mergeAt_below (by omega)
  have inside : lo ≤ dropFrom p m ∧ dropFrom p m < hi - 1 := by
    unfold dropFrom
    split_ifs <;> omega
  refine ⟨inside.1, inside.2, fun t ht ht' ne => ?_⟩
  rw [value]
  unfold dropFrom at ne
  rcases Nat.lt_trichotomy (t + 1) p with lt | same | lt
  · rw [mergeAt_below lt]
    exact min.least t ht (by omega) (by split_ifs at ne <;> omega)
  · rw [mergeAt_here same]
    have := min.least p (by omega) (by omega) (by split_ifs at ne <;> omega)
    have := min.least t ht (by omega) (by split_ifs at ne <;> omega)
    omega
  · rw [mergeAt_above (by omega)]
    exact min.least (t + 1) (by omega) (by omega) (by split_ifs at ne <;> omega)

-- The root of what is left, and the roots of its two sides, when they are not the removed end.
theorem min_drop {size : Nat} (min : StrictMin b 0 size m) (bound : p ≤ size)
    (first : ¬ (p = 0 ∧ m = 0)) (last : ¬ (p = size ∧ m + 1 = size)) :
    StrictMin (mergeAt p b) 0 (size - 1) (dropFrom p m) := by
  have := min.right
  by_cases zero : p = 0
  · subst zero
    have inner : StrictMin b 1 size m := min.narrow (by omega) le_rfl (by omega) (by omega)
    exact min_after_merge inner (by omega)
  · by_cases end_ : p = size
    · subst end_
      have stays : dropFrom p m = m := if_neg (by omega)
      have inner : StrictMin b 0 (p - 1) m := min.narrow le_rfl (by omega) (by omega) (by omega)
      rw [stays]
      exact min_before_merge inner (by omega)
    · exact min_around_merge min (by omega) (by omega)

theorem min_drop_left {root : Nat} (min : StrictMin b 0 root m) (first : ¬ (p = 0 ∧ m = 0))
    (before : m + 1 ≠ p) :
    StrictMin (mergeAt p b) 0 (dropFrom p root) (dropFrom p m) := by
  have := min.right
  by_cases after : root < p
  · have stays : dropFrom p root = root ∧ dropFrom p m = m := ⟨if_neg (by omega), if_neg (by omega)⟩
    rw [stays.1, stays.2]
    exact min_before_merge min (by omega)
  · have moves : dropFrom p root = root - 1 := if_pos (by omega)
    rw [moves]
    by_cases here : p = root
    · subst here
      have stays : dropFrom p m = m := if_neg (by omega)
      have inner : StrictMin b 0 (p - 1) m := min.narrow le_rfl (by omega) (by omega) (by omega)
      rw [stays]
      exact min_before_merge inner (by omega)
    · exact min_drop min (by omega) first (by omega)

theorem min_drop_right {size root : Nat} (min : StrictMin b (root + 1) size m) (bound : p ≤ size)
    (first : ¬ (p = 0 ∧ root = 0)) (last : ¬ (p = size ∧ m + 1 = size)) (before : m + 1 ≠ p)
    (apart : dropFrom p m ≠ dropFrom p root) :
    StrictMin (mergeAt p b) (dropFrom p root + 1) (size - 1) (dropFrom p m) := by
  have := min.left
  have := min.right
  unfold dropFrom at apart ⊢
  by_cases past : p ≤ root
  · rw [if_pos past, if_pos (by omega), Nat.sub_add_cancel (by omega)]
    exact min_after_merge min (by omega)
  · rw [if_neg past] at apart ⊢
    by_cases next : p = root + 1
    · subst next
      have later : root + 2 ≤ m := by
        split_ifs at apart
        all_goals omega
      have inner : StrictMin b (root + 2) size m := min.narrow (by omega) le_rfl later (by omega)
      rw [if_pos (by omega)]
      exact min_after_merge inner (by omega)
    · by_cases end_ : p = size
      · have inner : StrictMin b (root + 1) (size - 1) m :=
          min.narrow le_rfl (by omega) (by omega) (by omega)
        rw [if_neg (by omega)]
        exact min_before_merge inner (by omega)
      · exact min_around_merge min (by omega) (by omega)

end BlindSequence
