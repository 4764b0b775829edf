import ElasticIndex.Shared.CartesianTree

set_option autoImplicit false

namespace CartesianTree

open SequenceEdit PosTree

variable {b : Nat → Nat} {lo hi g d : Nat} {t : PosTree}

/-- The range a path leads to, read from the root down. -/
inductive Arrives : PosTree → Nat → Nat → List Bool → Nat → Nat → Prop where
  | here {t : PosTree} {lo hi : Nat} : Arrives t lo hi [] lo hi
  | left {l r : PosTree} {lo m hi glo ghi : Nat} {q : List Bool} : Arrives l lo m q glo ghi →
      Arrives (.node l m r) lo hi (false :: q) glo ghi
  | right {l r : PosTree} {lo m hi glo ghi : Nat} {q : List Bool} : Arrives r (m + 1) hi q glo ghi →
      Arrives (.node l m r) lo hi (true :: q) glo ghi

theorem Arrives.snoc {q : List Bool} {glo ghi m : Nat} (h : Arrives t lo hi q glo ghi)
    (root : (t.sub q).root = some m) :
    Arrives t lo hi (q ++ [false]) glo m ∧ Arrives t lo hi (q ++ [true]) (m + 1) ghi := by
  induction h with
  | @here t lo hi =>
    rw [sub_nil] at root
    rw [node_of_root root]
    exact ⟨.left .here, .right .here⟩
  | left _ ih => exact ⟨.left (ih root).1, .left (ih root).2⟩
  | right _ ih => exact ⟨.right (ih root).1, .right (ih root).2⟩

theorem Reaches.arrives {q : List Bool} {size glo ghi : Nat} (h : Reaches t size q glo ghi) :
    Arrives t 0 size q glo ghi := by
  induction h with
  | root => exact .here
  | left _ root ih => exact (ih.snoc root).1
  | right _ root ih => exact (ih.snoc root).2

theorem Arrives.present {q : List Bool} {glo ghi : Nat} (h : Arrives t lo hi q glo ghi)
    (p : List Bool) (e : Bool) (es : List Bool) (split : q = p ++ e :: es) : t.sub p ≠ .nil := by
  induction h generalizing p with
  | here => simp at split
  | left _ ih =>
    cases p with
    | nil => simp
    | cons x p =>
      simp only [List.cons_append, List.cons.injEq] at split
      rw [sub_cons, ← split.1]
      exact ih p split.2
  | right _ ih =>
    cases p with
    | nil => simp
    | cons x p =>
      simp only [List.cons_append, List.cons.injEq] at split
      rw [sub_cons, ← split.1]
      exact ih p split.2

theorem Arrives.bounds {q : List Bool} {glo ghi : Nat} (h : Arrives t lo hi q glo ghi)
    (tree : IsCartesian b lo hi t) (le : lo ≤ hi) : lo ≤ glo ∧ glo ≤ ghi ∧ ghi ≤ hi := by
  induction h with
  | here => exact ⟨le_rfl, le, le_rfl⟩
  | left _ ih =>
    cases tree with
    | node min left right =>
      have := ih left min.left
      have := min.right
      omega
  | right _ ih =>
    cases tree with
    | node min left right =>
      have := ih right min.right
      have := min.left
      omega

theorem IsCartesian.shift_below (tree : IsCartesian b lo hi t) (le : hi ≤ g) :
    IsCartesian (insertAt g d b) lo hi (t.map (shiftFrom g)) := by
  induction tree with
  | nil empty => exact .nil empty
  | @node lo hi m l r min _ _ ihl ihr =>
    have := min.right
    have stays : shiftFrom g m = m := shiftFrom_below (by omega)
    rw [PosTree.map, stays]
    exact .node (min.congr fun i _ hi' => insertAt_below d b (by omega)) (ihl (by omega)) (ihr le)

theorem StrictMin.shift_above {m : Nat} (min : StrictMin b lo hi m) (le : g ≤ lo) :
    StrictMin (insertAt g d b) (lo + 1) (hi + 1) (m + 1) := by
  have := min.left
  have := min.right
  refine ⟨by omega, by omega, fun i hi hi' ne => ?_⟩
  rw [insertAt_succ d b (by omega), insertAt_above d b (by omega)]
  exact min.least (i - 1) (by omega) (by omega) (by omega)

theorem IsCartesian.shift_above (tree : IsCartesian b lo hi t) (le : g ≤ lo) :
    IsCartesian (insertAt g d b) (lo + 1) (hi + 1) (t.map (shiftFrom g)) := by
  induction tree with
  | nil empty => exact .nil (by omega)
  | @node lo hi m l r min _ _ ihl ihr =>
    have := min.left
    have moves : shiftFrom g m = m + 1 := shiftFrom_above (by omega)
    rw [PosTree.map, moves]
    exact .node (min.shift_above le) (ihl le) (ihr (by omega))

-- A new position next to a whole subtree becomes its parent.
def attach (last : Bool) (g : Nat) (s : PosTree) : PosTree :=
  if last then .node s g .nil else .node .nil g s

def gapOf (last : Bool) (glo ghi : Nat) : Nat := if last then ghi else glo

theorem attach_min (last : Bool) (deep : ∀ i, lo ≤ i → i < hi → d < b i) (le : lo ≤ hi) :
    StrictMin (insertAt (gapOf last lo hi) d b) lo (hi + 1) (gapOf last lo hi) := by
  have inside : lo ≤ gapOf last lo hi ∧ gapOf last lo hi < hi + 1 := by
    cases last <;> simp only [gapOf, if_true, Bool.false_eq_true, if_false] <;> omega
  refine ⟨inside.1, inside.2, fun i hi hi' ne => ?_⟩
  rw [insertAt_self]
  rcases Nat.lt_or_gt_of_ne ne with lt | lt
  · rw [insertAt_below d b lt]
    exact deep i hi (by omega)
  · rw [insertAt_above d b lt]
    exact deep (i - 1) (by omega) (by omega)

-- Inserting next to a group whose values exceed d, below neighbours whose values are less.
theorem IsCartesian.insert {q : List Bool} {glo ghi : Nat}
    (tree : IsCartesian b lo hi t) (last : Bool) (le : lo ≤ hi) (path : Arrives t lo hi q glo ghi)
    (deep : ∀ i, glo ≤ i → i < ghi → d < b i) (prev : lo < glo → b (glo - 1) < d)
    (next : ghi < hi → b ghi < d) :
    IsCartesian (insertAt (gapOf last glo ghi) d b) lo (hi + 1)
      ((t.map (shiftFrom (gapOf last glo ghi))).modify (attach last (gapOf last glo ghi)) q) := by
  induction path with
  | @here t lo hi =>
    have min := attach_min last deep le
    cases last with
    | true => exact .node min (tree.shift_below le_rfl) (.nil le_rfl)
    | false => exact .node min (.nil le_rfl) (tree.shift_above le_rfl)
  | @left l r lo m hi glo ghi q path ih =>
    cases tree with
    | node min left right =>
      have := min.left
      have := min.right
      obtain ⟨h1, h2, h3⟩ := path.bounds left min.left
      have inside : glo ≤ gapOf last glo ghi ∧ gapOf last glo ghi ≤ ghi := by
        cases last <;> simp only [gapOf, if_true, Bool.false_eq_true, if_false] <;> omega
      have low : b m < d := by
        by_cases last : ghi = m
        · rw [← last]
          exact next (by omega)
        · have := min.least ghi (by omega) (by omega) last
          have := next (by omega)
          omega
      have inner := ih left min.left deep prev fun lt => next (by omega)
      generalize gapOf last glo ghi = g at inside inner
      have moves : shiftFrom g m = m + 1 := shiftFrom_above (by omega)
      rw [PosTree.map, PosTree.modify, moves]
      refine .node ⟨by omega, by omega, fun i hi hi' ne => ?_⟩ inner (right.shift_above (by omega))
      rw [insertAt_succ d b (by omega)]
      rcases Nat.lt_trichotomy i g with lt | same | lt
      · rw [insertAt_below d b lt]
        exact min.least i hi (by omega) (by omega)
      · rwa [same, insertAt_self]
      · rw [insertAt_above d b lt]
        exact min.least (i - 1) (by omega) (by omega) (by omega)
  | @right l r lo m hi glo ghi q path ih =>
    cases tree with
    | node min left right =>
      have := min.left
      have := min.right
      obtain ⟨h1, h2, h3⟩ := path.bounds right min.right
      have inside : glo ≤ gapOf last glo ghi ∧ gapOf last glo ghi ≤ ghi := by
        cases last <;> simp only [gapOf, if_true, Bool.false_eq_true, if_false] <;> omega
      have low : b m < d := by
        by_cases first : glo - 1 = m
        · rw [← first]
          exact prev (by omega)
        · have := min.least (glo - 1) (by omega) (by omega) first
          have := prev (by omega)
          omega
      have inner := ih right min.right deep (fun lt => prev (by omega)) next
      generalize gapOf last glo ghi = g at inside inner
      have stays : shiftFrom g m = m := shiftFrom_below (by omega)
      rw [PosTree.map, PosTree.modify, stays]
      refine .node ⟨by omega, by omega, fun i hi hi' ne => ?_⟩ (left.shift_below (by omega)) inner
      rw [insertAt_below d b (i := m) (by omega)]
      rcases Nat.lt_trichotomy i g with lt | same | lt
      · rw [insertAt_below d b lt]
        exact min.least i hi (by omega) ne
      · rwa [same, insertAt_self]
      · rw [insertAt_above d b lt]
        exact min.least (i - 1) (by omega) (by omega) (by omega)

end CartesianTree
