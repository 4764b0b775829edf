import ElasticIndex.SeqTree.Insert

set_option autoImplicit false

namespace ElasticIndex.SeqTree

open SequenceEdit CartesianTree CartesianTree.PosTree SlotTree

variable {c : Params} {array temp : Nat → Nat} {q : List Bool}

theorem slot_append_ne {p w : List Bool} (ne : p.length ≠ w.length) :
    slot (q ++ p) ≠ slot (q ++ w) := by
  intro same
  have := congrArg List.length (slot_injective same)
  simp only [List.length_append] at this
  omega

theorem aside_block {n s : Nat} (d : Bool)
    (aside : ∀ w : List Bool, w.length = n + 1 → s ≠ slot (q ++ w)) :
    ¬ (blockStart (q ++ [d]) n ≤ s ∧ s < blockStart (q ++ [d]) n + 2 ^ n) := by
  rintro ⟨left, right⟩
  obtain ⟨p, len, same⟩ := exists_in_block left right
  refine aside (d :: p) (by simp [len]) ?_
  rw [← same, List.append_assoc]
  rfl

theorem blocks_disjoint (d : Bool) (w : List Bool) :
    ¬ (blockStart (q ++ [!d]) w.length ≤ slot (q ++ d :: w) ∧
      slot (q ++ d :: w) < blockStart (q ++ [!d]) w.length + 2 ^ w.length) := by
  rintro ⟨left, right⟩
  obtain ⟨p, len, same⟩ := exists_in_block left right
  rw [List.append_assoc] at same
  have turn := List.append_cancel_left (slot_injective same)
  simp at turn

-- One level of the push: the saved values on one side of the new entry, the sentinel on the other.
def pushLevel (q : List Bool) (d : Bool) (n sentinel : Nat) (temp array : Nat → Nat) : Nat → Nat :=
  fill (blockStart (q ++ [!d]) n) (2 ^ n) sentinel
    (blit (blockStart (q ++ [d]) n) (2 ^ n - 1) (2 ^ n) temp array)

theorem pushLevel_inside {d e : Bool} {sentinel : Nat} (w : List Bool) :
    pushLevel q d w.length sentinel temp array (slot (q ++ e :: w)) =
      if e = d then temp (2 ^ w.length - 1 + offset w) else sentinel := by
  have inside := mem_block (q ++ [e]) w
  have place := slot_append_eq (q ++ [e]) w
  rw [List.append_assoc, List.cons_append, List.nil_append] at inside place
  unfold pushLevel fill
  by_cases same : e = d
  · subst same
    rw [if_neg (blocks_disjoint e w), if_pos rfl, blit, if_pos inside, place,
      Nat.add_sub_cancel_left]
  · obtain rfl : e = !d := by cases e <;> cases d <;> simp_all
    rw [if_pos inside, if_neg same]

theorem pushLevel_aside {d : Bool} {n sentinel s : Nat}
    (aside : ∀ w : List Bool, w.length = n + 1 → s ≠ slot (q ++ w)) :
    pushLevel q d n sentinel temp array s = array s := by
  unfold pushLevel fill blit
  rw [if_neg (aside_block (!d) aside), if_neg (aside_block d aside)]

-- old is the array before the push; the rounds below depth k + 1 are still to come.
theorem pushDown_spec (d : Bool) (old : List Bool → Nat) (rest k : Nat) (temp array : Nat → Nat)
    (room : rest + (q.length + k + 2) = c.treeLevels)
    (saved : 0 < rest → ∀ w : List Bool, w.length = k + 1 →
      temp (2 ^ (k + 1) - 1 + offset w) = old w)
    (kept : ∀ w : List Bool, k + 1 < w.length → q.length + w.length < c.treeLevels →
      array (slot (q ++ w)) = old w) :
    (∀ (w : List Bool) (e : Bool), k + 1 ≤ w.length → q.length + w.length + 1 < c.treeLevels →
      pushDown c rest (q.length + k + 3) (k + 2) (blockStart (q ++ [d]) k) (blockStart q (k + 1))
        (blockStart (q ++ [!d]) k) temp array (slot (q ++ e :: w)) = if e = d
        then old w else c.endTree) ∧
      ∀ s, (∀ w : List Bool, k + 1 < w.length → q.length + w.length < c.treeLevels →
        s ≠ slot (q ++ w)) →
        pushDown c rest (q.length + k + 3) (k + 2) (blockStart (q ++ [d]) k) (blockStart q (k + 1))
          (blockStart (q ++ [!d]) k) temp array s = array s := by
  induction rest generalizing k temp array with
  | zero => exact ⟨fun w e le inside => by omega, fun s _ => rfl⟩
  | succ rest ih =>
    have unfolded : pushDown c (rest + 1) (q.length + k + 3) (k + 2) (blockStart (q ++ [d]) k)
      (blockStart q (k + 1))
        (blockStart (q ++ [!d]) k) temp array =
        pushDown c rest (q.length + (k + 1) + 3) (k + 1 + 2) (blockStart (q ++ [d]) (k + 1))
        (blockStart q (k + 1 + 1))
          (blockStart (q ++ [!d]) (k + 1))
          (if q.length + k + 3 < c.treeLevels then
            blit (2 ^ (k + 2) - 1) (blockStart q (k + 1 + 1)) (2 ^ (k + 2)) array temp else temp)
          (pushLevel q d (k + 1) c.endTree (if q.length + k + 3 < c.treeLevels then
            blit (2 ^ (k + 2) - 1) (blockStart q (k + 1 + 1)) (2 ^ (k + 2)) array temp
            else temp) array) := by
      rw [pushDown, blockStart_succ, blockStart_succ, blockStart_succ]
      rfl
    rw [unfolded]
    generalize next : (if q.length + k + 3 < c.treeLevels then
      blit (2 ^ (k + 2) - 1) (blockStart q (k + 1 + 1)) (2 ^ (k + 2)) array temp else temp) = temp'
    have double : 2 ^ (k + 2) = 2 * 2 ^ (k + 1) := by ring
    have older (w : List Bool) (len : w.length = k + 1) :
        temp' (2 ^ (k + 1) - 1 + offset w) = old w := by
      have small := offset_lt w
      rw [len] at small
      rw [← saved (by omega) w len, ← next]
      split_ifs
      · rw [blit, if_neg (by omega)]
      · rfl
    have newer : 0 < rest → ∀ w : List Bool, w.length = k + 1 + 1 →
        temp' (2 ^ (k + 1 + 1) - 1 + offset w) = old w := by
      intro more w len
      have small := offset_lt w
      rw [len] at small
      rw [← next, if_pos (by omega), blit, if_pos (by omega), ← kept w (by omega) (by omega),
        slot_append_eq, len]
      congr 1
      omega
    have deeper (w : List Bool) (lt : k + 1 + 1 < w.length)
      (inside : q.length + w.length < c.treeLevels) :
        pushLevel q d (k + 1) c.endTree temp' array (slot (q ++ w)) = old w := by
      rw [pushLevel_aside fun p len => slot_append_ne (by omega)]
      exact kept w (by omega) inside
    obtain ⟨below, aside⟩ :=
      ih (k + 1) temp' (pushLevel q d (k + 1) c.endTree temp' array) (by omega) newer deeper
    refine ⟨fun w e le inside => ?_, fun s outside => ?_⟩
    · by_cases here : w.length = k + 1
      · rw [aside _ fun p lt _ => slot_append_ne (by simp only [List.length_cons]; omega), ← here,
          pushLevel_inside, here, older w here]
      · exact below w e (by omega) inside
    · rw [aside s fun w lt inside => outside w (by omega) inside, pushLevel_aside fun w len => ?_]
      exact outside w (by omega) (by omega)

theorem blockStart_zero (q : List Bool) : blockStart q 0 = slot q := by
  simp [blockStart]

theorem slot_child_false (q : List Bool) : 2 * (slot q + 1) - 1 = slot (q ++ [false]) := by
  rw [slot_snoc, Bool.toNat_false]
  omega

theorem slot_child_true (q : List Bool) : slot (q ++ [false]) + 1 = slot (q ++ [true]) := by
  rw [slot_snoc, slot_snoc]
  rfl

-- The array handed to the push: the new entry, its one child and the sentinel beside it.
def placeTop (q : List Bool) (d : Bool) (position sentinel : Nat) (array : Nat → Nat) : Nat → Nat :=
  Function.update (Function.update (Function.update array (slot q) position)
    (slot (q ++ [d])) (array (slot q)))
    (slot (q ++ [!d])) sentinel

theorem placeTop_inside {d e : Bool} {position sentinel : Nat} :
    placeTop q d position sentinel array (slot (q ++ [e])) = if e = d then array (slot q)
      else sentinel := by
  have turns (x y : Bool) (ne : x ≠ y) : slot (q ++ [x]) ≠ slot (q ++ [y]) := by
    intro same
    exact ne (by simpa using slot_injective same)
  unfold placeTop
  by_cases same : e = d
  · subst same
    rw [Function.update_of_ne (turns _ _ (by simp)), Function.update_self, if_pos rfl]
  · obtain rfl : e = !d := by cases e <;> cases d <;> simp_all
    rw [Function.update_self, if_neg same]

theorem placeTop_top {d : Bool} {position sentinel : Nat} :
    placeTop q d position sentinel array (slot q) = position := by
  have above (e : Bool) : slot q ≠ slot (q ++ [e]) := by
    rw [slot_snoc]
    omega
  rw [placeTop, Function.update_of_ne (above _), Function.update_of_ne (above _),
    Function.update_self]

theorem placeTop_aside {d : Bool} {position sentinel s : Nat} (top : s ≠ slot q)
    (child : ∀ e, s ≠ slot (q ++ [e])) :
    placeTop q d position sentinel array s = array s := by
  rw [placeTop, Function.update_of_ne (child _), Function.update_of_ne (child _),
    Function.update_of_ne top]

theorem insertTree_eq {position : Nat} (small : position < c.idxSize) {d : Bool}
    (side : d = !decide (array (slot q) < position)) :
    insertTree c position (slot q) (q.length + 1) array =
      if 1 < c.treeLevels ∧ q.length + 2 ≤ c.treeLevels then
        pushDown c (c.treeLevels - (q.length + 2)) (q.length + 0 + 3) (0 + 2)
          (blockStart (q ++ [d]) 0) (blockStart q (0 + 1)) (blockStart (q ++ [!d]) 0)
          (if q.length + 3 ≤ c.treeLevels then
            Function.update (Function.update (Function.update (fun _ => 0) 0 (array (slot q))) 1
              (array (slot (q ++ [false])))) 2 (array (slot (q ++ [true])))
          else Function.update (fun _ => 0) 0 (array (slot q)))
          (placeTop q d position c.endTree array)
      else Function.update array (slot q) position := by
  have save : blockStart q (0 + 1) = slot (q ++ [false]) := by
    rw [← slot_child_false, blockStart, Nat.pow_one, Nat.mul_comm]
  have above (e : Bool) : slot (q ++ [e]) ≠ slot q := by
    rw [slot_snoc]
    omega
  have apart : slot (q ++ [false]) ≠ slot (q ++ [true]) := by
    rw [slot_snoc, slot_snoc, Bool.toNat_false, Bool.toNat_true]
    omega
  unfold insertTree placeTop
  simp only [slot_child_true, slot_child_false, Nat.mod_eq_of_lt small, save, blockStart_zero,
    Function.update_of_ne (above _)]
  by_cases less : array (slot q) < position
  · obtain rfl : d = false := by rw [side, decide_eq_true less, Bool.not_true]
    rw [if_pos less]
    rfl
  · obtain rfl : d = true := by rw [side, decide_eq_false less, Bool.not_false]
    rw [if_neg less, Function.update_comm apart]
    rfl

-- The new entry takes slot q, the old subtree moves below it on side d.
theorem insertTree_spec {position : Nat} (array : Nat → Nat) (small : position < c.idxSize)
    (short : q.length < c.treeLevels) {d : Bool} (side : d = !decide (array (slot q) < position)) :
    insertTree c position (slot q) (q.length + 1) array (slot q) = position ∧
      (∀ (w : List Bool) (e : Bool), q.length + w.length + 1 < c.treeLevels →
        insertTree c position (slot q) (q.length + 1) array (slot (q ++ e :: w)) =
          if e = d then array (slot (q ++ w)) else c.endTree) ∧
      ∀ s, (∀ w : List Bool, q.length + w.length < c.treeLevels → s ≠ slot (q ++ w)) →
        insertTree c position (slot q) (q.length + 1) array s = array s := by
  rw [insertTree_eq small side]
  by_cases deep : 1 < c.treeLevels ∧ q.length + 2 ≤ c.treeLevels
  · rw [if_pos deep]
    have kept (w : List Bool) (lt : 0 + 1 < w.length) (_ : q.length + w.length < c.treeLevels) :
        placeTop q d position c.endTree array (slot (q ++ w)) = array (slot (q ++ w)) := by
      refine placeTop_aside ?_ fun e =>
        slot_append_ne (w := [e]) (by simp only [List.length_cons, List.length_nil]; omega)
      have apart : slot (q ++ w) ≠ slot (q ++ []) :=
        slot_append_ne (by simp only [List.length_nil]; omega)
      rwa [List.append_nil] at apart
    obtain ⟨below, aside⟩ :=
      pushDown_spec d (fun w => array (slot (q ++ w))) (c.treeLevels - (q.length + 2)) 0
      (if q.length + 3 ≤ c.treeLevels then
            Function.update (Function.update (Function.update (fun _ => 0) 0 (array (slot q))) 1
              (array (slot (q ++ [false])))) 2 (array (slot (q ++ [true])))
          else Function.update (fun _ => 0) 0 (array (slot q)))
      (placeTop q d position c.endTree array) (by omega) (fun more w len => by
        obtain ⟨e, rfl⟩ := List.length_eq_one_iff.mp len
        rw [if_pos (by omega)]
        cases e <;> rfl) kept
    refine ⟨?_, fun w e inside => ?_, fun s outside => ?_⟩
    · rw [aside _ fun w lt _ => ?_, placeTop_top]
      have apart : slot (q ++ []) ≠ slot (q ++ w) :=
        slot_append_ne (by simp only [List.length_nil]; omega)
      rwa [List.append_nil] at apart
    · cases w with
      | nil =>
        rw [aside _ fun w lt _ =>
          slot_append_ne (by simp only [List.length_cons, List.length_nil]; omega),
            placeTop_inside, List.append_nil]
      | cons x w => exact below (x :: w) e (by simp) inside
    · rw [aside s fun w _ inside => outside w inside]
      refine placeTop_aside ?_ fun e =>
        outside [e] (by simp only [List.length_cons, List.length_nil]; omega)
      simpa using outside [] (by simpa using short)
  · rw [if_neg deep]
    refine ⟨Function.update_self _ _ _, fun w e inside => by omega, fun s outside => ?_⟩
    have ne : s ≠ slot q := by simpa using outside [] (by simpa using short)
    exact Function.update_of_ne ne _ _

end ElasticIndex.SeqTree
