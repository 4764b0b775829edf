import Mathlib.Logic.Function.Basic
import Mathlib.Tactic

set_option autoImplicit false

namespace SequenceEdit

variable {A : Type}

-- An array is a function of its index; its live length is kept elsewhere.
def insertAt (at_ : Nat) (v : A) (f : Nat → A) : Nat → A :=
  fun i => if i < at_ then f i else if i = at_ then v else f (i - 1)

def eraseAt (at_ : Nat) (f : Nat → A) : Nat → A :=
  fun i => if i < at_ then f i else f (i + 1)

@[simp] theorem insertAt_self (p : Nat) (v : A) (f : Nat → A) : insertAt p v f p = v := by
  simp [insertAt]

theorem insertAt_below {p i : Nat} (v : A) (f : Nat → A) (lt : i < p) : insertAt p v f i = f i := by
  simp [insertAt, lt]

theorem insertAt_above {p i : Nat} (v : A) (f : Nat → A) (lt : p < i) :
    insertAt p v f i = f (i - 1) := by
  have h : ¬ i < p := by omega
  have g : i ≠ p := by omega
  simp [insertAt, h, g]

theorem insertAt_succ {p i : Nat} (v : A) (f : Nat → A) (le : p ≤ i) :
    insertAt p v f (i + 1) = f i := by
  rw [insertAt_above v f (by omega), Nat.add_sub_cancel]

theorem map_insertAt {C : Type} (h : A → C) (p : Nat) (v : A) (f : Nat → A) (i : Nat) :
    h (insertAt p v f i) = insertAt p (h v) (fun j => h (f j)) i := by
  unfold insertAt
  split_ifs <;> rfl

theorem eraseAt_below {p i : Nat} (f : Nat → A) (lt : i < p) : eraseAt p f i = f i := by
  simp [eraseAt, lt]

theorem eraseAt_above {p i : Nat} (f : Nat → A) (le : p ≤ i) : eraseAt p f i = f (i + 1) := by
  have h : ¬ i < p := by omega
  simp [eraseAt, h]

theorem map_eraseAt {C : Type} (h : A → C) (p : Nat) (f : Nat → A) (i : Nat) :
    h (eraseAt p f i) = eraseAt p (fun j => h (f j)) i := by
  unfold eraseAt
  split_ifs <;> rfl

theorem insertAt_congr {p n i : Nat} (v : A) {f g : Nat → A} (same : ∀ j, j < n → f j = g j)
    (le : p ≤ n) (bound : i < n + 1) :
    insertAt p v f i = insertAt p v g i := by
  rcases Nat.lt_trichotomy i p with lt | rfl | lt
  · rw [insertAt_below _ _ lt, insertAt_below _ _ lt, same i (by omega)]
  · rw [insertAt_self, insertAt_self]
  · rw [insertAt_above _ _ lt, insertAt_above _ _ lt, same (i - 1) (by omega)]

theorem insertAt_eraseAt (p : Nat) (f : Nat → A) (i : Nat) :
    insertAt p (f p) (eraseAt p f) i = f i := by
  rcases Nat.lt_trichotomy i p with lt | rfl | lt
  · rw [insertAt_below _ _ lt, eraseAt_below _ lt]
  · rw [insertAt_self]
  · rw [insertAt_above _ _ lt, eraseAt_above _ (by omega), Nat.sub_add_cancel (by omega)]

-- The positions of the old entries once a new one stands at p.
def shiftFrom (p i : Nat) : Nat := if i < p then i else i + 1

theorem shiftFrom_below {p i : Nat} (lt : i < p) : shiftFrom p i = i := by
  simp [shiftFrom, lt]

theorem shiftFrom_above {p i : Nat} (le : p ≤ i) : shiftFrom p i = i + 1 := by
  have h : ¬ i < p := by omega
  simp [shiftFrom, h]

-- A loop that moves count entries from lo on up by one, the last entry first.
def moveUp (lo : Nat) : Nat → (Nat → A) → Nat → A
  | 0, f => f
  | count + 1, f => moveUp lo count (Function.update f (lo + count + 1) (f (lo + count)))

theorem moveUp_eq (lo count : Nat) (f : Nat → A) (i : Nat) :
    moveUp lo count f i = if lo < i ∧ i ≤ lo + count then f (i - 1) else f i := by
  induction count generalizing f with
  | zero =>
    rw [if_neg (by omega)]
    rfl
  | succ count ih =>
    rw [moveUp, ih]
    by_cases last : i = lo + count + 1
    · subst last
      rw [if_neg (by omega), if_pos (by omega), Function.update_self, Nat.add_sub_cancel]
    · by_cases inside : lo < i ∧ i ≤ lo + count
      · rw [if_pos inside, if_pos (by omega), Function.update_of_ne (by omega)]
      · rw [if_neg inside, if_neg (by omega), Function.update_of_ne last]

-- A loop that moves count entries from lo on down by one, the first entry first.
def moveDown (lo : Nat) : Nat → (Nat → A) → Nat → A
  | 0, f => f
  | count + 1, f => moveDown (lo + 1) count (Function.update f (lo - 1) (f lo))

theorem moveDown_eq (lo count : Nat) (f : Nat → A) (i : Nat) (positive : 0 < lo) :
    moveDown lo count f i = if lo ≤ i + 1 ∧ i + 1 < lo + count then f (i + 1) else f i := by
  induction count generalizing lo f with
  | zero =>
    rw [if_neg (by omega)]
    rfl
  | succ count ih =>
    rw [moveDown, ih _ _ (by omega)]
    by_cases first : i + 1 = lo
    · subst first
      rw [if_neg (by omega), if_pos (by omega), Nat.add_sub_cancel, Function.update_self]
    · by_cases inside : lo + 1 ≤ i + 1 ∧ i + 1 < lo + 1 + count
      · rw [if_pos inside, if_pos (by omega), Function.update_of_ne (by omega)]
      · rw [if_neg inside, if_neg (by omega), Function.update_of_ne (by omega)]

-- Copying or filling count entries of an array.
def blit (dst src count : Nat) (from_ to_ : Nat → A) : Nat → A :=
  fun i => if dst ≤ i ∧ i < dst + count then from_ (src + (i - dst)) else to_ i

def fill (dst count : Nat) (v : A) (f : Nat → A) : Nat → A :=
  fun i => if dst ≤ i ∧ i < dst + count then v else f i

-- The first count entries as a list.
def entries (count : Nat) (f : Nat → A) : List A := (List.range count).map f

@[simp] theorem length_entries (count : Nat) (f : Nat → A) : (entries count f).length = count := by
  simp [entries]

@[simp] theorem getElem_entries (count : Nat) (f : Nat → A) (i : Nat)
    (bound : i < (entries count f).length) :
    (entries count f)[i] = f i := by
  simp [entries]

theorem mem_entries {count : Nat} {f : Nat → A} {a : A} : a ∈ entries count f ↔
    ∃ i, i < count ∧ f i = a := by
  simp [entries]

theorem entries_congr {count : Nat} {f g : Nat → A} (same : ∀ i, i < count → f i = g i) :
    entries count f = entries count g :=
  List.map_congr_left fun i hi => same i (List.mem_range.mp hi)

theorem entries_insertAt {count p : Nat} (le : p ≤ count) (v : A) (f : Nat → A) :
    entries (count + 1) (insertAt p v f) = (entries count f).insertIdx p v := by
  apply List.ext_getElem
  · rw [List.length_insertIdx, length_entries, length_entries, if_pos le]
  · intro i h1 h2
    rw [getElem_entries, List.getElem_insertIdx]
    simp only [getElem_entries, insertAt, dite_eq_ite]

theorem entries_eraseAt {count p : Nat} (lt : p < count) (f : Nat → A) :
    entries (count - 1) (eraseAt p f) = (entries count f).eraseIdx p := by
  apply List.ext_getElem
  · rw [List.length_eraseIdx, length_entries, length_entries, if_pos lt]
  · intro i h1 h2
    rw [getElem_entries, List.getElem_eraseIdx]
    unfold eraseAt
    split_ifs <;> rw [getElem_entries]

theorem entries_take {count m : Nat} (le : m ≤ count) (f : Nat → A) :
    entries m f = (entries count f).take m := by
  apply List.ext_getElem
  · rw [List.length_take, length_entries, length_entries, Nat.min_eq_left le]
  · intro i h1 h2
    rw [List.getElem_take, getElem_entries, getElem_entries]

theorem entries_drop (count o : Nat) (f : Nat → A) :
    entries (count - o) (fun i => f (o + i)) = (entries count f).drop o := by
  apply List.ext_getElem
  · rw [List.length_drop, length_entries, length_entries]
  · intro i h1 h2
    rw [List.getElem_drop, getElem_entries, getElem_entries]

theorem entries_add (m n : Nat) (f : Nat → A) : entries (m + n) f =
    entries m f ++ entries n fun i => f (m + i) := by
  rw [entries, List.range_add, List.map_append, List.map_map]
  rfl

end SequenceEdit
