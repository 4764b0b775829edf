import Mathlib.Data.Nat.Find
import Mathlib.Tactic

set_option autoImplicit false

namespace BitOrder

/-- Fixed-width bit strings, most significant bit first, told apart by their bits alone. -/
structure BitKeys (K : Type) where
  width : Nat
  bit : K → Nat → Bool
  ext : ∀ x y, (∀ i, i < width → bit x i = bit y i) → x = y

variable {K : Type} (B : BitKeys K)

def BitKeys.Agree (x y : K) (d : Nat) : Prop :=
  ∀ i, i < d → B.bit x i = B.bit y i

structure BitKeys.LessAt (x y : K) (d : Nat) : Prop where
  inside : d < B.width
  agree : B.Agree x y d
  low : B.bit x d = false
  high : B.bit y d = true

def BitKeys.Less (x y : K) : Prop :=
  ∃ d, B.LessAt x y d

variable {B} {x y z : K} {d e : Nat}

theorem agree_refl (x : K) (d : Nat) : B.Agree x x d := fun _ _ => rfl

theorem BitKeys.Agree.symm (h : B.Agree x y d) : B.Agree y x d := fun i hi => (h i hi).symm

theorem BitKeys.Agree.trans (h : B.Agree x y d) (g : B.Agree y z d) : B.Agree x z d :=
  fun i hi => (h i hi).trans (g i hi)

theorem BitKeys.Agree.mono (h : B.Agree x y d) (le : e ≤ d) : B.Agree x y e :=
  fun i hi => h i (lt_of_lt_of_le hi le)

theorem BitKeys.LessAt.less (h : B.LessAt x y d) : B.Less x y := ⟨d, h⟩

-- Agreement past the first differing bit is impossible.
theorem BitKeys.LessAt.agree_le (h : B.LessAt x y d) (g : B.Agree x y e) : e ≤ d := by
  by_contra past
  have same := g d (by omega)
  simp [h.low, h.high] at same

theorem BitKeys.LessAt.unique (h : B.LessAt x y d) (g : B.LessAt x y e) : d = e :=
  le_antisymm (g.agree_le h.agree) (h.agree_le g.agree)

theorem BitKeys.LessAt.asymm (h : B.LessAt x y d) (g : B.LessAt y x e) : False := by
  have same : d = e := le_antisymm (g.agree_le (h.agree.symm)) (h.agree_le (Agree.symm g.agree))
  subst same
  simpa [h.low] using g.high

theorem BitKeys.LessAt.ne (h : B.LessAt x y d) : x ≠ y := by
  rintro rfl
  exact h.asymm h

-- The first difference of the ends is the smaller of the two, and the two are never equal.
theorem BitKeys.LessAt.trans (h : B.LessAt x y d) (g : B.LessAt y z e) :
    d ≠ e ∧ B.LessAt x z (min d e) := by
  rcases Nat.lt_trichotomy d e with lt | same | lt
  · refine ⟨lt.ne, ?_⟩
    rw [min_eq_left lt.le]
    exact ⟨h.inside, h.agree.trans (g.agree.mono lt.le), h.low, (g.agree d lt).symm.trans h.high⟩
  · subst same
    have high := h.high
    rw [g.low] at high
    cases high
  · refine ⟨lt.ne', ?_⟩
    rw [min_eq_right lt.le]
    exact ⟨g.inside, (h.agree.mono lt.le).trans g.agree, (h.agree e lt).trans g.low, g.high⟩

theorem BitKeys.LessAt.trans_left (h : B.LessAt x y d) (g : B.LessAt y z e) (lt : d < e) :
    B.LessAt x z d := by
  simpa [min_eq_left lt.le] using (h.trans g).2

theorem BitKeys.LessAt.trans_right (h : B.LessAt x y d) (g : B.LessAt y z e) (lt : e < d) :
    B.LessAt x z e := by
  simpa [min_eq_right lt.le] using (h.trans g).2

-- Moving one end along a longer agreement keeps the first difference.
theorem BitKeys.LessAt.of_agree_left (h : B.LessAt x y d) (g : B.Agree z x e)
    (lt : d < e) : B.LessAt z y d :=
  ⟨h.inside, (g.mono lt.le).trans h.agree, (g d lt).trans h.low, h.high⟩

theorem BitKeys.LessAt.of_agree_right (h : B.LessAt x y d) (g : B.Agree y z e)
    (lt : d < e) : B.LessAt x z d :=
  ⟨h.inside, h.agree.trans (g.mono lt.le), h.low, (g d lt).symm.trans h.high⟩

theorem BitKeys.Less.trans (h : B.Less x y) (g : B.Less y z) : B.Less x z := by
  obtain ⟨d, h⟩ := h
  obtain ⟨e, g⟩ := g
  exact ⟨_, (h.trans g).2⟩

theorem less_irrefl (x : K) : ¬ B.Less x x := fun ⟨_, h⟩ => h.asymm h

theorem BitKeys.Less.asymm (h : B.Less x y) : ¬ B.Less y x := fun g => less_irrefl x (h.trans g)

theorem BitKeys.Less.ne (h : B.Less x y) : x ≠ y := by
  rintro rfl
  exact less_irrefl _ h

theorem exists_lessAt (ne : x ≠ y) : ∃ d, B.LessAt x y d ∨ B.LessAt y x d := by
  have differ : ∃ d, d < B.width ∧ B.bit x d ≠ B.bit y d := by
    by_contra none
    push Not at none
    exact ne (B.ext x y none)
  classical
  let d := Nat.find differ
  obtain ⟨inside, bits⟩ : d < B.width ∧ B.bit x d ≠ B.bit y d := Nat.find_spec differ
  have agree : B.Agree x y d := by
    intro i hi
    by_contra other
    exact Nat.find_min differ hi ⟨hi.trans inside, other⟩
  refine ⟨d, ?_⟩
  cases hx : B.bit x d with
  | false => exact .inl ⟨inside, agree, hx, by simpa [hx] using bits.symm⟩
  | true => exact .inr ⟨inside, agree.symm, by simpa [hx] using bits.symm, hx⟩

theorem less_trichotomy (x y : K) : B.Less x y ∨ x = y ∨ B.Less y x := by
  by_cases same : x = y
  · exact .inr (.inl same)
  · obtain ⟨d, h | h⟩ := exists_lessAt (B := B) same
    · exact .inl h.less
    · exact .inr (.inr h.less)

end BitOrder
