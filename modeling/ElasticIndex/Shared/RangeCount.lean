import Mathlib.Tactic

set_option autoImplicit false

namespace RangeCount

variable {K : Type} [LinearOrder K] {type time : K → Nat} {x k : K} {stop : Nat} {rows : List K}

/-- Keys in the order of two numbers, the type before the time. -/
def Lexicographic (type time : K → Nat) : Prop :=
  ∀ x y : K, x < y ↔ type x < type y ∨ type x = type y ∧ time x < time y

/-- The keys of the type of x whose time lies between the one of x and stop. -/
def InRange (type time : K → Nat) (x : K) (stop : Nat) (k : K) : Prop :=
  type k = type x ∧ time x ≤ time k ∧ time k ≤ stop

instance decidableInRange (type time : K → Nat) (x : K) (stop : Nat) :
    DecidablePred (InRange type time x stop) :=
  fun _ => inferInstanceAs (Decidable (_ ∧ _))

/-- What a walk over the keys counts that stops at another type or at a time past the end. -/
def countFrom (type time : K → Nat) (x : K) (stop : Nat) : List K → Nat
  | [] => 0
  | k :: rest =>
    if type k ≠ type x ∨ stop < time k then 0
    else (if time x ≤ time k then 1 else 0) + countFrom type time x stop rest

omit [LinearOrder K] in
theorem countP_none (none : ∀ k ∈ rows, ¬ InRange type time x stop k) :
    rows.countP (InRange type time x stop) = 0 := by
  rw [List.countP_eq_zero]
  simpa using none

theorem InRange.ge (lex : Lexicographic type time) (inside : InRange type time x stop k) :
    x ≤ k := by
  obtain ⟨same, from_, -⟩ := inside
  rw [← not_lt, lex]
  omega

theorem type_between (lex : Lexicographic type time) {p : K} (le : p ≤ k) (less : k < x)
    (same : type p = type x) : type k = type x := by
  have first := (not_congr (lex k p)).mp (not_lt.mpr le)
  have second := (lex k x).mp less
  omega

-- Behind a key at which the walk stops nothing is in the range.
theorem none_behind (lex : Lexicographic type time) (behind : ∀ k' ∈ rows, k < k')
    (stops : type x < type k ∨ type k = type x ∧ stop < time k) :
    ∀ k' ∈ rows, ¬ InRange type time x stop k' := by
  rintro k' inside ⟨same, -, until_⟩
  have less := (lex k k').mp (behind k' inside)
  omega

-- From the first key on that is not below x, the walk counts the range.
theorem countFrom_eq (lex : Lexicographic type time) (sorted : rows.Pairwise (· < ·))
    (from_ : ∀ k ∈ rows, x ≤ k) :
    countFrom type time x stop rows = rows.countP (InRange type time x stop) := by
  induction rows with
  | nil => rfl
  | cons k rest ih =>
    obtain ⟨behind, sorted⟩ := List.pairwise_cons.mp sorted
    obtain ⟨le, above⟩ := List.forall_mem_cons.mp from_
    have order := (not_congr (lex k x)).mp (not_lt.mpr le)
    rw [countFrom, List.countP_cons]
    by_cases stops : type k ≠ type x ∨ stop < time k
    · have out : ¬ InRange type time x stop k := by
        rintro ⟨same, -, until_⟩
        omega
      rw [if_pos stops, countP_none (none_behind lex behind (by omega)),
        if_neg (by simpa using out)]
    · have into : InRange type time x stop k := ⟨by omega, by omega, by omega⟩
      rw [if_neg stops, if_pos (by omega), if_pos (by simpa using into), ih sorted above,
        Nat.add_comm]

-- From the last key below x on: it is passed over if it is of the type of x, and stops the walk
-- otherwise.
theorem countFrom_before (lex : Lexicographic type time) (sorted : rows.Pairwise (· < ·))
    (from_ : ∀ k ∈ rows, x < k) (below : k < x) :
    countFrom type time x stop (k :: rows) =
      if type k = type x then rows.countP (InRange type time x stop) else 0 := by
  have order := (lex k x).mp below
  rw [countFrom]
  by_cases same : type k = type x
  · rw [if_pos same]
    by_cases past : stop < time k
    · have none : ∀ k' ∈ rows, ¬ InRange type time x stop k' :=
        none_behind lex (fun k' inside => below.trans (from_ k' inside)) (.inr ⟨same, past⟩)
      rw [if_pos (.inr past), countP_none none]
    · rw [if_neg (by omega), if_neg (by omega), Nat.zero_add,
        countFrom_eq lex sorted fun k' inside => (from_ k' inside).le]
  · rw [if_neg same, if_pos (.inl same)]

end RangeCount
