import Mathlib.Tactic

set_option autoImplicit false

namespace Loop

variable {S A C : Type} {step : S → S ⊕ A} {s s' : S} {a a' : A}

-- A loop that goes on with a state or leaves with a value, in a given number of rounds at most.
def run (step : S → S ⊕ A) : Nat → S → Option A
  | 0, _ => none
  | rounds + 1, s =>
    match step s with
    | .inl s' => run step rounds s'
    | .inr a => some a

-- What the rounds of a loop log, and what follows it.
def log (step : S → S ⊕ A) (round : S → List C) (after : A → List C) : Nat → S → List C
  | 0, _ => []
  | rounds + 1, s =>
    round s ++ match step s with
      | .inl s' => log step round after rounds s'
      | .inr a => after a

inductive Ends (step : S → S ⊕ A) : S → A → Prop where
  | leave {s : S} {a : A} : step s = .inr a → Ends step s a
  | turn {s s' : S} {a : A} : step s = .inl s' → Ends step s' a → Ends step s a

-- The value of a computation whose loops are given rounds enough.
def Returns (f : Nat → Option A) (a : A) : Prop := ∃ bound, ∀ rounds, bound ≤
    rounds → f rounds = some a

theorem Returns.unique {f : Nat → Option A} (h : Returns f a) (g : Returns f a') : a = a' := by
  obtain ⟨m, h⟩ := h
  obtain ⟨n, g⟩ := g
  have first := h (max m n) (le_max_left m n)
  rw [g (max m n) (le_max_right m n)] at first
  exact (Option.some.inj first).symm

theorem Returns.pure (a : A) : Returns (fun _ => some a) a := ⟨0, fun _ _ => rfl⟩

theorem Returns.congr {f g : Nat → Option A} (h : Returns f a)
    (same : ∀ rounds, g rounds = f rounds) : Returns g a := by
  obtain ⟨bound, h⟩ := h
  exact ⟨bound, fun rounds le => (same rounds).trans (h rounds le)⟩

theorem Returns.of_eventually {f g : Nat → Option A} {bound : Nat}
    (same : ∀ rounds, bound ≤ rounds → g rounds = f rounds) (h : Returns f a) : Returns g a := by
  obtain ⟨m, h⟩ := h
  exact ⟨max bound m, fun rounds le =>
    (same rounds (le_trans (le_max_left bound m) le)).trans
      (h rounds (le_trans (le_max_right bound m) le))⟩

theorem Returns.of_succ {f g : Nat → Option A} (next : ∀ rounds, f (rounds + 1) = g rounds)
    (h : Returns g a) : Returns f a := by
  obtain ⟨bound, h⟩ := h
  refine ⟨bound + 1, fun rounds le => ?_⟩
  obtain ⟨rest, rfl⟩ := Nat.exists_eq_add_of_le' (le_trans (Nat.le_add_left 1 bound) le)
  exact (next rest).trans (h rest (by omega))

theorem Returns.bind {f : Nat → Option A} {g : Nat → A → Option C} {r : C} (h : Returns f a)
    (next : Returns (fun rounds => g rounds a) r) :
    Returns (fun rounds => (f rounds).bind (g rounds)) r := by
  obtain ⟨m, h⟩ := h
  obtain ⟨n, next⟩ := next
  refine ⟨max m n, fun rounds le => ?_⟩
  dsimp only
  rw [h rounds (le_trans (le_max_left m n) le), Option.bind_some]
  exact next rounds (le_trans (le_max_right m n) le)

theorem Returns.map {f : Nat → Option A} (g : A → C) (h : Returns f a) :
    Returns (fun rounds => (f rounds).map g) (g a) := by
  obtain ⟨bound, h⟩ := h
  refine ⟨bound, fun rounds le => ?_⟩
  dsimp only
  rw [h rounds le, Option.map_some]

theorem Ends.returns (h : Ends step s a) : Returns (fun rounds => run step rounds s) a := by
  induction h with
  | leave last =>
    refine .of_succ (fun rounds => ?_) (.pure _)
    rw [run, last]
  | turn next _ ih =>
    refine .of_succ (fun rounds => ?_) ih
    rw [run, next]

section Keeps

variable {P : S → Prop} {Q : A → Prop} {rounds : Nat}

-- What every turn keeps holds of every state of the loop, and what it says on leaving of the value.
theorem run_keeps (keeps : ∀ s s', P s → step s = .inl s' → P s')
    (last : ∀ s a, P s → step s = .inr a → Q a) (start : P s)
    (result : run step rounds s = some a) : Q a := by
  induction rounds generalizing s with
  | zero => cases result
  | succ rounds ih =>
    rw [run] at result
    cases next : step s with
    | inl s₁ =>
      rw [next] at result
      exact ih (keeps s s₁ start next) result
    | inr a₁ =>
      rw [next] at result
      cases result
      exact last s a start next

variable {R : C → Prop} {round : S → List C} {after : A → List C}

theorem log_keeps (keeps : ∀ s s', P s → step s = .inl s' → P s')
    (inside : ∀ s, P s → ∀ entry ∈ round s, R entry)
    (last : ∀ s a, P s → step s = .inr a → ∀ entry ∈ after a, R entry) (start : P s) :
    ∀ entry ∈ log step round after rounds s, R entry := by
  induction rounds generalizing s with
  | zero => exact fun entry member => absurd member List.not_mem_nil
  | succ rounds ih =>
    rw [log, List.forall_mem_append]
    refine ⟨inside s start, ?_⟩
    cases next : step s with
    | inl s₁ => exact ih (keeps s s₁ start next)
    | inr a => exact last s a start next

theorem Ends.log (ends : Ends step s a) (round : S → List C) (after : A → List C) :
    ∃ bound, ∀ rounds, bound ≤ rounds →
    ∀ entry ∈ after a, entry ∈ Loop.log step round after rounds s := by
  induction ends with
  | leave last =>
    refine ⟨1, fun rounds le entry member => ?_⟩
    obtain ⟨rest, rfl⟩ := Nat.exists_eq_add_of_le' le
    rw [Loop.log, last]
    exact List.mem_append_right _ member
  | turn next _ ih =>
    obtain ⟨bound, ih⟩ := ih
    refine ⟨bound + 1, fun rounds le entry member => ?_⟩
    obtain ⟨rest, rfl⟩ := Nat.exists_eq_add_of_le' (le_trans (Nat.le_add_left 1 bound) le)
    rw [Loop.log, next]
    exact List.mem_append_right _ (ih rest (by omega) entry member)

end Keeps

end Loop
