import Mathlib.Logic.Relation

set_option autoImplicit false

namespace Runs

variable {S : Type} {init : S → Prop} {step : S → S → Prop} {s s' : S}

-- The states a system can be in after any number of steps.
def Reachable (init : S → Prop) (step : S → S → Prop) (s : S) : Prop :=
  ∃ start, init start ∧ Relation.ReflTransGen step start s

theorem Reachable.start (first : init s) : Reachable init step s := ⟨s, first, .refl⟩

theorem Reachable.next (h : Reachable init step s) (last : step s s') : Reachable init step s' := by
  obtain ⟨start, first, steps⟩ := h
  exact ⟨start, first, steps.tail last⟩

theorem Reachable.invariant {I : S → Prop} (first : ∀ s, init s → I s)
    (keeps : ∀ s s', I s → step s s' → I s') (h : Reachable init step s) : I s := by
  obtain ⟨start, begins, steps⟩ := h
  induction steps with
  | refl => exact first start begins
  | tail _ last ih => exact keeps _ _ ih last

end Runs
