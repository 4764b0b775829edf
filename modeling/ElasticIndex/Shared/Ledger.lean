import Mathlib.Algebra.BigOperators.Group.List.Basic
import Mathlib.Logic.Function.Basic
import Mathlib.Tactic.Abel

set_option autoImplicit false

-- Cells that are allocated, written and freed, and a sum over those in use.
namespace Ledger

variable {V : Type} {ok : V → Prop} {weight : V → Int} {cells : Nat → Option V}
  {used used' : List Nat} {fresh a : Nat} {sum : Int} {old new : V}

def entry (weight : V → Int) (cell : Option V) : Int := (cell.map weight).getD 0

/-- The list has the cells in use, each of them once. -/
structure Accounts (ok : V → Prop) (weight : V → Int) (cells : Nat → Option V) (used : List Nat)
    (fresh : Nat) (sum : Int) :
    Prop where
  distinct : used.Nodup
  below : ∀ a ∈ used, a < fresh
  listed : ∀ a, a ∈ used ↔ ∃ v, cells a = some v
  each : ∀ a v, cells a = some v → ok v
  total : sum = (used.map fun a => entry weight (cells a)).sum

theorem Accounts.perm (accounts : Accounts ok weight cells used fresh sum)
    (perm : used.Perm used') :
    Accounts ok weight cells used' fresh sum :=
  ⟨perm.nodup accounts.distinct, fun a inside => accounts.below a (perm.symm.subset inside),
    fun a => perm.mem_iff.symm.trans (accounts.listed a), accounts.each,
    accounts.total.trans (perm.map _).sum_eq⟩

theorem Accounts.nil (ok : V → Prop) (weight : V → Int) (fresh : Nat) :
    Accounts ok weight (fun _ => none) [] fresh 0 :=
  ⟨.nil, by simp, by simp, by simp, rfl⟩

section Update

variable {cell : Option V}

theorem map_update (absent : a ∉ used) :
    (used.map fun b => entry weight (Function.update cells a cell b)) =
    used.map fun b => entry weight (cells b) :=
  List.map_congr_left fun b inside => by
    rw [Function.update_of_ne (by rintro rfl; exact absent inside)]

theorem each_update (each : ∀ b v, cells b = some v → ok v) (valid : ∀ v, cell = some v → ok v) :
    ∀ b v, Function.update cells a cell b = some v → ok v := by
  intro b v at_
  by_cases same : b = a
  · rw [same, Function.update_self] at at_
    exact valid v at_
  · rw [Function.update_of_ne same] at at_
    exact each b v at_

end Update

theorem Accounts.update (accounts : Accounts ok weight cells used fresh sum)
    (here : cells a = some old) (valid : ok new) :
    Accounts ok weight (Function.update cells a (some new)) used fresh
      (sum - weight old + weight new) := by
  have inside : a ∈ used := (accounts.listed a).mpr ⟨old, here⟩
  have absent : a ∉ used.erase a := accounts.distinct.not_mem_erase
  have moved (cells : Nat → Option V) : (used.map fun b => entry weight (cells b)).sum =
      entry weight (cells a) + ((used.erase a).map fun b => entry weight (cells b)).sum :=
    ((List.perm_cons_erase inside).map _).sum_eq.trans (by rw [List.map_cons, List.sum_cons])
  refine ⟨accounts.distinct, accounts.below, fun b => ?_,
    each_update accounts.each fun v same => ?_, ?_⟩
  · by_cases same : b = a
    · rw [same, Function.update_self]
      exact ⟨fun _ => ⟨new, rfl⟩, fun _ => inside⟩
    · rw [Function.update_of_ne same]
      exact accounts.listed b
  · cases same
    exact valid
  · rw [accounts.total, moved, moved, map_update absent, Function.update_self, here]
    simp only [entry, Option.map_some, Option.getD_some]
    abel

theorem Accounts.free (accounts : Accounts ok weight cells (a :: used) fresh sum)
    (here : cells a = some old) :
    Accounts ok weight (Function.update cells a none) used fresh (sum - weight old) := by
  obtain ⟨absent, distinct⟩ := List.nodup_cons.mp accounts.distinct
  refine ⟨distinct, fun b inside => accounts.below b (List.mem_cons_of_mem _ inside), fun b => ?_,
    each_update accounts.each fun v none => (by cases none), ?_⟩
  · by_cases same : b = a
    · rw [same, Function.update_self]
      exact ⟨fun inside => absurd inside absent,
        fun some_ => (by obtain ⟨v, none⟩ := some_; cases none)⟩
    · rw [Function.update_of_ne same, ← accounts.listed b]
      exact ⟨List.mem_cons_of_mem _, fun inside => (List.mem_cons.mp inside).resolve_left same⟩
  · rw [accounts.total, List.map_cons, List.sum_cons, map_update absent, here]
    simp only [entry, Option.map_some, Option.getD_some]
    abel

theorem Accounts.allocate (accounts : Accounts ok weight cells used fresh sum) (valid : ok new) :
    Accounts ok weight (Function.update cells fresh (some new)) (fresh :: used) (fresh + 1)
      (sum + weight new) := by
  have absent : fresh ∉ used := fun inside => (accounts.below fresh inside).ne rfl
  refine ⟨List.nodup_cons.mpr ⟨absent, accounts.distinct⟩, fun b inside => ?_, fun b => ?_,
    each_update accounts.each fun v same => ?_, ?_⟩
  · rcases List.mem_cons.mp inside with rfl | inside
    · exact Nat.lt_succ_self _
    · exact Nat.lt_succ_of_lt (accounts.below b inside)
  · by_cases same : b = fresh
    · rw [same, Function.update_self]
      exact ⟨fun _ => ⟨new, rfl⟩, fun _ => List.mem_cons_self⟩
    · rw [Function.update_of_ne same, ← accounts.listed b]
      exact ⟨fun inside => (List.mem_cons.mp inside).resolve_left same, List.mem_cons_of_mem _⟩
  · cases same
    exact valid
  · rw [List.map_cons, List.sum_cons, map_update absent, Function.update_self, accounts.total]
    simp only [entry, Option.map_some, Option.getD_some]
    abel

-- A new cell stands in the place of an old one.
theorem Accounts.replace (accounts : Accounts ok weight cells (a :: used) fresh sum)
    (here : cells a = some old) (valid : ok new) :
    Accounts ok weight (Function.update (Function.update cells fresh (some new)) a none)
      (fresh :: used) (fresh + 1) (sum - weight old + weight new) := by
  have apart : a ≠ fresh := (accounts.below a List.mem_cons_self).ne
  have both := (accounts.allocate valid).perm (List.Perm.swap a fresh used)
  have freed := both.free ((Function.update_of_ne apart _ _).trans here)
  have same : sum + weight new - weight old = sum - weight old + weight new := by abel
  rwa [same] at freed

end Ledger
