import Mathlib.Logic.Function.Basic
import ElasticIndex.Shared.Runs

set_option autoImplicit false

namespace Interleaving

open Runs

variable {T M L G : Type}

/-- Threads with states of their own over one shared memory. -/
structure System (T M L : Type) where
  shared : M
  locals : T → L

variable [DecidableEq T] {act : T → M → L → M → L → Prop} {s : System T M L}

/-- One atomic action of one thread. -/
inductive Step (act : T → M → L → M → L → Prop) : System T M L → System T M L → Prop where
  | run {s : System T M L} {t : T} {m : M} {l : L} : act t s.shared (s.locals t) m l →
      Step act s ⟨m, Function.update s.locals t l⟩

-- An assertion about the memory and one for each thread, over an auxiliary view of the memory.
def Outline (good : G → M → Prop) (asserts : G → M → T → L → Prop) (s : System T M L) : Prop :=
  ∃ g, good g s.shared ∧ ∀ t, asserts g s.shared t (s.locals t)

-- Each action re-establishes its own assertion and leaves those of the other threads true.
def Keeps (act : T → M → L → M → L → Prop) (good : G → M → Prop)
    (asserts : G → M → T → L → Prop) : Prop :=
  ∀ g m t l m' l', good g m → asserts g m t l → act t m l m' l' →
    ∃ g', good g' m' ∧ asserts g' m' t l' ∧ ∀ u, u ≠ t → ∀ other, asserts g m u other →
    asserts g' m' u other

variable {good : G → M → Prop} {asserts : G → M → T → L → Prop}

theorem Outline.step {s' : System T M L} (keeps : Keeps act good asserts)
    (now : Outline good asserts s) (next : Step act s s') : Outline good asserts s' := by
  obtain ⟨g, memory, threads⟩ := now
  cases next with
  | run acts =>
    rename_i t m l
    obtain ⟨g', memory', own, others⟩ := keeps g _ t _ _ _ memory (threads t) acts
    refine ⟨g', memory', fun u => ?_⟩
    by_cases same : u = t
    · subst same
      simpa only [Function.update_self] using own
    · simpa only [Function.update_of_ne same] using others u same _ (threads u)

theorem Outline.reachable {init : System T M L → Prop}
    (first : ∀ s, init s → Outline good asserts s) (keeps : Keeps act good asserts)
    (run : Reachable init (Step act) s) : Outline good asserts s :=
  run.invariant first fun _ _ now next => now.step keeps next

end Interleaving
