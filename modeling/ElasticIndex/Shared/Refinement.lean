import ElasticIndex.Shared.Loop

set_option autoImplicit false

namespace Refinement

open Loop

variable {S A C O : Type}

/-- The states an implementation reaches by allowed commands, with the states of the specification
beside them. -/
inductive Reached (impl : Nat → S → C → Option (S × O)) (spec : A → C → A × O)
    (allowed : S → A → C → Prop) (start : S) (init : A) :
    S → A → Prop where
  | start : Reached impl spec allowed start init start init
  | next {s s' : S} {a : A} {c : C} {o : O} : Reached impl spec allowed start init s a →
    allowed s a c →
    Returns (fun rounds => impl rounds s c) (s', o) →
    Reached impl spec allowed start init s' (spec a c).1

-- Every allowed command returns with the answer of the specification.
def Simulates (impl : Nat → S → C → Option (S × O)) (spec : A → C → A × O)
    (allowed : S → A → C → Prop) (R : S → A → Prop) : Prop :=
  ∀ s a c, R s a → allowed s a c →
    ∃ s', Returns (fun rounds => impl rounds s c) (s', (spec a c).2) ∧ R s' (spec a c).1

variable {impl : Nat → S → C → Option (S × O)} {spec : A → C → A × O} {allowed : S → A → C → Prop}
  {R : S → A → Prop} {s start : S} {a init : A}

theorem Simulates.reached (simulates : Simulates impl spec allowed R) (first : R start init)
    (reached : Reached impl spec allowed start init s a) : R s a := by
  induction reached with
  | start => exact first
  | next _ may returns ih =>
    obtain ⟨s', answer, related⟩ := simulates _ _ _ ih may
    cases answer.unique returns
    exact related

-- A list of commands, one after the other, with their answers.
def runAll (impl : S → C → Option (S × O)) : S → List C → Option (S × List O)
  | s, [] => some (s, [])
  | s, c :: rest =>
    (impl s c).bind fun r => (runAll impl r.1 rest).map fun last => (last.1, r.2 :: last.2)

def specAll (spec : A → C → A × O) : A → List C → A × List O
  | a, [] => (a, [])
  | a, c :: rest =>
    ((specAll spec (spec a c).1 rest).1, (spec a c).2 :: (specAll spec (spec a c).1 rest).2)

-- Where the specification alone decides which commands are allowed.
def Admissible (allowed : A → C → Prop) (spec : A → C → A × O) : A → List C → Prop
  | _, [] => True
  | a, c :: rest => allowed a c ∧ Admissible allowed spec (spec a c).1 rest

instance decidableAdmissible {allowed : A → C → Prop} [∀ a c, Decidable (allowed a c)]
    (spec : A → C → A × O) :
    (a : A) → (commands : List C) → Decidable (Admissible allowed spec a commands)
  | _, [] => .isTrue trivial
  | a, c :: rest =>
    @instDecidableAnd _ _ (inferInstanceAs (Decidable (allowed a c)))
      (decidableAdmissible spec (spec a c).1 rest)

theorem Simulates.run {may : A → C → Prop} (simulates : Simulates impl spec (fun _ => may) R)
    {commands : List C} (related : R s a) (admissible : Admissible may spec a commands) :
    ∃ s', Returns (fun rounds => runAll (impl rounds) s commands)
      (s', (specAll spec a commands).2) ∧ R s' (specAll spec a commands).1 := by
  induction commands generalizing s a with
  | nil => exact ⟨s, Returns.pure _, related⟩
  | cons c rest ih =>
    obtain ⟨s', first, related'⟩ := simulates s a c related admissible.1
    obtain ⟨last, second, final⟩ := ih related' admissible.2
    exact ⟨last, first.bind (second.map fun r => (r.1, (spec a c).2 :: r.2)), final⟩

-- A run whose commands are tested one by one.
def testedAll (step : S → C → Option (S × O)) (spec : A → C → A × O) (allowed : S → A → C → Prop)
    [∀ s a c, Decidable (allowed s a c)] :
    S → A → List C → Option S
  | s, _, [] => some s
  | s, a, c :: rest =>
    if allowed s a c then (step s c).bind fun r =>
      testedAll step spec allowed r.1 (spec a c).1 rest else none

theorem testedAll_reached {step : S → C → Option (S × O)} [∀ s a c, Decidable (allowed s a c)]
    {commands : List C} {s' : S} (same : ∀ rounds s c, impl rounds s c = step s c)
    (reached : Reached impl spec allowed start init s a)
    (run : testedAll step spec allowed s a commands = some s') :
    Reached impl spec allowed start init s' (specAll spec a commands).1 := by
  induction commands generalizing s a with
  | nil =>
    cases run
    exact reached
  | cons c rest ih =>
    rw [testedAll] at run
    split_ifs at run with may
    obtain ⟨r, first, second⟩ := Option.bind_eq_some_iff.mp run
    exact ih (reached.next may ⟨0, fun rounds _ => (same rounds s c).trans first⟩) second

-- Where the specification decides, every list of commands is run.
theorem Simulates.reaches {may : A → C → Prop} (simulates : Simulates impl spec allowed R)
    (lets : ∀ s a c, R s a → may a c → allowed s a c) {commands : List C} (related : R s a)
    (reached : Reached impl spec allowed start init s a)
    (admissible : Admissible may spec a commands) :
    ∃ s', Reached impl spec allowed start init s' (specAll spec a commands).1 := by
  induction commands generalizing s a with
  | nil => exact ⟨s, reached⟩
  | cons c rest ih =>
    have allowed := lets s a c related admissible.1
    obtain ⟨s', first, related'⟩ := simulates s a c related allowed
    exact ih related' (reached.next allowed first) admissible.2

end Refinement
