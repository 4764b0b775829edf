import ElasticIndex.Olc.Locked

set_option autoImplicit false

namespace ElasticIndex.Olc

open Interleaving Runs

variable {T K P : Type} [LinearOrder K] {c : Config} {blank : BTreeInner K}
  {key : P → K} {g : View T K} {m : Memory K P} {s : Shared K P} {k : K} {node : Nat}

def Local.Careful (key : P → K) (s : Shared K P) : Local K P → Prop
  | .idle => True
  | .busy call _ pc => Olc.Careful key s.memory call pc

-- A call that begins holds nothing, and one that ends has stored its key.
theorem acts_keep {allowed : Shared K P → Local K P → Move K P → Prop}
    (slots : 3 ≤ c.innerSlots ∧ c.innerSlots ≤ 65536)
    (careful : ∀ s l move, allowed s l move → l.Careful key s) :
    Keeps (Acts (T := T) c blank key allowed) (Good c key) fun g s t l =>
      l.Asserts c key g s t := by
  rintro g s t l s' l' ⟨shape, stored⟩ asserts ⟨move, answer, may, performs⟩
  rcases perform_cases performs with ⟨call, rfl, _, rfl, rfl, _⟩ | ⟨call, known, pc, m, rfl, next⟩
  · refine ⟨g, ⟨shape, stored⟩, ⟨fun n mine => absurd mine (asserts n), trivial⟩,
      fun u ne other has => ?_⟩
    exact ((Effect.refl shape).others u ne).thread shape other has
  · have proceeds := resume_proceeds shape blank slots pc asserts.1 asserts.2 (careful _ _ _ may)
    rcases next with ⟨pc', resumed, rfl, rfl, _⟩ | ⟨a, resumed, rfl, rfl, _⟩
    · obtain ⟨g', effect, ends⟩ := proceeds _ _ resumed
      exact ⟨g', ⟨effect.shape, fun k hk => effect.stored k (stored k hk)⟩, ends,
        fun u ne other has => (effect.others u ne).thread shape other has⟩
    · obtain ⟨g', effect, free, ends⟩ := proceeds _ _ resumed
      refine ⟨g', ⟨effect.shape, fun k hk => ?_⟩, free, fun u ne other has =>
        (effect.others u ne).thread shape other has⟩
      dsimp only at hk
      split at hk
      · rename_i ins
        rcases List.mem_cons.mp hk with rfl | old
        · exact ends ins
        · exact effect.stored k (stored k old)
      · exact effect.stored k (stored k hk)

-- An empty leaf, which answers for every key.
theorem start_outline {s : Machine T K P} (start : s.Start) :
    Outline (Good c key) (fun g s t l => l.Asserts c key g s t) s := by
  obtain ⟨shared, locals⟩ := start
  have first : ∀ {n : Nat}, n < (Memory.empty : Memory K P).allocated → n = 0 :=
    fun lt => Nat.lt_one_iff.mp lt
  refine ⟨⟨fun _ => Set.univ, fun _ => Set.univ, fun _ => 0, fun _ => none⟩, ⟨?_, ?_⟩, fun t => ?_⟩
  · rw [shared]
    refine ⟨Nat.zero_lt_one, rfl, fun _ _ => le_rfl, fun n owned => absurd rfl owned,
      fun n _ => ?_, fun _ _ _ => rfl,
      fun n n' lt lt' _ _ _ _ => (first lt).trans (first lt').symm, fun n _ => ?_⟩
    · exact ⟨fun no => absurd (show isLocked initialVersion = true from no) (by decide),
        fun no => absurd rfl no⟩
    · exact ⟨Nat.zero_le _, .nil, fun a no => absurd no List.not_mem_nil, rfl⟩
  · rw [shared]
    exact fun k no => absurd no List.not_mem_nil
  · rw [locals t]
    exact fun n no => by cases no

theorem run_outline [DecidableEq T] {allowed : Shared K P → Local K P → Move K P → Prop}
    {s : Machine T K P} (slots : 3 ≤ c.innerSlots ∧ c.innerSlots ≤ 65536)
    (careful : ∀ s l move, allowed s l move → l.Careful key s)
    (run : Reachable Machine.Start (Step (Acts c blank key allowed)) s) :
    Outline (Good c key) (fun g s t l => l.Asserts c key g s t) s :=
  Outline.reachable (fun _ => start_outline) (acts_keep slots careful) run

-- With all locks free, descending from a node leads to the leaf that answers for the key.
theorem descend_spec (shape : Shape c key g m) (free : ∀ n : Nat, g.owner n = none) {fuel : Nat}
    (enough : g.height node < fuel) (lt : node < m.allocated) (mine : k ∈ g.span node) :
    ∃ leaf entries, m.descend k fuel node = some leaf ∧ leaf < m.allocated ∧
    m.node leaf = .leaf entries ∧
      k ∈ g.span leaf := by
  induction fuel generalizing node with
  | zero => omega
  | succ fuel ih =>
    cases is : m.node node with
    | leaf entries => exact ⟨node, entries, by simp [Memory.descend, is], lt, is, mine⟩
    | inner n =>
      have ok := shape.inner lt is
      obtain ⟨le, routes⟩ := BTreeInner.lowerBound_routes ok.sorted fun none => ok.empty none k mine
      have level := ok.level _ le
      have child : k ∈ g.span (n.children (n.lowerBound k)) := by
        rw [shape.settled _ (ok.known _ le) (free _), ok.sends _ le]
        exact ⟨mine, routes⟩
      obtain ⟨leaf, entries, found, rest⟩ := ih (by omega) (ok.known _ le) child
      exact ⟨leaf, entries, by simpa [Memory.descend, is] using found, rest⟩

-- A key sits in one leaf only.
theorem Shape.stores_unique (shape : Shape c key g m) {node' : Nat} (lt : node < m.allocated)
    (lt' : node' < m.allocated) (has : m.Stores key node k) (has' : m.Stores key node' k) :
    node = node' := by
  obtain ⟨entries, is, a, ha, rfl⟩ := has
  obtain ⟨entries', is', a', ha', same⟩ := has'
  have ok := shape.leaf lt is
  have ok' := shape.leaf lt' is'
  exact shape.apart node node' lt lt' (ok.level.trans ok'.level.symm) _ (ok.inside a ha)
    (same ▸ ok'.inside a' ha')

-- When no call is in progress, every key of an insert that returned is where a descent looks for
-- it.
theorem quiet_finds {s : Machine T K P}
    (now : Outline (Good c key) (fun g s t l => l.Asserts c key g s t) s)
    (quiet : ∀ t, s.locals t = .idle) (hk : k ∈ s.shared.returned) :
    (∃ fuel leaf, s.shared.memory.descend k fuel s.shared.memory.root = some leaf ∧
      s.shared.memory.Stores key leaf k) ∧
    ∃! node, node < s.shared.memory.allocated ∧ s.shared.memory.Stores key node k := by
  obtain ⟨g, ⟨shape, stored⟩, threads⟩ := now
  have free : ∀ n : Nat, g.owner n = none := fun n => by
    cases owner : g.owner n with
    | none => rfl
    | some t =>
      have nothing := threads t
      rw [quiet t] at nothing
      exact absurd owner (nothing n)
  have rootSpan : k ∈ g.span s.shared.memory.root := by
    rw [shape.settled _ shape.root (free _), shape.top]
    exact Set.mem_univ k
  obtain ⟨leaf, entries, found, lt, is, mine⟩ :=
    descend_spec shape free (Nat.lt_succ_self _) shape.root rootSpan
  have has : s.shared.memory.Stores key leaf k := ⟨entries, is, stored k hk leaf lt entries is mine⟩
  exact ⟨⟨_, leaf, found, has⟩, leaf, ⟨lt, has⟩, fun other h => shape.stores_unique h.1 lt h.2 has⟩

-- A thread that is about to tell a parent of a new node has found room there.
theorem insertSep_room {s : Machine T K P}
    (now : Outline (Good c key) (fun g s t l => l.Asserts c key g s t) s) {t : T} {call : Call K P}
    {known : Bool} {p new : Nat} {sep : K}
    (stands : s.locals t = .busy call known (.insertSep (some p) node sep new)) :
    ∃ n, s.shared.memory.node p = .inner n ∧ n.count < c.innerSlots - 1 := by
  obtain ⟨g, _, threads⟩ := now
  have asserts := threads t
  rw [stands] at asserts
  exact asserts.2.2.2.2.2

-- The moves of a schedule, one after the other, as long as a check lets them through.
def play [DecidableEq T] (c : Config) (blank : BTreeInner K) (key : P → K)
    (check : Shared K P → Local K P → Move K P → Bool) : List (T × Move K P) → Machine T K P →
    Option (Machine T K P)
  | [], s => some s
  | (t, move) :: rest, s =>
    if check s.shared (s.locals t) move then
      (perform c blank key s.shared (s.locals t) move).bind fun (shared, l, _) =>
        play c blank key check rest ⟨shared, Function.update s.locals t l⟩
    else none

theorem play_reachable [DecidableEq T] {allowed : Shared K P → Local K P → Move K P → Prop}
    {check : Shared K P → Local K P → Move K P → Bool} {s s' : Machine T K P}
    {moves : List (T × Move K P)} (may : ∀ s l move, check s l move = true → allowed s l move)
    (run : Reachable Machine.Start (Step (Acts c blank key allowed)) s)
    (plays : play c blank key check moves s = some s') :
    Reachable Machine.Start (Step (Acts c blank key allowed)) s' := by
  induction moves generalizing s with
  | nil =>
    cases plays
    exact run
  | cons move rest ih =>
    obtain ⟨t, move⟩ := move
    rw [play] at plays
    split at plays
    · rename_i checked
      obtain ⟨⟨shared, l, answer⟩, performs, plays⟩ := Option.bind_eq_some_iff.mp plays
      exact ih (run.next (.run ⟨move, answer, may _ _ _ checked, performs⟩)) plays
    · cases plays

def Machine.first : Machine T K P := ⟨⟨.empty, [], []⟩, fun _ => .idle⟩

omit [LinearOrder K] in
theorem Machine.first_start : (Machine.first : Machine T K P).Start := ⟨rfl, fun _ => rfl⟩

def Local.isIdle : Local K P → Bool
  | .idle => true
  | .busy _ _ _ => false

omit [LinearOrder K] in
theorem Local.idle_of {l : Local K P} (h : l.isIdle = true) : l = .idle := by
  cases l with
  | idle => rfl
  | busy call known pc => cases h

def sampleConfig : Config := { innerSlots := 4, leafSlots := 2 }

def sampleBlank : BTreeInner Nat := { count := 0, keys := fun _ => 0, children := fun _ => 0 }

end ElasticIndex.Olc
