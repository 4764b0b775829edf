import ElasticIndex.Olc.Link

set_option autoImplicit false

namespace ElasticIndex.Olc

variable {T K P : Type} [LinearOrder K] {c : Config} {blank : BTreeInner K}
  {key : P → K} {g : View T K} {m m' : Memory K P} {t : T} {call : Call K P} {node version : Nat}
  {parent : Option (Nat × Nat)}

def Outcome.Asserts (c : Config) (key : P → K) (g : View T K) (m : Memory K P) (t : T)
    (call : Call K P) :
    Outcome K P → Prop
  | .goto pc => (∀ n : Nat, g.owner n = some t → n ∈ pc.holds) ∧ pc.Asserts c key g m t call
  | .done _ =>
    (∀ n : Nat, g.owner n ≠ some t) ∧ (call.inserts = true → Stored key g m (call.key key))

-- A leaf gets no second entry for a key, and an upsert stores a pointer to its own key in a leaf
-- that has not changed since its version was recorded.
def Careful (key : P → K) (m : Memory K P) (call : Call K P) : Pc K → Prop
  | .insertLeaf node => ∀ entries, m.node node = .leaf entries → ∀ b ∈ entries, key b ≠ call.key key
  | .store _ node versionNode _ =>
    ∀ k v, call = .upsert k v → m.version node = versionNode ∧ key v = k
  | _ => True

-- The next step leads to a memory and a view where every thread is right again.
def Proceeds (c : Config) (key : P → K) (g : View T K) (m : Memory K P) (t : T) (call : Call K P)
    (next : Option (Memory K P × Outcome K P)) : Prop :=
  ∀ m' outcome, next = some (m', outcome) → ∃ g', Effect c key g m g' m' t ∧
    outcome.Asserts c key g' m' t call

theorem Proceeds.stay (shape : Shape c key g m) {pc : Pc K}
    (holds : ∀ n : Nat, g.owner n = some t → n ∈ pc.holds) (asserts : pc.Asserts c key g m t call) :
    Proceeds c key g m t call (some (m, .goto pc)) := by
  rintro m' outcome ⟨⟩
  exact ⟨g, .refl shape, holds, asserts⟩

theorem Proceeds.act {g' : View T K} (effect : Effect c key g m g' m' t) {pc : Pc K}
    (holds : ∀ n : Nat, g'.owner n = some t → n ∈ pc.holds)
    (asserts : pc.Asserts c key g' m' t call) :
    Proceeds c key g m t call (some (m', .goto pc)) := by
  rintro m'' outcome ⟨⟩
  exact ⟨g', effect, holds, asserts⟩

theorem Proceeds.restart (shape : Shape c key g m) (idle : ∀ n : Nat, g.owner n ≠ some t) :
    Proceeds c key g m t call (some (m, .goto .loadRoot)) :=
  .stay shape (fun n mine => absurd mine (idle n)) trivial

omit [LinearOrder K] in
theorem Aimed.of_some {inserts : Bool} {k : K} {p versionParent x y : Nat}
    (aimed : Aimed c g m inserts k (some (p, versionParent)) node x) :
    Aimed c g m inserts k (some (p, versionParent)) node y := aimed

theorem notLocked_of_read (restart : ¬ (isLocked version || isObsolete version) = true) :
    isLocked version = false := by
  rw [Bool.or_eq_true, not_or, Bool.not_eq_true] at restart
  exact restart.1

omit [LinearOrder K] in
theorem Seen.current (lt : node < m.allocated) (free : isLocked (m.version node) = false) :
    Seen m node (m.version node) := ⟨lt, free, le_rfl⟩

-- An unlocked node answers for all that its parent sends to it.
theorem Shape.whole (shape : Shape c key g m) (seen : Seen m node version)
    (current : m.version node = version) :
    g.span node = g.reach node :=
  shape.settled node seen.lt (shape.free seen.lt (by rw [current]; exact seen.free))

theorem descend_asserts (seen : Seen m node version)
    (aimed : Aimed c g m call.inserts (call.key key) parent node version)
    (room : call.inserts = true → m.version node = version → Room c m node) :
    (Pc.descend parent node version).Asserts c key g m t call := by
  cases parent with
  | none => exact ⟨seen, aimed, room⟩
  | some pair => exact ⟨seen, aimed, room⟩

theorem afterFull_asserts (ins : call.inserts = true) (seen : Seen m node version)
    (aimed : Aimed c g m call.inserts (call.key key) parent node version) (full : Full c m node) :
    (Pc.afterFull parent node version).Asserts c key g m t call := by
  cases parent with
  | none => exact ⟨seen, fun _ => full, fun p none => by cases none⟩
  | some pair => exact ⟨ins, seen, aimed, fun _ => full⟩

section Steps

variable (shape : Shape c key g m)

include shape

-- Steps that only read.
theorem read_proceeds {pc : Pc K} (idle : ∀ n : Nat, g.owner n ≠ some t)
    (asserts : pc.Asserts c key g m t call) :
    Proceeds c key g m t call (some (m, .goto pc)) :=
  .stay shape (fun n mine => absurd mine (idle n)) asserts

theorem readType_proceeds (idle : ∀ n : Nat, g.owner n ≠ some t)
    (asserts : (Pc.readType parent node version).Asserts c key g m t call) :
    Proceeds c key g m t call (resume c blank key m call (.readType parent node version)) := by
  obtain ⟨seen, aimed⟩ := asserts
  rw [resume]
  split
  · refine read_proceeds shape idle ?_
    split
    · rename_i ins
      exact ⟨ins, seen, aimed⟩
    · rename_i reads
      exact descend_asserts seen aimed fun ins => absurd ins reads
  · refine read_proceeds shape idle ?_
    split
    · rename_i ins
      exact ⟨ins, seen, aimed⟩
    · exact ⟨seen, aimed⟩

theorem innerFull_proceeds (idle : ∀ n : Nat, g.owner n ≠ some t)
    (asserts : (Pc.innerFull parent node version).Asserts c key g m t call) :
    Proceeds c key g m t call (resume c blank key m call (.innerFull parent node version)) := by
  obtain ⟨ins, seen, aimed⟩ := asserts
  rw [resume]
  split
  · rename_i n is
    refine read_proceeds shape idle ?_
    split
    · rename_i full
      exact afterFull_asserts ins seen aimed (by rw [Full, is]; exact full)
    · rename_i notFull
      have bounded := (shape.inner seen.lt is).bounded
      exact descend_asserts seen aimed fun _ _ => ⟨n, is, Nat.lt_of_le_of_ne bounded notFull⟩
  · rintro m' outcome ⟨⟩

theorem readRootVersion_proceeds (idle : ∀ n : Nat, g.owner n ≠ some t)
    (asserts : (Pc.readRootVersion node).Asserts c key g m t call) :
    Proceeds c key g m t call (resume c blank key m call (.readRootVersion node)) := by
  rw [resume]
  refine read_proceeds shape idle ?_
  split
  · trivial
  · rename_i free
    exact Seen.current asserts (notLocked_of_read free)

theorem checkRoot_proceeds (idle : ∀ n : Nat, g.owner n ≠ some t)
    (asserts : (Pc.checkRoot node version).Asserts c key g m t call) :
    Proceeds c key g m t call (resume c blank key m call (.checkRoot node version)) := by
  rw [resume]
  refine read_proceeds shape idle ?_
  split
  · trivial
  · rename_i same
    have isRoot : node = m.root := not_not.mp same
    have seen : Seen m node version := asserts
    refine ⟨seen, fun current => ?_⟩
    rw [shape.whole seen current, isRoot, shape.top]
    exact Set.mem_univ _

theorem checkParent_proceeds {p versionParent : Nat} (idle : ∀ n : Nat, g.owner n ≠ some t)
    (asserts : (Pc.checkParent p versionParent node version).Asserts c key g m t call) :
    Proceeds c key g m t call
      (resume c blank key m call (.checkParent p versionParent node version)) := by
  obtain ⟨seen, ⟨_, points⟩, room⟩ := asserts
  rw [resume]
  refine read_proceeds shape idle ?_
  split
  · trivial
  · rename_i same
    refine ⟨seen, fun current => ?_, room⟩
    rw [shape.whole seen current]
    exact (points (not_not.mp same).symm).2.1

-- The child chosen by lowerBound is the one that the key is sent to.
theorem findChild_proceeds (idle : ∀ n : Nat, g.owner n ≠ some t)
    (asserts : (Pc.findChild node version).Asserts c key g m t call) :
    Proceeds c key g m t call (resume c blank key m call (.findChild node version)) := by
  obtain ⟨seen, mine, room⟩ := asserts
  rw [resume]
  split
  · rename_i n is
    refine read_proceeds shape idle ⟨seen, fun current => ?_⟩
    have ok := shape.inner seen.lt is
    have here := mine current
    obtain ⟨le, routes⟩ := BTreeInner.lowerBound_routes ok.sorted fun none => ok.empty none _ here
    refine ⟨⟨n, is, _, le, rfl⟩, ?_, fun ins => room ins current⟩
    rw [ok.sends _ le]
    exact ⟨here, routes⟩
  · rintro m' outcome ⟨⟩

theorem checkInner_proceeds {child : Nat} (idle : ∀ n : Nat, g.owner n ≠ some t)
    (asserts : (Pc.checkInner node version child).Asserts c key g m t call) :
    Proceeds c key g m t call (resume c blank key m call (.checkInner node version child)) := by
  have aimed : Aimed c g m call.inserts (call.key key) (some (node, version)) child 0 := asserts
  rw [resume]
  refine read_proceeds shape idle ?_
  split
  · trivial
  · rename_i same
    obtain ⟨seen, points⟩ := aimed
    exact ⟨shape.child_lt seen.lt (points (not_not.mp same).symm).1, seen, points⟩

theorem readVersion_proceeds {p versionParent : Nat} (idle : ∀ n : Nat, g.owner n ≠ some t)
    (asserts : (Pc.readVersion p versionParent node).Asserts c key g m t call) :
    Proceeds c key g m t call (resume c blank key m call (.readVersion p versionParent node)) := by
  obtain ⟨lt, aimed⟩ := asserts
  rw [resume]
  refine read_proceeds shape idle ?_
  split
  · trivial
  · rename_i free
    exact ⟨Seen.current lt (notLocked_of_read free), aimed.of_some⟩

theorem leafFull_proceeds (idle : ∀ n : Nat, g.owner n ≠ some t)
    (asserts : (Pc.leafFull parent node version).Asserts c key g m t call) :
    Proceeds c key g m t call (resume c blank key m call (.leafFull parent node version)) := by
  obtain ⟨ins, seen, aimed⟩ := asserts
  rw [resume]
  split
  · rename_i entries is
    refine read_proceeds shape idle ?_
    split
    · exact afterFull_asserts ins seen aimed (by rw [Full, is]; trivial)
    · rename_i notFull
      have bounded := (shape.leaf seen.lt is).bounded
      exact ⟨ins, seen, aimed, fun _ => ⟨entries, is, Nat.lt_of_le_of_ne bounded notFull⟩⟩
  · rintro m' outcome ⟨⟩

theorem recheckRoot_proceeds (holds : ∀ n : Nat, g.owner n = some t → n ∈ [node])
    (asserts : (Pc.recheckRoot node).Asserts c key g m t call) :
    Proceeds c key g m t call (resume c blank key m call (.recheckRoot node)) := by
  obtain ⟨held, full⟩ := asserts
  rw [resume]
  split
  · exact .stay shape holds held
  · rename_i same
    exact .stay shape holds ⟨held, full, not_not.mp same⟩

theorem validateParent_proceeds {p versionParent : Nat}
    (holds : ∀ n : Nat, g.owner n = some t → n ∈ [node])
    (asserts : (Pc.validateParent p versionParent node).Asserts c key g m t call) :
    Proceeds c key g m t call
      (resume c blank key m call (.validateParent p versionParent node)) := by
  obtain ⟨held, ⟨_, points⟩, room⟩ := asserts
  rw [resume]
  split
  · exact .stay shape holds held
  · rename_i same
    refine .stay shape holds ⟨held, ?_, room⟩
    rw [held.whole]
    exact (points (not_not.mp same).symm).2.1

theorem search_proceeds (idle : ∀ n : Nat, g.owner n ≠ some t)
    (asserts : (Pc.search parent node version).Asserts c key g m t call) :
    Proceeds c key g m t call (resume c blank key m call (.search parent node version)) := by
  have seen := asserts.1
  have done : ∀ {call : Call K P}, call.inserts = false → ∀ answer : Answer P,
      (Outcome.done answer).Asserts c key g m t call := fun reads _ =>
    ⟨idle, fun ins => absurd (ins.symm.trans reads) Bool.false_ne_true.symm⟩
  intro m' outcome next
  cases call with
  | insert a => cases is : m.node node <;> simp [resume, is] at next
  | lookup k =>
    cases is : m.node node with
    | inner n => simp [resume, is] at next
    | leaf entries =>
      simp only [resume, is, Option.some.injEq, Prod.mk.injEq] at next
      obtain ⟨rfl, rfl⟩ := next
      exact ⟨g, .refl shape, done rfl _⟩
  | upsert k v =>
    cases is : m.node node with
    | inner n => simp [resume, is] at next
    | leaf entries =>
      simp only [resume, is, Option.some.injEq, Prod.mk.injEq] at next
      obtain ⟨rfl, rfl⟩ := next
      refine ⟨g, .refl shape, ?_⟩
      cases found : BTreeLeaf.search key entries k with
      | none => exact done rfl _
      | some slot =>
        obtain ⟨a, at_, eq⟩ := BTreeLeaf.search_hit found
        exact ⟨fun n mine => absurd mine (idle n), seen, fun _ => ⟨entries, a, is, at_, eq⟩⟩

end Steps

end ElasticIndex.Olc
