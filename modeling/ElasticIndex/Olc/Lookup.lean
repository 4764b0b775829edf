import ElasticIndex.Olc.Run

set_option autoImplicit false

namespace ElasticIndex.Olc

open Interleaving Runs

variable {T K P : Type} [LinearOrder K] {c : Config} {blank : BTreeInner K}
  {key : P → K} {g : View T K} {m : Memory K P} {node : Nat} {k : K}

-- The versions recorded on the way to a leaf are still those in memory.
def Current (m : Memory K P) (parent : Option (Nat × Nat)) (node versionNode : Nat) : Prop :=
  m.version node = versionNode ∧ ∀ p versionParent, parent = some (p, versionParent) →
    m.version p = versionParent

-- The next step is careful, and a lookup searches a leaf that is still the right one.
def Sound (key : P → K) (s : Shared K P) : Local K P → Move K P → Prop
  | .busy call _ pc, _ => Careful key s.memory call pc ∧
      ∀ k parent node versionNode, call = .lookup k → pc = .search parent node versionNode →
        Current s.memory parent node versionNode
  | .idle, _ => True

omit [LinearOrder K] in
theorem Sound.careful {s : Shared K P} {l : Local K P} {move : Move K P}
    (sound : Sound key s l move) :
    l.Careful key s := by
  cases l with
  | idle => trivial
  | busy call known pc => exact sound.1

def Memory.Has (m : Memory K P) (key : P → K) (k : K) (p : P) : Prop :=
  ∃ node entries, node < m.allocated ∧ m.node node = .leaf entries ∧ p ∈ entries ∧ key p = k

/-- The pointer of one key is another one now, and no other key's pointer has changed. -/
structure Replaced (key : P → K) (m m' : Memory K P) (k : K) (v : P) : Prop where
  old : ∃ p, m.Has key k p
  new : ∀ p, m'.Has key k p ↔ p = v
  others : ∀ k' p, k' ≠ k → (m'.Has key k' p ↔ m.Has key k' p)

-- A leaf that is still the right one answers for the key.
theorem Current.mine (shape : Shape c key g m) {inserts : Bool} {parent : Option (Nat × Nat)}
    {versionNode : Nat} (current : Current m parent node versionNode)
    (seen : Seen m node versionNode) (aimed : Aimed c g m inserts k parent node versionNode) :
    k ∈ g.span node := by
  cases parent with
  | none => exact aimed current.1
  | some pair =>
    rw [shape.whole seen current.1]
    exact (aimed.2 (current.2 _ _ rfl)).2.1

theorem getElem?_search_isSome {entries : List P} (has : ∃ a ∈ entries, key a = k) :
    ((BTreeLeaf.search key entries k).bind fun slot => entries[slot]?).isSome := by
  obtain ⟨slot, found⟩ := Option.isSome_iff_exists.mp (BTreeLeaf.search_isSome.mpr has)
  obtain ⟨a, at_, _⟩ := BTreeLeaf.search_hit found
  rw [found, Option.bind_some, at_]
  rfl

theorem BTreeLeaf.Sorted.slot_unique {entries : List P} {i j : Nat} {a b : P}
    (sorted : BTreeLeaf.Sorted key entries) (at_ : entries[i]? = some a)
    (at' : entries[j]? = some b) (same : key a = key b) : i = j := by
  obtain ⟨hi, rfl⟩ := List.getElem?_eq_some_iff.mp at_
  obtain ⟨hj, rfl⟩ := List.getElem?_eq_some_iff.mp at'
  have rises := List.pairwise_iff_getElem.mp sorted
  rcases Nat.lt_trichotomy i j with less | eq | more
  · exact absurd same (ne_of_lt (rises i j hi hj less))
  · exact eq
  · exact absurd same.symm (ne_of_lt (rises j i hj hi more))

-- Storing a pointer over the entry of its key.
theorem store_replaced (shape : Shape c key g m) (lt : node < m.allocated) {entries : List P}
    {slot : Nat} {a v : P} (is : m.node node = .leaf entries) (at_ : entries[slot]? = some a)
    (keyA : key a = k) (keyV : key v = k) :
    Replaced key m (m.write node (.leaf (entries.set slot v))) k v := by
  obtain ⟨bound, ha⟩ := List.getElem?_eq_some_iff.mp at_
  have member : a ∈ entries := ha ▸ List.getElem_mem bound
  have written : (m.write node (.leaf (entries.set slot v))).node node =
      .leaf (entries.set slot v) := by
    simp [Memory.write]
  have kept : ∀ {n : Nat}, n ≠ node → (m.write node (.leaf (entries.set slot v))).node n =
      m.node n := fun ne => by
    simp [Memory.write, Function.update_of_ne ne]
  have sorted := (shape.leaf lt is).sorted
  have old : m.Has key k a := ⟨node, entries, lt, is, member, keyA⟩
  -- an entry beside the slot is an old one with another key
  have beside : ∀ {p : P}, p ∈ entries.set slot v → p = v ∨ p ∈ entries ∧ key p ≠ k := fun hp => by
    obtain ⟨j, hj, rfl⟩ := List.mem_iff_getElem.mp hp
    by_cases here : slot = j
    · subst here
      exact .inl (List.getElem_set_self hj)
    · rw [List.getElem_set_of_ne here]
      rw [List.length_set] at hj
      exact .inr ⟨List.getElem_mem hj,
        fun same => here (sorted.slot_unique at_ (List.getElem?_eq_getElem hj)
        (keyA.trans same.symm))⟩
  refine ⟨⟨a, old⟩, fun p => ⟨?_, ?_⟩, fun k' p ne => ⟨?_, ?_⟩⟩
  · rintro ⟨n, es, ln, hes, hp, keyP⟩
    by_cases here : n = node
    · subst here
      rw [written, Node.leaf.injEq] at hes
      subst hes
      exact (beside hp).resolve_right fun other => other.2 keyP
    · rw [kept here] at hes
      exact absurd (shape.stores_unique ln lt ⟨es, hes, p, hp, keyP⟩ ⟨entries, is, a, member, keyA⟩)
        here
  · rintro rfl
    exact ⟨node, _, lt, written, List.mem_set bound p, keyV⟩
  · rintro ⟨n, es, ln, hes, hp, keyP⟩
    by_cases here : n = node
    · subst here
      rw [written, Node.leaf.injEq] at hes
      subst hes
      rcases beside hp with rfl | ⟨inside, _⟩
      · exact absurd (keyP.symm.trans keyV) ne
      · exact ⟨n, entries, ln, is, inside, keyP⟩
    · rw [kept here] at hes
      exact ⟨n, es, ln, hes, hp, keyP⟩
  · rintro ⟨n, es, ln, hes, hp, keyP⟩
    by_cases here : n = node
    · subst here
      rw [is, Node.leaf.injEq] at hes
      subst hes
      obtain ⟨j, hj, rfl⟩ := List.mem_iff_getElem.mp hp
      have other : slot ≠ j := by
        rintro rfl
        exact ne (keyP.symm.trans (ha ▸ keyA))
      refine ⟨n, _, ln, written, ?_, keyP⟩
      have still : (entries.set slot v)[j]? = some entries[j] := by
        rw [List.getElem?_set_ne other, List.getElem?_eq_getElem hj]
      exact List.mem_of_getElem? still
    · exact ⟨n, es, ln, (kept here).trans hes, hp, keyP⟩

-- The steps at which a lookup and a successful upsert end.
theorem resume_lookedUp {k : K} {pc : Pc K} {m' : Memory K P} {result : Option P}
    (next : resume c blank key m (.lookup k) pc = some (m', .done (.lookedUp result))) :
    ∃ parent node versionNode entries, pc = .search parent node versionNode ∧
    m.node node = .leaf entries ∧
      result = (BTreeLeaf.search key entries k).bind fun slot => entries[slot]? := by
  cases pc with
  | search parent node versionNode =>
    cases is : m.node node with
    | inner n => simp [resume, is] at next
    | leaf entries =>
      simp only [resume, is, Option.some.injEq, Prod.mk.injEq, Outcome.done.injEq,
        Answer.lookedUp.injEq] at next
      exact ⟨parent, node, versionNode, entries, rfl, is, next.2.symm⟩
  | readType parent node versionNode => cases is : m.node node <;> simp [resume, is] at next
  | innerFull parent node versionNode => cases is : m.node node <;> simp [resume, is] at next
  | findChild node versionNode => cases is : m.node node <;> simp [resume, is] at next
  | leafFull parent node versionNode => cases is : m.node node <;> simp [resume, is] at next
  | split parent node => cases is : m.node node <;> simp [resume, is] at next
  | insertLeaf node => cases is : m.node node <;> simp [resume, is] at next
  | store parent node versionNode slot => cases is : m.node node <;> simp [resume, is] at next
  | insertSep parent node sep new =>
    cases parent with
    | none => simp [resume] at next
    | some p => cases is : m.node p <;> simp [resume, is] at next
  | lockParent p versionParent node versionNode =>
    simp only [resume] at next; split at next <;> cases next
  | lockNode parent node versionNode => simp only [resume] at next; split at next <;> cases next
  | lockLeaf parent node versionNode => simp only [resume] at next; split at next <;> cases next
  | _ => cases next

theorem resume_upserted {k : K} {v : P} {pc : Pc K} {m' : Memory K P}
    (next : resume c blank key m (.upsert k v) pc = some (m', .done (.upserted true))) :
    ∃ parent node versionNode slot entries, pc = .store parent node versionNode slot ∧
    m.node node = .leaf entries ∧
      m' = m.write node (.leaf (entries.set slot v)) := by
  cases pc with
  | store parent node versionNode slot =>
    cases is : m.node node with
    | inner n => simp [resume, is] at next
    | leaf entries =>
      simp only [resume, is, Option.some.injEq, Prod.mk.injEq, and_true] at next
      exact ⟨parent, node, versionNode, slot, entries, rfl, is, next.symm⟩
  | search parent node versionNode =>
    cases is : m.node node with
    | inner n => simp [resume, is] at next
    | leaf entries =>
      simp only [resume, is, Option.some.injEq, Prod.mk.injEq] at next
      cases found : BTreeLeaf.search key entries k <;> simp [found] at next
  | readType parent node versionNode => cases is : m.node node <;> simp [resume, is] at next
  | innerFull parent node versionNode => cases is : m.node node <;> simp [resume, is] at next
  | findChild node versionNode => cases is : m.node node <;> simp [resume, is] at next
  | leafFull parent node versionNode => cases is : m.node node <;> simp [resume, is] at next
  | split parent node => cases is : m.node node <;> simp [resume, is] at next
  | insertLeaf node => cases is : m.node node <;> simp [resume, is] at next
  | insertSep parent node sep new =>
    cases parent with
    | none => simp [resume] at next
    | some p => cases is : m.node p <;> simp [resume, is] at next
  | lockParent p versionParent node versionNode =>
    simp only [resume] at next; split at next <;> cases next
  | lockNode parent node versionNode => simp only [resume] at next; split at next <;> cases next
  | lockLeaf parent node versionNode => simp only [resume] at next; split at next <;> cases next
  | _ => cases next

section Runs

variable [DecidableEq T] {s : Machine T K P} {t : T}

-- What was known to have returned when a call began has returned.
theorem known_returned {allowed : Shared K P → Local K P → Move K P → Prop}
    {call : Call K P} {pc : Pc K}
    (run : Reachable Machine.Start (Step (Acts c blank key allowed)) s)
    (stands : s.locals t = .busy call true pc) : call.key key ∈ s.shared.returned := by
  refine run.invariant (I := fun s => ∀ t call pc, s.locals t = .busy call true pc →
    call.key key ∈ s.shared.returned)
    (fun s start t call pc busy => ?_) (fun s s' now next u call pc busy => ?_) t call pc stands
  · rw [start.2 t] at busy
    cases busy
  · cases next with
    | run acts =>
      rename_i v shared l
      obtain ⟨move, answer, _, performs⟩ := acts
      have grows := perform_returned performs
      by_cases here : u = v
      · subst here
        simp only [Function.update_self] at busy
        subst busy
        rcases perform_cases performs
          with ⟨call', _, _, rfl, same, _⟩ | ⟨call', known, pc', m, stands, next⟩
        · injection same with calls known
          subst calls
          exact of_decide_eq_true known.symm
        · rcases next with ⟨pc'', _, _, same, _⟩ | ⟨a, _, _, same, _⟩
          · cases same
            exact grows (now u _ _ stands)
          · cases same
      · simp only [Function.update_of_ne here] at busy
        exact grows (now u call pc busy)

-- In a run of sound steps a lookup finds what was inserted before it began, and an upsert replaces
-- one pointer.
theorem lookups_and_upserts (slots : 3 ≤ c.innerSlots ∧ c.innerSlots ≤ 65536)
    (run : Reachable Machine.Start (Step (Acts c blank key (Sound key))) s) {move : Move K P}
    (sound : Sound key s.shared (s.locals t) move) {s' : Shared K P} {l' : Local K P}
    {answer : Answer P} (next : perform c blank key s.shared (s.locals t) move =
      some (s', l', some answer)) :
    (∀ k pc result, s.locals t = .busy (.lookup k) true pc → answer =
      .lookedUp result → result.isSome) ∧
    ∀ k v known pc, s.locals t = .busy (.upsert k v) known pc → answer = .upserted true →
      Replaced key s.shared.memory s'.memory k v := by
  obtain ⟨g, ⟨shape, stored⟩, threads⟩ := run_outline slots (fun _ _ _ sound => sound.careful) run
  have asserts := threads t
  -- an answer comes with the last step of the call
  have ends : ∀ {call : Call K P} {known : Bool} {pc : Pc K}, s.locals t = .busy call known pc →
      resume c blank key s.shared.memory call pc =
      some (s'.memory, .done answer) := fun stands => by
    rcases perform_cases next with ⟨_, _, _, _, _, no⟩ | ⟨call', known', pc', m, stands', next⟩
    · cases no
    · cases stands.symm.trans stands'
      rcases next with ⟨_, _, _, _, no⟩ | ⟨a, resumed, rfl, _, same⟩
      · cases no
      · cases same
        exact resumed
  constructor
  · rintro k pc result stands rfl
    obtain ⟨parent, node, versionNode, entries, rfl, is, rfl⟩ := resume_lookedUp (ends stands)
    have returned := known_returned run stands
    rw [stands] at sound asserts
    obtain ⟨seen, aimed⟩ := asserts.2
    have mine := (sound.2 k parent node versionNode rfl rfl).mine shape seen aimed
    exact getElem?_search_isSome (stored _ returned node seen.lt entries is mine)
  · rintro k v known pc stands rfl
    obtain ⟨parent, node, versionNode, slot, entries, rfl, is, written⟩ :=
      resume_upserted (ends stands)
    rw [stands] at sound asserts
    obtain ⟨seen, points⟩ := asserts.2
    obtain ⟨current, keyV⟩ := sound.1 k v rfl
    obtain ⟨entries', a, is', at_, keyA⟩ := points current
    rw [is, Node.leaf.injEq] at is'
    rw [written]
    exact store_replaced shape seen.lt is (is' ▸ at_) keyA keyV

end Runs

def checkSound (key : Nat → Nat) (s : Shared Nat Nat) : Local Nat Nat → Move Nat Nat → Bool
  | .busy call _ (.insertLeaf node), _ =>
    match s.memory.node node with
    | .leaf entries => entries.all fun b => key b != call.key key
    | .inner _ => true
  | .busy (.upsert k v) _ (.store _ node versionNode _), _ =>
    s.memory.version node == versionNode && key v == k
  | .busy (.lookup _) _ (.search parent node versionNode), _ =>
    s.memory.version node == versionNode &&
      parent.all fun pair => s.memory.version pair.1 == pair.2
  | _, _ => true

theorem checkSound_sound (key : Nat → Nat) (s : Shared Nat Nat) (l : Local Nat Nat)
    (move : Move Nat Nat) (checked : checkSound key s l move = true) : Sound key s l move := by
  cases l with
  | idle => trivial
  | busy call known pc =>
    cases pc with
    | insertLeaf node =>
      refine ⟨fun entries is b hb same => ?_, fun _ _ _ _ _ no => by cases no⟩
      simp only [checkSound, is, List.all_eq_true, bne_iff_ne, ne_eq] at checked
      exact checked b hb same
    | store parent node versionNode slot =>
      refine ⟨?_, fun _ _ _ _ _ no => by cases no⟩
      rintro k v rfl
      simp only [checkSound, Bool.and_eq_true, beq_iff_eq] at checked
      exact checked
    | search parent node versionNode =>
      refine ⟨trivial, ?_⟩
      rintro k parent' node' versionNode' rfl same
      cases same
      simp only [checkSound, Bool.and_eq_true, beq_iff_eq] at checked
      refine ⟨checked.1, ?_⟩
      rintro p versionParent rfl
      exact beq_iff_eq.mp checked.2
    | _ => exact ⟨trivial, fun _ _ _ _ _ no => by cases no⟩

-- The key of the lookup and the key and pointer of the upsert a thread is in, with what was known
-- of the key.
def Local.looks : Local Nat Nat → Option (Nat × Bool)
  | .busy (.lookup k) known _ => some (k, known)
  | _ => none

def Local.upserts : Local Nat Nat → Option (Nat × Nat)
  | .busy (.upsert k v) _ _ => some (k, v)
  | _ => none

-- What the next step of a thread would answer.
def Machine.lookedUp (key : Nat → Nat) (s : Machine Bool Nat Nat) (t : Bool) :
    Option (Option Nat) :=
  match perform sampleConfig sampleBlank key s.shared (s.locals t) .resume with
  | some (_, _, some (.lookedUp result)) => some result
  | _ => none

def Machine.upserted (key : Nat → Nat) (s : Machine Bool Nat Nat) (t : Bool) : Option Bool :=
  match perform sampleConfig sampleBlank key s.shared (s.locals t) .resume with
  | some (_, _, some (.upserted hit)) => some hit
  | _ => none

theorem Local.busy_of_looks {l : Local Nat Nat} {k : Nat} {known : Bool}
    (looks : l.looks = some (k, known)) :
    ∃ pc, l = .busy (.lookup k) known pc := by
  unfold Local.looks at looks
  split at looks
  · cases looks
    exact ⟨_, rfl⟩
  · cases looks

theorem Local.busy_of_upserts {l : Local Nat Nat} {k v : Nat} (upserts : l.upserts = some (k, v)) :
    ∃ known pc, l = .busy (.upsert k v) known pc := by
  unfold Local.upserts at upserts
  split at upserts
  · cases upserts
    exact ⟨_, _, rfl⟩
  · cases upserts

theorem Machine.perform_of_lookedUp {key : Nat → Nat} {s : Machine Bool Nat Nat} {t : Bool}
    {result : Option Nat} (answers : s.lookedUp key t = some result) : ∃ s' l',
      perform sampleConfig sampleBlank key s.shared (s.locals t) .resume = some
        (s', l', some (.lookedUp result)) := by
  unfold lookedUp at answers
  split at answers
  · rename_i s' l' result' performs
    cases answers
    exact ⟨s', l', performs⟩
  · cases answers

theorem Machine.perform_of_upserted {key : Nat → Nat} {s : Machine Bool Nat Nat} {t hit : Bool}
    (answers : s.upserted key t = some hit) : ∃ s' l',
      perform sampleConfig sampleBlank key s.shared (s.locals t) .resume = some
        (s', l', some (.upserted hit)) := by
  unfold upserted at answers
  split at answers
  · rename_i s' l' hit' performs
    cases answers
    exact ⟨s', l', performs⟩
  · cases answers

-- Several pointers have the same key.
def lastDigit (p : Nat) : Nat := p % 10

-- The keys 1, 2 and 3 come to stand in two leaves below a root; then the other thread makes a call,
-- and while it is on its way the first one brings in 4, up to the locked leaf.
def overlapping (call : Call Nat Nat) (steps : Nat) : List (Bool × Move Nat Nat) :=
  (false, .begin (.insert 2)) :: List.replicate 8 (false, .resume) ++
    (false, .begin (.insert 3)) :: List.replicate 8 (false, .resume) ++
    (false, .begin (.insert 1)) :: List.replicate 24 (false, .resume) ++
    (true, .begin call) :: List.replicate 4 (true, .resume) ++
    (false, .begin (.insert 4)) :: List.replicate 12 (false, .resume) ++
    List.replicate steps (true, .resume)

abbrev overlap (call : Call Nat Nat) (steps : Nat) : Option (Machine Bool Nat Nat) :=
  play sampleConfig sampleBlank lastDigit (checkSound lastDigit)
    (overlapping call steps) Machine.first

-- The key 1 is looked up, and the pointer of the key 2 becomes 12.
theorem lookups_and_upserts_sample :
    (∃ (s : Machine Bool Nat Nat) (pc : Pc Nat) (result : Option Nat),
      overlap (.lookup 1) 4 = some s ∧
      s.locals true = .busy (.lookup 1) true pc ∧ s.lookedUp lastDigit true =
        some result ∧ result.isSome) ∧
    ∃ (s : Machine Bool Nat Nat) (s' : Shared Nat Nat) (l' : Local Nat Nat), overlap
      (.upsert 2 12) 5 = some s ∧
      perform sampleConfig sampleBlank lastDigit s.shared (s.locals true) .resume = some
        (s', l', some (.upserted true)) ∧
      Replaced lastDigit s.shared.memory s'.memory 2 12 := by
  constructor
  · have ends : ((overlap (.lookup 1) 4).map fun s =>
      (checkSound lastDigit s.shared (s.locals true) .resume,
        (s.locals true).looks, s.lookedUp lastDigit true)) =
        some (true, some (1, true), some (some 1)) := by decide
    obtain ⟨s, plays, seen⟩ := Option.map_eq_some_iff.mp ends
    simp only [Prod.mk.injEq] at seen
    obtain ⟨sound, looks, answers⟩ := seen
    obtain ⟨pc, stands⟩ := Local.busy_of_looks looks
    obtain ⟨s', l', performs⟩ := Machine.perform_of_lookedUp answers
    have run := play_reachable (checkSound_sound lastDigit) (.start Machine.first_start) plays
    exact ⟨s, pc, some 1, plays, stands, answers,
      (lookups_and_upserts (c := sampleConfig) (by decide) run
      (checkSound_sound lastDigit _ _ _ sound) performs).1 1 pc (some 1) stands rfl⟩
  · have ends : ((overlap (.upsert 2 12) 5).map fun s =>
      (checkSound lastDigit s.shared (s.locals true) .resume,
        (s.locals true).upserts, s.upserted lastDigit true)) =
        some (true, some (2, 12), some true) := by decide
    obtain ⟨s, plays, seen⟩ := Option.map_eq_some_iff.mp ends
    simp only [Prod.mk.injEq] at seen
    obtain ⟨sound, upserts, answers⟩ := seen
    obtain ⟨known, pc, stands⟩ := Local.busy_of_upserts upserts
    obtain ⟨s', l', performs⟩ := Machine.perform_of_upserted answers
    have run := play_reachable (checkSound_sound lastDigit) (.start Machine.first_start) plays
    exact ⟨s, s', l', plays, performs, (lookups_and_upserts (c := sampleConfig) (by decide) run
      (checkSound_sound lastDigit _ _ _ sound) performs).2 2 12 known pc stands rfl⟩

-- A lookup that has reached the root leaf misses a key that a split moves away before the leaf is
-- searched.
theorem lookup_misses : ∃ s : Machine Bool Nat Nat,
    Reachable Machine.Start (Step (Acts sampleConfig sampleBlank id fun _ _ _ => True)) s ∧
    ∃ pc s' l', s.locals true = .busy (.lookup 2) true pc ∧
      perform sampleConfig sampleBlank id s.shared (s.locals true) .resume = some
        (s', l', some (.lookedUp none)) := by
  have ends : ((play sampleConfig sampleBlank id (fun _ _ _ => true)
      ((false, .begin (.insert 1)) :: List.replicate 8 (false, .resume) ++
      (false, .begin (.insert 2)) ::
        List.replicate 8 (false, .resume) ++ (true, .begin (.lookup 2)) ::
        List.replicate 4 (true, .resume) ++
        (false, .begin (.insert 3)) :: List.replicate 8 (false, .resume))
        (Machine.first : Machine Bool Nat Nat)).map
        fun s => ((s.locals true).looks, s.lookedUp id true)) =
        some (some (2, true), some none) := by decide
  obtain ⟨s, plays, seen⟩ := Option.map_eq_some_iff.mp ends
  simp only [Prod.mk.injEq] at seen
  obtain ⟨looks, answers⟩ := seen
  obtain ⟨pc, stands⟩ := Local.busy_of_looks looks
  obtain ⟨s', l', performs⟩ := Machine.perform_of_lookedUp answers
  exact ⟨s, play_reachable (fun _ _ _ _ => trivial) (.start Machine.first_start) plays, pc, s',
    l', stands, performs⟩

end ElasticIndex.Olc
