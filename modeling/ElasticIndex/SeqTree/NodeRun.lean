import ElasticIndex.Shared.Runs
import ElasticIndex.SeqTree.RemoveCorrect

set_option autoImplicit false

namespace ElasticIndex.SeqTree

open Runs SequenceEdit BitOrder BlindSequence CartesianTree CartesianTree.PosTree SlotTree

variable {c : Params} {mem : Addr → Bytes c.keyLen} {node : SeqTreeBlindiNode}

/-- A node under a sequence of calls, and the pointers that these calls have left stored: an
insertion of an absent key stores it as long as a slot is left, whatever the node answers. -/
structure Session where
  node : SeqTreeBlindiNode
  stored : List Addr

def Session.insert (mem : Addr → Bytes c.keyLen) (s : Session) (key : Addr) : Session :=
  { node := (insert2BlindiNodeWithKey mem s.node key).2
    stored :=
      if (∀ a ∈ s.stored, mem a ≠ mem key) ∧ s.stored.length < c.numSlots then key :: s.stored
      else s.stored }

def Session.remove (mem : Addr → Bytes c.keyLen) (s : Session) (key : Bytes c.keyLen) : Session :=
  { node := (removeFromBlindiNodeWithKey mem s.node key).2
    stored := s.stored.filter fun a => mem a ≠ key }

def Session.Fresh (s : Session) : Prop := s.node.validLen = 0 ∧ s.stored = []

inductive Session.Step (mem : Addr → Bytes c.keyLen) : Session → Session → Prop where
  | insert {s : Session} {key : Addr} : (∀ a ∈ s.stored, mem a ≠ mem key) →
      Step mem s (s.insert mem key)
  | remove {s : Session} {key : Bytes c.keyLen} : s.node.validLen ≠ 0 →
    Step mem s (s.remove mem key)

/-- The steps that do not remove the smaller of exactly two keys. -/
inductive Session.SafeStep (mem : Addr → Bytes c.keyLen) : Session → Session → Prop where
  | insert {s : Session} {key : Addr} : (∀ a ∈ s.stored, mem a ≠ mem key) →
      SafeStep mem s (s.insert mem key)
  | remove {s : Session} {key : Bytes c.keyLen} : s.node.validLen ≠ 0 →
      ¬ (s.node.validLen = 2 ∧ s.node.keys mem 0 = key) → SafeStep mem s (s.remove mem key)

/-- What the calls say about the stored keys. -/
structure Session.Answers (mem : Addr → Bytes c.keyLen) (s : Session) : Prop where
  hit : s.node.validLen ≠ 0 → ∀ x, (searchBlindiNode mem s.node x .point .zero).hit = true ↔
    ∃ a, a ∈ s.stored ∧ mem a = x
  pointer : s.node.validLen ≠ 0 → ∀ a, a ∈ s.stored →
    s.node.keyPtr (searchBlindiNode mem s.node (mem a) .point .zero).position = a
  success : ∀ key, (∀ a ∈ s.stored, mem a ≠ mem key) → s.stored.length < c.numSlots →
    (insert2BlindiNodeWithKey mem s.node key).1 = .success
  overflow : ∀ key, (∀ a ∈ s.stored, mem a ≠ mem key) →
    ((insert2BlindiNodeWithKey mem s.node key).1 = .overflow ↔ s.stored.length = c.numSlots)
  unchanged : ∀ key, (insert2BlindiNodeWithKey mem s.node key).1 = .overflow →
    (insert2BlindiNodeWithKey mem s.node key).2 = s.node

-- The node is empty, or well formed over the stored pointers.
def Session.Tracks (mem : Addr → Bytes c.keyLen) (s : Session) : Prop :=
  s.node.validLen = 0 ∧ s.stored = [] ∨
    WellFormed mem s.node ∧ s.stored.Perm (entries s.node.validLen s.node.keyPtr)

theorem insert_full (full : node.validLen = c.numSlots) (slots : c.numSlots < 65536) (key : Addr) :
    insert2BlindiNodeWithKey mem node key = (.overflow, node) := by
  rw [insert2BlindiNodeWithKey, Nat.mod_eq_of_lt slots, if_pos full]

theorem insert_overflow_unchanged (key : Addr)
    (refused : (insert2BlindiNodeWithKey mem node key).1 = .overflow) :
    (insert2BlindiNodeWithKey mem node key).2 = node := by
  unfold insert2BlindiNodeWithKey at refused ⊢
  dsimp only at refused ⊢
  split_ifs at refused ⊢
  rfl

theorem remove_miss (small : c.Representable) (levels : 1 ≤ c.treeLevels) (wf : WellFormed mem node)
    {key : Bytes c.keyLen} (missing : ∀ i, i < node.validLen → node.keys mem i ≠ key) :
    removeFromBlindiNodeWithKey mem node key = (.keyNotFound, node) := by
  have miss : (searchBlindiNode mem node key .point .zero).hit = false := by
    rw [Bool.eq_false_iff, ne_eq, searchBlindiNode_hit_iff small wf levels]
    rintro ⟨i, bound, same⟩
    exact missing i bound same
  rw [removeFromBlindiNodeWithKey]
  dsimp only
  rw [if_pos miss]

theorem remove_hit (small : c.Representable) (levels : 1 ≤ c.treeLevels)
    (wf : WellFormed mem node) {p : Nat} (bound : p < node.validLen) :
    (removeFromBlindiNodeWithKey mem node (node.keys mem p)).2 =
    (removeFromBlindiNodeInPosition c node p).2 := by
  obtain ⟨hit, position⟩ := searchBlindiNode_hit small wf levels .point .zero bound rfl
  rw [removeFromBlindiNodeWithKey]
  dsimp only
  rw [if_neg (by simp [hit]), position]
  split_ifs <;> rfl

variable {s s' : Session}

theorem stored_iff (perm : s.stored.Perm (entries s.node.validLen s.node.keyPtr))
    (x : Bytes c.keyLen) :
    (∃ a, a ∈ s.stored ∧ mem a = x) ↔ ∃ i, i < s.node.validLen ∧ s.node.keys mem i = x := by
  constructor
  · rintro ⟨a, inside, same⟩
    obtain ⟨i, bound, rfl⟩ := mem_entries.mp (perm.mem_iff.mp inside)
    exact ⟨i, bound, same⟩
  · rintro ⟨i, bound, same⟩
    exact ⟨s.node.keyPtr i, perm.mem_iff.mpr (mem_entries.mpr ⟨i, bound, rfl⟩), same⟩

theorem Session.Tracks.stored_le (tracks : s.Tracks mem) : s.stored.length ≤ c.numSlots := by
  rcases tracks with ⟨_, stored⟩ | ⟨wf, perm⟩
  · simp [stored]
  · rw [perm.length_eq, length_entries]
    exact wf.fits

theorem missing_of_absent (perm : s.stored.Perm (entries s.node.validLen s.node.keyPtr))
    {key : Addr} (new : ∀ a ∈ s.stored, mem a ≠ mem key) (i : Nat) (bound : i < s.node.validLen) :
    s.node.keys mem i ≠ mem key := by
  intro same
  obtain ⟨a, inside, eq⟩ := (stored_iff perm (mem key)).mpr ⟨i, bound, same⟩
  exact new a inside eq

-- An absent key goes into a node with a free slot, and the node holds it from then on.
theorem Session.Tracks.insert_stores (shallow : c.Shallow) (slots : c.numSlots < 65536)
    (tracks : s.Tracks mem) {key : Addr} (new : ∀ a ∈ s.stored, mem a ≠ mem key)
    (room : s.stored.length < c.numSlots) :
    (insert2BlindiNodeWithKey mem s.node key).1 = .success ∧
      Session.Tracks mem { node := (insert2BlindiNodeWithKey mem s.node key).2
                           stored := key :: s.stored } := by
  rcases tracks with ⟨empty, stored⟩ | ⟨wf, perm⟩
  · have first : insert2BlindiNodeWithKey mem s.node key =
        (.success, firstInsert c s.node key) := by
      rw [insert2BlindiNodeWithKey, Nat.mod_eq_of_lt slots, if_neg (by omega), if_neg (by omega)]
    rw [first]
    refine ⟨rfl, .inr ⟨firstInsert_wellFormed s.node key (by omega), ?_⟩⟩
    simp [stored, firstInsert, entries]
  · have length : s.stored.length = s.node.validLen := by rw [perm.length_eq, length_entries]
    have answer := insert2BlindiNodeWithKey_room shallow.representable shallow.positive wf
      (by rwa [Nat.mod_eq_of_lt slots, ← length]) (missing_of_absent perm new)
    obtain ⟨p, inside, keyPtr⟩ := answer.keyPtr
    refine ⟨answer.success, .inr ⟨answer.wellFormed, ?_⟩⟩
    dsimp only
    rw [answer.validLen, entries_congr fun i hi => keyPtr i (by omega), entries_insertAt inside]
    exact (perm.cons key).trans (List.perm_insertIdx key _ (by simpa using inside)).symm

theorem Session.Tracks.insert_refused (slots : c.numSlots < 65536) (some : 1 ≤ c.numSlots)
    (tracks : s.Tracks mem) (full : s.stored.length = c.numSlots) (key : Addr) :
    insert2BlindiNodeWithKey mem s.node key = (.overflow, s.node) := by
  rcases tracks with ⟨_, stored⟩ | ⟨_, perm⟩
  · rw [stored, List.length_nil] at full
    omega
  · rw [perm.length_eq, length_entries] at full
    exact insert_full full slots key

theorem Session.Tracks.answers (shallow : c.Shallow) (slots : c.numSlots < 65536)
    (some : 1 ≤ c.numSlots) (tracks : s.Tracks mem) : s.Answers mem := by
  have small := shallow.representable
  have levels := shallow.positive
  have search : s.node.validLen ≠ 0 →
      WellFormed mem s.node ∧ s.stored.Perm (entries s.node.validLen s.node.keyPtr) := by
    intro nonempty
    exact tracks.resolve_left fun none => nonempty none.1
  constructor
  case hit =>
    intro nonempty x
    obtain ⟨wf, perm⟩ := search nonempty
    rw [searchBlindiNode_hit_iff small wf levels, stored_iff perm]
  case pointer =>
    intro nonempty a inside
    obtain ⟨wf, perm⟩ := search nonempty
    obtain ⟨i, bound, rfl⟩ := mem_entries.mp (perm.mem_iff.mp inside)
    have position := (searchBlindiNode_hit small wf levels .point .zero bound rfl).2
    rw [SeqTreeBlindiNode.keys] at position
    rw [position]
  case success =>
    intro key new room
    exact (tracks.insert_stores shallow slots new room).1
  case overflow =>
    intro key new
    constructor
    · intro refused
      by_contra notFull
      have room : s.stored.length < c.numSlots := lt_of_le_of_ne tracks.stored_le notFull
      rw [(tracks.insert_stores shallow slots new room).1] at refused
      cases refused
    · intro full
      rw [tracks.insert_refused slots some full]
  case unchanged =>
    exact fun key => insert_overflow_unchanged key

theorem Session.Tracks.insert (shallow : c.Shallow) (slots : c.numSlots < 65536)
    (some : 1 ≤ c.numSlots) (tracks : s.Tracks mem) {key : Addr}
    (new : ∀ a ∈ s.stored, mem a ≠ mem key) : (s.insert mem key).Tracks mem := by
  by_cases room : s.stored.length < c.numSlots
  · rw [Session.insert, if_pos ⟨new, room⟩]
    exact (tracks.insert_stores shallow slots new room).2
  · have full : s.stored.length = c.numSlots := le_antisymm tracks.stored_le (by omega)
    rw [Session.insert, if_neg (fun stores => room stores.2), tracks.insert_refused slots some full]
    exact tracks

-- Removing the key of position p from the list of pointers leaves every other pointer.
theorem filter_entries
    (blind : Blind (keyBits c.keyLen) (node.keys mem) node.blindiKeys node.validLen) {p : Nat}
    (bound : p < node.validLen) :
    (entries node.validLen node.keyPtr).filter (fun a => mem a ≠ node.keys mem p) =
      (entries node.validLen node.keyPtr).eraseIdx p := by
  have distinct (i : Nat) (hi : i < node.validLen) (ne : i ≠ p) : mem (node.keyPtr i) ≠
      node.keys mem p :=
    fun same => ne (blind.injective hi bound same)
  rw [List.eraseIdx_eq_take_drop_succ]
  conv_lhs => rw [← List.take_append_drop p (entries node.validLen node.keyPtr)]
  rw [List.filter_append, List.drop_eq_getElem_cons (by simpa using bound),
    List.filter_cons_of_neg (by simp [SeqTreeBlindiNode.keys])]
  congr 1
  · refine List.filter_eq_self.mpr fun a inside => ?_
    obtain ⟨i, hi, rfl⟩ := List.mem_take_iff_getElem.mp inside
    simp only [length_entries] at hi
    simpa using distinct i (by omega) (by omega)
  · refine List.filter_eq_self.mpr fun a inside => ?_
    obtain ⟨i, hi, rfl⟩ := List.mem_drop_iff_getElem.mp inside
    simp only [length_entries] at hi
    simpa using distinct (p + 1 + i) (by omega) (by omega)

theorem Session.Tracks.remove (shallow : c.Shallow) (tracks : s.Tracks mem) {key : Bytes c.keyLen}
    (some : s.node.validLen ≠ 0) (second : ¬ (s.node.validLen = 2 ∧ s.node.keys mem 0 = key)) :
    (s.remove mem key).Tracks mem := by
  have small := shallow.representable
  have levels := shallow.positive
  rcases tracks with ⟨empty, _⟩ | ⟨wf, perm⟩
  · exact absurd empty some
  · by_cases present : ∃ p, p < s.node.validLen ∧ s.node.keys mem p = key
    · obtain ⟨p, bound, rfl⟩ := present
      have stored := (perm.filter fun a => mem a ≠ s.node.keys mem p).trans
        (.of_eq (filter_entries wf.blind bound))
      rw [Session.remove, remove_hit small levels wf bound]
      by_cases one : s.node.validLen = 1
      · have gone : removeFromBlindiNodeInPosition c s.node p =
            (.nodeEmpty, { s.node with validLen := 0 }) := by
          rw [removeFromBlindiNodeInPosition, if_pos (by omega), if_neg (by omega)]
        rw [gone]
        refine .inl ⟨rfl, ?_⟩
        have length := stored.length_eq
        rw [List.length_eraseIdx_of_lt (by simpa using bound), length_entries, one] at length
        exact List.length_eq_zero_iff.mp length
      · have second' : ¬ (s.node.validLen = 2 ∧ p = 0) := by
          rintro ⟨two, rfl⟩
          exact second ⟨two, rfl⟩
        obtain ⟨_, wellFormed, validLen, keyPtr⟩ :=
          removeFromBlindiNodeInPosition_spec shallow.levels wf
            (wf.narrow shallow) (by omega) bound second'
        refine .inr ⟨wellFormed, ?_⟩
        dsimp only
        rw [validLen, entries_congr keyPtr, entries_eraseAt bound]
        exact stored
    · have missing : ∀ i, i < s.node.validLen → s.node.keys mem i ≠ key :=
        fun i bound same => present ⟨i, bound, same⟩
      rw [Session.remove, remove_miss small levels wf missing]
      have kept : s.stored.filter (fun a => mem a ≠ key) = s.stored := by
        refine List.filter_eq_self.mpr fun a inside => ?_
        simp only [ne_eq, decide_not, Bool.not_eq_eq_eq_not, Bool.not_true, decide_eq_false_iff_not]
        intro same
        exact present ((stored_iff perm key).mp ⟨a, inside, same⟩)
      rw [kept]
      exact .inr ⟨wf, perm⟩

-- Every run whose removals are safe answers as the set of the stored keys.
theorem session_answers (shallow : c.Shallow) (slots : c.numSlots < 65536) (some : 6 ≤ c.numSlots)
    (mem : Addr → Bytes c.keyLen) (s : Session)
    (run : Reachable Session.Fresh (Session.SafeStep mem) s) :
    s.Answers mem := by
  have tracks : s.Tracks mem := by
    refine run.invariant (fun s fresh => .inl fresh) fun s s' tracks step => ?_
    cases step with
    | insert new => exact tracks.insert shallow slots (by omega) new
    | remove some second => exact tracks.remove shallow some second
  exact tracks.answers shallow slots (by omega)

def emptyNode : SeqTreeBlindiNode :=
  { validLen := 0, blindiTree := fun _ => 0, currentMaxSlot := 0, keyPtr := fun _ => 0,
    blindiKeys := fun _ => 0 }

def Session.empty : Session := { node := emptyNode, stored := [] }

def Session.insertAll (mem : Addr → Bytes c.keyLen) (s : Session) (keys : List Addr) : Session :=
  keys.foldl (Session.insert mem) s

theorem session_answers_sample :
    ((Session.insertAll (c := sampleParams) sampleKey .empty [4, 1, 2]).remove
      (c := sampleParams) sampleKey
      (sampleKey 2)).Answers (c := sampleParams) sampleKey :=
  session_answers (c := sampleParams) ⟨.inr rfl, by decide⟩ (by decide) (by decide) sampleKey _
    (((((Reachable.start ⟨rfl, rfl⟩).next (.insert (by decide))).next (.insert (by decide))).next
      (.insert (by decide))).next (.remove (by decide) (by decide)))

-- Removing the smaller of two keys leaves blindiTree behind, and the next insertion moves the stale
-- entry.
def staleSession : Session :=
  Session.insert (c := sampleParams) sampleKey
    (Session.remove (c := sampleParams) sampleKey
      (Session.remove (c := sampleParams) sampleKey
        (Session.insertAll (c := sampleParams) sampleKey .empty [1, 128, 192]) (sampleKey 1))
        (sampleKey 128)) 224

theorem staleSession_reachable :
    Reachable Session.Fresh (Session.Step (c := sampleParams) sampleKey) staleSession :=
  ((((((Reachable.start ⟨rfl, rfl⟩).next (.insert (by decide))).next (.insert (by decide))).next
    (.insert (by decide))).next (.remove (by decide))).next (.remove (by decide))).next
    (.insert (by decide))

theorem staleSession_miss :
    ∃ s, Reachable Session.Fresh (Session.Step (c := sampleParams) sampleKey) s ∧
      ¬ s.Answers (c := sampleParams) sampleKey := by
  refine ⟨staleSession, staleSession_reachable, fun answers => ?_⟩
  have hit := (answers.hit (by decide) (sampleKey 224)).mpr ⟨224, by decide, rfl⟩
  revert hit
  decide

end ElasticIndex.SeqTree
