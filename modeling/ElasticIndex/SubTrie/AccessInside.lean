import ElasticIndex.SubTrie.Access

set_option autoImplicit false

namespace ElasticIndex.SubTrie

open SequenceEdit BitOrder BlindSequence BlindTrie BlindTrie.Trie Loop

variable {c : Params} {mem : Addr → Bytes c.keyLen} {node nodeLarge : SubTrieBlindiNode}
  {x : Bytes c.keyLen} {bits counts : Nat → Nat} {total pos n rounds count d : Nat}
  {newLength i : Int} {access : Access}
  {rest tail : List Access}

section Lists

@[simp] theorem allInside_nil : AllInside c newLength [] :=
  fun _ inside => absurd inside List.not_mem_nil

@[simp] theorem allInside_cons : AllInside c newLength (access :: rest) ↔
    access.Inside c newLength ∧ AllInside c newLength rest := List.forall_mem_cons

@[simp] theorem allInside_append : AllInside c newLength (rest ++ tail) ↔
    AllInside c newLength rest ∧ AllInside c newLength tail := List.forall_mem_append

@[simp] theorem allInside_range {f : Nat → List Access} :
    AllInside c newLength ((List.range count).flatMap f) ↔
    ∀ k, k < count → AllInside c newLength (f k) := by
  simp only [AllInside, List.mem_flatMap, List.mem_range, forall_exists_index, and_imp]
  exact ⟨fun all k lt access here => all access k lt here,
    fun all access k lt here => all k lt access here⟩

@[simp] theorem allInside_entry : AllInside c newLength (entryAccesses i) ↔ 0 ≤ i ∧
    i < (c.numSlots : Int) - 1 := by
  simp [entryAccesses, Access.Inside]

theorem allInside_copy {dst : Int} {src : Nat} (low : 0 ≤ dst)
    (high : dst + count ≤ (c.numSlots : Int) - 1) (source : src + count + 1 ≤ c.numSlots) :
    AllInside c newLength (copyAccesses dst src count) := by
  simp only [copyAccesses, allInside_range, allInside_append, allInside_entry]
  omega

end Lists

-- A subtrie with n branches is listed from entry pos on, before entry total - 1.
def Below (bits counts : Nat → Nat) (total pos n : Nat) : Prop :=
  ∃ t, Lists bits counts pos t ∧ n + 1 = t.leaves ∧ pos + t.leaves ≤ total

theorem Below.inside (below : Below bits counts total pos n) : pos + n + 1 ≤ total := by
  obtain ⟨t, _, size, inside⟩ := below
  omega

theorem Below.branch (below : Below bits counts total pos n) (some_ : 0 < n) :
    1 ≤ counts pos ∧ counts pos ≤ n ∧ Below bits counts total (pos + 1) (counts pos - 1) ∧
      Below bits counts total (pos + counts pos) (n - counts pos) := by
  obtain ⟨t, lists, size, inside⟩ := below
  cases t with
  | leaf =>
    rw [leaves_leaf] at size
    omega
  | branch e l r =>
    obtain ⟨_, here, left, right⟩ := lists
    have posL := l.leaves_pos
    have posR := r.leaves_pos
    rw [leaves_branch] at size inside
    rw [here]
    exact ⟨by omega, by omega, ⟨l, left, by omega, by omega⟩, r, right, by omega, by omega⟩

theorem Below.congr {counts' : Nat → Nat} (below : Below bits counts total pos n)
    (same : ∀ i, pos ≤ i → counts' i = counts i) :
    Below bits counts' total pos n := by
  obtain ⟨t, lists, rest⟩ := below
  exact ⟨t, lists.congr fun i le _ => ⟨rfl, same i le⟩, rest⟩

theorem Encodes.below (encodes : Encodes mem node) :
    Below node.blindiKeys node.subtrieArray node.validLen 0 (node.validLen - 1) := by
  obtain ⟨t, size, _, lists⟩ := encodes.listed
  have nonempty := t.leaves_pos
  exact ⟨t, lists, by omega, by omega⟩

section Search

/-- Where the two descents of a search stand. -/
structure Descends (node : SubTrieBlindiNode) (s : Walk) : Prop where
  below : Below node.blindiKeys node.subtrieArray node.validLen s.blindiKeyPos s.n
  key : s.keyPtrPos ≤ s.blindiKeyPos

theorem Encodes.descends (encodes : Encodes mem node) :
    Descends node { keyPtrPos := 0, blindiKeyPos := 0, n := node.validLen - 1 } :=
  ⟨encodes.below, le_rfl⟩

theorem Descends.right {s : Walk} (descends : Descends node s) (some_ : 0 < s.n) :
    Descends node { keyPtrPos := s.keyPtrPos + node.subtrieArray s.blindiKeyPos
                    blindiKeyPos := s.blindiKeyPos + node.subtrieArray s.blindiKeyPos
                    n := s.n - node.subtrieArray s.blindiKeyPos } := by
  obtain ⟨below, key⟩ := descends
  exact ⟨(below.branch some_).2.2.2, by dsimp only; omega⟩

theorem Descends.left {s : Walk} (descends : Descends node s) (some_ : 0 < s.n) :
    Descends node { s with blindiKeyPos := s.blindiKeyPos + 1,
                           n := node.subtrieArray s.blindiKeyPos - 1 } := by
  obtain ⟨below, key⟩ := descends
  exact ⟨(below.branch some_).2.2.1, by dsimp only; omega⟩

theorem Descends.firstStage {s s' : Walk} (descends : Descends node s)
    (next : firstStageStep node x s = .inl s') :
    Descends node s' := by
  unfold firstStageStep at next
  dsimp only at next
  split_ifs at next with some_ turn
  · cases next
    exact descends.right some_
  · cases next
    exact descends.left some_

theorem Descends.secondStage {s s' : Walk × Nat} (descends : Descends node s.1)
    (next : secondStageStep node d s = .inl s') :
    Descends node s'.1 := by
  unfold secondStageStep at next
  dsimp only at next
  split_ifs at next with some_ turn
  · cases next
    exact descends.right some_.1
  · cases next
    exact descends.left some_.1

theorem Descends.position {s : Walk} {position : Nat} (descends : Descends node s)
    (last : firstStageStep node x s = .inr position) : position < node.validLen := by
  have inside := descends.below.inside
  have key := descends.key
  unfold firstStageStep at last
  dsimp only at last
  split_ifs at last
  cases last
  omega

theorem firstStage_position (encodes : Encodes mem node) {position : Nat}
    (run : (if 1 < node.validLen then searchFirstStage rounds node x else some 0) = some position) :
    position < node.validLen := by
  have nonempty := encodes.nonempty
  split_ifs at run
  · exact run_keeps (P := Descends node) (Q := fun position => position < node.validLen)
      (fun s s' descends next => descends.firstStage next)
        (fun s a descends last => descends.position last) encodes.descends run
  · cases run
    omega

theorem searchBlindiNode_position (encodes : Encodes mem node) {searchType : SearchType}
    {r : SearchResult} (run : searchBlindiNode rounds mem node x searchType = some r) :
    r.position < node.validLen := by
  obtain ⟨position, first, rest⟩ := Option.bind_eq_some_iff.mp run
  have inside := firstStage_position encodes first
  dsimp only at rest
  split_ifs at rest
  · cases rest
    exact inside
  · obtain ⟨⟨place, smaller⟩, second, same⟩ := Option.map_eq_some_iff.mp rest
    subst same
    obtain ⟨s, walk, same⟩ := Option.map_eq_some_iff.mp second
    have stops : Descends node s := run_keeps (P := fun s => Descends node s.1) (Q := Descends node)
      (fun s s' descends next => descends.secondStage next)
      (fun s a descends last => by
        unfold secondStageStep at last
        dsimp only at last
        split_ifs at last
        cases last
        exact descends) encodes.descends walk
    have bound := stops.below.inside
    have key := stops.key
    dsimp only
    split_ifs at same <;> cases same <;> omega

-- A hit of a point search is a stored key.
theorem searchBlindiNode_stored {r : SearchResult}
    (run : searchBlindiNode rounds mem node x .point = some r) (hit : r.hit = true) :
    node.keys mem r.position = x := by
  obtain ⟨position, _, rest⟩ := Option.bind_eq_some_iff.mp run
  dsimp only at rest
  rw [if_pos (.inl rfl)] at rest
  cases rest
  exact ((compareStage_eq_iff _ _).mp hit).symm

theorem searchSecondStageAccesses_inside (encodes : Encodes mem node)
    (searchType : SearchType) {position : Nat} (inside : position < node.validLen) :
    AllInside c newLength (searchSecondStageAccesses rounds mem node x searchType position) := by
  have fits := encodes.fits
  unfold searchSecondStageAccesses
  dsimp only
  rw [allInside_cons]
  refine ⟨⟨by omega, by omega⟩, ?_⟩
  split_ifs
  · exact allInside_nil
  · refine log_keeps (P := fun s => Descends node s.1)
      (fun s s' descends next => descends.secondStage next)
      (fun s descends => ?_) (fun s a descends last => allInside_nil) encodes.descends
    have inside := descends.below.inside
    change AllInside c newLength (secondStageAccesses node _ s.1)
    unfold secondStageAccesses
    split_ifs <;> simp only [allInside_cons, allInside_nil, Access.Inside, and_true] <;> omega

theorem searchBlindiNodeAccesses_inside (encodes : Encodes mem node) (searchType : SearchType) :
    AllInside c newLength (searchBlindiNodeAccesses rounds mem node x searchType) := by
  have fits := encodes.fits
  unfold searchBlindiNodeAccesses
  dsimp only
  split_ifs
  · refine log_keeps (P := Descends node) (fun s s' descends next => descends.firstStage next)
      (fun s descends => ?_)
      (fun s position descends last =>
        searchSecondStageAccesses_inside encodes searchType (descends.position last))
      encodes.descends
    have inside := descends.below.inside
    change AllInside c newLength (firstStageAccesses s)
    unfold firstStageAccesses
    split_ifs
    · rw [allInside_entry]
      omega
    · exact allInside_nil
  · exact searchSecondStageAccesses_inside encodes searchType encodes.nonempty

end Search

section Insert

variable {large smaller : Bool}

-- The entries that the descent has counted up lie above those it still has to read.
theorem insertStep_below {s s' : InsertWalk}
    (below : Below bits s.subtrieArray total s.blindiKeyPos s.n)
    (next : insertStep c bits d large smaller s = .inl s') :
    Below bits s'.subtrieArray total s'.blindiKeyPos s'.n := by
  unfold insertStep at next
  dsimp only at next
  split_ifs at next with some_ turn
  · cases next
    exact (below.branch some_.1).2.2.2
  · cases next
    exact (below.branch some_.1).2.2.1.congr fun i le => Function.update_of_ne (by omega) _ _

theorem insert2BlindiNodeInPosition_inside (encodes : Encodes mem node)
    (room : node.validLen < c.numSlots) {searchPos diffPos : Nat}
    (inside : searchPos < node.validLen) :
    AllInside c newLength
      (insert2BlindiNodeInPositionAccesses c rounds node searchPos diffPos large smaller) := by
  unfold insert2BlindiNodeInPositionAccesses
  refine log_keeps (P := fun s =>
    Below node.blindiKeys s.subtrieArray node.validLen s.blindiKeyPos s.n)
    (fun s s' below next => insertStep_below below next) (fun s below => ?_)
      (fun s a below last => ?_) encodes.below
  · have bound := below.inside
    change AllInside c newLength (insertStepAccesses node.blindiKeys diffPos s)
    unfold insertStepAccesses
    split_ifs <;> simp only [allInside_cons, allInside_nil, Access.Inside, and_true] <;> omega
  · have bound := below.inside
    unfold insertStep at last
    dsimp only at last
    split_ifs at last
    cases last
    have place : searchPos + 1 - smaller.toNat ≤ node.validLen := by omega
    change AllInside c newLength (putEntryAccesses node searchPos smaller _)
    unfold putEntryAccesses
    generalize searchPos + 1 - smaller.toNat = gap at place
    simp only [allInside_append, allInside_range, allInside_cons, allInside_nil, allInside_entry,
      Access.Inside, and_true]
    refine ⟨⟨⟨fun k lt => ?_, ?_⟩, fun k lt => ?_⟩, ?_⟩ <;> omega

theorem insert2BlindiNodeWithKey_inside (sound : node.validLen = 0 ∨ Encodes mem node)
    (room : node.validLen < c.numSlots) (insertKey : Addr) :
    AllInside c newLength (insert2BlindiNodeWithKeyAccesses rounds mem node insertKey) := by
  have even := c.even
  unfold insert2BlindiNodeWithKeyAccesses
  rw [if_neg room.ne]
  by_cases some_ : node.validLen ≠ 0
  · have encodes := sound.resolve_left some_
    rw [if_pos some_, allInside_append]
    refine ⟨searchBlindiNodeAccesses_inside encodes .predecessor, ?_⟩
    split
    · exact allInside_nil
    · rename_i r run
      split_ifs
      · exact allInside_nil
      · exact insert2BlindiNodeInPosition_inside encodes room
          (searchBlindiNode_position encodes run)
  · rw [if_neg some_]
    simp only [firstInsertAccesses, allInside_append, allInside_cons, allInside_nil,
      allInside_entry, Access.Inside, and_true]
    omega

end Insert

section Remove

variable {p : Nat}

/-- The descent stays on an entry of the node, and below it there is one as long as n counts
entries. -/
structure Removes (node : SubTrieBlindiNode) (s : RemoveWalk) : Prop where
  inside : s.blindiKeyPos + 2 ≤ node.validLen
  below : 0 < s.n → Below node.blindiKeys s.subtrieArray node.validLen s.blindiKeyPos s.n

theorem Removes.step {s s' : RemoveWalk} (removes : Removes node s)
    (next : removeStep p s = .inl s') : Removes node s' := by
  obtain ⟨inside, below⟩ := removes
  unfold removeStep at next
  dsimp only at next
  split_ifs at next with some_ turn more more <;> cases next
  · obtain ⟨_, _, _, right⟩ := (below some_).branch some_
    have bound := right.inside
    exact ⟨by dsimp only; omega, fun _ => right⟩
  · exact ⟨inside, fun some_ => absurd some_ more⟩
  · obtain ⟨_, _, left, _⟩ := (below some_).branch some_
    have bound := left.inside
    exact ⟨by dsimp only; omega, fun _ => left.congr fun i le =>
      Function.update_of_ne (by omega) _ _⟩
  · exact ⟨inside, fun some_ => absurd some_ more⟩

theorem Removes.start (encodes : Encodes mem node) (several : 2 ≤ node.validLen)
    (p : Nat) : Removes node
    { keyPtrPos := 0, blindiKeyPos := 0, n := node.validLen - 1, k := p,
      subtrieArray := node.subtrieArray } :=
  ⟨by dsimp only; omega, fun _ => encodes.below⟩

theorem Removes.last {s s' : RemoveWalk} (removes : Removes node s)
    (last : removeStep p s = .inr s') : Removes node s' := by
  unfold removeStep at last
  dsimp only at last
  split_ifs at last
  cases last
  exact removes

theorem removeFromBlindiNodeInPosition_inside (encodes : Encodes mem node)
    (several : 2 ≤ node.validLen) (room : node.validLen < c.numSlots) (inside : p < node.validLen) :
    AllInside c newLength (removeFromBlindiNodeInPositionAccesses rounds node p) := by
  unfold removeFromBlindiNodeInPositionAccesses
  refine log_keeps (P := Removes node) (fun s s' removes next => removes.step next)
    (fun s removes => ?_)
    (fun s s' removes last => ?_) (Removes.start encodes several p)
  · have bound := removes.inside
    change AllInside c newLength (removeStepAccesses s)
    unfold removeStepAccesses
    split_ifs <;> simp only [allInside_cons, allInside_nil, Access.Inside, and_true]
    omega
  · have bound := (removes.last last).inside
    change AllInside c newLength (takeEntryAccesses node p s')
    unfold takeEntryAccesses
    simp only [allInside_append, allInside_range, allInside_cons, allInside_nil, allInside_entry,
      Access.Inside, and_true]
    refine ⟨fun k lt => ?_, fun k lt => ?_⟩ <;> omega

-- The shift of a full node reads one entry past the end of both arrays.
theorem removeFromBlindiNodeInPosition_outside (newLength : Int) (encodes : Encodes mem node)
    (full : node.validLen = c.numSlots) (inside : p < node.validLen) :
    ∃ bound, ∀ rounds, bound ≤ rounds → ¬ AllInside c newLength
      (removeFromBlindiNodeInPositionAccesses rounds node p) := by
  have even := c.even
  have several : 2 ≤ node.validLen := by omega
  obtain ⟨t, size, _, lists⟩ := encodes.listed
  obtain ⟨s, ends, _⟩ := removeStep_ends (p := p) lists (by omega) (by omega)
    (s := { keyPtrPos := 0, blindiKeyPos := 0, n := node.validLen - 1, k := p,
            subtrieArray := node.subtrieArray })
    rfl rfl (by dsimp only; omega) rfl
  rw [Nat.zero_add] at ends
  obtain ⟨rounds, result⟩ := ends.returns
  have stops : s.blindiKeyPos + 2 ≤ node.validLen :=
    (run_keeps (P := Removes node) (Q := Removes node)
    (fun s s' removes next => removes.step next) (fun s a removes last => removes.last last)
    (Removes.start encodes several p) (result rounds le_rfl)).inside
  obtain ⟨bound, logged⟩ := ends.log removeStepAccesses (takeEntryAccesses node p)
  refine ⟨bound, fun rounds le all => ?_⟩
  have shift : AllInside c newLength (takeEntryAccesses node p s) := fun access member =>
    all access (logged rounds le access member)
  simp only [takeEntryAccesses, allInside_append, allInside_range, allInside_entry] at shift
  have last := (shift.2 (node.validLen - 2 - s.blindiKeyPos) (by omega)).2
  omega

theorem removeFromBlindiNodeWithKey_inside (encodes : Encodes mem node)
    (removeKey : Bytes c.keyLen) :
    (∀ rounds, AllInside c newLength
      (removeFromBlindiNodeWithKeyAccesses rounds mem node removeKey)) ↔
      node.validLen < c.numSlots ∨ ∀ i, i < node.validLen → node.keys mem i ≠ removeKey := by
  have fits := encodes.fits
  have even := c.even
  have nonempty := encodes.nonempty
  obtain ⟨t, size, splits, lists⟩ := encodes.listed
  constructor
  · intro all
    by_contra either
    rw [not_or] at either
    obtain ⟨full, stored⟩ := either
    push Not at stored
    obtain ⟨i, inside, same⟩ := stored
    obtain ⟨first, found⟩ := searchBlindiNode_hit size splits lists .point inside same
    obtain ⟨second, outside⟩ :=
      removeFromBlindiNodeInPosition_outside newLength encodes (by omega) inside
    have here := all (max first second)
    have hit := found (max first second) (le_max_left _ _)
    dsimp only at hit
    unfold removeFromBlindiNodeWithKeyAccesses at here
    rw [hit, allInside_append] at here
    dsimp only at here
    rw [if_neg (by simp), if_neg (by omega)] at here
    exact outside _ (le_max_right _ _) here.2
  · intro either rounds
    unfold removeFromBlindiNodeWithKeyAccesses
    rw [allInside_append]
    refine ⟨searchBlindiNodeAccesses_inside encodes .point, ?_⟩
    split
    · exact allInside_nil
    · rename_i r run
      split_ifs with missing one
      · exact allInside_nil
      · exact allInside_nil
      · have position := searchBlindiNode_position encodes run
        rcases either with room | absent
        · exact removeFromBlindiNodeInPosition_inside encodes (by omega) room position
        · exact absurd (searchBlindiNode_stored run (by simpa using missing)) (absent _ position)

end Remove

section Split

variable {mid m : Nat} {t : Trie}

/-- Where the way down stands in a subtrie of which m keys go to the small node. -/
structure Cuts (node : SubTrieBlindiNode) (mid : Nat) (s : SplitWalk) (t : Trie)
    (m : Nat) : Prop where
  lists : Lists node.blindiKeys node.subtrieArray s.curI t
  inside : s.curI + t.leaves ≤ node.validLen
  some_ : 1 ≤ m
  less : m < t.leaves
  cut : s.keyPtrPos + m = mid
  small : s.smallI = s.keyPtrPos
  large : s.largeI + 2 = s.curI + t.leaves
  depth : s.keyPtrPos + s.largeTreeTraverse.length = s.curI
  path : s.largeTreeTraverse.Sublist s.treeTraverse
  below : ∀ q ∈ s.treeTraverse, q < s.curI
  length : s.treeTraverse.length ≤ s.curI

theorem Cuts.step {s s' : SplitWalk} (cuts : Cuts node mid s t m)
    (next : splitStep node mid s = .inl s') :
    ∃ t' m', Cuts node mid s' t' m' := by
  obtain ⟨lists, inside, some_, less, cut, small, large, depth, path, below, length⟩ := cuts
  cases t with
  | leaf =>
    rw [leaves_leaf] at less
    omega
  | branch d l r =>
    obtain ⟨_, count, left, right⟩ := lists
    have posL := l.leaves_pos
    have posR := r.leaves_pos
    rw [leaves_branch] at inside less large
    unfold splitStep at next
    dsimp only at next
    rw [count] at next
    split_ifs at next with smaller larger <;> cases next
    · have pushed : ∀ q ∈ s.curI :: s.treeTraverse, q < s.curI + l.leaves := by
        intro q member
        rcases List.mem_cons.mp member with rfl | member
        · omega
        · exact (below q member).trans_le (Nat.le_add_right _ _)
      exact ⟨r, m - l.leaves, right, by dsimp only; omega, by omega, by omega, by dsimp only; omega,
        by dsimp only; omega,
        by dsimp only; omega, by dsimp only; omega, path.cons _, pushed,
        by dsimp only [List.length_cons]; omega⟩
    · have pushed : ∀ q ∈ s.curI :: s.treeTraverse, q < s.curI + 1 := by
        intro q member
        rcases List.mem_cons.mp member with rfl | member
        · exact Nat.lt_succ_self _
        · exact (below q member).trans (Nat.lt_succ_self _)
      exact ⟨l, m, left, by dsimp only; omega, some_, by omega, cut, small, by dsimp only; omega,
        by dsimp only [List.length_cons]; omega, path.cons_cons _, pushed,
        by dsimp only [List.length_cons]; omega⟩

theorem Cuts.accesses {s : SplitWalk} (cuts : Cuts node mid s t m)
    (full : node.validLen = c.numSlots) :
    AllInside c newLength (splitStepAccesses node mid s) := by
  obtain ⟨lists, inside, some_, less, cut, small, large, depth, path, below, length⟩ := cuts
  have steps := path.length_le
  cases t with
  | leaf =>
    rw [leaves_leaf] at less
    omega
  | branch d l r =>
    obtain ⟨_, count, left, right⟩ := lists
    have posL := l.leaves_pos
    have posR := r.leaves_pos
    rw [leaves_branch] at inside less large
    have movers : s.largeI + 1 - (s.curI + l.leaves) = r.leaves - 1 := by omega
    unfold splitStepAccesses
    dsimp only
    rw [count, movers, allInside_cons]
    refine ⟨⟨by omega, by omega⟩, ?_⟩
    split_ifs
    · rw [allInside_append]
      refine ⟨allInside_copy (by omega) (by omega) (by omega), ?_⟩
      simp only [allInside_cons, allInside_nil, Access.Inside, and_true]
      omega
    · rw [allInside_append]
      refine ⟨allInside_copy (by omega) (by omega) (by omega), ?_⟩
      simp only [allInside_cons, allInside_nil, Access.Inside, and_true]
      omega
    · rw [allInside_append]
      exact ⟨allInside_copy (by omega) (by omega) (by omega),
        allInside_copy (by omega) (by omega) (by omega)⟩

-- The way back meets the positions of the large path on the path, so it breaks before the path is
-- used up.
theorem collectAccesses_inside {traverse kept : List Nat} (path : kept.Sublist traverse)
    (some_ : kept ≠ []) (below : ∀ q ∈ traverse, q + 2 ≤ c.numSlots)
    (length : traverse.length + 2 ≤ c.numSlots) :
    AllInside c newLength (collectAccesses traverse kept) := by
  induction traverse generalizing kept with
  | nil => exact absurd (List.sublist_nil.mp path) some_
  | cons pos traverse ih =>
    have steps := path.length_le
    have here := below pos List.mem_cons_self
    have rest : ∀ q ∈ traverse, q + 2 ≤ c.numSlots :=
      fun q member => below q (List.mem_cons_of_mem pos member)
    rw [List.length_cons] at steps length
    rw [collectAccesses, allInside_append]
    refine ⟨by simp only [allInside_cons, allInside_nil, Access.Inside, and_true]; omega, ?_⟩
    split_ifs with top one
    · simp only [allInside_append, allInside_entry, allInside_nil, and_true]
      omega
    · obtain ⟨others, rfl⟩ : ∃ others, kept = pos :: others := List.head?_eq_some_iff.mp top
      rw [List.length_cons] at one steps
      rw [allInside_append, allInside_append, allInside_entry, allInside_entry,
        List.length_cons, List.tail_cons]
      refine ⟨by omega, ih (List.cons_sublist_cons.mp path) (fun none => one ?_) rest (by omega)⟩
      rw [none, List.length_nil]
    · rw [allInside_cons]
      refine ⟨⟨by omega, by omega⟩, ih ?_ some_ rest (by omega)⟩
      cases path with
      | cons _ path => exact path
      | cons_cons _ path => exact absurd List.head?_cons top

theorem splitBlindiNode_inside (encodes : Encodes mem node) (full : node.validLen = c.numSlots)
    (nodeSmall nodeLarge : SubTrieBlindiNode) :
    AllInside c newLength (splitBlindiNodeAccesses rounds node nodeSmall nodeLarge) := by
  have even := c.even
  have nonempty := encodes.nonempty
  obtain ⟨t, size, _, lists⟩ := encodes.listed
  have start : ∃ t m, Cuts node (node.validLen / 2)
      { curI := 0, smallI := 0, largeI := node.validLen - 2, keyPtrPos := 0
        small := { blindiKeys := nodeSmall.blindiKeys, subtrieArray := nodeSmall.subtrieArray }
        large := { blindiKeys := nodeLarge.blindiKeys, subtrieArray := nodeLarge.subtrieArray }
        treeTraverse := [], largeTreeTraverse := [] } t m := by
    refine ⟨t, node.validLen / 2, lists, by dsimp only; omega, by omega, by omega,
      Nat.zero_add _, rfl,
      by dsimp only; omega, rfl, List.Sublist.refl _,
      fun q member => absurd member List.not_mem_nil, le_rfl⟩
  unfold splitBlindiNodeAccesses
  dsimp only
  rw [allInside_append]
  constructor
  · simp only [allInside_range, allInside_cons, allInside_nil, Access.Inside, and_true]
    intro k lt
    omega
  · refine log_keeps (P := fun s => ∃ t m, Cuts node (node.validLen / 2) s t m) ?_ ?_ ?_ start
    · rintro s s' ⟨t, m, cuts⟩ next
      exact cuts.step next
    · rintro s ⟨t, m, cuts⟩
      exact cuts.accesses full
    · rintro s a ⟨t, m, cuts⟩ last
      have inside := cuts.inside
      have less := cuts.less
      have some_ := cuts.some_
      have length := cuts.length
      unfold splitStep at last
      dsimp only at last
      split_ifs at last
      cases last
      change AllInside c newLength (if s.largeTreeTraverse.length = 0 then [] else _)
      split_ifs with none
      · exact allInside_nil
      · refine collectAccesses_inside cuts.path (fun empty => none (by rw [empty]; rfl))
          (fun q member => ?_)
          (by dsimp only; omega)
        have below := cuts.below q member
        omega

end Split

section Merge

variable {w w' : MergeWalk} {s l : Trie} {p q : Nat}

-- A round takes the top of one of the two spines, whatever the keys are.
theorem Merging.turn (merging : Merging node nodeLarge w s l)
    (next : mergeStep c node nodeLarge d w = .inl w') :
    ∃ s' l', Merging node nodeLarge w' s' l' ∧ w'.iNewBackwords ≤ w.iNewBackwords ∧
      s'.leaves + l'.leaves < s.leaves + l.leaves := by
  obtain ⟨small, large, smallSize, largeSize, forward, smallEnd, largeEnd⟩ := merging
  unfold mergeStep at next
  split_ifs at next with both root turn <;> cases next
  · cases s with
    | leaf =>
      have ended := smallEnd.mpr rfl
      rcases turn with largeEnded | ⟨open_, _⟩
      · exact absurd ⟨ended, largeEnded⟩ both
      · exact absurd ended open_
    | branch e sl sr =>
      obtain ⟨_, count, left, right⟩ := small
      have posL := sl.leaves_pos
      have posR := sr.leaves_pos
      rw [leaves_branch] at smallSize smallEnd ⊢
      have open_ : ¬ w.isSmallEnd = true := fun ended => by
        have := smallEnd.mp ended
        omega
      rw [count]
      refine ⟨sr, l, ⟨right, large, by dsimp only; omega, largeSize, by dsimp only; omega, ?_,
        largeEnd⟩, le_rfl, by omega⟩
      dsimp only
      rw [Bool.or_eq_true, decide_eq_true_eq, or_iff_right open_]
      omega
  · cases l with
    | leaf => exact absurd (.inl (largeEnd.mpr rfl)) turn
    | branch f ll lr =>
      obtain ⟨_, count, left, right⟩ := large
      have posL := ll.leaves_pos
      have posR := lr.leaves_pos
      rw [leaves_branch] at largeSize largeEnd ⊢
      have open_ : ¬ w.isLargeEnd = true := fun ended => by
        have := largeEnd.mp ended
        omega
      rw [count]
      refine ⟨s, ll, ⟨small, left, smallSize, by dsimp only; omega, by dsimp only; omega, smallEnd,
        ?_⟩, by dsimp only; omega,
        by omega⟩
      dsimp only
      rw [Bool.or_eq_true, decide_eq_true_eq, or_iff_right open_]
      omega

/-- What the bounds of a merge need of the sizes. -/
structure Room (c : Params) (node nodeLarge : SubTrieBlindiNode) (newLength : Int) : Prop where
  small : node.validLen + 1 < c.numSlots
  both : node.validLen + nodeLarge.validLen ≤ c.numSlots
  word : node.validLen + nodeLarge.validLen < 65536
  length : newLength = node.validLen + nodeLarge.validLen - 1

theorem mergeCopyAccesses_inside {forward src : Nat} (target : (forward + count : Nat) ≤ newLength)
    (word : forward + count < 65536) (source : src + count < c.numSlots) :
    AllInside c newLength (mergeCopyAccesses forward src count) := by
  simp only [mergeCopyAccesses, allInside_range, allInside_cons, allInside_entry, Access.Inside]
  intro k lt
  rw [Nat.mod_eq_of_lt (by omega)]
  omega

theorem Merging.accesses (merging : Merging node nodeLarge w s l)
    (room : Room c node nodeLarge newLength) (back : w.iNewBackwords + 1 ≤ nodeLarge.validLen) :
    AllInside c newLength (mergeStepAccesses node nodeLarge d w) := by
  obtain ⟨small, large, smallSize, largeSize, forward, smallEnd, largeEnd⟩ := merging
  obtain ⟨roomSmall, roomBoth, word, length⟩ := room
  have posL := l.leaves_pos
  unfold mergeStepAccesses
  by_cases both : w.isSmallEnd ∧ w.isLargeEnd
  · rw [if_pos both]
    exact allInside_nil
  rw [if_neg both, allInside_append, allInside_append]
  refine ⟨⟨?_, ?_⟩, ?_⟩
  · split_ifs with ended
    · exact allInside_nil
    · have several := mt smallEnd.mpr ended
      have posS := s.leaves_pos
      simp only [allInside_cons, allInside_nil, Access.Inside, and_true]
      omega
  · split_ifs with ended
    · exact allInside_nil
    · have several := mt largeEnd.mpr ended
      simp only [allInside_cons, allInside_nil, Access.Inside, and_true]
      omega
  · split_ifs with root turn
    · exact allInside_nil
    · cases s with
      | leaf =>
        have ended := smallEnd.mpr rfl
        exact absurd (turn.elim (fun largeEnded => ⟨ended, largeEnded⟩) fun open_ =>
          absurd ended open_.1) both
      | branch e sl sr =>
        obtain ⟨_, count, _, _⟩ := small
        have posR := sr.leaves_pos
        have posSl := sl.leaves_pos
        rw [leaves_branch] at smallSize
        rw [count, allInside_cons]
        exact ⟨⟨by omega, by omega⟩, mergeCopyAccesses_inside (by omega) (by omega) (by omega)⟩
    · cases l with
      | leaf => exact absurd (.inl (largeEnd.mpr rfl)) turn
      | branch f ll lr =>
        obtain ⟨_, count, _, _⟩ := large
        have posLl := ll.leaves_pos
        have posR := lr.leaves_pos
        have posS := s.leaves_pos
        rw [leaves_branch] at largeSize
        dsimp only
        rw [count, Nat.mod_eq_of_lt (by omega)]
        simp only [allInside_append, allInside_cons, allInside_entry,
          allInside_range, Access.Inside]
        refine ⟨⟨by omega, by omega⟩, fun k lt => ⟨by omega, by omega⟩⟩

theorem Merging.finishAccesses (merging : Merging node nodeLarge w s l)
    (room : Room c node nodeLarge newLength) (back : w.iNewBackwords + 1 ≤ nodeLarge.validLen) :
    AllInside c newLength (w.finishAccesses node (node.validLen + nodeLarge.validLen)) := by
  obtain ⟨small, large, smallSize, largeSize, forward, smallEnd, largeEnd⟩ := merging
  obtain ⟨roomSmall, roomBoth, word, length⟩ := room
  have posS := s.leaves_pos
  have posL := l.leaves_pos
  unfold MergeWalk.finishAccesses
  dsimp only
  rw [allInside_append, allInside_append, allInside_append,
    Nat.mod_eq_of_lt (by omega), allInside_range]
  refine ⟨⟨⟨?_, ?_⟩, ?_⟩, fun k lt => ?_⟩
  · simp only [allInside_cons, allInside_nil, Access.Inside, and_true]
    omega
  · exact mergeCopyAccesses_inside (by omega) (by omega) (by omega)
  · exact mergeCopyAccesses_inside (by omega) (by omega) (by omega)
  · rw [allInside_cons, allInside_entry]
    exact ⟨show ((k : Nat) : Int) < newLength by omega, by omega⟩

theorem mergeStep_last (last : mergeStep c node nodeLarge d w = .inr w') : w' = w := by
  unfold mergeStep at last
  split_ifs at last <;> cases last <;> rfl

theorem Merging.inside (merging : Merging node nodeLarge w s l)
    (room : Room c node nodeLarge newLength) (back : w.iNewBackwords + 1 ≤ nodeLarge.validLen) :
    AllInside c newLength (log (mergeStep c node nodeLarge d) (mergeStepAccesses node nodeLarge d)
      (MergeWalk.finishAccesses node (node.validLen + nodeLarge.validLen)) rounds w) := by
  refine log_keeps (P := fun w => ∃ s l, Merging node nodeLarge w s l ∧
    w.iNewBackwords + 1 ≤ nodeLarge.validLen) ?_ ?_ ?_
    ⟨s, l, merging, back⟩
  · rintro w w' ⟨s, l, merging, back⟩ next
    obtain ⟨s', l', merging', less, _⟩ := merging.turn next
    exact ⟨s', l', merging', (Nat.add_le_add_right less 1).trans back⟩
  · rintro w ⟨s, l, merging, back⟩
    exact merging.accesses room back
  · rintro w w' ⟨s, l, merging, back⟩ last
    rw [mergeStep_last last]
    exact merging.finishAccesses room back

theorem mem_mergeCopyAccesses {forward src : Nat} (low : forward ≤ p) (high : p < forward + count)
    (word : p < 65536) :
    .newArray p ∈ mergeCopyAccesses forward src count := by
  refine List.mem_flatMap.mpr ⟨p - forward, List.mem_range.mpr (by omega), ?_⟩
  rw [Nat.add_sub_cancel' low, Nat.mod_eq_of_lt word]
  exact List.mem_cons_self

-- A round writes the entries that it takes from the gap.
theorem mergeStep_writes (next : mergeStep c node nodeLarge d w = .inl w') (low : w.iNewForward ≤ p)
    (high : p < node.validLen + w.iNewBackwords) (word : p < 65536) :
    .newArray p ∈ mergeStepAccesses node nodeLarge d w ∨ w'.iNewForward ≤ p ∧
    p < node.validLen + w'.iNewBackwords := by
  unfold mergeStep at next
  unfold mergeStepAccesses
  split_ifs at next with both root turn <;> cases next
  · rw [if_neg both, if_neg root, if_pos turn]
    by_cases before : p < w.iNewForward + node.subtrieArray w.iSmall
    · exact .inl
        (List.mem_append_right _ (List.mem_cons_of_mem _ (mem_mergeCopyAccesses low before word)))
    · exact .inr ⟨by dsimp only; omega, high⟩
  · rw [if_neg both, if_neg root, if_neg turn]
    dsimp only
    generalize nodeLarge.subtrieArray w.iLarge + w.iLarge = after
    rcases low.eq_or_lt with here | later
    · rw [here, Nat.mod_eq_of_lt word]
      exact .inl (List.mem_append_right _ (List.mem_append_left _ List.mem_cons_self))
    · by_cases before : p < node.validLen + (w.iNewBackwords - (w.iNewBackwords - after))
      · exact .inr ⟨by omega, before⟩
      · refine .inl (List.mem_append_right _ (List.mem_append_right _ (List.mem_flatMap.mpr
          ⟨p - after - node.validLen, List.mem_range.mpr (by omega), ?_⟩)))
        rw [show after + node.validLen + (p - after - node.validLen) = p by omega]
        exact List.mem_cons_self

-- The rounds and what follows them write every entry of the gap.
theorem Merging.writes (newValidLen : Nat) (merging : Merging node nodeLarge w s l)
    (low : w.iNewForward ≤ p) (high : p < node.validLen + w.iNewBackwords) (word : p < 65536) :
    ∃ rounds, .newArray p ∈ log (mergeStep c node nodeLarge d) (mergeStepAccesses node nodeLarge d)
      (MergeWalk.finishAccesses node newValidLen) rounds w := by
  obtain ⟨size, left⟩ : ∃ size, s.leaves + l.leaves = size := ⟨_, rfl⟩
  induction size using Nat.strong_induction_on generalizing w s l with
  | _ size ih =>
    cases next : mergeStep c node nodeLarge d w with
    | inl w₁ =>
      rcases mergeStep_writes next low high word with here | ⟨low₁, high₁⟩
      · refine ⟨1, ?_⟩
        rw [log]
        exact List.mem_append_left _ here
      · obtain ⟨s₁, l₁, merging₁, _, less⟩ := merging.turn next
        obtain ⟨rounds, later⟩ := ih _ (left ▸ less) merging₁ low₁ high₁ rfl
        refine ⟨rounds + 1, ?_⟩
        rw [log, next]
        exact List.mem_append_right _ later
    | inr w₁ =>
      obtain rfl := mergeStep_last next
      obtain ⟨_, _, smallSize, largeSize, forward, _, _⟩ := merging
      have posS := s.leaves_pos
      refine ⟨1, ?_⟩
      rw [log, next]
      refine List.mem_append_right _ ?_
      unfold MergeWalk.finishAccesses
      dsimp only
      refine List.mem_append_left _ ?_
      rcases low.eq_or_lt with here | later
      · rw [here, Nat.mod_eq_of_lt word]
        exact List.mem_append_left _ (List.mem_append_left _ List.mem_cons_self)
      · by_cases before : p < w₁.iNewForward + 1 + (node.validLen - 1 - w₁.iSmall)
        · exact List.mem_append_left
            _ (List.mem_append_right _ (mem_mergeCopyAccesses later before word))
        · exact List.mem_append_right _ (mem_mergeCopyAccesses (by omega) (by omega) word)

theorem mergeBlindiNodes_inside (small : Encodes mem node) (large : Encodes mem nodeLarge)
    (fits : node.validLen + nodeLarge.validLen ≤ c.numSlots) (new : EntryArrays) :
    (∀ rounds, AllInside c (((node.validLen + nodeLarge.validLen) % 65536 : Nat) - 1)
      (node.mergeBlindiNodesAccesses rounds mem new nodeLarge)) ↔
      node.validLen + 1 < c.numSlots ∧ node.validLen + nodeLarge.validLen < 65536 := by
  have nonempty := small.nonempty
  have nonemptyLarge := large.nonempty
  have word := c.idxSize_le
  have bound := small.idx
  have boundLarge := large.idx
  obtain ⟨s, size, _, lists⟩ := small.listed
  obtain ⟨l, sizeLarge, _, listsLarge⟩ := large.listed
  unfold SubTrieBlindiNode.mergeBlindiNodesAccesses
  dsimp only
  generalize (compareStage (mem (node.keyPtr (node.validLen - 1)))
    (mem (nodeLarge.keyPtr 0))).position = d
  have start := Merging.start size sizeLarge lists listsLarge (d % c.bitidxSize) new
  constructor
  · intro all
    constructor
    · have written : Access.blindiKeys (node.validLen : Nat) ∈
        [Access.keyPtr (node.validLen - 1 : Nat), Access.keyPtr 0,
        Access.blindiKeys (node.validLen : Nat)] := by simp
      have inside : _ ∧ ((node.validLen : Nat) : Int) < c.numSlots - 1 :=
        all 0 _ (List.mem_append_left _ (List.mem_append_right _ written))
      omega
    · by_contra long
      obtain ⟨rounds, written⟩ := Merging.writes (c := c) (d := d) (p := 65534)
        ((node.validLen + nodeLarge.validLen) % 65536)
          start (by dsimp only; omega) (by dsimp only; omega) (by omega)
      have inside : ((65534 : Nat) : Int) <
          ((node.validLen + nodeLarge.validLen) % 65536 : Nat) - 1 :=
        all rounds _ (List.mem_append_right _ written)
      omega
  · rintro ⟨roomSmall, roomWord⟩ rounds
    rw [Nat.mod_eq_of_lt roomWord]
    simp only [allInside_append]
    refine ⟨⟨⟨?_, ?_⟩, ?_⟩, ?_⟩
    · simp only [allInside_range, allInside_cons, allInside_nil, Access.Inside, and_true]
      intro k lt
      omega
    · simp only [allInside_range, allInside_cons, allInside_nil, Access.Inside, and_true]
      intro k lt
      omega
    · simp only [allInside_cons, allInside_nil, Access.Inside, and_true]
      omega
    · exact start.inside ⟨roomSmall, fits, roomWord, by dsimp only; omega⟩ (by dsimp only; omega)

end Merge

theorem copyNodeAccesses_inside (encodes : Encodes mem node) :
    AllInside c newLength (copyNodeAccesses node) := by
  have fits := encodes.fits
  have nonempty := encodes.nonempty
  simp only [copyNodeAccesses, allInside_append, allInside_range, allInside_cons, allInside_nil,
    allInside_entry, Access.Inside, and_true]
  refine ⟨fun k lt => ?_, ?_⟩ <;> omega

theorem copyNodeAccesses_outside (empty : node.validLen = 0) :
    ¬ AllInside c newLength (copyNodeAccesses node) := by
  intro all
  have last : Access.keyPtr ((node.validLen : Nat) - 1) ∈
      [Access.keyPtr ((node.validLen : Nat) - 1)] :=
    List.mem_singleton_self _
  have inside : (0 : Int) ≤ (node.validLen : Nat) - 1 ∧ _ := all _ (List.mem_append_right _ last)
  omega

-- Exactly when a call reads and writes inside its arrays.
theorem Call.staysInside_iff (mem : Addr → Bytes c.keyLen) (call : Call c)
    (allowed : call.Allowed mem) :
    call.StaysInside mem ↔ call.Fits mem := by
  cases call with
  | insert2BlindiNodeWithKey node insertKey =>
    exact iff_of_true (fun rounds => insert2BlindiNodeWithKey_inside allowed.1 allowed.2 insertKey)
      trivial
  | splitBlindiNode node nodeSmall nodeLarge =>
    exact iff_of_true (fun rounds => splitBlindiNode_inside allowed.1 allowed.2 nodeSmall nodeLarge)
      trivial
  | removeFromBlindiNodeWithKey node removeKey =>
    exact removeFromBlindiNodeWithKey_inside allowed removeKey
  | mergeBlindiNodes new node largeNode =>
    obtain ⟨small, large, fits⟩ := allowed
    unfold StaysInside Fits accesses mergeBlindiNodesAccesses
    dsimp only
    by_cases empty : node.validLen = 0
    · simp only [if_pos empty]
      constructor
      · exact fun all emptyLarge => copyNodeAccesses_outside emptyLarge (all 0)
      · exact fun some_ rounds => copyNodeAccesses_inside (large.resolve_left some_)
    · by_cases emptyLarge : largeNode.validLen = 0
      · simp only [if_neg empty, if_pos emptyLarge]
        exact iff_of_true (fun rounds => allInside_nil) (.inl emptyLarge)
      · simp only [if_neg empty, if_neg emptyLarge, or_iff_right emptyLarge]
        exact mergeBlindiNodes_inside (small.resolve_left empty)
          (large.resolve_left emptyLarge) fits new

theorem Call.staysInside_iff_sample :
    (Call.mergeBlindiNodes ⟨fun _ => 0, fun _ => 0⟩ sampleNode highNode :
      Call sampleParams).StaysInside sampleKey :=
  (Call.staysInside_iff (c := sampleParams) sampleKey
    (.mergeBlindiNodes ⟨fun _ => 0, fun _ => 0⟩ sampleNode highNode)
    ⟨.inr sampleNode_encodes, .inr highNode_encodes, by decide⟩).mpr (.inr ⟨by decide, by decide⟩)

-- One of the six keys of a full node is removed.
theorem removeFromBlindiNodeWithKey_outside :
    (Call.removeFromBlindiNodeWithKey fullNode (sampleKey 2) : Call sampleParams).Allowed
    sampleKey ∧
      ¬ (Call.removeFromBlindiNodeWithKey fullNode (sampleKey 2) : Call sampleParams).StaysInside
        sampleKey := by
  refine ⟨fullNode_encodes, fun all => ?_⟩
  rcases (removeFromBlindiNodeWithKey_inside fullNode_encodes (sampleKey 2)).mp all
    with room | absent
  · exact absurd room (by decide)
  · exact absent 2 (by decide) rfl

end ElasticIndex.SubTrie
