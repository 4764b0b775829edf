import ElasticIndex.SeqTree.Search

set_option autoImplicit false

namespace ElasticIndex.SeqTree

open BitOrder BlindSequence CartesianTree CartesianTree.PosTree SlotTree

variable {c : Params} {mem : Addr → Bytes c.keyLen} {node : SeqTreeBlindiNode} {x : Bytes c.keyLen}
  {t : PosTree} {lo hi d f : Nat} {p : List Bool} {largeSmall : Bool}

theorem entry_parent (cut : Cut c.endTree c.treeLevels node.blindiTree t) {m : Nat} {e : Bool}
    (inside : (p ++ [e]).length ≤ c.treeLevels) (root : (t.sub p).root = some m) :
    node.blindiTree ((slot (p ++ [e]) + 1) / 2 - 1) = m := by
  rw [parent_slot, cut p (by simp at inside; omega), root]
  rfl

theorem slot_snoc_parity (p : List Bool) (e : Bool) : (slot (p ++ [e]) + 1) % 2 = e.toNat := by
  rw [slot_snoc]
  cases e <;> simp only [Bool.toNat_true, Bool.toNat_false] <;> omega

-- Walking up stops at the first left turn, whose parent ends the range.
theorem bringLargestInSubtree_spec (cut : Cut c.endTree c.treeLevels node.blindiTree t)
    (reach : Reaches t (node.validLen - 1) p lo hi) (inside : p.length ≤ c.treeLevels) :
    bringLargestInSubtree node p.length ((slot p + 1) / 2 - 1) (slot p) = hi := by
  induction p using List.reverseRecOn generalizing lo hi with
  | nil => exact (reach.unique .root).2.symm
  | append_singleton p e ih =>
    obtain ⟨lo', hi', m, up, root, side⟩ := reach.snoc
    have parent := entry_parent cut inside root
    rw [List.length_append, List.length_cons, List.length_nil,
      bringLargestInSubtree, slot_snoc_parity]
    rcases side with ⟨rfl, rfl, rfl⟩ | ⟨rfl, rfl, rfl⟩
    · rw [if_pos Bool.toNat_false, parent]
    · rw [if_neg (by simp), parent_slot]
      exact ih up (by simp at inside; omega)

theorem bringSmallestInSubtree_spec (cut : Cut c.endTree c.treeLevels node.blindiTree t)
    (reach : Reaches t (node.validLen - 1) p lo hi) (inside : p.length ≤ c.treeLevels) :
    bringSmallestInSubtree node p.length ((slot p + 1) / 2 - 1) (slot p) =
      (lo - 1, decide (lo = 0)) := by
  induction p using List.reverseRecOn generalizing lo hi with
  | nil =>
    obtain ⟨rfl, _⟩ := reach.unique .root
    rfl
  | append_singleton p e ih =>
    obtain ⟨lo', hi', m, up, root, side⟩ := reach.snoc
    have parent := entry_parent cut inside root
    rw [List.length_append, List.length_cons, List.length_nil,
      bringSmallestInSubtree, slot_snoc_parity]
    rcases side with ⟨rfl, rfl, rfl⟩ | ⟨rfl, rfl, rfl⟩
    · rw [if_neg (by simp), parent_slot]
      exact ih up (by simp at inside; omega)
    · rw [if_pos Bool.toNat_true, parent]
      simp

-- The place of x around its group.
def placeOf (largeSmall : Bool) (glo ghi : Nat) : Nat × Bool :=
  if largeSmall then (ghi, false) else (glo - 1, decide (glo = 0))

variable (blind : Blind (keyBits c.keyLen) (node.keys mem) node.blindiKeys node.validLen)
  (tree : IsCartesian node.blindiKeys 0 (node.validLen - 1) t)
  (cut : Cut c.endTree c.treeLevels node.blindiTree t)
  (best : Best (keyBits c.keyLen) (node.keys mem) node.validLen x f)
  (differ : (keyBits c.keyLen).LessAt (node.keys mem f) x d ∨
  (keyBits c.keyLen).LessAt x (node.keys mem f) d)

include blind tree cut best differ in
-- The walk stops at the highest slot all of whose range lies below bit diff_pos.
theorem searchSecondStageTree_spec (largeSmall : Bool) (steps : Nat) (traverse : Traverse)
    (reach : Reaches t (node.validLen - 1) p lo hi) (inside : p.length < c.treeLevels)
    (last : traverse.last = slot p) (previous : traverse.previous = (slot p + 1) / 2 - 1)
    (len : traverse.len = p.length + 1) (room : p.length < steps) (left : lo ≤ f) (right : f ≤ hi)
    (deep : ∀ i, lo ≤ i → i < hi → d < node.blindiKeys i)
    (low : ∀ m, t.root = some m → node.blindiKeys m ≤ d) (some : ∃ m, t.root = some m) :
    ∃ q glo ghi s, Group node.blindiKeys node.validLen d f glo ghi ∧
      Reaches t (node.validLen - 1) q glo ghi ∧ q.length < c.treeLevels ∧
      searchSecondStageTree node d largeSmall steps traverse = (placeOf largeSmall glo ghi, s) ∧
      s.inTree = traverse.inTree ∧ s.last = slot q ∧ s.len = q.length + 1 := by
  induction p using List.reverseRecOn generalizing lo hi steps traverse with
  | nil =>
    obtain ⟨m, root⟩ := some
    obtain ⟨rfl, rfl⟩ := reach.unique .root
    have min := tree.min root
    have := deep m min.left min.right
    have := low m root
    omega
  | append_singleton p e ih =>
    obtain ⟨lo', hi', m, up, root, side⟩ := reach.snoc
    have min := (up.cartesian tree).min root
    have bounds := reach.le_size tree
    have := min.left
    have := min.right
    have size : (p ++ [e]).length = p.length + 1 := by simp
    have parent := entry_parent cut inside.le root
    cases steps with
    | zero => omega
    | succ steps =>
      unfold searchSecondStageTree
      rw [previous, last, parent]
      by_cases stop : node.blindiKeys m ≤ d
      · have outer := reach.boundary_le tree root stop
        have bound := best.bound
        have group : Group node.blindiKeys node.validLen d f lo hi :=
          best.group_of_weak blind differ left right (by omega) deep outer.1 fun inner =>
            outer.2 (by omega)
        have steps : traverse.len - 1 = (p ++ [e]).length := by omega
        refine ⟨p ++ [e], lo, hi, traverse, group, reach, inside, ?_, rfl, last, len⟩
        rw [if_pos stop, slot_snoc_parity, steps, bringLargestInSubtree_spec cut reach inside.le,
          bringSmallestInSubtree_spec cut reach inside.le]
        rcases side with ⟨rfl, rfl, rfl⟩ | ⟨rfl, rfl, rfl⟩
        · cases largeSmall <;> simp [placeOf]
        · cases largeSmall <;> simp [placeOf]
      · rw [if_neg stop]
        refine ih _ _ up (by omega)
          (parent_slot p e) (by rw [parent_slot]) (by simp [len]) (by omega) ?_ ?_ ?_
        · rcases side with ⟨_, rfl, rfl⟩ | ⟨_, rfl, rfl⟩ <;> omega
        · rcases side with ⟨_, rfl, rfl⟩ | ⟨_, rfl, rfl⟩ <;> omega
        · intro i hi hi'
          have := min.le hi hi'
          omega

theorem scanLarge_spec {rest i r : Nat} (le : i ≤ r)
    (shallow : ∀ j, i ≤ j → j < r → d < node.blindiKeys j)
    (stop : r < i + rest → node.blindiKeys r < d) (end_ : r ≤ i + rest) :
    scanLarge node d rest i = if r < i + rest then some r else none := by
  induction rest generalizing i with
  | zero => rw [if_neg (by omega)]; rfl
  | succ rest ih =>
    unfold scanLarge
    by_cases here : i = r
    · subst here
      rw [if_pos (stop (by omega)), if_pos (by omega)]
    · have := shallow i le_rfl (by omega)
      rw [if_neg (by omega),
        ih (by omega) (fun j hj => shallow j (by omega)) (fun lt => stop (by omega)) (by omega)]
      congr 1
      simp only [eq_iff_iff]
      omega

theorem scanSmall_spec {rest i l : Nat} (le : l ≤ i + 1)
    (deep : ∀ j, l ≤ j → j ≤ i → d < node.blindiKeys j) (stop : 0 < l → node.blindiKeys (l - 1) < d)
    (end_ : i + 1 - rest ≤ l) (room : rest ≤ i + 1) :
    scanSmall node d rest i = if i + 1 - rest < l then some (l - 1) else none := by
  induction rest generalizing i with
  | zero => rw [if_neg (by omega)]; rfl
  | succ rest ih =>
    unfold scanSmall
    by_cases here : l = i + 1
    · subst here
      have low : node.blindiKeys i < d := stop (by omega)
      rw [if_pos low, if_pos (by omega)]
      rfl
    · have := deep i (by omega) le_rfl
      rw [if_neg (by omega)]
      cases i with
      | zero =>
        obtain rfl : rest = 0 := by omega
        rw [if_neg (by omega)]
        rfl
      | succ i =>
        rw [Nat.add_sub_cancel,
          ih (by omega) (fun j hj hj' => deep j hj (by omega)) (by omega) (by omega)]
        congr 1
        simp only [eq_iff_iff]
        omega

theorem searchSecondStageSeq_spec {n glo ghi : Nat} {traverse : Traverse}
    (group : Group node.blindiKeys n d f glo ghi) (several : 2 ≤ n) (left : lo ≤ glo)
    (right : ghi ≤ hi) (start : traverse.startBkSeqPos = lo - 1)
    (stop : traverse.endBkSeqPos = min hi (n - 2)) :
    searchSecondStageSeq node f d largeSmall traverse = placeOf largeSmall glo ghi := by
  have first := group.left
  have last := group.right
  have inside := group.bound
  unfold searchSecondStageSeq placeOf
  cases largeSmall with
  | true =>
    rw [if_pos rfl, if_pos rfl, scanLarge_spec last (fun j hj hj' => group.deep j (by omega) hj')
      (fun lt => group.next (by omega)) (by omega)]
    by_cases found : ghi < f + (traverse.endBkSeqPos + 1 - f)
    · rw [if_pos found]
    · have end_ : traverse.endBkSeqPos + 1 = ghi := by omega
      rw [if_neg found]
      change (traverse.endBkSeqPos + 1, false) = _
      rw [end_]
  | false =>
    rw [if_neg Bool.false_ne_true, if_neg Bool.false_ne_true]
    by_cases zero : f = 0
    · obtain rfl : glo = 0 := by omega
      rw [if_pos zero]
      rfl
    · rw [if_neg zero, scanSmall_spec (l := glo) (by omega)
        (fun j hj hj' => group.deep j hj (by omega)) group.prev (by omega) (by omega)]
      by_cases found : f - 1 + 1 - (f - traverse.startBkSeqPos) < glo
      · have positive : glo ≠ 0 := by omega
        rw [if_pos found]
        simp [positive]
      · obtain rfl : glo = 0 := by omega
        have zero : traverse.startBkSeqPos = 0 := by omega
        rw [if_neg found]
        change (traverse.startBkSeqPos, true) = _
        rw [zero]
        rfl

/-- What a miss reports: the group of keys closest to x, its path, and the side x lies on. -/
structure Located (mem : Addr → Bytes c.keyLen) (node : SeqTreeBlindiNode)
    (x : Bytes c.keyLen) (t : PosTree) (q : List Bool) (f glo ghi : Nat)
    (r : SearchResult) : Prop where
  miss : r.hit = false
  best : Best (keyBits c.keyLen) (node.keys mem) node.validLen x f
  above : r.largeSmall = true → (keyBits c.keyLen).LessAt (node.keys mem f) x r.diffPos
  below : r.largeSmall = false → (keyBits c.keyLen).LessAt x (node.keys mem f) r.diffPos
  group : Group node.blindiKeys node.validLen r.diffPos f glo ghi
  reaches : Reaches t (node.validLen - 1) q glo ghi
  place : (r.position, r.smallerThanNode) = placeOf r.largeSmall glo ghi
  inTree : r.traverse.inTree = true → q.length < c.treeLevels ∧ r.traverse.last = slot q ∧
    r.traverse.len = q.length + 1
  below_tree : r.traverse.inTree = false → c.treeLevels ≤ q.length

theorem searchBlindiNode_hit_eq (mem : Addr → Bytes c.keyLen) (node : SeqTreeBlindiNode)
    (x : Bytes c.keyLen) (type : SearchType) (traverse : Traverse) :
    (searchBlindiNode mem node x type traverse).hit =
      (compareStage x (mem (node.keyPtr (searchFirstStage c node x traverse).1))).eq := by
  unfold searchBlindiNode
  dsimp only
  split_ifs <;> rfl

theorem searchBlindiNode_hit (small : c.Representable) (wf : WellFormed mem node)
    (levels : 1 ≤ c.treeLevels) (type : SearchType) (traverse : Traverse) {i : Nat}
    (stored : i < node.validLen) (same : node.keys mem i = x) :
    (searchBlindiNode mem node x type traverse).hit = true ∧
      (searchBlindiNode mem node x type traverse).position = i := by
  obtain ⟨t, tree, cut⟩ := wf.tree
  obtain ⟨v, lo, hi, first⟩ := searchFirstStage_spec (x := x) small wf levels tree cut traverse
  subst same
  have found := first.best.eq_of_stored wf.blind stored
  unfold searchBlindiNode
  generalize searchFirstStage c node (node.keys mem i) traverse = stage at first found
  obtain ⟨firstStagePos, passed⟩ := stage
  change firstStagePos = i at found
  subst found
  have eq : (compareStage (node.keys mem firstStagePos) (mem (node.keyPtr firstStagePos))).eq =
      true :=
    compareStage_self _
  dsimp only
  rw [if_pos (.inr eq)]
  exact ⟨eq, rfl⟩

theorem searchBlindiNode_hit_iff (small : c.Representable) (wf : WellFormed mem node)
    (levels : 1 ≤ c.treeLevels) (type : SearchType) (traverse : Traverse) :
    (searchBlindiNode mem node x type traverse).hit = true ↔
      ∃ i, i < node.validLen ∧ node.keys mem i = x := by
  constructor
  · intro hit
    obtain ⟨t, tree, cut⟩ := wf.tree
    obtain ⟨v, lo, hi, first⟩ := searchFirstStage_spec (x := x) small wf levels tree cut traverse
    rw [searchBlindiNode_hit_eq, compareStage_eq_iff] at hit
    exact ⟨_, first.best.bound, hit.symm⟩
  · rintro ⟨i, stored, same⟩
    exact (searchBlindiNode_hit small wf levels type traverse stored same).1

theorem searchBlindiNode_miss (small : c.Representable) (wf : WellFormed mem node)
    (levels : 1 ≤ c.treeLevels) (tree : IsCartesian node.blindiKeys 0 (node.validLen - 1) t)
    (cut : Cut c.endTree c.treeLevels node.blindiTree t) (traverse : Traverse)
    (missing : ∀ i, i < node.validLen → node.keys mem i ≠ x) :
    ∃ q f glo ghi, Located mem node x t q f glo ghi
      (searchBlindiNode mem node x .predecessor traverse) := by
  obtain ⟨v, lo, hi, first⟩ := searchFirstStage_spec (x := x) small wf levels tree cut traverse
  unfold searchBlindiNode
  generalize searchFirstStage c node x traverse = stage at first
  obtain ⟨f, passed⟩ := stage
  dsimp only at first ⊢
  have best := first.best
  have bound := best.bound
  have miss : (compareStage x (mem (node.keyPtr f))).eq = false :=
    compareStage_ne fun same => missing f bound same.symm
  have correct := compareStage_correct x (mem (node.keyPtr f))
  have above := correct.big miss
  have below := correct.small miss
  generalize compareStage x (mem (node.keyPtr f)) = compare at miss above below
  obtain ⟨eq, largeSmall, d⟩ := compare
  dsimp only at miss above below ⊢
  subst miss
  have differ : (keyBits c.keyLen).LessAt (node.keys mem f) x d ∨
      (keyBits c.keyLen).LessAt x (node.keys mem f) d := by
    cases largeSmall with
    | true => exact .inl (above rfl)
    | false => exact .inr (below rfl)
  have nonempty := wf.nonempty
  have visited := first.visited
  have entry : node.blindiTree passed.last = (t.sub v).root.getD c.endTree := by
    rw [visited.last]
    exact cut v visited.short
  have top : node.blindiTree 0 = t.root.getD c.endTree := cut [] levels
  have range := visited.reaches.le_size tree
  rw [if_neg (by simp)]
  have absent (m : Nat) (hm : m < node.validLen - 1) : m ≠ c.endTree := by
    have := wf.idx
    omega
  by_cases upper : 0 < c.treeLevels ∧ (node.blindiTree passed.last = c.endTree ∨
      d < node.blindiKeys (node.blindiTree passed.last))
  · rw [if_pos upper]
    have deep : ∀ i, lo ≤ i → i < hi → d < node.blindiKeys i := by
      intro i hi hi'
      obtain ⟨m, root⟩ := (visited.reaches.cartesian tree).root_of_lt (by omega)
      have min := (visited.reaches.cartesian tree).min root
      have := min.le hi hi'
      have := min.right
      rw [entry, root, Option.getD_some] at upper
      rcases upper.2 with eq | lt
      · exact absurd eq (absent m (by omega))
      · omega
    by_cases head : node.blindiTree 0 = c.endTree ∨ d < node.blindiKeys (node.blindiTree 0)
    · rw [if_pos head]
      have all : ∀ i, 0 ≤ i → i < node.validLen - 1 → d < node.blindiKeys i := by
        intro i hi hi'
        obtain ⟨m, root⟩ := tree.root_of_lt (by omega)
        have min := tree.min root
        have := min.le hi hi'
        have := min.right
        rw [top, root, Option.getD_some] at head
        rcases head with eq | lt
        · exact absurd eq (absent m (by omega))
        · omega
      have group : Group node.blindiKeys node.validLen d f 0 (node.validLen - 1) :=
        ⟨Nat.zero_le _, by omega, by omega, all, fun lt => absurd lt (lt_irrefl _),
          fun lt => by omega⟩
      refine ⟨[], f, 0, node.validLen - 1, ?_⟩
      cases largeSmall <;> exact ⟨rfl, best, above, below, group, .root, rfl,
        fun _ => ⟨levels, rfl, rfl⟩,
        fun none => absurd none (by simp)⟩
    · rw [if_neg head]
      push Not at head
      obtain ⟨present, low⟩ := head
      have root : ∃ m, t.root = some m := by
        cases root : t.root with
        | none => rw [top, root] at present; exact absurd rfl present
        | some m => exact ⟨m, rfl⟩
      have lowRoot : ∀ m, t.root = some m → node.blindiKeys m ≤ d := by
        intro m root
        rwa [top, root, Option.getD_some] at low
      have inner : v ≠ [] := by
        rintro rfl
        rw [visited.last] at upper
        rcases upper.2 with eq | lt
        · exact present eq
        · exact absurd lt (not_lt.mpr low)
      have len := visited.len inner
      obtain ⟨q, glo, ghi, s, group, reaches, short, eq, inTree, last, length⟩ :=
        searchSecondStageTree_spec wf.blind tree cut best differ largeSmall passed.len
          { passed with inTree := true } visited.reaches visited.short visited.last
            visited.previous len (by omega)
          first.left first.right deep lowRoot root
      rw [eq]
      refine ⟨q, f, glo, ghi, rfl, best, above, below, group, reaches, rfl,
        fun _ => ⟨short, last, length⟩,
        fun none => ?_⟩
      simp [inTree] at none
  · rw [if_neg upper]
    push Not at upper
    obtain ⟨present, low⟩ := upper (by omega)
    cases root : (t.sub v).root with
    | none => rw [entry, root] at present; exact absurd rfl present
    | some m =>
      rw [entry, root, Option.getD_some] at low
      have min := (visited.reaches.cartesian tree).min root
      have := min.right
      obtain ⟨e, lo', hi', reach, full, left, right, start, stop⟩ := first.scan m root
      have range' := reach.le_size tree
      have outer := reach.boundary_le tree root low
      obtain ⟨glo, ghi, group⟩ := best.exists_group wf.blind differ
      have := group.left
      have := group.right
      have := group.bound
      have first' : lo' ≤ glo := by
        by_contra more
        have := group.deep (lo' - 1) (by omega) (by omega)
        have := outer.1 (by omega)
        omega
      have last' : ghi ≤ hi' := by
        by_contra more
        have := group.deep hi' (by omega) (by omega)
        have := outer.2 (by omega)
        omega
      obtain ⟨q, reaches⟩ :=
        reach.exists_group tree first' (by omega) last' group.deep (fun _ => group.prev (by omega))
        (fun lt => group.next (by omega))
      rw [searchSecondStageSeq_spec group (by omega) first' last' start stop]
      refine ⟨v ++ [e] ++ q, f, glo, ghi, rfl, best, above, below, group, reaches, rfl,
        fun inTree => ?_, fun _ => ?_⟩
      · rw [show passed.inTree = false from visited.inTree] at inTree
        cases inTree
      · simp only [List.length_append, List.length_cons, List.length_nil]
        omega

theorem Located.placed {q : List Bool} {glo ghi : Nat} {r : SearchResult}
    (wf : WellFormed mem node) (found : Located mem node x t q f glo ghi r) :
    (r.smallerThanNode = true → (keyBits c.keyLen).Less x (node.keys mem 0)) ∧
      (r.smallerThanNode = false → r.position < node.validLen ∧
        (keyBits c.keyLen).Less (node.keys mem r.position) x ∧
        (r.position + 1 < node.validLen →
          (keyBits c.keyLen).Less x (node.keys mem (r.position + 1)))) := by
  have group := found.group
  have bound := group.bound
  have le := le_trans group.left group.right
  have place := found.place
  unfold placeOf at place
  cases side : r.largeSmall with
  | true =>
    rw [side, if_pos rfl] at place
    obtain ⟨position, smaller⟩ := Prod.mk.inj place
    obtain ⟨less, next⟩ := found.best.above_group wf.blind group (found.above side)
    rw [smaller, position]
    exact ⟨fun no => absurd no (by simp),
      fun _ => ⟨bound, less.less, fun inner => (next inner).less⟩⟩
  | false =>
    rw [side, if_neg Bool.false_ne_true] at place
    obtain ⟨position, smaller⟩ := Prod.mk.inj place
    obtain ⟨less, prev⟩ := found.best.below_group wf.blind group (found.below side)
    rw [smaller, position]
    refine ⟨fun zero => ?_, fun positive => ?_⟩
    · obtain rfl : glo = 0 := by simpa using zero
      exact less.less
    · have positive : 0 < glo := Nat.pos_of_ne_zero (by simpa using positive)
      rw [Nat.sub_add_cancel positive]
      exact ⟨by omega, (prev positive).less, fun _ => less.less⟩

structure PredecessorAnswer (mem : Addr → Bytes c.keyLen) (node : SeqTreeBlindiNode)
    (x : Bytes c.keyLen) (r : SearchResult) : Prop where
  hit : r.hit = true ↔ ∃ i, i < node.validLen ∧ node.keys mem i = x
  found : r.hit = true → r.position < node.validLen ∧ node.keys mem r.position = x
  smaller : r.hit = false →
    (r.smallerThanNode = true ↔ ∀ i, i < node.validLen →
    (keyBits c.keyLen).Less x (node.keys mem i))
  largest : r.hit = false → r.smallerThanNode = false → r.position < node.validLen ∧
    (keyBits c.keyLen).Less (node.keys mem r.position) x ∧
    ∀ i, i < node.validLen → (keyBits c.keyLen).Less (node.keys mem i) x → i ≤ r.position

theorem answer_of_hit {r : SearchResult} {i : Nat} (bound : i < node.validLen)
    (same : node.keys mem i = x) (hit : r.hit = true) (position : r.position = i) :
    PredecessorAnswer mem node x r := by
  refine ⟨⟨fun _ => ⟨i, bound, same⟩, fun _ => hit⟩, fun _ => ?_, fun miss => ?_, fun miss => ?_⟩
  · rw [position]
    exact ⟨bound, same⟩
  · rw [hit] at miss
    cases miss
  · rw [hit] at miss
    cases miss

theorem Located.answer {q : List Bool} {glo ghi : Nat} {r : SearchResult} (wf : WellFormed mem node)
    (missing : ∀ i, i < node.validLen → node.keys mem i ≠ x)
    (found : Located mem node x t q f glo ghi r) :
    PredecessorAnswer mem node x r := by
  have nonempty := wf.nonempty
  obtain ⟨below, above⟩ := found.placed wf
  have miss := found.miss
  refine ⟨⟨fun hit => ?_, fun ⟨i, bound, same⟩ => absurd same (missing i bound)⟩, fun hit => ?_,
    fun _ => ⟨fun smaller i bound => ?_, fun all => ?_⟩, fun _ larger => ?_⟩
  · rw [miss] at hit
    cases hit
  · rw [miss] at hit
    cases hit
  · by_cases first : i = 0
    · rw [first]
      exact below smaller
    · exact (below smaller).trans (wf.blind.less (by omega) bound)
  · cases smaller : r.smallerThanNode with
    | true => rfl
    | false =>
      obtain ⟨bound, less, _⟩ := above smaller
      exact absurd (all _ bound) less.asymm
  · obtain ⟨bound, less, next⟩ := above larger
    refine ⟨bound, less, fun i inside lessI => ?_⟩
    by_contra past
    have less' := next (by omega)
    by_cases step : i = r.position + 1
    · rw [step] at lessI
      exact less'.asymm lessI
    · exact (less'.trans (wf.blind.less (by omega) inside)).asymm lessI

theorem Located.first {q : List Bool} {glo ghi : Nat} {r : SearchResult}
    (found : Located mem node x t q f glo ghi r) (smaller : r.smallerThanNode = true) :
    r.position = 0 := by
  have place := found.place
  rw [smaller] at place
  unfold placeOf at place
  split at place
  · cases place
  · simp only [Prod.mk.injEq] at place
    obtain ⟨position, zero⟩ := place
    have zero : glo = 0 := by simpa using zero.symm
    exact position.trans (by omega)

theorem searchBlindiNode_inner {type : SearchType} {traverse : Traverse}
    (hit : (searchBlindiNode mem node x type traverse).hit = true) :
    (searchBlindiNode mem node x type traverse).smallerThanNode = false := by
  have equal := (searchBlindiNode_hit_eq mem node x type traverse).symm.trans hit
  unfold searchBlindiNode
  dsimp only
  rw [if_pos (.inr equal)]

-- Besides the answer, a key below the node has the position 0.
theorem searchBlindiNode_placed (small : c.Representable) (wf : WellFormed mem node)
    (levels : 1 ≤ c.treeLevels) (x : Bytes c.keyLen) (traverse : Traverse) :
    let r := searchBlindiNode mem node x .predecessor traverse
    PredecessorAnswer mem node x r ∧ (r.hit = true → r.smallerThanNode = false) ∧
      (r.hit = false → r.smallerThanNode = true → r.position = 0) := by
  intro r
  by_cases stored : ∃ i, i < node.validLen ∧ node.keys mem i = x
  · obtain ⟨i, bound, same⟩ := stored
    obtain ⟨hit, position⟩ := searchBlindiNode_hit small wf levels .predecessor traverse bound same
    exact ⟨answer_of_hit bound same hit position, searchBlindiNode_inner,
      fun miss => absurd (miss.symm.trans hit) (by simp)⟩
  · have missing : ∀ i, i < node.validLen → node.keys mem i ≠ x :=
      fun i bound same => stored ⟨i, bound, same⟩
    obtain ⟨t, tree, cut⟩ := wf.tree
    obtain ⟨q, f, glo, ghi, found⟩ :=
      searchBlindiNode_miss small wf levels tree cut traverse missing
    exact ⟨found.answer wf missing, searchBlindiNode_inner, fun _ => found.first⟩

-- A predecessor search finds the stored key, or else the place of the key.
theorem searchBlindiNode_predecessor (small : c.Representable) (wf : WellFormed mem node)
    (levels : 1 ≤ c.treeLevels) (x : Bytes c.keyLen) (traverse : Traverse) :
    PredecessorAnswer mem node x (searchBlindiNode mem node x .predecessor traverse) :=
  (searchBlindiNode_placed small wf levels x traverse).1

abbrev sampleParams : Params := { treeLevels := 2, numSlots := 6, keyLen := 1, even := rfl }

def sampleKey (a : Addr) : Bytes 1 := #v[UInt8.ofNat a]

-- The keys 1, 2 and 4.
def sampleNode : SeqTreeBlindiNode :=
  { validLen := 3
    blindiTree := cutArray 255 2 (.node (.node .nil 0 .nil) 1 .nil)
    currentMaxSlot := 6
    keyPtr := fun i => 2 ^ i
    blindiKeys := fun i => 6 - i }

theorem sampleNode_wellFormed : WellFormed (c := sampleParams) sampleKey sampleNode := by
  have compares : ∀ i : Nat, i < 2 → compareStage (sampleKey (2 ^ i)) (sampleKey (2 ^ (i + 1))) =
      { eq := false, bigSmall := false, position := 6 - i } := by decide
  refine ⟨by decide, by decide, by decide, fun i hi => ?_,
    .node (.node .nil 0 .nil) 1 .nil, by decide,
    cut_cutArray 255 2 _⟩
  change i + 1 < 3 at hi
  have result := compares i (by omega)
  exact lessAt_of_compare result

theorem searchBlindiNode_predecessor_sample :
    PredecessorAnswer (c := sampleParams) sampleKey sampleNode (sampleKey 3)
      (searchBlindiNode (c := sampleParams) sampleKey sampleNode (sampleKey 3)
          .predecessor .zero) :=
  searchBlindiNode_predecessor (c := sampleParams) ⟨by decide, by decide⟩
    sampleNode_wellFormed (by decide) (sampleKey 3)
    .zero

-- Seventeen levels: the slot number of the last level no longer fits tree_pos_p1.
abbrev deepParams : Params := { treeLevels := 17, numSlots := 20, keyLen := 3, even := rfl }

def deepBits (i : Nat) : Nat := if i ≤ 14 then i else if i = 15 then 16 else 15

def deepKey (a : Addr) : Bytes 3 :=
  let value := if a ≤ 15 then 2 ^ 24 - 2 ^ (24 - a) else if a = 16 then 2 ^ 24 - 2 ^ 9 + 2 ^ 7
    else if a = 17 then 2 ^ 24 - 2 ^ 9 + 2 ^ 8 else 2 ^ 24 - 2 ^ 9 + 2 ^ 6
  #v[UInt8.ofNat value, UInt8.ofNat (value / 256), UInt8.ofNat (value / 65536)]

def deepTree : Nat → PosTree
  | 0 => .node (.node .nil 15 .nil) 16 .nil
  | rest + 1 => .node .nil (14 - rest) (deepTree rest)

def deepNode : SeqTreeBlindiNode :=
  { validLen := 18
    blindiTree := cutArray 255 17 (deepTree 15)
    currentMaxSlot := 20
    keyPtr := id
    blindiKeys := deepBits }

theorem deepNode_wellFormed : WellFormed (c := deepParams) deepKey deepNode := by
  have compares : ∀ i : Nat, i < 17 → compareStage (deepKey i) (deepKey (i + 1)) =
      { eq := false, bigSmall := false, position := deepBits i } := by decide
  have tree : IsCartesian deepBits 0 17 (deepTree 15) := by decide
  refine ⟨by decide, by decide, by decide, fun i hi => ?_, deepTree 15, tree, cut_cutArray 255 17 _⟩
  change i + 1 < 18 at hi
  have result := compares i (by omega)
  exact lessAt_of_compare result

theorem deepNode_miss :
    (searchBlindiNode (c := deepParams) deepKey deepNode (deepKey 15) .predecessor .zero).hit =
    false := by
  decide

-- Keys of 8192 bytes: their last two bits are above MAX_HIGH_MISS.
abbrev wideParams : Params := { treeLevels := 1, numSlots := 6, keyLen := 8192, even := rfl }

def wideKey (a : Addr) : Bytes 8192 :=
  .ofFn fun i => if i.val = 0 then (if a = 1 then 2 else if a = 3 then 3 else 0)
    else if i.val = 8191 ∧ a = 2 then 128 else 0

def wideNode : SeqTreeBlindiNode :=
  { validLen := 3
    blindiTree := cutArray 255 1 (.node (.node .nil 0 .nil) 1 .nil)
    currentMaxSlot := 6
    keyPtr := id
    blindiKeys := fun i => if i = 0 then 65534 else 0 }

theorem wideKey_bit (a : Addr) {p : Nat} (inside : p < 65536) :
    isNthBitSetInString (wideKey a) p = isNthBitSetInByte
      (if p / 8 = 8191 then (if a = 1 then 2 else if a = 3 then 3 else 0)
        else if p / 8 = 0 ∧ a = 2 then 128 else 0) (p % 8) := by
  have index : 8192 - 1 - p / 8 < 8192 := by omega
  have byte : (wideKey a).toArray.getD (8192 - 1 - p / 8) 0 =
      if p / 8 = 8191 then (if a = 1 then 2 else if a = 3 then 3 else 0)
        else if p / 8 = 0 ∧ a = 2 then 128 else 0 := by
    have first : 8192 - 1 - p / 8 = 0 ↔ p / 8 = 8191 := by omega
    have last : 8192 - 1 - p / 8 = 8191 ↔ p / 8 = 0 := by omega
    rw [wideKey, Vector.toArray_ofFn, Array.getD_eq_getD_getElem?, Array.getElem?_ofFn,
      dif_pos index, Option.getD_some]
    simp only [first, last]
  rw [isNthBitSetInString, byte]

theorem wideKey_less {a : Addr} (last : a = 1 ∨ a = 3) :
    (keyBits 8192).LessAt (wideKey 0) (wideKey a) 65534 := by
  have table : ∀ n, n < 6 → isNthBitSetInByte 0 n = isNthBitSetInByte 2 n ∧
    isNthBitSetInByte 0 n = isNthBitSetInByte 3 n := by decide
  refine ⟨by decide, fun i hi => ?_, ?_, ?_⟩
  · change isNthBitSetInString (wideKey 0) i = isNthBitSetInString (wideKey a) i
    rw [wideKey_bit 0 (by omega), wideKey_bit a (by omega)]
    by_cases high : i / 8 = 8191
    · rcases last with rfl | rfl
      · simpa [high] using (table (i % 8) (by omega)).1
      · simpa [high] using (table (i % 8) (by omega)).2
    · rcases last with rfl | rfl <;> simp [high]
  · rw [keyBits_bit, wideKey_bit 0 (by omega)]
    decide
  · rw [keyBits_bit, wideKey_bit a (by omega)]
    rcases last with rfl | rfl <;> decide

theorem wideKey_less' : (keyBits 8192).LessAt (wideKey 1) (wideKey 2) 0 := by
  refine ⟨by decide, fun i hi => absurd hi (Nat.not_lt_zero i), ?_, ?_⟩
  · rw [keyBits_bit, wideKey_bit 1 (by omega)]
    decide
  · rw [keyBits_bit, wideKey_bit 2 (by omega)]
    decide

theorem wideNode_wellFormed : WellFormed (c := wideParams) wideKey wideNode := by
  refine ⟨by decide, by decide, by decide, fun i hi => ?_,
    .node (.node .nil 0 .nil) 1 .nil, by decide,
    cut_cutArray 255 1 _⟩
  change i + 1 < 3 at hi
  have cases_ : i = 0 ∨ i = 1 := by omega
  rcases cases_ with rfl | rfl
  · exact wideKey_less (.inl rfl)
  · exact wideKey_less'

theorem wideNode_firstStage (x : Bytes wideParams.keyLen)
    (clear : isNthBitSetInString x 0 = false) :
    searchFirstStage wideParams wideNode x .zero =
      (0, { Traverse.zero with endBkSeqPos := 1, seq := true, len := 1 }) := by
  have top : wideNode.blindiTree 0 = 1 := by decide
  have bits : wideNode.blindiKeys 0 = 65534 ∧ wideNode.blindiKeys 1 = 0 := by decide
  have limits : wideParams.endTree = 255 ∧ wideParams.maxHighMiss = 65533 := by decide
  have size : wideNode.validLen = 3 := rfl
  simp [searchFirstStage, size, top, bits, limits, descend, clear, seqFirstStage, scanFirstStage,
    Traverse.zero, toU16]

-- The scan skips the bit of the first two keys, so the stored second key is missed.
theorem wideNode_miss :
    (searchBlindiNode (c := wideParams) wideKey wideNode (wideKey 1) .predecessor .zero).hit =
    false := by
  have clear : isNthBitSetInString (wideKey 1) 0 = false := by
    rw [← keyBits_bit]
    exact wideKey_less'.low
  have first := wideNode_firstStage (wideKey 1) clear
  rw [searchBlindiNode_hit_eq, first]
  exact compareStage_ne (Ne.symm (wideKey_less (.inl rfl)).ne)

-- Without the limits on the depth and the key length a stored key can be missed.
theorem predecessor_limits :
    (∃ (c : Params) (mem : Addr → Bytes c.keyLen) (node : SeqTreeBlindiNode) (x : Bytes c.keyLen),
      c.treeLevels = 17 ∧ c.keyLen = 3 ∧ WellFormed mem node ∧
        ¬ PredecessorAnswer mem node x (searchBlindiNode mem node x .predecessor .zero)) ∧
      ∃ (c : Params) (mem : Addr → Bytes c.keyLen) (node : SeqTreeBlindiNode) (x : Bytes c.keyLen),
        c.treeLevels = 1 ∧ c.keyLen = 8192 ∧ WellFormed mem node ∧
          ¬ PredecessorAnswer mem node x (searchBlindiNode mem node x .predecessor .zero) := by
  refine ⟨⟨deepParams, deepKey, deepNode, deepKey 15, rfl, rfl, deepNode_wellFormed,
    fun answer => ?_⟩,
    ⟨wideParams, wideKey, wideNode, wideKey 1, rfl, rfl, wideNode_wellFormed, fun answer => ?_⟩⟩
  · have hit := answer.hit.mpr ⟨15, by decide, rfl⟩
    rw [deepNode_miss] at hit
    cases hit
  · have hit := answer.hit.mpr ⟨1, by decide, rfl⟩
    rw [wideNode_miss] at hit
    cases hit

end ElasticIndex.SeqTree
