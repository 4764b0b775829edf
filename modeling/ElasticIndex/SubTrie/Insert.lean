import ElasticIndex.SubTrie.Search

set_option autoImplicit false

namespace ElasticIndex.SubTrie

open SequenceEdit BitOrder BlindSequence BlindTrie BlindTrie.Trie Loop

variable (c : Params)

def firstInsert (node : SubTrieBlindiNode) (insertKey : Addr) : SubTrieBlindiNode :=
  { blindiKeys := Function.update node.blindiKeys 0 0
    subtrieArray := Function.update node.subtrieArray 0 0
    keyPtr := Function.update node.keyPtr 0 insertKey
    validLen := 1 }

/-- The locals of the descent that counts the new key, and subtrie_array. The relative position k
may become -1. -/
structure InsertWalk where
  keyPtrPos : Nat
  blindiKeyPos : Nat
  n : Nat
  k : Int
  subtrieArray : Nat → Nat

def InsertWalk.turnsRight (largeSmall smallerThanNode : Bool) (s : InsertWalk) : Bool :=
  (s.subtrieArray s.blindiKeyPos : Int) ≤ s.k + (!largeSmall).toNat - smallerThanNode.toNat

def insertStep (blindiKeys : Nat → Nat) (diffPos : Nat) (largeSmall smallerThanNode : Bool)
    (s : InsertWalk) :
    InsertWalk ⊕ InsertWalk :=
  let subtrie := s.subtrieArray s.blindiKeyPos
  if 0 < s.n ∧ blindiKeys s.blindiKeyPos < diffPos then
    if s.turnsRight largeSmall smallerThanNode then
      .inl { s with
        k := s.k - subtrie
        keyPtrPos := s.keyPtrPos + subtrie
        n := s.n - subtrie
        blindiKeyPos := s.blindiKeyPos + subtrie }
    else
      .inl { s with
        n := subtrie - 1
        subtrieArray := Function.update s.subtrieArray s.blindiKeyPos ((subtrie + 1) % c.idxSize)
        blindiKeyPos := s.blindiKeyPos + 1 }
  else .inr s

-- The new entry is put in front of the branch the descent stopped at.
def putEntry (node : SubTrieBlindiNode) (insertKey : Addr) (searchPos diffPos : Nat)
    (largeSmall smallerThanNode : Bool) (s : InsertWalk) : SubTrieBlindiNode :=
  let place := searchPos + 1 - smallerThanNode.toNat
  let count := node.validLen - 1 - s.blindiKeyPos
  let subtrieArray := moveUp s.blindiKeyPos count s.subtrieArray
  let subtrie :=
    if 0 < s.n ∧ ({ s with subtrieArray } : InsertWalk).turnsRight largeSmall smallerThanNode then
      if s.blindiKeyPos = 0 then node.validLen else toU16 (s.k + 1)
    else 1
  { blindiKeys := Function.update (moveUp s.blindiKeyPos count
    node.blindiKeys) s.blindiKeyPos (diffPos % c.bitidxSize)
    subtrieArray := Function.update subtrieArray s.blindiKeyPos (subtrie % c.idxSize)
    keyPtr := Function.update (moveUp place (node.validLen - place) node.keyPtr) place insertKey
    validLen := (node.validLen + 1) % c.idxSize }

def insert2BlindiNodeInPosition (rounds : Nat) (node : SubTrieBlindiNode) (searchPos : Nat)
    (insertKey : Addr) (diffPos : Nat) (largeSmall smallerThanNode : Bool) :
    Option SubTrieBlindiNode :=
  (run (insertStep c node.blindiKeys diffPos largeSmall smallerThanNode) rounds
    { keyPtrPos := 0, blindiKeyPos := 0, n := node.validLen - 1, k := searchPos,
      subtrieArray := node.subtrieArray }).map
      (putEntry c node insertKey searchPos diffPos largeSmall smallerThanNode)

variable {c}

def insert2BlindiNodeWithKey (rounds : Nat) (mem : Addr → Bytes c.keyLen) (node : SubTrieBlindiNode)
    (insertKey : Addr) : Option (InsertResult × SubTrieBlindiNode) :=
  if node.validLen = c.numSlots then some (.overflow, node)
  else if node.validLen ≠ 0 then
    (searchBlindiNode rounds mem node (mem insertKey) .predecessor).bind fun r =>
      if r.hit then some (.duplicatedKey, node)
      else
        (insert2BlindiNodeInPosition c rounds node r.position insertKey r.diffPos r.largeSmall
          r.smallerThanNode).map
          fun node => (.success, node)
  else some (.success, firstInsert node insertKey)

def upsert2BlindiNodeWithKey (rounds : Nat) (mem : Addr → Bytes c.keyLen) (node : SubTrieBlindiNode)
    (insertKey : Addr) : Option (InsertResult × SubTrieBlindiNode) :=
  if node.validLen = 0 then some (.success, firstInsert node insertKey)
  else
    (searchBlindiNode rounds mem node (mem insertKey) .predecessor).bind fun r =>
      if node.validLen = c.numSlots ∧ r.hit = false then some (.overflow, node)
      else
        (insert2BlindiNodeInPosition c rounds node r.position insertKey r.diffPos r.largeSmall
          r.smallerThanNode).map
          fun node => (if r.hit then .duplicatedKey else .success, node)

variable {mem : Addr → Bytes c.keyLen} {node : SubTrieBlindiNode} {x : Bytes c.keyLen} {t : Trie}
  {bits counts : Nat → Nat} {p j f d : Nat} {large smaller : Bool}

/-- Where the descent over a trie at entry j stops, and what an entry put there makes of the
trie. -/
structure Stopped (bits counts : Nat → Nat) (d : Nat) (large smaller : Bool) (j : Nat)
    (t : Trie) (f : Nat) (s : InsertWalk) : Prop where
  left : j ≤ s.blindiKeyPos
  right : s.blindiKeyPos + 1 ≤ j + t.leaves
  outside : ∀ i, i < j ∨ s.blindiKeyPos ≤ i → s.subtrieArray i = counts i
  size : s.n + 1 ≤ t.leaves
  top : s.blindiKeyPos = j → s.n + 1 = t.leaves
  above : 0 < s.n → (s.turnsRight large smaller = true ↔ large = true)
  last : large = true → s.k = s.n
  lists : ∀ bits' counts' : Nat → Nat,
    (∀ i, j ≤ i → i < s.blindiKeyPos → bits' i = bits i ∧ counts' i = s.subtrieArray i) →
    bits' s.blindiKeyPos = d → counts' s.blindiKeyPos = (if large then s.n + 1 else 1) →
    (∀ i, s.blindiKeyPos ≤ i → i + 1 < j + t.leaves → bits' (i + 1) = bits i ∧
    counts' (i + 1) = counts i) →
    Lists bits' counts' j (graft d large t f)

-- The test of the descent compares the gap with the left subtrie.
theorem turnsRight_iff {s : InsertWalk} {gap_ : Nat}
    (relative : s.k + (!large).toNat - smaller.toNat = (gap_ : Int) - large.toNat) :
    s.turnsRight large smaller = true ↔ s.subtrieArray s.blindiKeyPos + large.toNat ≤ gap_ := by
  unfold InsertWalk.turnsRight
  rw [relative, decide_eq_true_eq]
  omega

theorem stopped_here {e : Nat} {l r : Trie} {s : InsertWalk}
    (lists : Lists bits s.subtrieArray s.blindiKeyPos (.branch e l r))
    (size : s.n + 1 = l.leaves + r.leaves)
    (relative : s.k + (!large).toNat - smaller.toNat =
      ((if large then l.leaves + r.leaves else 0 : Nat) : Int) - large.toNat)
    (bigger : large = true → smaller = false) (deep : ¬ e < d) :
    Stopped bits s.subtrieArray d large smaller s.blindiKeyPos (.branch e l r) f s := by
  have posL := l.leaves_pos
  have posR := r.leaves_pos
  have right := turnsRight_iff relative
  rw [lists.2.1] at right
  refine ⟨le_rfl, by rw [leaves_branch]; omega, fun _ _ => rfl, size.le, fun _ => size, fun _ => ?_,
    fun big => ?_, fun bits' counts' _ bit count after => ?_⟩
  · rw [right]
    cases large <;> simp <;> omega
  · subst big
    rw [bigger rfl] at relative
    simp only [Bool.not_true, Bool.toNat_false, if_true, Bool.toNat_true] at relative
    omega
  · rw [graft, if_neg deep]
    have moved : Lists bits' counts' (s.blindiKeyPos + 1) (.branch e l r) :=
        lists.move fun i hi => by
      have := after (s.blindiKeyPos + i) (by omega) (by omega)
      rwa [Nat.add_right_comm] at this
    cases large with
    | true => exact ⟨bit, count.trans size, moved, trivial⟩
    | false => exact ⟨bit, count, trivial, moved⟩

theorem insertStep_ends (lists : Lists bits counts j t) (idx : t.leaves < c.idxSize)
    {s : InsertWalk} (bound : f < t.leaves) (place : s.blindiKeyPos = j) (size : s.n + 1 = t.leaves)
    (array : s.subtrieArray = counts)
    (relative : s.k + (!large).toNat - smaller.toNat = (gap d large t f : Int) - large.toNat)
    (bigger : large = true → smaller = false) :
    ∃ s', Ends (insertStep c bits d large smaller) s s' ∧
    Stopped bits counts d large smaller j t f s' := by
  induction t generalizing j f counts s with
  | leaf =>
    rw [leaves_leaf] at size
    have none : s.n = 0 := by omega
    refine ⟨s, .leave (by rw [insertStep, if_neg (by omega)]), by omega, by rw [leaves_leaf]; omega,
      fun i _ => by rw [array], size.le, fun _ => size, fun some => by omega, fun big => ?_,
      fun bits' counts' _ bit count _ => ?_⟩
    · subst big
      rw [bigger rfl] at relative
      simp only [gap, Bool.not_true, Bool.toNat_false, Bool.toNat_true] at relative
      omega
    · rw [none] at count
      rw [place] at bit count
      exact ⟨bit, count.trans (by cases large <;> rfl), trivial, trivial⟩
  | branch e l r ihl ihr =>
    obtain ⟨bit, count, left, right⟩ := id lists
    have posL := l.leaves_pos
    have posR := r.leaves_pos
    rw [leaves_branch] at size bound idx
    subst place array
    by_cases shallow : e < d
    · have goes : insertStep c bits d large smaller s = _ :=
        if_pos ⟨by omega, by rw [bit]; exact shallow⟩
      have test := turnsRight_iff relative
      rw [count] at goes test
      rw [gap, if_pos shallow] at relative test
      by_cases turn : f < l.leaves
      · rw [if_pos turn] at relative test
        have bounds := gap_bounds d large l f
        have stays : ¬ s.turnsRight large smaller = true := by
          rw [test]
          cases large with
          | true => have := bounds.1 rfl; simp only [Bool.toNat_true]; omega
          | false => have := bounds.2 rfl; simp only [Bool.toNat_false]; omega
        rw [if_neg stays, Nat.mod_eq_of_lt (by omega)] at goes
        have other (i : Nat) (ne : i ≠ s.blindiKeyPos) :
            Function.update s.subtrieArray s.blindiKeyPos (l.leaves + 1) i = s.subtrieArray i :=
            Function.update_of_ne ne _ _
        have raised : Lists bits (Function.update s.subtrieArray s.blindiKeyPos (l.leaves + 1))
            (s.blindiKeyPos + 1) l :=
          left.congr fun i hi _ => ⟨rfl, other i (by omega)⟩
        obtain ⟨s', ends, stopped⟩ := ihl (f := f)
          (s := { s with
            n := l.leaves - 1
            subtrieArray := Function.update s.subtrieArray s.blindiKeyPos (l.leaves + 1)
            blindiKeyPos := s.blindiKeyPos + 1 })
          raised (by omega) turn rfl (by dsimp only; omega) rfl relative
        refine ⟨s', .turn goes ends, ?_⟩
        have := stopped.left
        have := stopped.right
        have := stopped.size
        refine ⟨by omega, by rw [leaves_branch]; omega, fun i hi => ?_,
          by rw [leaves_branch]; omega,
          fun same => by omega, stopped.above, stopped.last,
          fun bits' counts' before bit' count' after => ?_⟩
        · rw [stopped.outside i (by omega), other i (by omega)]
        · rw [leaves_branch] at after
          rw [graft, if_pos shallow, if_pos turn]
          obtain ⟨sameBit, sameCount⟩ := before s.blindiKeyPos le_rfl (by omega)
          rw [stopped.outside _ (.inl (by omega)), Function.update_self] at sameCount
          refine ⟨sameBit.trans bit, by rw [sameCount, leaves_graft], ?_, ?_⟩
          · refine stopped.lists bits' counts' (fun i hi hi' => before i (by omega) hi') bit' count'
              fun i hi hi' => ?_
            rw [other i (by omega)]
            exact after i hi (by omega)
          · rw [leaves_graft]
            refine right.move fun i hi => ?_
            have := after (s.blindiKeyPos + l.leaves + i) (by omega) (by omega)
            rwa [show s.blindiKeyPos + (l.leaves + 1) + i =
              s.blindiKeyPos + l.leaves + i + 1 by omega]
      · rw [if_neg turn] at relative test
        have bounds := gap_bounds d large r (f - l.leaves)
        have turns : s.turnsRight large smaller = true := by
          rw [test]
          cases large with
          | true => have := bounds.1 rfl; simp only [Bool.toNat_true]; omega
          | false => simp only [Bool.toNat_false]; omega
        rw [if_pos turns] at goes
        obtain ⟨s', ends, stopped⟩ := ihr (f := f - l.leaves)
          (s := { s with
            k := s.k - (l.leaves : Nat)
            keyPtrPos := s.keyPtrPos + l.leaves
            n := s.n - l.leaves
            blindiKeyPos := s.blindiKeyPos + l.leaves })
          right (by omega) (by omega) rfl (by dsimp only; omega) rfl (by
            dsimp only; push_cast at relative; omega)
        refine ⟨s', .turn goes ends, ?_⟩
        have := stopped.left
        have := stopped.right
        have := stopped.size
        refine ⟨by omega, by rw [leaves_branch]; omega, fun i hi => stopped.outside i (by omega),
          by rw [leaves_branch]; omega, fun same => by omega, stopped.above, stopped.last,
          fun bits' counts' before bit' count' after => ?_⟩
        rw [leaves_branch] at after
        rw [graft, if_pos shallow, if_neg turn]
        have kept (i : Nat) (hi : s.blindiKeyPos ≤ i) (hi' : i < s.blindiKeyPos + l.leaves) :
            bits' i = bits i ∧ counts' i = s.subtrieArray i := by
          obtain ⟨sameBit, sameCount⟩ := before i hi (by omega)
          exact ⟨sameBit, sameCount.trans (stopped.outside i (.inl hi'))⟩
        obtain ⟨sameBit, sameCount⟩ := kept s.blindiKeyPos le_rfl (by omega)
        refine ⟨sameBit.trans bit, sameCount.trans count,
          left.congr fun i hi hi' => kept i (by omega) (by omega), ?_⟩
        exact stopped.lists bits' counts' (fun i hi hi' => before i (by omega) hi') bit' count'
          fun i hi hi' => after i hi (by omega)
    · rw [gap, if_neg shallow] at relative
      exact ⟨s, .leave (by rw [insertStep, bit, if_neg fun both => shallow both.2]),
        stopped_here lists size relative bigger shallow⟩

theorem moveUp_first {A : Type} (lo count : Nat) (g : Nat → A) : moveUp lo count g lo = g lo := by
  rw [moveUp_eq, if_neg (by omega)]

theorem update_moveUp {A : Type} (lo : Nat) (g : Nat → A) (v : A) {n i : Nat} (bound : i < n + 1) :
    Function.update (moveUp lo (n - lo) g) lo v i = insertAt lo v g i := by
  rcases Nat.lt_trichotomy i lo with lt | rfl | lt
  · rw [Function.update_of_ne (by omega), moveUp_eq, if_neg (by omega), insertAt_below _ _ lt]
  · rw [Function.update_self, insertAt_self]
  · rw [Function.update_of_ne (by omega), moveUp_eq, if_pos (by omega), insertAt_above _ _ lt]

-- The count of the new branch: all leaves below it stay on its left, or only the new one.
theorem Stopped.count {s : InsertWalk} (stopped : Stopped bits counts d large smaller 0 t f s)
    (idx : t.leaves < 65536) (array : Nat → Nat)
    (first : array s.blindiKeyPos = s.subtrieArray s.blindiKeyPos) :
    (if 0 < s.n ∧ ({ s with subtrieArray := array } : InsertWalk).turnsRight large smaller then
      if s.blindiKeyPos = 0 then t.leaves else toU16 (s.k + 1)
    else 1) = if large then s.n + 1 else 1 := by
  have same : ({ s with subtrieArray := array } : InsertWalk).turnsRight large smaller =
      s.turnsRight large smaller := by
    unfold InsertWalk.turnsRight
    simp only [first]
  have size := stopped.size
  rw [same]
  by_cases some : 0 < s.n
  · cases large with
    | true =>
      rw [if_pos ⟨some, (stopped.above some).mpr rfl⟩, if_pos rfl]
      by_cases top : s.blindiKeyPos = 0
      · rw [if_pos top, stopped.top top]
      · rw [if_neg top, stopped.last rfl]
        exact @toU16_nat (s.n + 1) (by omega)
    | false =>
      rw [if_neg fun both => absurd ((stopped.above some).mp both.2) Bool.false_ne_true,
        if_neg Bool.false_ne_true]
  · rw [if_neg fun both => some both.1]
    cases large with
    | true => rw [if_pos rfl, show s.n = 0 by omega]
    | false => rw [if_neg Bool.false_ne_true]

structure Grafted (mem : Addr → Bytes c.keyLen) (node : SubTrieBlindiNode) (insertKey : Addr)
    (t : Trie) (f d : Nat) (large : Bool) (node' : SubTrieBlindiNode) : Prop where
  validLen : node'.validLen = node.validLen + 1
  keyPtr : ∀ i, i ≤ node.validLen → node'.keyPtr i =
    insertAt (gap d large t f) insertKey node.keyPtr i
  bits : ∃ pos, pos < node.validLen ∧ ∀ i, i < node.validLen → node'.blindiKeys i =
    insertAt pos d node.blindiKeys i
  splits : Splits (keyBits c.keyLen) (node'.keys mem) 0 (graft d large t f)
  lists : Lists node'.blindiKeys node'.subtrieArray 0 (graft d large t f)

theorem insert2BlindiNodeInPosition_returns (size : t.leaves = node.validLen)
    (splits : Splits (keyBits c.keyLen) (node.keys mem) 0 t)
    (lists : Lists node.blindiKeys node.subtrieArray 0 t) {insertKey : Addr}
    (departs : Departs (keyBits c.keyLen) (node.keys mem) (mem insertKey) 0 t.leaves f d large)
    (idx : node.validLen + 1 < c.idxSize) (bit : d < c.bitidxSize) :
    ∃ node', Returns (fun rounds =>
      insert2BlindiNodeInPosition c rounds node (gap d large t f - 1) insertKey d large
        (decide (gap d large t f = 0))) node' ∧ Grafted mem node insertKey t f d large node' := by
  have bounds := gap_bounds d large t f
  have small := c.idxSize_le
  have bigger : large = true → decide (gap d large t f = 0) = false := by
    intro big
    have := bounds.1 big
    exact decide_eq_false (by omega)
  have relative : ((gap d large t f - 1 : Nat) : Int) + (!large).toNat -
    (decide (gap d large t f = 0)).toNat =
      (gap d large t f : Int) - large.toNat := by
    cases large with
    | true =>
      have := bounds.1 rfl
      rw [bigger rfl]
      simp only [Bool.not_true, Bool.toNat_false, Bool.toNat_true]
      omega
    | false =>
      by_cases zero : gap d false t f = 0
      · simp [zero]
      · simp only [zero, decide_false, Bool.not_false, Bool.toNat_true, Bool.toNat_false]
        omega
  obtain ⟨s, ends, stopped⟩ := insertStep_ends (c := c) lists (by omega)
    (s := { keyPtrPos := 0, blindiKeyPos := 0, n := node.validLen - 1,
            k := (gap d large t f - 1 : Nat)
            subtrieArray := node.subtrieArray })
    departs.bound rfl (by have := t.leaves_pos; dsimp only; omega) rfl relative bigger
  refine ⟨_, ends.returns.map _, ?_⟩
  have inside := stopped.right
  have walked := stopped.size
  have place : gap d large t f - 1 + 1 - (decide (gap d large t f = 0)).toNat =
      gap d large t f := by
    by_cases zero : gap d large t f = 0
    · rw [zero]
      rfl
    · rw [decide_eq_false zero, Bool.toNat_false]
      omega
  have count := stopped.count (by omega)
    (moveUp s.blindiKeyPos (node.validLen - 1 - s.blindiKeyPos) s.subtrieArray)
    (moveUp_first _ _ _)
  rw [size] at count
  have fits : (if large then s.n + 1 else 1) % c.idxSize = if large then s.n + 1 else 1 := by
    apply Nat.mod_eq_of_lt
    split_ifs <;> omega
  obtain ⟨node', put⟩ : ∃ node',
    putEntry c node insertKey (gap d large t f - 1) d large (decide (gap d large t f = 0)) s =
    node' := ⟨_, rfl⟩
  rw [put]
  rw [putEntry, count, fits, place, Nat.mod_eq_of_lt bit, Nat.mod_eq_of_lt idx] at put
  have keyPtr : ∀ i, i ≤ node.validLen → node'.keyPtr i =
      insertAt (gap d large t f) insertKey node.keyPtr i := by
    intro i hi
    rw [← put]
    exact update_moveUp _ _ _ (by omega)
  have bits' : ∀ i, i < node.validLen → node'.blindiKeys i =
      insertAt s.blindiKeyPos d node.blindiKeys i := by
    intro i hi
    rw [← put]
    exact update_moveUp _ _ _ (by omega)
  have counts' : ∀ i, i < node.validLen →
      node'.subtrieArray i =
      insertAt s.blindiKeyPos (if large then s.n + 1 else 1) s.subtrieArray i := by
    intro i hi
    rw [← put]
    exact update_moveUp _ _ _ (by omega)
  refine ⟨by rw [← put], keyPtr, ⟨s.blindiKeyPos, by omega, bits'⟩, ?_, ?_⟩
  · have whole := splits.graft departs
    rw [Nat.zero_add] at whole
    have le := gap_le d large t f
    refine whole.congr fun i _ hi => ?_
    rw [leaves_graft] at hi
    rw [SubTrieBlindiNode.keys, keyPtr i (by omega), map_insertAt mem]
    rfl
  · refine stopped.lists _ _ (fun i _ hi => ?_) ?_ ?_ fun i hi hi' => ?_
    · rw [bits' i (by omega), counts' i (by omega), insertAt_below _ _ hi, insertAt_below _ _ hi]
      exact ⟨rfl, rfl⟩
    · rw [bits' _ (by omega), insertAt_self]
    · rw [counts' _ (by omega), insertAt_self]
    · rw [bits' _ (by omega), counts' _ (by omega), insertAt_succ _ _ hi, insertAt_succ _ _ hi]
      exact ⟨rfl, stopped.outside i (.inr hi)⟩

-- The grafted node encodes the old keys and the new one.
theorem Grafted.encodes {insertKey : Addr} {node' : SubTrieBlindiNode} (encodes : Encodes mem node)
    (size : t.leaves = node.validLen) (grafted : Grafted mem node insertKey t f d large node')
    (room : node.validLen < c.numSlots) (idx : node.validLen + 1 < c.idxSize)
    (bit : d < c.bitidxSize) :
    Encodes mem node' := by
  have len := grafted.validLen
  have leaves : (graft d large t f).leaves = node'.validLen := by rw [leaves_graft, size, len]
  refine ⟨by omega, by omega, fun i hi => ?_, _, leaves, grafted.splits,
    entries_of_lists leaves grafted.lists⟩
  obtain ⟨pos, inside, bits⟩ := grafted.bits
  rw [bits i (by omega)]
  rcases Nat.lt_trichotomy i pos with lt | rfl | lt
  · rw [insertAt_below _ _ lt]
    exact encodes.bits i (by omega)
  · rwa [insertAt_self]
  · rw [insertAt_above _ _ lt]
    exact encodes.bits (i - 1) (by omega)

structure Inserted (mem : Addr → Bytes c.keyLen) (node : SubTrieBlindiNode) (insertKey : Addr)
    (r : InsertResult × SubTrieBlindiNode) : Prop where
  success : r.1 = .success
  encodes : Encodes mem r.2
  keyPtr : ∃ p, p ≤ node.validLen ∧
    entries r.2.validLen r.2.keyPtr = (entries node.validLen node.keyPtr).insertIdx p insertKey

theorem Grafted.keys {insertKey : Addr} {node' : SubTrieBlindiNode}
    (size : t.leaves = node.validLen) (grafted : Grafted mem node insertKey t f d large node') :
    gap d large t f ≤ node.validLen ∧ entries node'.validLen node'.keyPtr =
      (entries node.validLen node.keyPtr).insertIdx (gap d large t f) insertKey := by
  have le := gap_le d large t f
  rw [size] at le
  refine ⟨le, ?_⟩
  rw [grafted.validLen, entries_congr fun i hi => grafted.keyPtr i (by omega), entries_insertAt le]

theorem insert2BlindiNodeWithKey_duplicate (encodes : Encodes mem node)
    (room : node.validLen ≠ c.numSlots) {insertKey : Addr}
    (stored : ∃ i, i < node.validLen ∧ node.keys mem i = mem insertKey) :
    Returns (fun rounds => insert2BlindiNodeWithKey rounds mem node insertKey)
      (.duplicatedKey, node) := by
  obtain ⟨t, size, splits, lists⟩ := encodes.listed
  obtain ⟨i, bound, same⟩ := stored
  have search := searchBlindiNode_hit size splits lists .predecessor bound same
  have some : node.validLen ≠ 0 := by
    have := encodes.nonempty
    omega
  unfold insert2BlindiNodeWithKey
  simp only [if_neg room, if_pos some]
  refine search.bind ?_
  simp only [if_true]
  exact Returns.pure _

theorem insert2BlindiNodeWithKey_graft (encodes : Encodes mem node)
    (room : node.validLen ≠ c.numSlots) (size : t.leaves = node.validLen)
    (splits : Splits (keyBits c.keyLen) (node.keys mem) 0 t)
    (lists : Lists node.blindiKeys node.subtrieArray 0 t) {insertKey : Addr}
    (missing : ∀ i, i < node.validLen → node.keys mem i ≠ mem insertKey)
    (idx : node.validLen + 1 < c.idxSize) :
    ∃ f d large, Departs (keyBits c.keyLen) (node.keys mem) (mem insertKey) 0 t.leaves f d large ∧
      (d < c.bitidxSize → ∃ node', Grafted mem node insertKey t f d large node' ∧
        Returns (fun rounds => insert2BlindiNodeWithKey rounds mem node insertKey)
          (.success, node')) := by
  obtain ⟨f, d, large, departs, search⟩ := searchBlindiNode_miss size splits lists missing
  refine ⟨f, d, large, departs, fun bit => ?_⟩
  obtain ⟨node', returns, grafted⟩ :=
    insert2BlindiNodeInPosition_returns size splits lists departs idx bit
  refine ⟨node', grafted, ?_⟩
  have some : node.validLen ≠ 0 := by
    have := encodes.nonempty
    omega
  unfold insert2BlindiNodeWithKey
  simp only [if_neg room, if_pos some]
  refine search.bind ?_
  simp only [Bool.false_eq_true, if_false]
  exact returns.map fun node => (InsertResult.success, node)

structure InsertAnswer (mem : Addr → Bytes c.keyLen) (node : SubTrieBlindiNode) (insertKey : Addr)
    (r : InsertResult × SubTrieBlindiNode) : Prop where
  duplicate : (∃ i, i < node.validLen ∧ node.keys mem i = mem insertKey) →
    r = (.duplicatedKey, node)
  fresh : (∀ i, i < node.validLen → node.keys mem i ≠ mem insertKey) → Inserted mem node insertKey r

-- A key that is missing goes to its place.
theorem insert_missing (length : c.keyLen ≤ 8192) (mem : Addr → Bytes c.keyLen)
    {node : SubTrieBlindiNode} (encodes : Encodes mem node) (room : node.validLen < c.numSlots)
    (slots : node.validLen < 65535) (insertKey : Addr)
    (missing : ∀ i, i < node.validLen → node.keys mem i ≠ mem insertKey) :
    ∃ node', Returns (fun rounds => insert2BlindiNodeWithKey rounds mem node insertKey)
      (.success, node') ∧
      Inserted mem node insertKey (.success, node') := by
  have idx : node.validLen + 1 < c.idxSize := by
    unfold Params.idxSize
    split_ifs <;> omega
  obtain ⟨t, size, splits, lists⟩ := encodes.listed
  obtain ⟨f, d, large, departs, graft⟩ :=
    insert2BlindiNodeWithKey_graft encodes room.ne size splits lists missing idx
  have inside : d < 8 * c.keyLen := departs.beside.inside
  have bit : d < c.bitidxSize := by
    unfold Params.bitidxSize
    split_ifs <;> omega
  obtain ⟨node', grafted, returns⟩ := graft bit
  exact ⟨node', returns, rfl, grafted.encodes encodes size room idx bit, _, grafted.keys size⟩

-- An insertion ends, refuses a stored key and takes any other to its place.
theorem insert2BlindiNodeWithKey_inserted (length : c.keyLen ≤ 8192) (mem : Addr → Bytes c.keyLen)
    (node : SubTrieBlindiNode) (encodes : Encodes mem node) (room : node.validLen < c.numSlots)
    (slots : node.validLen < 65535) (insertKey : Addr) :
    ∃ r, Returns (fun rounds => insert2BlindiNodeWithKey rounds mem node insertKey) r ∧
      InsertAnswer mem node insertKey r := by
  by_cases stored : ∃ i, i < node.validLen ∧ node.keys mem i = mem insertKey
  · exact ⟨_, insert2BlindiNodeWithKey_duplicate encodes room.ne stored, fun _ => rfl,
      fun missing => stored.elim fun i here => absurd here.2 (missing i here.1)⟩
  · obtain ⟨node', returns, inserted⟩ := insert_missing length mem encodes room slots insertKey
      fun i bound same => stored ⟨i, bound, same⟩
    exact ⟨_, returns, fun here => absurd here stored, fun _ => inserted⟩

theorem insert2BlindiNodeWithKey_inserted_sample :
    ∃ r, Returns (fun rounds =>
      insert2BlindiNodeWithKey (c := sampleParams) rounds sampleKey sampleNode 5) r ∧
      InsertAnswer (c := sampleParams) sampleKey sampleNode 5 r :=
  insert2BlindiNodeWithKey_inserted (c := sampleParams) (by decide) sampleKey sampleNode
    sampleNode_encodes (by decide)
    (by decide) 5

-- The keys with from to from + n - 1 leading ones.
def chainTrie : Nat → Nat → Trie
  | 0, _ => .leaf
  | rest + 1, from_ => .branch from_ .leaf (chainTrie rest (from_ + 1))

@[simp] theorem leaves_chainTrie (rest from_ : Nat) : (chainTrie rest from_).leaves = rest + 1 := by
  induction rest generalizing from_ with
  | zero => rfl
  | succ rest ih =>
    rw [chainTrie, leaves_branch, ih, leaves_leaf]
    omega

def chainNode (n from_ : Nat) : SubTrieBlindiNode :=
  { blindiKeys := fun i => from_ + i, subtrieArray := fun _ => 1,
    keyPtr := fun i => from_ + i, validLen := n }

theorem chainTrie_lists (rest o from_ : Nat) :
    Lists (fun i => from_ + i) (fun _ => 1) o (chainTrie rest (from_ + o)) := by
  induction rest generalizing o with
  | zero => trivial
  | succ rest ih => exact ⟨rfl, rfl, trivial, ih (o + 1)⟩

theorem chainTrie_splits {len : Nat} (rest o from_ : Nat) (inside : from_ + o + rest ≤ 8 * len) :
    Splits (keyBits len) (fun i => chainKey len (from_ + i)) o (chainTrie rest (from_ + o)) := by
  induction rest generalizing o with
  | zero => trivial
  | succ rest ih =>
    refine ⟨fun i j hi hi' hj hj' => ?_, trivial, ih (o + 1) (by omega)⟩
    rw [leaves_leaf] at hi' hj
    obtain rfl : i = o := by omega
    exact chainKey_less (by omega) (by omega)

theorem chainNode_encodes {n from_ : Nat} (positive : 1 ≤ n) (fits : n ≤ c.numSlots)
    (idx : n < c.idxSize) (inside : from_ + n ≤ 8 * c.keyLen + 1)
    (bits : n = 1 ∨ from_ + n ≤ c.bitidxSize + 1) :
    Encodes (chainKey c.keyLen) (chainNode n from_) := by
  have size : (chainTrie (n - 1) from_).leaves = n := by
    rw [leaves_chainTrie]
    omega
  have lists := chainTrie_lists (n - 1) 0 from_
  refine ⟨fits, idx, fun i hi => ?_, chainTrie (n - 1) from_, size, ?_, entries_of_lists size lists⟩
  · change from_ + i < c.bitidxSize
    change i + 1 < n at hi
    omega
  · exact chainTrie_splits (n - 1) 0 from_ (by omega)

-- Two keys that first differ at bit 65536.
abbrev longParams : Params :=
  { numSlots := 6, keyLen := 8193, even := sampleSlots_even, length := by decide }

-- No node encodes these two.
theorem longNode_unfit {node : SubTrieBlindiNode}
    (encodes : Encodes (c := longParams) (chainKey 8193) node) (len : node.validLen = 2)
    (first : node.keyPtr 0 = 65536) (second : node.keyPtr 1 = 65537) : False := by
  obtain ⟨t, size, splits, lists⟩ := encodes.listed
  rw [len] at size
  have bits := encodes.bits 0 (by omega)
  cases t with
  | leaf => cases size
  | branch d left right =>
    have posL := left.leaves_pos
    have posR := right.leaves_pos
    rw [leaves_branch] at size
    have apart := splits.1 0 1 le_rfl (by omega) (by omega) (by omega)
    rw [lists.1] at bits
    rw [SubTrieBlindiNode.keys, SubTrieBlindiNode.keys, first, second] at apart
    have less : (keyBits 8193).LessAt (chainKey 8193 65536) (chainKey 8193 65537) 65536 :=
      chainKey_less (by omega) (by omega)
    have small : longParams.bitidxSize = 65536 := by decide
    have := apart.unique less
    omega

theorem longNode_refused (r : InsertResult × SubTrieBlindiNode) :
    ¬ InsertAnswer (c := longParams) (chainKey 8193) (chainNode 1 65536) 65537 r := by
  intro answer
  have less : (keyBits 8193).LessAt (chainKey 8193 65536) (chainKey 8193 65537) 65536 :=
    chainKey_less (by omega) (by omega)
  have inserted := answer.fresh fun i hi => by
    obtain rfl : i = 0 := by
      change i < 1 at hi
      omega
    exact less.ne
  obtain ⟨p, le, listed⟩ := inserted.keyPtr
  have both : entries r.2.validLen r.2.keyPtr = [65537, 65536] ∨ entries r.2.validLen r.2.keyPtr =
      [65536, 65537] := by
    change p ≤ 1 at le
    rw [listed]
    interval_cases p
    · exact .inl rfl
    · exact .inr rfl
  have len : r.2.validLen = 2 := by
    rw [← length_entries r.2.validLen r.2.keyPtr]
    rcases both with eq | eq <;> rw [eq] <;> rfl
  rw [len] at both
  rcases both with eq | eq
  · have whole : [r.2.keyPtr 0, r.2.keyPtr 1] = [65537, 65536] := eq
    obtain ⟨first, second⟩ : r.2.keyPtr 0 = 65537 ∧ r.2.keyPtr 1 = 65536 := by simpa using whole
    have wrong := inserted.encodes.increasing (i := 0) (j := 1) Nat.zero_lt_one (by omega)
    rw [SubTrieBlindiNode.keys, SubTrieBlindiNode.keys, first, second] at wrong
    exact wrong.asymm less.less
  · have whole : [r.2.keyPtr 0, r.2.keyPtr 1] = [65536, 65537] := eq
    obtain ⟨first, second⟩ : r.2.keyPtr 0 = 65536 ∧ r.2.keyPtr 1 = 65537 := by simpa using whole
    exact longNode_unfit inserted.encodes len first second

theorem insert_validLen {rounds : Nat} {insertKey : Addr} {r : InsertResult × SubTrieBlindiNode}
    (some_ : node.validLen ≠ 0)
    (result : insert2BlindiNodeWithKey rounds mem node insertKey = some r)
    (success : r.1 = .success) : r.2.validLen = (node.validLen + 1) % c.idxSize := by
  rw [insert2BlindiNodeWithKey] at result
  by_cases full : node.validLen = c.numSlots
  · rw [if_pos full] at result
    obtain rfl := Option.some.inj result
    cases success
  · rw [if_neg full, if_pos some_] at result
    obtain ⟨search, _, result⟩ := Option.bind_eq_some_iff.mp result
    by_cases hit : search.hit = true
    · rw [if_pos hit] at result
      obtain rfl := Option.some.inj result
      cases success
    · rw [if_neg hit, insert2BlindiNodeInPosition, Option.map_map] at result
      obtain ⟨s, _, rfl⟩ := Option.map_eq_some_iff.mp result
      rfl

theorem vastSlots_even : 65536 % 2 = 0 := rfl

-- One key more than valid_len can count.
abbrev vastParams : Params :=
  { numSlots := 65536, keyLen := 8192, even := vastSlots_even, length := by decide }

theorem vastNode_lost (r : InsertResult × SubTrieBlindiNode)
    (returns : Returns (fun rounds =>
      insert2BlindiNodeWithKey (c := vastParams) rounds (chainKey 8192)
      (chainNode 65535 0) 65535) r) :
    ¬ InsertAnswer (c := vastParams) (chainKey 8192) (chainNode 65535 0) 65535 r := by
  intro answer
  have inserted := answer.fresh fun i hi => by
    change i < 65535 at hi
    change chainKey 8192 (0 + i) ≠ chainKey 8192 65535
    exact (chainKey_less (by omega) (by omega)).ne
  obtain ⟨bound, result⟩ := returns
  have len := insert_validLen (by decide) (result bound le_rfl) inserted.success
  have nonempty := inserted.encodes.nonempty
  rw [len] at nonempty
  revert nonempty
  decide

-- Both limits are needed: the key length and the type of valid_len.
theorem insertion_limits :
    (∃ (c : Params) (mem : Addr → Bytes c.keyLen) (node : SubTrieBlindiNode) (insertKey : Addr),
      c.keyLen = 8193 ∧ c.numSlots = 6 ∧ Encodes mem node ∧ node.validLen < c.numSlots ∧
        ¬ ∃ r, Returns (fun rounds => insert2BlindiNodeWithKey rounds mem node insertKey) r ∧
          InsertAnswer mem node insertKey r) ∧
      ∃ (c : Params) (mem : Addr → Bytes c.keyLen) (node : SubTrieBlindiNode) (insertKey : Addr),
        c.keyLen = 8192 ∧ c.numSlots = 65536 ∧ Encodes mem node ∧ node.validLen < c.numSlots ∧
          ¬ ∃ r, Returns (fun rounds => insert2BlindiNodeWithKey rounds mem node insertKey) r ∧
            InsertAnswer mem node insertKey r :=
  ⟨⟨longParams, chainKey 8193, chainNode 1 65536, 65537, rfl, rfl,
      chainNode_encodes (by decide) (by decide) (by decide) (by decide) (by decide), by decide,
      fun ⟨r, _, answer⟩ => longNode_refused r answer⟩,
    ⟨vastParams, chainKey 8192, chainNode 65535 0, 65535, rfl, rfl,
      chainNode_encodes (by decide) (by decide) (by decide) (by decide) (by decide), by decide,
      fun ⟨r, returns, answer⟩ => vastNode_lost r returns answer⟩⟩

end ElasticIndex.SubTrie
