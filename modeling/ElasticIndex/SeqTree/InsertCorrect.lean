import ElasticIndex.SeqTree.PushDown

set_option autoImplicit false

namespace ElasticIndex.SeqTree

open SequenceEdit BitOrder BlindSequence CartesianTree CartesianTree.PosTree SlotTree

variable {c : Params} {node : SeqTreeBlindiNode} {array blindiKeys b : Nat → Nat} {t : PosTree}
  {insertPosition diffPos g : Nat} {largeSmall smallerThanNode : Bool}

def bump (sentinel g v : Nat) : Nat := if v ≠ sentinel ∧ g ≤ v then v + 1 else v

theorem bumpLevel_spec (lo rest : Nat) (array : Nat → Nat) (le : insertPosition ≤ g)
    (below : insertPosition < c.endTree)
    (values : ∀ s, lo ≤ s → s < lo + rest → array s ≤ c.endTree)
    (sorted : ∀ s s', lo ≤ s → s < s' → s' < lo + rest → array s ≠ c.endTree →
      array s' ≠ c.endTree →
      array s < array s')
    (moves : ∀ s, lo ≤ s → s < lo + rest → array s ≠ c.endTree → (insertPosition < array s ∨
      array s = insertPosition ∧ diffPos = blindiKeys (array s) ↔ g ≤ array s)) (s : Nat) :
    bumpLevel c blindiKeys insertPosition diffPos rest (lo + rest) array s =
      if lo ≤ s ∧ s < lo + rest then bump c.endTree g (array s) else array s := by
  induction rest generalizing array with
  | zero =>
    rw [if_neg (by omega)]
    rfl
  | succ rest ih =>
    have index : lo + (rest + 1) - 1 = lo + rest := by omega
    unfold bumpLevel
    dsimp only
    rw [index]
    have here := values (lo + rest) (by omega) (by omega)
    have move := moves (lo + rest) (by omega) (by omega)
    have change_ (v : Nat) (s : Nat) (ne : s ≠ lo + rest) :
        Function.update array (lo + rest) v s = array s :=
      Function.update_of_ne ne _ _
    by_cases shift : (array (lo + rest) ≠ c.endTree ∧ insertPosition < array (lo + rest)) ∨
        (array (lo + rest) = insertPosition ∧ diffPos = blindiKeys (array (lo + rest)))
    · have present : array (lo + rest) ≠ c.endTree := by
        rcases shift with ⟨ne, _⟩ | ⟨eq, _⟩ <;> omega
      have past : g ≤ array (lo + rest) := (move present).mp (shift.imp And.right id)
      have fits : array (lo + rest) + 1 < c.idxSize := by
        have : c.endTree = c.idxSize - 1 := rfl
        omega
      rw [if_pos shift, Nat.mod_eq_of_lt fits, ih]
      · by_cases last : s = lo + rest
        · subst last
          rw [if_neg (by omega), if_pos (by omega), Function.update_self, bump,
            if_pos ⟨present, past⟩]
        · rw [change_ _ s last]
          by_cases inside : lo ≤ s ∧ s < lo + rest
          · rw [if_pos inside, if_pos (by omega)]
          · rw [if_neg inside, if_neg (by omega)]
      · intro s hs lt
        rw [change_ _ s (by omega)]
        exact values s hs (by omega)
      · intro s s' hs lt lt'
        rw [change_ _ s (by omega), change_ _ s' (by omega)]
        exact sorted s s' hs lt (by omega)
      · intro s hs lt
        rw [change_ _ s (by omega)]
        exact moves s hs (by omega)
    · rw [if_neg shift]
      have stays : bump c.endTree g (array (lo + rest)) = array (lo + rest) := by
        unfold bump
        rw [if_neg]
        rintro ⟨present, past⟩
        exact shift (((move present).mpr past).imp (fun lt => ⟨present, lt⟩) id)
      by_cases stop : array (lo + rest) < insertPosition
      · rw [if_pos stop]
        by_cases inside : lo ≤ s ∧ s < lo + (rest + 1)
        · rw [if_pos inside, bump, if_neg]
          rintro ⟨present, past⟩
          by_cases last : s = lo + rest
          · subst last
            omega
          · have := sorted s (lo + rest) inside.1 (by omega) (by omega) present (by omega)
            omega
        · rw [if_neg inside]
      · rw [if_neg stop, ih array (fun s hs lt => values s hs (by omega))
          (fun s s' hs lt lt' => sorted s s' hs lt (by omega)) fun s hs lt => moves s hs (by omega)]
        by_cases last : s = lo + rest
        · subst last
          rw [if_neg (by omega), if_pos (by omega), stays]
        · by_cases inside : lo ≤ s ∧ s < lo + rest
          · rw [if_pos inside, if_pos (by omega)]
          · rw [if_neg inside, if_neg (by omega)]

theorem path_of_level {p : List Bool} {l : Nat} (left : 2 ^ l - 1 ≤ slot p)
    (right : slot p < 2 ^ (l + 1) - 1) :
    p.length = l := by
  have short := length_of_slot_lt right
  have high := slot_lt p
  by_contra ne
  have mono : 2 ^ (p.length + 1) ≤ 2 ^ l := Nat.pow_le_pow_right (by omega) (by omega)
  omega

theorem bumpLevels_spec {lo hi : Nat} (tree : IsCartesian b lo hi t)
    (cut : Cut c.endTree c.treeLevels array t) (bound : hi ≤ c.endTree) (le : insertPosition ≤ g)
    (below : insertPosition < c.endTree)
    (moves : ∀ m, lo ≤ m → m < hi →
      (insertPosition < m ∨ m = insertPosition ∧ diffPos = blindiKeys m ↔ g ≤ m))
    (levels : Nat) (inside : levels ≤ c.treeLevels) (s : Nat) :
    bumpLevels c blindiKeys insertPosition diffPos levels array s =
      if s < 2 ^ levels - 1 then bump c.endTree g (array s) else array s := by
  have entry (s : Nat) (lt : s < 2 ^ c.treeLevels - 1) : array s = c.endTree ∨ lo ≤ array s ∧
      array s < hi := by
    obtain ⟨p, rfl⟩ := exists_path s
    rw [cut p (length_of_slot_lt lt)]
    cases root : (t.sub p).root with
    | none => exact .inl rfl
    | some m => exact .inr (tree.sub_bounds root)
  induction levels generalizing s with
  | zero =>
    rw [if_neg (by simp)]
    rfl
  | succ l ih =>
    have power : 2 ^ (l + 1) ≤ 2 ^ c.treeLevels := Nat.pow_le_pow_right (by omega) inside
    have double : 2 ^ (l + 1) = 2 * 2 ^ l := by ring
    have positive : 1 ≤ 2 ^ l := Nat.one_le_two_pow
    have ih := ih (by omega)
    have fresh (s : Nat) (ge : 2 ^ l - 1 ≤ s) :
        bumpLevels c blindiKeys insertPosition diffPos l array s = array s := by
      rw [ih, if_neg (by omega)]
    have start : 2 ^ (l + 1) - 1 = 2 ^ l - 1 + 2 ^ l := by omega
    rw [bumpLevels, start]
    rw [bumpLevel_spec (2 ^ l - 1) (2 ^ l) _ le below]
    · by_cases here : 2 ^ l - 1 ≤ s
      · rw [fresh s here]
        by_cases last : s < 2 ^ l - 1 + 2 ^ l
        · rw [if_pos ⟨here, last⟩, if_pos last]
        · rw [if_neg (by omega), if_neg last]
      · rw [if_neg (by omega), ih, if_pos (by omega), if_pos (by omega)]
    · intro s hs lt
      rw [fresh s hs]
      rcases entry s (by omega) with eq | ⟨_, lt⟩ <;> omega
    · intro s s' hs lt lt' present present'
      rw [fresh s hs] at present ⊢
      rw [fresh s' (by omega)] at present' ⊢
      obtain ⟨p, rfl⟩ := exists_path s
      obtain ⟨p', rfl⟩ := exists_path s'
      have len := path_of_level hs (by omega)
      have len' := path_of_level (p := p') (l := l) (by omega) (by omega)
      rw [cut p (by omega)] at present ⊢
      rw [cut p' (by omega)] at present' ⊢
      cases root : (t.sub p).root with
      | none => rw [root] at present; exact absurd rfl present
      | some m =>
        cases root' : (t.sub p').root with
        | none => rw [root'] at present'; exact absurd rfl present'
        | some m' => exact level_mono tree (by omega) lt root root'
    · intro s hs lt present
      rw [fresh s hs] at present ⊢
      rcases entry s (by omega) with eq | ⟨first, last⟩
      · exact absurd eq present
      · exact moves _ first last

-- The shifted array is the cut of the tree with the positions from g on moved up.
theorem bumpLevels_cut {lo hi : Nat} (tree : IsCartesian b lo hi t)
    (cut : Cut c.endTree c.treeLevels array t) (bound : hi ≤ c.endTree) (le : insertPosition ≤ g)
    (below : insertPosition < c.endTree)
    (moves : ∀ m, lo ≤ m → m < hi →
      (insertPosition < m ∨ m = insertPosition ∧ diffPos = blindiKeys m ↔ g ≤ m)) :
    Cut c.endTree c.treeLevels (bumpLevels c blindiKeys insertPosition diffPos c.treeLevels array)
      (t.map (shiftFrom g)) := by
  intro p inside
  rw [bumpLevels_spec tree cut bound le below moves c.treeLevels le_rfl,
    if_pos (slot_lt_of_length inside), cut p inside, sub_map, root_map]
  cases root : (t.sub p).root with
  | none =>
    simp only [Option.getD_none, Option.map_none, bump]
    rw [if_neg (by simp)]
  | some m =>
    have := tree.sub_bounds root
    simp only [Option.getD_some, Option.map_some, bump, shiftFrom]
    by_cases past : g ≤ m
    · rw [if_pos ⟨by omega, past⟩, if_neg (by omega)]
    · rw [if_neg (by omega), if_pos (by omega)]

theorem attach_child (last : Bool) (g : Nat) (s : PosTree) (e : Bool) :
    (attach last g s).child e = if e = !last then s else .nil := by
  cases last <;> cases e <;> rfl

theorem insertTree_cut {q : List Bool} {last : Bool} (cut : Cut c.endTree c.treeLevels array t)
    (above : ∀ p e es, q = p ++ e :: es → t.sub p ≠ .nil) (short : q.length < c.treeLevels)
    (small : g < c.endTree) (side : ∀ m, (t.sub q).root = some m → (m < g ↔ last = true)) :
    Cut c.endTree c.treeLevels (insertTree c g (slot q) (q.length + 1) array)
      (modify (attach last g) q t) := by
  have fits : g < c.idxSize := by
    have : c.endTree = c.idxSize - 1 := rfl
    omega
  obtain ⟨top, below, aside⟩ := insertTree_spec array fits short rfl
  intro p inside
  by_cases under : q <+: p
  · obtain ⟨w, rfl⟩ := under
    rw [sub_modify_below _ _ _ _ above]
    cases w with
    | nil =>
      rw [List.append_nil, top]
      cases last <;> rfl
    | cons e w =>
      simp only [List.length_append, List.length_cons] at inside
      rw [below w e (by omega), cut (q ++ w) (by simp; omega), cut q short, sub_append,
        sub_cons, attach_child]
      cases root : (t.sub q).root with
      | none =>
        have empty : t.sub q = .nil := by
          cases sub : t.sub q with
          | nil => rfl
          | node l m r => rw [sub] at root; cases root
        simp [empty]
      | some m =>
        have turn : (!decide ((some m).getD c.endTree < g)) = !last := by
          rw [Option.getD_some]
          cases last with
          | true => simpa using (side m root).mpr rfl
          | false => simpa using (side m root).not.mpr Bool.false_ne_true
        rw [turn]
        by_cases same : e = !last
        · rw [if_pos same, if_pos same]
        · rw [if_neg same, if_neg same, nil_sub]
          rfl
  · rw [root_modify_aside _ _ _ _ under, aside, cut p inside]
    intro w _ same
    obtain rfl := slot_injective same
    exact under (List.prefix_append _ _)

-- The arrays after the shift are the old ones with the key at next and the bit at g.
theorem insertSequence_spec (node : SeqTreeBlindiNode) (insertKey : Addr) (diffPos : Nat)
    (positive : 0 < node.validLen)
    (large : largeSmall = true → insertPosition = g ∧ smallerThanNode = false ∧ g < node.validLen)
    (less : largeSmall = false → insertPosition = g - 1 ∧ smallerThanNode = decide (g = 0) ∧
      g < node.validLen) :
    let r := insertSequence c node insertKey insertPosition diffPos largeSmall smallerThanNode
    r.2 = g ∧ r.1.blindiTree = node.blindiTree ∧ r.1.validLen = (node.validLen + 1) % c.idxSize ∧
      (∀ i, i ≤ node.validLen → r.1.keyPtr i =
      insertAt (g + largeSmall.toNat) insertKey node.keyPtr i) ∧
      ∀ i, i < node.validLen → r.1.blindiKeys i =
      insertAt g (diffPos % c.bitidxSize) node.blindiKeys i := by
  intro r
  cases largeSmall with
  | true =>
    obtain ⟨rfl, rfl, bound⟩ := large rfl
    by_cases last : insertPosition = node.validLen - 1
    · have whole : shiftSequence c node insertPosition diffPos true false =
          (node, insertPosition) := by
        rw [shiftSequence, if_neg (by simp; omega)]
      have eq : r = insertSequence c node insertKey insertPosition diffPos true false := rfl
      rw [eq, insertSequence, whole]
      refine ⟨rfl, rfl, rfl, fun i hi => ?_, fun i hi => ?_⟩
      · simp only [Function.update_apply, insertAt]
        grind
      · simp only [insertAt]
        grind
    · have eq : r = insertSequence c node insertKey insertPosition diffPos true false := rfl
      rw [eq, insertSequence, shiftSequence, if_pos (.inr ⟨last, by omega⟩)]
      refine ⟨rfl, rfl, rfl, fun i hi => ?_, fun i hi => ?_⟩
      · dsimp only
        simp only [reduceIte, Bool.false_eq_true, ite_apply, Function.update_apply,
          insertAt, moveUp_eq]
        grind
      · dsimp only
        simp only [reduceIte, Bool.false_eq_true, ite_apply, Function.update_apply,
          insertAt, moveUp_eq]
        grind
  | false =>
    obtain ⟨rfl, rfl, bound⟩ := less rfl
    have next : g - 1 + 1 - (decide (g = 0)).toNat = g := by
      by_cases zero : g = 0
      · subst zero
        rfl
      · simp only [zero, decide_false, Bool.toNat_false]
        omega
    have eq : r = insertSequence c node insertKey (g - 1) diffPos false (decide (g = 0)) := rfl
    rw [eq, insertSequence, shiftSequence, if_pos (by simp; omega)]
    simp only [reduceIte, Bool.false_eq_true, and_false, next, ite_apply, Function.update_apply,
      insertAt, moveUp_eq, decide_eq_true_eq, Bool.toNat_false, true_and]
    refine ⟨fun i hi => ?_, fun i hi => ?_⟩
    · grind
    · grind

@[simp] theorem breathe_validLen (node : SeqTreeBlindiNode) :
    (breathe c node).validLen = node.validLen := by
  unfold breathe
  split_ifs <;> rfl

@[simp] theorem breathe_keyPtr (node : SeqTreeBlindiNode) :
    (breathe c node).keyPtr = node.keyPtr := by
  unfold breathe
  split_ifs <;> rfl

@[simp] theorem breathe_blindiKeys (node : SeqTreeBlindiNode) :
    (breathe c node).blindiKeys = node.blindiKeys := by
  unfold breathe
  split_ifs <;> rfl

@[simp] theorem breathe_blindiTree (node : SeqTreeBlindiNode) :
    (breathe c node).blindiTree = node.blindiTree := by
  unfold breathe
  split_ifs <;> rfl

theorem insert2BlindiNodeInPosition_validLen (insertKey : Addr) (insertPosition diffPos : Nat)
    (large smaller : Bool) (traverse : Traverse) :
    (insert2BlindiNodeInPosition c node insertKey insertPosition diffPos large smaller
      traverse).validLen =
      (node.validLen + 1) % c.idxSize := by
  have sequence : (insertSequence c (breathe c node) insertKey insertPosition diffPos large
    smaller).1.validLen =
      (node.validLen + 1) % c.idxSize := by
    unfold insertSequence
    dsimp only
    rw [breathe_validLen]
  unfold insert2BlindiNodeInPosition
  dsimp only
  split_ifs <;> exact sequence

theorem Located.diffPos_le {mem : Addr → Bytes c.keyLen} {node : SeqTreeBlindiNode}
    {x : Bytes c.keyLen} {t : PosTree} {q : List Bool} {f glo ghi : Nat} {r : SearchResult}
    (small : c.Representable) (found : Located mem node x t q f glo ghi r) :
    r.diffPos ≤ c.maxHighMiss := by
  cases side : r.largeSmall with
  | true => exact small.bit_le (found.above side).inside
  | false => exact small.bit_le (found.below side).inside

-- The key sequence after a miss: the new key stands next to its group.
theorem Located.blind_insert {mem : Addr → Bytes c.keyLen} {node : SeqTreeBlindiNode}
    {x : Bytes c.keyLen} {t : PosTree} {q : List Bool} {f glo ghi : Nat} {r : SearchResult}
    (wf : WellFormed mem node) (found : Located mem node x t q f glo ghi r) :
    Blind (keyBits c.keyLen)
      (insertAt (gapOf r.largeSmall glo ghi + r.largeSmall.toNat) x (node.keys mem))
      (insertAt (gapOf r.largeSmall glo ghi) r.diffPos node.blindiKeys) (node.validLen + 1) := by
  have group := found.group
  have bound := group.bound
  cases side : r.largeSmall with
  | true =>
    obtain ⟨less, next⟩ := found.best.above_group wf.blind group (found.above side)
    exact wf.blind.insert_above bound less next
  | false =>
    obtain ⟨less, prev⟩ := found.best.below_group wf.blind group (found.below side)
    exact wf.blind.insert_below (lt_of_le_of_lt (le_trans group.left group.right) bound) less prev

theorem insert2BlindiNodeInPosition_spec {mem : Addr → Bytes c.keyLen} {node : SeqTreeBlindiNode}
    {insertKey : Addr} {t : PosTree} {q : List Bool} {f glo ghi : Nat} {r : SearchResult}
    (small : c.Representable) (wf : WellFormed mem node) (room : node.validLen < c.endTree)
    (free : node.validLen < c.numSlots) (tree : IsCartesian node.blindiKeys 0 (node.validLen - 1) t)
    (cut : Cut c.endTree c.treeLevels node.blindiTree t)
    (found : Located mem node (mem insertKey) t q f glo ghi r) :
    let node' := insert2BlindiNodeInPosition c node insertKey r.position r.diffPos
      r.largeSmall r.smallerThanNode
      r.traverse
    WellFormed mem node' ∧ node'.validLen = node.validLen + 1 ∧ ∀ i, i ≤ node.validLen →
      node'.keyPtr i = insertAt (gapOf r.largeSmall glo ghi + r.largeSmall.toNat) insertKey
      node.keyPtr i := by
  intro node'
  have nonempty := wf.nonempty
  have group := found.group
  have bound := group.bound
  have order := le_trans group.left group.right
  have path := found.reaches.arrives
  have fits : r.diffPos % c.bitidxSize = r.diffPos := by
    have := found.diffPos_le small
    apply Nat.mod_eq_of_lt
    unfold Params.maxHighMiss Params.bitidxSize at *
    split_ifs at * <;> omega
  have place := found.place
  obtain ⟨g, gap⟩ : ∃ g, gapOf r.largeSmall glo ghi = g := ⟨_, rfl⟩
  have large : r.largeSmall = true → r.position = g ∧ r.smallerThanNode = false ∧
      g < node.validLen := by
    intro side
    rw [side] at place gap
    obtain ⟨position, smaller⟩ := Prod.mk.inj place
    exact ⟨position.trans gap, smaller, by rw [← gap]; exact bound⟩
  have less : r.largeSmall = false → r.position = g - 1 ∧ r.smallerThanNode = decide (g = 0) ∧
      g < node.validLen := by
    intro side
    rw [side] at place gap
    obtain rfl : glo = g := gap
    obtain ⟨position, smaller⟩ := Prod.mk.inj place
    exact ⟨position, smaller, by omega⟩
  obtain ⟨blindiKeyPosition, sameTree, len, keyPtr, blindiKeys⟩ :=
    insertSequence_spec (c := c) (breathe c node) insertKey
      r.diffPos (by rw [breathe_validLen]; exact nonempty) (by rwa [breathe_validLen])
      (by rwa [breathe_validLen])
  obtain ⟨r', same⟩ : ∃ r',
    insertSequence c (breathe c node) insertKey r.position r.diffPos r.largeSmall
    r.smallerThanNode = r' := ⟨_, rfl⟩
  rw [same] at blindiKeyPosition sameTree len keyPtr blindiKeys
  simp only [breathe_validLen, breathe_keyPtr, breathe_blindiKeys, breathe_blindiTree]
    at sameTree len keyPtr blindiKeys
  have fitsLen : (node.validLen + 1) % c.idxSize = node.validLen + 1 := by
    apply Nat.mod_eq_of_lt
    have : c.endTree = c.idxSize - 1 := rfl
    omega
  rw [fitsLen] at len
  rw [fits] at blindiKeys
  obtain ⟨bumped, hb⟩ : ∃ bumped,
    bumpLevels c r'.1.blindiKeys r.position r.diffPos c.treeLevels node.blindiTree =
    bumped := ⟨_, rfl⟩
  obtain ⟨filled, unfolded, inTrees⟩ : ∃ filled : Nat → Nat, node' =
    { r'.1 with blindiTree := filled } ∧
      (0 < c.treeLevels →
        filled = if r.traverse.inTree then insertTree c g r.traverse.last r.traverse.len bumped
        else bumped) := by
    have eq : node' = insert2BlindiNodeInPosition c node insertKey r.position r.diffPos r.largeSmall
      r.smallerThanNode r.traverse := rfl
    rw [eq, insert2BlindiNodeInPosition, same, ← blindiKeyPosition, ← hb, ← sameTree]
    dsimp only
    by_cases some : 0 < c.treeLevels
    · rw [if_pos some]
      refine ⟨_, ?_, fun _ => rfl⟩
      cases r.traverse.inTree <;> rfl
    · rw [if_neg some]
      exact ⟨r'.1.blindiTree, rfl, fun some' => absurd some' some⟩
  have moves : ∀ m, 0 ≤ m → m < node.validLen - 1 →
      (r.position < m ∨ m = r.position ∧ r.diffPos = r'.1.blindiKeys m ↔ g ≤ m) := by
    intro m _ hm
    rw [blindiKeys m (by omega)]
    cases side : r.largeSmall with
    | true =>
      obtain ⟨position, _, _⟩ := large side
      rw [position]
      by_cases here : m = g
      · subst here
        simp
      · omega
    | false =>
      obtain ⟨position, _, _⟩ := less side
      rw [position]
      rw [side] at gap
      obtain rfl : glo = g := gap
      by_cases here : m = glo - 1
      · subst here
        by_cases zero : glo = 0
        · subst zero
          simp
        · have low := group.prev (by omega)
          rw [insertAt_below _ _ (by omega)]
          omega
      · omega
  have positionLe : r.position ≤ g ∧ g < node.validLen := by
    cases side : r.largeSmall with
    | true => have := large side; omega
    | false => have := less side; omega
  have cutBumped : Cut c.endTree c.treeLevels bumped (t.map (shiftFrom g)) :=
    hb ▸ bumpLevels_cut tree cut (by omega) positionLe.1 (by omega) moves
  have cartesian : IsCartesian node'.blindiKeys 0 node.validLen
      ((t.map (shiftFrom g)).modify (attach r.largeSmall g) q) := by
    have inserted := tree.insert r.largeSmall (Nat.zero_le _) path group.deep group.prev
      fun lt => group.next (by omega)
    rw [gap, Nat.sub_add_cancel nonempty] at inserted
    refine inserted.congr fun i _ hi => ?_
    rw [unfolded]
    exact blindiKeys i hi
  have cut' : Cut c.endTree c.treeLevels node'.blindiTree
      ((t.map (shiftFrom g)).modify (attach r.largeSmall g) q) := by
    rw [unfolded]
    dsimp only
    by_cases some : 0 < c.treeLevels
    case neg => exact fun p inside => absurd inside (by omega)
    rw [inTrees some]
    cases inTree : r.traverse.inTree with
    | true =>
      obtain ⟨short, last, len⟩ := found.inTree inTree
      rw [if_pos rfl, last, len]
      refine insertTree_cut cutBumped (fun p e es split => ?_) short (by omega) fun m root => ?_
      · rw [sub_map]
        have := path.present p e es split
        cases sub : t.sub p with
        | nil => exact absurd sub this
        | node l m r => simp [PosTree.map]
      · rw [sub_map, root_map] at root
        obtain ⟨m', root', rfl⟩ := Option.map_eq_some_iff.mp root
        have min := (found.reaches.cartesian tree).min root'
        have := min.left
        have := min.right
        cases side : r.largeSmall with
        | true =>
          rw [side] at gap
          obtain rfl : ghi = g := gap
          simp [shiftFrom_below min.right, min.right]
        | false =>
          rw [side] at gap
          obtain rfl : glo = g := gap
          simp only [shiftFrom_above min.left, Bool.false_eq_true, iff_false]
          omega
    | false =>
      have deep := found.below_tree inTree
      rw [if_neg Bool.false_ne_true]
      intro p inside
      rw [root_modify_aside _ _ _ _ fun under => ?_]
      · exact cutBumped p inside
      · have := under.length_le
        omega
  have validLen : node'.validLen = node.validLen + 1 := by rw [unfolded]; exact len
  have ptr : ∀ i, i ≤ node.validLen →
      node'.keyPtr i = insertAt (g + r.largeSmall.toNat) insertKey node.keyPtr i := by
    rw [unfolded]
    exact keyPtr
  have bits : ∀ i, i < node.validLen → node'.blindiKeys i =
      insertAt g r.diffPos node.blindiKeys i := by
    rw [unfolded]
    exact blindiKeys
  rw [gap]
  refine ⟨⟨by omega, by omega, by omega, ?_, ?_⟩, validLen, ptr⟩
  · have blind := found.blind_insert wf
    rw [validLen]
    rw [gap] at blind
    refine blind.congr (fun i hi => ?_) fun i hi => bits i (by omega)
    rw [SeqTreeBlindiNode.keys, ptr i (by omega), map_insertAt mem]
    rfl
  · rw [validLen, Nat.add_sub_cancel]
    exact ⟨_, cartesian, cut'⟩

theorem firstInsert_wellFormed {mem : Addr → Bytes c.keyLen} (node : SeqTreeBlindiNode) (key : Addr)
    (slots : 1 ≤ c.numSlots) :
    WellFormed mem (firstInsert c node key) := by
  have sentinel := endTree_eq c
  refine ⟨le_rfl, slots, ?_, fun i hi => ?_, .nil, .nil le_rfl, fun p short => ?_⟩
  · change 1 ≤ c.endTree
    omega
  · change i + 1 < 1 at hi
    omega
  · have inside := slot_lt_of_length short
    simp only [nil_sub, root_nil, Option.getD_none]
    change fill 0 c.treeSize c.endTree node.blindiTree (slot p) = c.endTree
    rw [fill, if_pos ⟨Nat.zero_le _, by rw [Nat.zero_add]; exact inside⟩]

structure InsertAnswer (mem : Addr → Bytes c.keyLen) (node : SeqTreeBlindiNode) (insertKey : Addr)
    (r : InsertResult × SeqTreeBlindiNode) : Prop where
  success : r.1 = .success
  wellFormed : WellFormed mem r.2
  validLen : r.2.validLen = node.validLen + 1
  keyPtr : ∃ p, p ≤ node.validLen ∧ ∀ i, i ≤ node.validLen → r.2.keyPtr i =
    insertAt p insertKey node.keyPtr i

theorem insert2BlindiNodeWithKey_room {mem : Addr → Bytes c.keyLen} {node : SeqTreeBlindiNode}
    {insertKey : Addr} (small : c.Representable) (levels : 1 ≤ c.treeLevels)
    (wf : WellFormed mem node) (room : node.validLen < c.numSlots % 65536)
    (missing : ∀ i, i < node.validLen → node.keys mem i ≠ mem insertKey) :
    InsertAnswer mem node insertKey (insert2BlindiNodeWithKey mem node insertKey) := by
  have nonempty := wf.nonempty
  have free : node.validLen < c.numSlots := lt_of_lt_of_le room (Nat.mod_le _ _)
  have inside : node.validLen < c.endTree := by
    have even := c.even
    unfold Params.endTree Params.idxSize
    split_ifs <;> omega
  obtain ⟨t, tree, cut⟩ := wf.tree
  obtain ⟨q, f, glo, ghi, found⟩ := searchBlindiNode_miss small wf levels tree cut .zero missing
  obtain ⟨wellFormed, validLen, keyPtr⟩ :=
    insert2BlindiNodeInPosition_spec small wf inside free tree cut found
  have bound := found.group.bound
  have order := le_trans found.group.left found.group.right
  unfold insert2BlindiNodeWithKey
  rw [if_neg (by omega), if_pos (by omega)]
  dsimp only
  rw [if_neg (by simp [found.miss])]
  refine ⟨rfl, wellFormed, validLen, _, ?_, keyPtr⟩
  cases (searchBlindiNode mem node (mem insertKey) .predecessor .zero).largeSmall <;>
    simp only [gapOf, if_true, Bool.false_eq_true, if_false, Bool.toNat_true,
    Bool.toNat_false] <;> omega

-- An absent key goes to its sorted place of a node with room.
theorem insert2BlindiNodeWithKey_answer (small : c.Representable) (slots : c.numSlots < 65536)
    (levels : 1 ≤ c.treeLevels) (mem : Addr → Bytes c.keyLen) (node : SeqTreeBlindiNode)
    (wf : WellFormed mem node) (room : node.validLen < c.numSlots) (insertKey : Addr)
    (missing : ∀ i, i < node.validLen → node.keys mem i ≠ mem insertKey) :
    InsertAnswer mem node insertKey (insert2BlindiNodeWithKey mem node insertKey) :=
  insert2BlindiNodeWithKey_room small levels wf (by rwa [Nat.mod_eq_of_lt slots]) missing

theorem insert2BlindiNodeWithKey_answer_sample :
    InsertAnswer (c := sampleParams) sampleKey sampleNode 3
      (insert2BlindiNodeWithKey (c := sampleParams) sampleKey sampleNode 3) :=
  insert2BlindiNodeWithKey_answer (c := sampleParams) ⟨by decide,
    by decide⟩ (by decide) (by decide) sampleKey
    sampleNode sampleNode_wellFormed (by decide) 3 (by decide)

theorem deepNode_insert :
    let node := (insert2BlindiNodeWithKey (c := deepParams) deepKey deepNode 18).2
    node.validLen = 19 ∧ node.keyPtr 15 = 18 ∧ node.keyPtr 16 = 15 := by
  decide

theorem wideNode_search (mem : Addr → Bytes 8192) (x : Bytes 8192)
    (clear : isNthBitSetInString x 0 = false)
    (compare : compareStage x (mem (wideNode.keyPtr 0)) =
      { eq := false, bigSmall := true, position := 65534 }) :
    searchBlindiNode (c := wideParams) mem wideNode x .predecessor .zero =
      { position := 1, hit := false, smallerThanNode := false, diffPos := 65534, largeSmall := true,
        traverse := { Traverse.zero with endBkSeqPos := 1, seq := true, len := 1 } } := by
  rw [searchBlindiNode, wideNode_firstStage x clear]
  dsimp only
  rw [compare]
  decide

theorem wideNode_insert :
    let node := (insert2BlindiNodeWithKey (c := wideParams) wideKey wideNode 3).2
    node.validLen = 4 ∧ node.blindiKeys 1 = 65534 ∧ node.keyPtr 1 = 1 ∧ node.keyPtr 2 = 3 := by
  have clear : isNthBitSetInString (wideKey 3) 0 = false := by
    rw [wideKey_bit 3 (by omega)]
    decide
  have found := wideNode_search wideKey (wideKey 3) clear
    (compareStage_of_greater (wideKey_less (.inr rfl)))
  rw [insert2BlindiNodeWithKey, if_neg (by decide), if_pos (by decide), found]
  decide

theorem wideNode_broken {node : SeqTreeBlindiNode} (len : node.validLen = 4)
    (bit : node.blindiKeys 1 = 65534) (first : node.keyPtr 1 = 1) (second : node.keyPtr 2 = 3) :
    ¬ WellFormed (c := wideParams) wideKey node := by
  intro wf
  have less := wf.blind 1 (by omega)
  unfold SeqTreeBlindiNode.keys at less
  rw [first, second, bit] at less
  have low := less.low
  rw [keyBits_bit, wideKey_bit 1 (by omega)] at low
  revert low
  decide

abbrev narrowParams : Params := { treeLevels := 1, numSlots := 65538, keyLen := 1, even := rfl }

def narrowNode : SeqTreeBlindiNode :=
  { validLen := 2
    blindiTree := cutArray 65535 1 (.node .nil 0 .nil)
    currentMaxSlot := 2
    keyPtr := fun i => 2 ^ i
    blindiKeys := fun i => 6 - i }

theorem narrowNode_wellFormed : WellFormed (c := narrowParams) sampleKey narrowNode := by
  refine ⟨by decide, by decide, by decide, fun i hi => ?_, .node .nil 0 .nil, by decide,
    cut_cutArray 65535 1 _⟩
  change i + 1 < 2 at hi
  obtain rfl : i = 0 := by omega
  exact lessAt_of_compare (by decide)

theorem narrowNode_insert :
    (insert2BlindiNodeWithKey (c := narrowParams) sampleKey narrowNode 3).1 = .overflow := by
  decide

-- Each of the three limits is needed: the depth, the key length and the type of NUM_SLOTS.
theorem insert_limits :
    (∃ (c : Params) (mem : Addr → Bytes c.keyLen) (node : SeqTreeBlindiNode) (insertKey : Addr),
      c.treeLevels = 17 ∧ c.keyLen = 3 ∧ c.numSlots = 20 ∧ WellFormed mem node ∧
      node.validLen < c.numSlots ∧
        (∀ i, i < node.validLen → node.keys mem i ≠ mem insertKey) ∧
        ¬ InsertAnswer mem node insertKey (insert2BlindiNodeWithKey mem node insertKey)) ∧
      (∃ (c : Params) (mem : Addr → Bytes c.keyLen) (node : SeqTreeBlindiNode) (insertKey : Addr),
        c.treeLevels = 1 ∧ c.keyLen = 8192 ∧ c.numSlots = 6 ∧ WellFormed mem node ∧
        node.validLen < c.numSlots ∧
          (∀ i, i < node.validLen → node.keys mem i ≠ mem insertKey) ∧
          ¬ InsertAnswer mem node insertKey (insert2BlindiNodeWithKey mem node insertKey)) ∧
      ∃ (c : Params) (mem : Addr → Bytes c.keyLen) (node : SeqTreeBlindiNode) (insertKey : Addr),
        c.treeLevels = 1 ∧ c.keyLen = 1 ∧ c.numSlots = 65538 ∧ WellFormed mem node ∧
        node.validLen < c.numSlots ∧
          (∀ i, i < node.validLen → node.keys mem i ≠ mem insertKey) ∧
          ¬ InsertAnswer mem node insertKey (insert2BlindiNodeWithKey mem node insertKey) := by
  refine ⟨⟨deepParams, deepKey, deepNode, 18, rfl, rfl, rfl, deepNode_wellFormed,
    by decide, by decide,
      fun answer => ?_⟩,
    ⟨wideParams, wideKey, wideNode, 3, rfl, rfl, rfl, wideNode_wellFormed, by decide,
    fun i hi same => ?_,
      fun answer => ?_⟩,
    ⟨narrowParams, sampleKey, narrowNode, 3, rfl, rfl, rfl, narrowNode_wellFormed,
    by decide, by decide,
      fun answer => ?_⟩⟩
  · obtain ⟨len, first, second⟩ := deepNode_insert
    have less := answer.wellFormed.blind.less (i := 15) (j := 16) (by decide) (by rw [len]; decide)
    unfold SeqTreeBlindiNode.keys at less
    rw [first, second] at less
    have more : (keyBits 3).LessAt (deepKey 15) (deepKey 18) 17 := lessAt_of_compare (by decide)
    exact less.asymm more.less
  · have ptr : wideNode.keyPtr i = i := rfl
    rw [SeqTreeBlindiNode.keys, ptr] at same
    have range : i = 0 ∨ i = 1 ∨ i = 2 := by
      change i < 3 at hi
      omega
    have clear : isNthBitSetInString (wideKey i) 65535 = false := by
      rw [wideKey_bit i (by omega)]
      rcases range with rfl | rfl | rfl <;> decide
    rw [same, wideKey_bit 3 (by omega)] at clear
    exact absurd clear (by decide)
  · obtain ⟨len, bit, first, second⟩ := wideNode_insert
    exact wideNode_broken len bit first second answer.wellFormed
  · have success := answer.success
    rw [narrowNode_insert] at success
    cases success

end ElasticIndex.SeqTree
