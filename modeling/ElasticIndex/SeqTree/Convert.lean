import ElasticIndex.SeqTree.NodeRun
import ElasticIndex.SeqTree.Split

set_option autoImplicit false

namespace ElasticIndex.SeqTree

open SequenceEdit BitOrder BlindSequence CartesianTree CartesianTree.PosTree SlotTree

variable (c : Params)

def transferKey (keys : Nat → Bytes c.keyLen) (keysPtr : Nat → Addr) (i : Nat)
    (node : SeqTreeBlindiNode) :
    SeqTreeBlindiNode :=
  let diffPos := (compareStage (keys i) (keys (i + 1))).position
  let blindiKeys := Function.update node.blindiKeys i (diffPos % c.bitidxSize)
  let blindiTree :=
    if 0 < c.treeLevels then
      Function.update node.blindiTree 0
        (if blindiKeys i < blindiKeys (node.blindiTree 0) then i % c.idxSize else node.blindiTree 0)
    else node.blindiTree
  { node with blindiTree, blindiKeys, keyPtr := Function.update node.keyPtr i (keysPtr i) }

def transferKeys (keys : Nat → Bytes c.keyLen) (keysPtr : Nat → Addr) :
    Nat → Nat → SeqTreeBlindiNode → SeqTreeBlindiNode
  | 0, _, s => s
  | rest + 1, i, s => transferKeys keys keysPtr rest (i + 1) (transferKey c keys keysPtr i s)

def transferSlot (blindiKeys : Nat → Nat) (validLen i : Nat) (tree : Nat → Nat) : Nat → Nat :=
  if tree ((i + 1) / 2 - 1) ≠ c.endTree then updateBlindiTreeFromSeq c blindiKeys validLen i tree
  else Function.update tree i c.endTree

def transferLevel (blindiKeys : Nat → Nat) (validLen : Nat) : Nat → Nat → (Nat → Nat) → Nat → Nat
  | 0, _, tree => tree
  | rest + 1, i, tree =>
    transferLevel blindiKeys validLen rest (i + 1) (transferSlot c blindiKeys validLen i tree)

def transferLevels (blindiKeys : Nat → Nat) (validLen : Nat) : Nat → Nat → (Nat → Nat) → Nat → Nat
  | 0, _, tree => tree
  | rest + 1, l, tree =>
    transferLevels blindiKeys validLen rest (l + 1)
      (transferLevel c blindiKeys validLen (2 ^ (l - 1)) (2 ^ (l - 1) - 1) tree)

-- node is the target with whatever it held.
def transferBtree2blindi (validLen : Nat) (keys : Nat → Bytes c.keyLen) (keysPtr : Nat → Addr)
    (node : SeqTreeBlindiNode) : SeqTreeBlindiNode :=
  let start : SeqTreeBlindiNode :=
    { validLen := validLen % c.idxSize
      blindiTree := if 0 < c.treeLevels then Function.update node.blindiTree 0 0
        else node.blindiTree
      currentMaxSlot := if c.numSlots < validLen + breathingBlindiSize then c.numSlots % 65536
        else validLen + breathingBlindiSize
      keyPtr := node.keyPtr
      blindiKeys := node.blindiKeys }
  let node := transferKeys c keys keysPtr (validLen - 1) 0 start
  { node with
    keyPtr := Function.update node.keyPtr (validLen - 1) (keysPtr (validLen - 1))
    blindiTree := transferLevels c node.blindiKeys node.validLen (c.treeLevels - 1)
      2 node.blindiTree }

variable {c} {mem : Addr → Bytes c.keyLen} {keys : Nat → Bytes c.keyLen} {keysPtr : Nat → Addr}
  {node : SeqTreeBlindiNode} {b tree : Nat → Nat} {i n : Nat}

def insertAll (mem : Addr → Bytes c.keyLen) (node : SeqTreeBlindiNode) (order : List Addr) :
    SeqTreeBlindiNode :=
  order.foldl (fun node key => (insert2BlindiNodeWithKey mem node key).2) node

/-- The parts of two nodes that their lengths make live. -/
structure SameNode (c : Params) (a b : SeqTreeBlindiNode) : Prop where
  validLen : a.validLen = b.validLen
  keyPtr : ∀ i, i < a.validLen → a.keyPtr i = b.keyPtr i
  blindiKeys : ∀ i, i + 1 < a.validLen → a.blindiKeys i = b.blindiKeys i
  blindiTree : ∀ s, s < c.treeSize → a.blindiTree s = b.blindiTree s

-- The key sequence determines a well formed node.
theorem WellFormed.same {other : SeqTreeBlindiNode} (wf : WellFormed mem node)
    (wf' : WellFormed mem other) (len : node.validLen = other.validLen)
    (keyPtr : ∀ i, i < node.validLen → node.keyPtr i = other.keyPtr i) :
    SameNode c node other := by
  have bits : ∀ i, i + 1 < node.validLen → node.blindiKeys i = other.blindiKeys i := by
    intro i hi
    have less := wf'.blind i (by omega)
    rw [SeqTreeBlindiNode.keys, SeqTreeBlindiNode.keys, ← keyPtr i (by omega),
      ← keyPtr (i + 1) hi] at less
    exact (wf.blind i hi).unique less
  obtain ⟨t, tree, cut⟩ := wf.tree
  obtain ⟨t', tree', cut'⟩ := wf'.tree
  rw [← len] at tree'
  obtain rfl := tree.unique (tree'.congr fun i _ hi => bits i (by omega))
  refine ⟨len, keyPtr, bits, fun s inside => ?_⟩
  obtain ⟨p, rfl⟩ := exists_path s
  have short := length_of_slot_lt inside
  rw [cut p short, cut' p short]

/-- After i keys: their bits and pointers are in place, and slot 0 is the place of the least bit. -/
structure Transferred (c : Params) (b : Nat → Nat) (keysPtr : Nat → Addr) (i : Nat)
    (node : SeqTreeBlindiNode) : Prop where
  keyPtr : ∀ j, j < i → node.keyPtr j = keysPtr j
  bits : ∀ j, j < i → node.blindiKeys j = b j
  root : i = 0 ∧ node.blindiTree 0 = 0 ∨ StrictMin b 0 i (node.blindiTree 0)

theorem Transferred.step (levels : 0 < c.treeLevels) (h : Transferred c b keysPtr i node)
    (fits : i < c.idxSize)
    (bit : (compareStage (keys i) (keys (i + 1))).position % c.bitidxSize = b i)
    (next : ∃ m, StrictMin b 0 (i + 1) m) :
    Transferred c b keysPtr (i + 1) (transferKey c keys keysPtr i node) := by
  obtain ⟨m', next⟩ := next
  have old (j : Nat) (lt : j < i) : Function.update node.blindiKeys i (b i) j = b j := by
    rw [Function.update_of_ne (by omega), h.bits j lt]
  rw [transferKey, bit, if_pos levels, Nat.mod_eq_of_lt fits, Function.update_self]
  refine ⟨fun j hj => ?_, fun j hj => ?_, .inr ?_⟩
  · dsimp only
    by_cases last : j = i
    · rw [last, Function.update_self]
    · rw [Function.update_of_ne last]
      exact h.keyPtr j (by omega)
  · dsimp only
    by_cases last : j = i
    · rw [last, Function.update_self]
    · exact old j (by omega)
  · dsimp only
    rw [Function.update_self]
    rcases h.root with ⟨rfl, root⟩ | min
    · have := next.right
      obtain rfl : m' = 0 := by omega
      rw [root, Function.update_self, if_neg (lt_irrefl _)]
      exact next
    · rw [old _ min.right, min.extend next]
      exact next

@[simp] theorem transferKey_validLen : (transferKey c keys keysPtr i node).validLen =
    node.validLen := rfl

theorem transferKeys_spec (levels : 0 < c.treeLevels) (rest : Nat)
    (h : Transferred c b keysPtr i node) (fits : i + rest ≤ c.idxSize)
    (bits : ∀ j, j < i + rest → (compareStage (keys j) (keys (j + 1))).position %
      c.bitidxSize = b j)
    (mins : ∀ j, j < i + rest → ∃ m, StrictMin b 0 (j + 1) m) :
    Transferred c b keysPtr (i + rest) (transferKeys c keys keysPtr rest i node) := by
  induction rest generalizing i node with
  | zero => exact h
  | succ rest ih =>
    have step := h.step levels (by omega) (bits i (by omega)) (mins i (by omega))
    have run := ih step (by omega) (fun j hj => bits j (by omega)) fun j hj => mins j (by omega)
    rw [transferKeys, show i + (rest + 1) = i + 1 + rest by omega]
    exact run

theorem transferSlot_spec (more : 1 < c.treeLevels) (scan : Scannable c b (n - 1)) {pos : Nat}
    (side : pos = 1 ∨ pos = 2) (root : StrictMin b 0 (n - 1) (tree 0)) :
    (∀ s, s ≠ pos → transferSlot c b n pos tree s = tree s) ∧
      EntryOf c.endTree b (sideRange n (tree 0) pos).1 (sideRange n (tree 0) pos).2
        (transferSlot c b n pos tree pos) := by
  have parent : (pos + 1) / 2 - 1 = 0 := by omega
  have inside := root.right
  have fits := scan.fits
  rw [transferSlot, parent, if_pos (by omega), updateBlindiTreeFromSeq]
  refine ⟨fun s ne => Function.update_of_ne ne _ _, ?_⟩
  rw [Function.update_self]
  exact scan.side more side inside

theorem transferLevels_cut (levels : c.treeLevels = 1 ∨ c.treeLevels = 2)
    (scan : Scannable c b (n - 1)) (root : StrictMin b 0 (n - 1) (tree 0)) {t : PosTree}
    (cartesian : IsCartesian b 0 (n - 1) t) :
    Cut c.endTree c.treeLevels (transferLevels c b n (c.treeLevels - 1) 2 tree) t := by
  have fits := scan.fits
  have inside := root.right
  rcases levels with one | two
  · have same : transferLevels c b n (c.treeLevels - 1) 2 tree = tree := by
      rw [one]
      rfl
    rw [same]
    exact cut_of_entries cartesian (.inl one) (.inr root) (fun two => by omega) fits fun two => by
      omega
  · have same : transferLevels c b n (c.treeLevels - 1) 2 tree =
        transferSlot c b n 2 (transferSlot c b n 1 tree) := by
      rw [two]
      rfl
    obtain ⟨rest1, left⟩ := transferSlot_spec (by omega) scan (.inl rfl) root
    rw [same]
    generalize transferSlot c b n 1 tree = tree1 at rest1 left
    have top1 := rest1 0 (by omega)
    have rootHere : StrictMin b 0 (n - 1) (tree1 0) := by rwa [top1]
    obtain ⟨rest2, right⟩ := transferSlot_spec (by omega) scan (.inr rfl) rootHere
    generalize transferSlot c b n 2 tree1 = tree2 at rest2 right
    have top2 := (rest2 0 (by omega)).trans top1
    have kept := rest2 1 (by omega)
    rw [top1] at right
    refine cut_of_entries cartesian (.inr two) (by rw [top2]; exact .inr root)
      (fun _ none => by omega) fits
      fun _ _ => ?_
    rw [top2, kept]
    exact ⟨left, right⟩

theorem transferSlot_root {pos : Nat} (ne : 0 ≠ pos) : transferSlot c b n pos tree 0 = tree 0 := by
  unfold transferSlot updateBlindiTreeFromSeq
  split_ifs <;> exact Function.update_of_ne ne _ _

theorem transferLevels_root (levels : c.treeLevels = 1 ∨ c.treeLevels = 2) :
    transferLevels c b n (c.treeLevels - 1) 2 tree 0 = tree 0 := by
  rcases levels with one | two
  · rw [one]
    rfl
  · rw [two]
    change transferSlot c b n 2 (transferSlot c b n 1 tree) 0 = tree 0
    rw [transferSlot_root (by omega), transferSlot_root (by omega)]

theorem transferKeys_validLen (rest : Nat) : (transferKeys c keys keysPtr rest i node).validLen =
    node.validLen := by
  induction rest generalizing i node with
  | zero => rfl
  | succ rest ih => rw [transferKeys, ih, transferKey_validLen]

theorem transferBtree2blindi_validLen (target : SeqTreeBlindiNode) :
    (transferBtree2blindi c n keys keysPtr target).validLen = n % c.idxSize :=
  transferKeys_validLen _

-- With one key no step runs, and slot 0 keeps the start value of the pass.
theorem transferBtree2blindi_single (shallow : c.Shallow) (target : SeqTreeBlindiNode) :
    (transferBtree2blindi c 1 keys keysPtr target).blindiTree 0 = 0 := by
  rw [transferBtree2blindi]
  dsimp only
  rw [transferLevels_root shallow.levels, Nat.sub_self, transferKeys]
  dsimp only
  rw [if_pos (show 0 < c.treeLevels from shallow.positive), Function.update_self]

/-- The keys a conversion is given, and where they are stored. -/
structure Source (c : Params) (mem : Addr → Bytes c.keyLen) (n : Nat) (keys : Nat → Bytes c.keyLen)
    (keysPtr : Nat → Addr) : Prop where
  increasing : ∀ i, i + 1 < n → (keyBits c.keyLen).Less (keys i) (keys (i + 1))
  stored : ∀ i, i < n → mem (keysPtr i) = keys i

theorem Source.blind (source : Source c mem n keys keysPtr) :
    Blind (keyBits c.keyLen) keys (fun i => (compareStage (keys i) (keys (i + 1))).position) n := by
  intro i hi
  obtain ⟨d, less⟩ := source.increasing i hi
  dsimp only
  rw [compareStage_of_less less]
  exact less

theorem Source.injective (source : Source c mem n keys keysPtr) {i j : Nat}
    (hi : i < n) (hj : j < n) (same : mem (keysPtr i) = mem (keysPtr j)) : i = j := by
  rw [source.stored i hi, source.stored j hj] at same
  exact source.blind.injective hi hj same

theorem transferBtree2blindi_wellFormed (shallow : c.Shallow) (source : Source c mem n keys keysPtr)
    (several : 2 ≤ n) (fits : n ≤ c.numSlots) (idx : n ≤ c.endTree) (target : SeqTreeBlindiNode) :
    let r := transferBtree2blindi c n keys keysPtr target
    WellFormed mem r ∧ r.validLen = n ∧ ∀ i, i < n → r.keyPtr i = keysPtr i := by
  intro r
  obtain ⟨b, bitsAre⟩ : ∃ b, (fun i => (compareStage (keys i) (keys (i + 1))).position) = b :=
    ⟨_, rfl⟩
  have source_ := source.blind
  rw [bitsAre] at source_
  have scan := scannable_of_blind (narrow_of_blind shallow source_) source_ idx
  have size : c.endTree = c.idxSize - 1 := rfl
  have sentinel := endTree_eq c
  have positive : 0 < c.treeLevels := shallow.positive
  obtain ⟨start, starts⟩ : ∃ start : SeqTreeBlindiNode, start =
    { validLen := n % c.idxSize
      blindiTree := if 0 < c.treeLevels then Function.update target.blindiTree 0 0
        else target.blindiTree
      currentMaxSlot := if c.numSlots < n + breathingBlindiSize then c.numSlots % 65536
        else n + breathingBlindiSize
      keyPtr := target.keyPtr
      blindiKeys := target.blindiKeys } := ⟨_, rfl⟩
  have begins : Transferred c b keysPtr 0 start := by
    refine ⟨fun j hj => absurd hj (Nat.not_lt_zero j),
      fun j hj => absurd hj (Nat.not_lt_zero j), .inl ⟨rfl, ?_⟩⟩
    rw [starts]
    dsimp only
    rw [if_pos positive, Function.update_self]
  have key := shallow.key
  have bits (j : Nat) (hj : j < n - 1) : (compareStage (keys j) (keys (j + 1))).position %
      c.bitidxSize = b j := by
    have inside : b j < 8 * c.keyLen := (source_ j (by omega)).inside
    have here : (compareStage (keys j) (keys (j + 1))).position = b j := congrFun bitsAre j
    rw [here]
    apply Nat.mod_eq_of_lt
    rw [Params.bitidxSize, if_pos key]
    omega
  have len : (transferKeys c keys keysPtr (n - 1) 0 start).validLen = start.validLen :=
    transferKeys_validLen _
  have done : Transferred c b keysPtr (0 + (n - 1)) (transferKeys c keys keysPtr (n - 1) 0 start) :=
    transferKeys_spec positive (n - 1) begins (by omega) (fun j hj => bits j (by omega)) fun j hj =>
      scan.mins 0 (j + 1) (by omega) (by omega)
  rw [Nat.zero_add] at done
  have unfolded : r = transferBtree2blindi c n keys keysPtr target := rfl
  rw [transferBtree2blindi] at unfolded
  rw [← starts] at unfolded
  generalize transferKeys c keys keysPtr (n - 1) 0 start = node at done len unfolded
  have validLen : node.validLen = n := by
    rw [len, starts]
    exact Nat.mod_eq_of_lt (by omega)
  rw [validLen] at unfolded
  have root : StrictMin b 0 (n - 1) (node.blindiTree 0) := by
    rcases done.root with ⟨none, _⟩ | min
    · omega
    · exact min
  have keyPtr (i : Nat) (hi : i < n) : r.keyPtr i = keysPtr i := by
    rw [unfolded]
    by_cases last : i = n - 1
    · rw [last]
      exact Function.update_self _ _ _
    · exact (Function.update_of_ne last _ _).trans (done.keyPtr i (by omega))
  obtain ⟨t, cartesian⟩ := source_.exists_cartesian n 0 (n - 1) le_rfl (by omega)
  have same (i : Nat) (_ : 0 ≤ i) (hi : i < n - 1) : node.blindiKeys i = b i := done.bits i hi
  have scan' : Scannable c node.blindiKeys (n - 1) := by
    have bits : Blind (keyBits c.keyLen) keys node.blindiKeys n :=
      source_.congr (fun i _ => rfl) fun i hi => done.bits i (by omega)
    exact scannable_of_blind (narrow_of_blind shallow bits) bits idx
  have cut := transferLevels_cut shallow.levels scan' (root.congr same) (cartesian.congr same)
  have lenR : r.validLen = n := by rw [unfolded]
  refine ⟨⟨by omega, by omega, by omega, ?_, t, ?_, ?_⟩, lenR, keyPtr⟩
  · rw [lenR]
    refine source_.congr (fun i hi => ?_) fun i hi => ?_
    · rw [SeqTreeBlindiNode.keys, keyPtr i hi]
      exact source.stored i hi
    · rw [unfolded]
      exact done.bits i (by omega)
  · rw [lenR, unfolded]
    exact cartesian.congr same
  · rw [unfolded]
    exact cut

theorem insert2BlindiNodeInPosition_validLen_le (node : SeqTreeBlindiNode) (insertKey : Addr)
    (position diffPos : Nat) (largeSmall smallerThanNode : Bool) (traverse : Traverse) :
    (insert2BlindiNodeInPosition c node insertKey position diffPos largeSmall smallerThanNode
      traverse).validLen ≤
      node.validLen + 1 := by
  rw [insert2BlindiNodeInPosition_validLen]
  exact Nat.mod_le _ _

-- The overflow test holds the length down, whatever the node is.
theorem insert2BlindiNodeWithKey_validLen_le
    (small : node.validLen ≤ c.numSlots % 65536) (key : Addr) :
    (insert2BlindiNodeWithKey mem node key).2.validLen ≤ c.numSlots % 65536 := by
  by_cases full : node.validLen = c.numSlots % 65536
  · rw [insert2BlindiNodeWithKey, if_pos full]
    exact small
  · have room : node.validLen + 1 ≤ c.numSlots % 65536 := by omega
    have step := insert2BlindiNodeInPosition_validLen_le (c := c) node key
    unfold insert2BlindiNodeWithKey
    dsimp only
    rw [if_neg full]
    split_ifs
    · exact (step _ _ _ _ _).trans room
    · exact (step _ _ _ _ _).trans room
    · change 1 ≤ c.numSlots % 65536
      omega

theorem insertAll_validLen_le (order : List Addr) (small : node.validLen ≤ c.numSlots % 65536) :
    (insertAll mem node order).validLen ≤ c.numSlots % 65536 := by
  induction order generalizing node with
  | nil => exact small
  | cons key order ih => exact ih (insert2BlindiNodeWithKey_validLen_le small key)

-- The node holds exactly the pointers of a list.
def Holds (mem : Addr → Bytes c.keyLen) (node : SeqTreeBlindiNode) (done : List Addr) : Prop :=
  WellFormed mem node ∧ (entries node.validLen node.keyPtr).Perm done

theorem Holds.insert (shallow : c.Shallow) {done : List Addr} {key : Addr}
    (holds : Holds mem node done) (room : done.length < c.numSlots % 65536)
    (new : ∀ a, a ∈ done → mem a ≠ mem key) :
    Holds mem (insert2BlindiNodeWithKey mem node key).2 (key :: done) := by
  obtain ⟨wf, perm⟩ := holds
  have length : node.validLen = done.length := by rw [← perm.length_eq, length_entries]
  have missing : ∀ i, i < node.validLen → node.keys mem i ≠ mem key := fun i bound same =>
    new _ (perm.mem_iff.mp (mem_entries.mpr ⟨i, bound, rfl⟩)) same
  have answer := insert2BlindiNodeWithKey_room shallow.representable shallow.positive
    wf (by omega) missing
  obtain ⟨p, inside, keyPtr⟩ := answer.keyPtr
  refine ⟨answer.wellFormed, ?_⟩
  rw [answer.validLen, entries_congr fun i hi => keyPtr i (by omega), entries_insertAt inside]
  exact (List.perm_insertIdx key _ (by simpa using inside)).trans (perm.cons key)

theorem Holds.insertAll (shallow : c.Shallow) {done order : List Addr} (holds : Holds mem node done)
    (room : done.length + order.length ≤ c.numSlots % 65536)
    (distinct : (order ++ done).Pairwise fun a a' => mem a ≠ mem a') :
    Holds mem (insertAll mem node order) (order.reverse ++ done) := by
  induction order generalizing node done with
  | nil => exact holds
  | cons key order ih =>
    rw [List.length_cons] at room
    obtain ⟨apart, rest⟩ := List.pairwise_cons.mp distinct
    have fresh (a : Addr) (inside : a ∈ done) : mem a ≠ mem key := fun same =>
      apart a (List.mem_append_right _ inside) same.symm
    have step := holds.insert shallow (by omega) fresh
    rw [List.reverse_cons, List.append_assoc]
    refine ih step (by rw [List.length_append, List.length_singleton]; omega) ?_
    refine (List.perm_middle.pairwise_iff fun ne => Ne.symm ne).mpr ?_
    exact List.pairwise_cons.mpr ⟨apart, rest⟩

theorem firstInsert_holds (empty : node.validLen = 0) (some : 1 ≤ c.numSlots % 65536) (key : Addr) :
    Holds mem (insert2BlindiNodeWithKey mem node key).2 [key] := by
  have first : insert2BlindiNodeWithKey mem node key = (.success, firstInsert c node key) := by
    rw [insert2BlindiNodeWithKey, if_neg (by omega), if_neg (by omega)]
  rw [first]
  refine ⟨firstInsert_wellFormed node key (some.trans (Nat.mod_le _ _)), ?_⟩
  change (entries 1 (Function.update node.keyPtr 0 key)).Perm [key]
  simp [entries]

theorem insertAll_holds (shallow : c.Shallow) (empty : node.validLen = 0) {order : List Addr}
    (some : order ≠ []) (room : order.length ≤ c.numSlots % 65536)
    (distinct : order.Pairwise fun a a' => mem a ≠ mem a') :
    Holds mem (insertAll mem node order) order := by
  cases order with
  | nil => exact absurd rfl some
  | cons key order =>
    rw [List.length_cons] at room
    have first : Holds mem (insert2BlindiNodeWithKey mem node key).2 [key] :=
      firstInsert_holds empty (by omega) key
    obtain ⟨apart, rest⟩ := List.pairwise_cons.mp distinct
    have other : (order ++ [key]).Pairwise fun a a' => mem a ≠ mem a' := by
      refine (List.perm_append_comm.pairwise_iff fun ne => Ne.symm ne).mpr ?_
      exact List.pairwise_cons.mpr ⟨apart, rest⟩
    have run := first.insertAll shallow (by rw [List.length_singleton]; omega) other
    exact ⟨run.1, run.2.trans ((List.perm_append_comm).trans ((List.reverse_perm order).cons key))⟩

-- Two nodes over the same pointers have them in the same order.
theorem keyPtr_of_perm {other : SeqTreeBlindiNode} (wf : WellFormed mem node)
    (wf' : WellFormed mem other)
    (perm : (entries node.validLen node.keyPtr).Perm (entries other.validLen other.keyPtr)) :
    node.validLen = other.validLen ∧ ∀ i, i < node.validLen → node.keyPtr i = other.keyPtr i := by
  have len : node.validLen = other.validLen := by simpa using perm.length_eq
  have sorted {s : SeqTreeBlindiNode} (wf : WellFormed mem s) :
      (entries s.validLen s.keyPtr).Pairwise fun a a' =>
      (keyBits c.keyLen).Less (mem a) (mem a') := by
    refine List.pairwise_iff_getElem.mpr fun i j hi hj lt => ?_
    rw [length_entries] at hj
    rw [getElem_entries, getElem_entries]
    exact wf.blind.less lt hj
  have same := perm.eq_of_pairwise (fun a b _ _ less more => absurd more less.asymm)
    (sorted wf) (sorted wf')
  refine ⟨len, fun i hi => ?_⟩
  have at_ := List.getElem_of_eq same (i := i) (by simpa using hi)
  rwa [getElem_entries, getElem_entries] at at_

-- A bulk conversion gives the node that inserting the keys in any order gives, from two keys on.
theorem transferBtree2blindi_inserted (shallow : c.Shallow) (mem : Addr → Bytes c.keyLen) (n : Nat)
    (keys : Nat → Bytes c.keyLen) (keysPtr : Nat → Addr) (source : Source c mem n keys keysPtr)
    (positive : 1 ≤ n) (fits : n ≤ c.numSlots) (length : n < 65536)
    (target node : SeqTreeBlindiNode) (empty : node.validLen = 0) :
    (∀ order, order.Perm (entries n keysPtr) →
      SameNode c (transferBtree2blindi c n keys keysPtr target) (insertAll mem node order)) ↔
        2 ≤ n ∧ n ≤ c.numSlots % 65536 := by
  constructor
  · intro same
    have listed := same _ (List.Perm.refl _)
    have len : (transferBtree2blindi c n keys keysPtr target).validLen = n % c.idxSize :=
      transferBtree2blindi_validLen target
    have short : (insertAll mem node (entries n keysPtr)).validLen ≤ c.numSlots % 65536 :=
      insertAll_validLen_le _ (by omega)
    rw [← listed.validLen, len] at short
    have even := c.even
    have room : n ≤ c.numSlots % 65536 := by
      unfold Params.idxSize at short
      split_ifs at short <;> omega
    refine ⟨?_, room⟩
    by_contra one
    obtain rfl : n = 1 := by omega
    have first : insertAll mem node (entries 1 keysPtr) = firstInsert c node (keysPtr 0) := by
      change (insert2BlindiNodeWithKey mem node (keysPtr 0)).2 = _
      rw [insert2BlindiNodeWithKey, if_neg (by omega), if_neg (by omega)]
    have sentinel := endTree_eq c
    have several : 0 < c.treeSize := by
      unfold Params.treeSize
      rcases shallow.levels with one | two
      · rw [one]
        decide
      · rw [two]
        decide
    have root := listed.blindiTree 0 several
    rw [transferBtree2blindi_single shallow, first] at root
    change 0 = fill 0 c.treeSize c.endTree node.blindiTree 0 at root
    rw [fill, if_pos ⟨le_rfl, by omega⟩] at root
    omega
  · rintro ⟨several, room⟩ order perm
    have even := c.even
    have idx : n ≤ c.endTree := by
      unfold Params.endTree Params.idxSize
      split_ifs <;> omega
    obtain ⟨wf, len, keyPtr⟩ :=
      transferBtree2blindi_wellFormed shallow source several fits idx target
    generalize transferBtree2blindi c n keys keysPtr target = converted at wf len keyPtr
    have size : order.length = n := by simpa using perm.length_eq
    have distinct : (entries n keysPtr).Pairwise fun a a' => mem a ≠ mem a' := by
      refine List.pairwise_iff_getElem.mpr fun i j hi hj lt same => ?_
      rw [length_entries] at hi hj
      rw [getElem_entries, getElem_entries] at same
      exact absurd (source.injective hi hj same) (by omega)
    obtain ⟨wf', perm'⟩ : Holds mem (insertAll mem node order) order :=
      insertAll_holds shallow empty (by rintro rfl; simp at size; omega) (by omega)
        ((perm.pairwise_iff fun ne => Ne.symm ne).mpr distinct)
    have listed : entries converted.validLen converted.keyPtr = entries n keysPtr := by
      rw [len]
      exact entries_congr keyPtr
    obtain ⟨sameLen, samePtr⟩ :=
      keyPtr_of_perm wf wf' (by rw [listed]; exact (perm'.trans perm).symm)
    exact wf.same wf' sameLen samePtr

theorem sampleSource :
    Source sampleParams sampleKey 3 (fun i => sampleKey (2 ^ i)) (fun i => 2 ^ i) := by
  have compares : ∀ i : Nat, i < 2 → compareStage (sampleKey (2 ^ i)) (sampleKey (2 ^ (i + 1))) =
      { eq := false, bigSmall := false, position := 6 - i } := by decide
  exact ⟨fun i hi => (lessAt_of_compare (compares i (by omega))).less, fun _ _ => rfl⟩

theorem transferBtree2blindi_inserted_sample :
    SameNode sampleParams
      (transferBtree2blindi sampleParams 3 (fun i => sampleKey (2 ^ i)) (fun i => 2 ^ i) emptyNode)
      (insertAll (c := sampleParams) sampleKey emptyNode [4, 1, 2]) :=
  (transferBtree2blindi_inserted (c := sampleParams) ⟨.inr rfl, by decide⟩ sampleKey 3
    (fun i => sampleKey (2 ^ i))
    (fun i => 2 ^ i) sampleSource (by decide) (by decide) (by decide) emptyNode emptyNode rfl).mpr
    (by decide) [4, 1, 2]
    (by decide)

-- One key: the conversion says that bit 0 is at position 0, where the insertion says that there is
-- no bit.
theorem transferBtree2blindi_one :
    ¬ ∀ order, order.Perm [1] →
      SameNode sampleParams
        (transferBtree2blindi sampleParams 1 (fun _ => sampleKey 1) (fun _ => 1) emptyNode)
        (insertAll (c := sampleParams) sampleKey emptyNode order) := by
  intro same
  have root := (same [1] (List.Perm.refl _)).blindiTree 0 (by decide)
  revert root
  decide

end ElasticIndex.SeqTree
