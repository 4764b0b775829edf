import ElasticIndex.SeqTree.SearchBounds

set_option autoImplicit false

namespace ElasticIndex.SeqTree

open BitOrder BlindSequence CartesianTree CartesianTree.PosTree SlotTree

/-- An index into blindiTree, blindiKeys or the tree_traverse of the caller. -/
inductive Access where
  | blindiTree (i : Int)
  | blindiKeys (i : Int)
  | treeTraverse (i : Nat)
  deriving DecidableEq, Repr

variable (c : Params)

def Access.Inside (scratch : Nat) : Access → Prop
  | blindiTree i => 0 ≤ i ∧ i < c.treeSize
  | blindiKeys i => 0 ≤ i ∧ i + 1 < c.numSlots
  | treeTraverse i => i < scratch

-- The indices used by each part of a search, in the order of the source.
def descendAccesses (node : SeqTreeBlindiNode) (key : Bytes c.keyLen) : Nat → Descent → List Access
  | 0, _ => []
  | levels + 1, s =>
    let here := Access.blindiTree ((s.treePosP1 : Int) - 1)
    let pos := node.blindiTree (s.treePosP1 - 1)
    [.treeTraverse 2, .treeTraverse 3, .treeTraverse 2, here] ++
      if pos = c.endTree then [.treeTraverse 3, .blindiTree s.traverse.last]
      else [here, .blindiKeys pos, here] ++ descendAccesses node key levels (s.turn c node key)

def seqFirstStageAccesses (s : Descent) : List Access :=
  let start := s.startBkSeqPos + s.isStartPos.toNat
  let steps := (s.endBkSeqPos - s.isEndPos.toNat + 1 - start).toNat
  [.treeTraverse 0, .treeTraverse 1] ++
    (List.range steps).flatMap fun k => [.blindiKeys (start + k : Nat), .treeTraverse 5]

def searchFirstStageAccesses (node : SeqTreeBlindiNode) (key : Bytes c.keyLen)
    (traverse : Traverse) : List Access :=
  let s : Descent :=
    { firstStageKeyPosition := 0
      startBkSeqPos := 0
      endBkSeqPos := (node.validLen : Int) - 2
      isStartPos := false
      isEndPos := false
      isLastLarge := false
      treePosP1 := 1
      traverse := traverse }
  if 0 < c.treeLevels then
    let s := { s with traverse := { Traverse.zero with endBkSeqPos := toU16 s.endBkSeqPos } }
    (List.range 6).map .treeTraverse ++ (if node.validLen = 1 then [] else [.blindiTree 0]) ++
      if node.validLen = 1 ∨ node.blindiTree 0 = c.endTree then []
      else descendAccesses c node key c.treeLevels s ++
        match descend c node key c.treeLevels s with
        | (some _, _) => []
        | (none, s) => seqFirstStageAccesses s
  else seqFirstStageAccesses s

-- bring_largest_in_subtree and bring_smallest_in_subtree stop at a turn from the given side.
def bringInSubtreeAccesses (side : Nat) : Nat → Nat → Nat → List Access
  | 0, _, _ => []
  | steps + 1, top, bottom =>
    if (bottom + 1) % 2 = side then [.blindiTree top]
    else bringInSubtreeAccesses side steps ((top + 1) / 2 - 1) top

def scanLargeAccesses (node : SeqTreeBlindiNode) (diffPos : Nat) : Nat → Nat → List Access
  | 0, _ => [.treeTraverse 1, .treeTraverse 1]
  | rest + 1, i => [.treeTraverse 1, .blindiKeys i] ++
    if node.blindiKeys i < diffPos then [] else scanLargeAccesses node diffPos rest (i + 1)

def scanSmallAccesses (node : SeqTreeBlindiNode) (diffPos : Nat) : Nat → Nat → List Access
  | 0, _ => [.treeTraverse 0, .treeTraverse 0]
  | rest + 1, i => [.treeTraverse 0, .blindiKeys i] ++
    if node.blindiKeys i < diffPos then [] else scanSmallAccesses node diffPos rest (i - 1)

def searchSecondStageSeqAccesses (node : SeqTreeBlindiNode) (firstStagePos diffPos : Nat)
    (largeSmall : Bool) (traverse : Traverse) : List Access :=
  if largeSmall then scanLargeAccesses node diffPos
    (traverse.endBkSeqPos + 1 - firstStagePos) firstStagePos
  else if firstStagePos = 0 then []
  else scanSmallAccesses node diffPos (firstStagePos - traverse.startBkSeqPos) (firstStagePos - 1)

def searchSecondStageTreeAccesses (node : SeqTreeBlindiNode) (diffPos : Nat) (largeSmall : Bool) :
    Nat → Traverse → List Access
  | 0, _ => []
  | steps + 1, traverse =>
    let top := [Access.treeTraverse 3, .blindiTree traverse.previous]
    top ++ [.blindiKeys (node.blindiTree traverse.previous)] ++
      if node.blindiKeys (node.blindiTree traverse.previous) ≤ diffPos then
        [.treeTraverse 2] ++
          if (traverse.last + 1) % 2 = 1 then
            if largeSmall then [.treeTraverse 3, .treeTraverse 2] ++
              bringInSubtreeAccesses 0 (traverse.len - 1) traverse.previous traverse.last
            else top
          else if largeSmall then top
          else [.treeTraverse 3, .treeTraverse 2] ++
            bringInSubtreeAccesses 1 (traverse.len - 1) traverse.previous traverse.last
      else [.treeTraverse 3, .treeTraverse 2, .treeTraverse 3, .treeTraverse 3] ++
        searchSecondStageTreeAccesses node diffPos largeSmall steps { traverse with
          last := traverse.previous
          previous := (traverse.previous + 1) / 2 - 1
          len := traverse.len - 1 }

variable {c}

def searchBlindiNodeAccesses (mem : Addr → Bytes c.keyLen) (node : SeqTreeBlindiNode)
    (searchKey : Bytes c.keyLen) (searchType : SearchType) (traverse : Traverse) : List Access :=
  let (firstStagePos, after) := searchFirstStage c node searchKey traverse
  let compare := compareStage searchKey (mem (node.keyPtr firstStagePos))
  searchFirstStageAccesses c node searchKey traverse ++
    if searchType = .point ∨ compare.eq = true then []
    else if 0 < c.treeLevels then
      let last := [Access.treeTraverse 2, .blindiTree after.last]
      let root := [Access.blindiTree 0]
      last ++ (if node.blindiTree after.last = c.endTree then []
        else last ++ [.blindiKeys (node.blindiTree after.last)]) ++
        if node.blindiTree after.last = c.endTree ∨ compare.position <
        node.blindiKeys (node.blindiTree after.last) then
          [.treeTraverse 4] ++ root ++ (if node.blindiTree 0 = c.endTree then []
            else root ++ [.blindiKeys (node.blindiTree 0)]) ++
            if node.blindiTree 0 = c.endTree ∨ compare.position <
            node.blindiKeys (node.blindiTree 0) then
              [.treeTraverse 2]
            else searchSecondStageTreeAccesses node compare.position compare.bigSmall after.len
              { after with inTree := true }
        else searchSecondStageSeqAccesses node firstStagePos compare.position compare.bigSmall after
    else searchSecondStageSeqAccesses node firstStagePos compare.position compare.bigSmall after

-- The slots that the bits of the key lead to after some turns, numbered from 1 in 16 bits.
def walk (node : SeqTreeBlindiNode) (key : Bytes c.keyLen) : Nat → Nat → Option Nat
  | 0, p => some p
  | turns + 1, p =>
    let pos := node.blindiTree (p - 1)
    if pos = c.endTree then none
    else walk node key turns
      ((2 * p + (isNthBitSetInString key (node.blindiKeys pos)).toNat) % 65536)

-- Slot number 65536 is taken for 0, which is no slot.
def LeavesTree (node : SeqTreeBlindiNode) (key : Bytes c.keyLen) : Prop :=
  ∃ turns, turns < c.treeLevels ∧ walk node key turns 1 = some 0

variable {mem : Addr → Bytes c.keyLen} {node : SeqTreeBlindiNode} {x : Bytes c.keyLen}
  {s : Descent} {scratch : Nat}

theorem turn_treePosP1 : (s.turn c node x).treePosP1 =
    (2 * s.treePosP1 + (isNthBitSetInString x
      (node.blindiKeys (node.blindiTree (s.treePosP1 - 1)))).toNat) % 65536 := by
  unfold Descent.turn
  dsimp only
  split
  · rename_i set
    have odd : 2 * (s.treePosP1 + 1) - 1 = 2 * s.treePosP1 + 1 := by omega
    rw [set, odd, Bool.toNat_true]
  · rename_i clear
    rw [Bool.not_eq_true] at clear
    simp [clear]

theorem walk_bounds (turns p q : Nat) (small : (p + 1) * 2 ^ turns ≤ 65536)
    (walks : walk node x turns p = some q) :
    p * 2 ^ turns ≤ q ∧ q < (p + 1) * 2 ^ turns := by
  induction turns generalizing p with
  | zero =>
    obtain rfl : p = q := by simpa [walk] using walks
    simp
  | succ turns ih =>
    rw [walk] at walks
    split at walks
    · cases walks
    · generalize isNthBitSetInString x (node.blindiKeys (node.blindiTree (p - 1))) = d at walks
      have turn := Bool.toNat_le d
      have grow : (p + 1) * 2 ^ (turns + 1) = (2 * p + 1 + 1) * 2 ^ turns := by ring
      have most : 2 * p + d.toNat + 1 ≤ 2 * p + 1 + 1 := by omega
      have room : (2 * p + d.toNat + 1) * 2 ^ turns ≤ 65536 := by
        have := Nat.mul_le_mul_right (2 ^ turns) most
        omega
      have fits : 2 * p + d.toNat < 65536 := by
        have := Nat.le_mul_of_pos_right (2 * p + d.toNat + 1) (Nat.two_pow_pos turns)
        omega
      rw [Nat.mod_eq_of_lt fits] at walks
      obtain ⟨lower, upper⟩ := ih _ room walks
      have low : p * 2 ^ (turns + 1) ≤ (2 * p + d.toNat) * 2 ^ turns := by
        rw [show p * 2 ^ (turns + 1) = (2 * p) * 2 ^ turns by ring]
        exact Nat.mul_le_mul_right _ (by omega)
      have := Nat.mul_le_mul_right (2 ^ turns) most
      omega

theorem not_leavesTree (shallow : c.treeLevels ≤ 16) : ¬ LeavesTree node x := by
  rintro ⟨turns, few, walks⟩
  have most : (1 + 1) * 2 ^ turns ≤ 2 ^ 16 := by
    rw [show (1 + 1) * 2 ^ turns = 2 ^ (turns + 1) by ring]
    exact Nat.pow_le_pow_right (by omega) (by omega)
  obtain ⟨lower, -⟩ := walk_bounds turns 1 0 most walks
  have := Nat.two_pow_pos turns
  omega

-- A slot of the tree that is filled.
def Occupied (c : Params) (node : SeqTreeBlindiNode) (slot : Nat) : Prop :=
  slot < c.treeSize ∧ node.blindiTree slot ≠ c.endTree

theorem WellFormed.occupied_lt (wf : WellFormed mem node) {slot : Nat}
    (occupied : Occupied c node slot) :
    node.blindiTree slot + 1 < node.validLen := (wf.slot_cases occupied.1).resolve_left occupied.2

theorem WellFormed.occupied_parent (wf : WellFormed mem node) {slot : Nat}
    (occupied : Occupied c node slot) :
    Occupied c node ((slot + 1) / 2 - 1) := by
  obtain ⟨inside, filled⟩ := occupied
  obtain ⟨t, tree, cut⟩ := wf.tree
  obtain ⟨p, rfl⟩ := exists_path slot
  have short := length_of_slot_lt inside
  cases p using List.reverseRecOn with
  | nil => exact ⟨inside, filled⟩
  | append_singleton p d =>
    have up : (slot (p ++ [d]) + 1) / 2 - 1 = slot p := by
      rw [slot_snoc]
      cases d <;> simp only [Bool.toNat_true, Bool.toNat_false] <;> omega
    rw [List.length_append, List.length_singleton] at short
    rw [up]
    refine ⟨slot_lt_of_length (by omega), fun empty => filled ?_⟩
    rw [cut p (by omega)] at empty
    rw [cut (p ++ [d]) (by rw [List.length_append, List.length_singleton]; omega), sub_snoc]
    cases root : t.sub p with
    | nil => simp
    | node l m r =>
      have bounds := tree.sub_bounds (p := p) (m := m) (by rw [root, root_node])
      rw [root, root_node, Option.getD_some] at empty
      have idx := wf.idx
      omega

theorem Access.inside_keys (wf : WellFormed mem node) {i : Nat} (lt : i + 1 < node.validLen) :
    (Access.blindiKeys i).Inside c scratch := by
  have := wf.fits
  exact ⟨by omega, by omega⟩

theorem Access.inside_tree {slot : Nat} (inside : slot < c.treeSize) :
    (Access.blindiTree slot).Inside c scratch := by
  exact ⟨by omega, by omega⟩

/-- A descent whose slots are all slots of the tree. -/
structure OnTree (c : Params) (node : SeqTreeBlindiNode) (levels : Nat) (s : Descent) : Prop where
  inside : Inside c node levels s
  range : 0 ≤ s.endBkSeqPos ∧ s.endBkSeqPos + 2 ≤ node.validLen
  last : Occupied c node s.traverse.last
  previous : Occupied c node s.traverse.previous
  stop : s.traverse.endBkSeqPos + 2 ≤ node.validLen

/-- What the first stage leaves for the second. -/
structure Ended (c : Params) (node : SeqTreeBlindiNode) (position : Nat)
    (traverse : Traverse) : Prop where
  position : position < node.validLen
  last : traverse.last < c.treeSize
  previous : Occupied c node traverse.previous
  stop : traverse.endBkSeqPos + 2 ≤ node.validLen

theorem OnTree.turn {levels : Nat} (onTree : OnTree c node (levels + 1) s)
    (deep : levels + 1 ≤ c.treeLevels) (wf : WellFormed mem node)
    (here : Occupied c node (s.treePosP1 - 1)) : OnTree c node levels (s.turn c node x) := by
  have lt := wf.occupied_lt here
  refine ⟨onTree.inside.turn deep lt, ?_, ?_, ?_, ?_⟩
  · unfold Descent.turn
    dsimp only
    split
    · exact onTree.range
    · dsimp only
      omega
  · unfold Descent.turn
    dsimp only
    split <;> exact here
  · unfold Descent.turn
    dsimp only
    split <;> exact onTree.last
  · unfold Descent.turn
    dsimp only
    split <;> exact onTree.stop

theorem descendAccesses_inside (wf : WellFormed mem node) (six : 6 ≤ scratch) (levels : Nat)
    (deep : levels ≤ c.treeLevels) (onTree : OnTree c node levels s)
    (stays : ∀ turns, turns < levels → walk node x turns s.treePosP1 ≠ some 0) :
    (∀ a ∈ descendAccesses c node x levels s, a.Inside c scratch) ∧
      ((∃ position s', descend c node x levels s = (some position, s') ∧
        Ended c node position s'.traverse) ∨
        ∃ s', descend c node x levels s = (none, s') ∧ OnTree c node 0 s') := by
  induction levels generalizing s with
  | zero => exact ⟨by simp [descendAccesses], .inr ⟨s, rfl, onTree⟩⟩
  | succ levels ih =>
    have positive : 0 < s.treePosP1 := by
      have := stays 0 (by omega)
      simp only [walk, ne_eq, Option.some.injEq] at this
      omega
    have slot := onTree.inside.slot_inside deep
    have here : (Access.blindiTree ((s.treePosP1 : Int) - 1)).Inside c scratch :=
      ⟨by omega, by omega⟩
    rw [descendAccesses, descend_succ]
    by_cases none : node.blindiTree (s.treePosP1 - 1) = c.endTree
    · rw [if_pos none, if_pos none]
      constructor
      · intro a used
        simp only [List.mem_append, List.mem_cons, List.not_mem_nil, or_false] at used
        rcases used with (rfl | rfl | rfl | rfl) | rfl | rfl
        · exact show 2 < scratch by omega
        · exact show 3 < scratch by omega
        · exact show 2 < scratch by omega
        · exact here
        · exact show 3 < scratch by omega
        · exact Access.inside_tree onTree.last.1
      · refine .inl ⟨_, _, rfl, ?_, slot, onTree.last, onTree.stop⟩
        have above := wf.occupied_lt onTree.last
        have turn := Bool.toNat_le s.isLastLarge
        omega
    · rw [if_neg none, if_neg none]
      have occupied : Occupied c node (s.treePosP1 - 1) := ⟨slot, none⟩
      obtain ⟨accesses, outcome⟩ :=
          ih (by omega) (onTree.turn deep wf occupied) fun turns few walks => by
        refine stays (turns + 1) (by omega) ?_
        rwa [walk, if_neg none, ← turn_treePosP1]
      refine ⟨fun a used => ?_, outcome⟩
      simp only [List.mem_append, List.mem_cons, List.not_mem_nil, or_false] at used
      rcases used with (rfl | rfl | rfl | rfl) | (rfl | rfl | rfl) | used
      · exact show 2 < scratch by omega
      · exact show 3 < scratch by omega
      · exact show 2 < scratch by omega
      · exact here
      · exact here
      · exact Access.inside_keys wf (wf.occupied_lt occupied)
      · exact here
      · exact accesses a used

-- A slot that the walk comes to is read.
theorem mem_descendAccesses {turns p : Nat} (levels : Nat) (few : turns < levels)
    (walks : walk node x turns s.treePosP1 = some p) :
    Access.blindiTree ((p : Int) - 1) ∈ descendAccesses c node x levels s := by
  induction turns generalizing levels s with
  | zero =>
    obtain ⟨levels, rfl⟩ : ∃ n, levels = n + 1 := ⟨levels - 1, by omega⟩
    obtain rfl : s.treePosP1 = p := by simpa [walk] using walks
    simp [descendAccesses]
  | succ turns ih =>
    obtain ⟨levels, rfl⟩ : ∃ n, levels = n + 1 := ⟨levels - 1, by omega⟩
    rw [walk] at walks
    split at walks
    · cases walks
    · rename_i filled
      rw [← turn_treePosP1] at walks
      have used := ih levels (by omega) walks
      rw [descendAccesses, if_neg filled]
      simp [used]

theorem seqFirstStageAccesses_inside (wf : WellFormed mem node) (six : 6 ≤ scratch)
    (onTree : OnTree c node 0 s) :
    (∀ a ∈ seqFirstStageAccesses s, a.Inside c scratch) ∧
      Ended c node (seqFirstStage c node x s).1 (seqFirstStage c node x s).2 := by
  have range := onTree.range
  have idx := wf.idx
  have sentinel := endTree_eq c
  constructor
  · intro a used
    simp only [seqFirstStageAccesses, List.mem_append, List.mem_cons, List.not_mem_nil,
      or_false, List.mem_flatMap, List.mem_range] at used
    rcases used with (rfl | rfl) | ⟨k, lt, rfl | rfl⟩
    · exact show 0 < scratch by omega
    · exact show 1 < scratch by omega
    · exact Access.inside_keys wf (by omega)
    · exact show 5 < scratch by omega
  · refine ⟨seqFirstStage_lt onTree.inside, onTree.last.1, onTree.previous, ?_⟩
    have fits : toU16 s.endBkSeqPos = s.endBkSeqPos.toNat := by
      unfold toU16
      omega
    rw [seqFirstStage]
    dsimp only
    omega

theorem WellFormed.several (wf : WellFormed mem node) (levels : 0 < c.treeLevels)
    (filled : node.blindiTree 0 ≠ c.endTree) :
    2 ≤ node.validLen := by
  have := wf.occupied_lt ⟨slot_lt_of_length (p := []) (by simpa using levels), filled⟩
  omega

theorem searchFirstStageAccesses_inside (wf : WellFormed mem node) (six : 6 ≤ scratch)
    (levels : 0 < c.treeLevels) (stays : ¬ LeavesTree node x) (traverse : Traverse) :
    (∀ a ∈ searchFirstStageAccesses c node x traverse, a.Inside c scratch) ∧
      (Ended c node (searchFirstStage c node x traverse).1 (searchFirstStage c node x traverse).2 ∨
        (searchFirstStage c node x traverse).2.last = 0 ∧ node.blindiTree 0 = c.endTree) := by
  have root : 0 < c.treeSize := slot_lt_of_length (p := []) (by simpa using levels)
  have nonempty := wf.nonempty
  have idx := wf.idx
  have sentinel := endTree_eq c
  have first (a : Access) (used : a ∈ (List.range 6).map Access.treeTraverse ++
      (if node.validLen = 1 then [] else [.blindiTree 0])) : a.Inside c scratch := by
    rw [List.mem_append, List.mem_map] at used
    rcases used with ⟨i, low, rfl⟩ | used
    · rw [List.mem_range] at low
      exact show i < scratch by omega
    · split at used
      · cases used
      · rw [List.mem_singleton] at used
        rw [used]
        exact Access.inside_tree root
  unfold searchFirstStageAccesses searchFirstStage
  dsimp only
  rw [if_pos levels, if_pos levels]
  by_cases tiny : node.validLen = 1 ∨ node.blindiTree 0 = c.endTree
  · rw [if_pos tiny, if_pos tiny, List.append_nil]
    refine ⟨first, .inr ⟨rfl, tiny.elim (fun single => ?_) id⟩⟩
    by_contra filled
    have := wf.several levels filled
    omega
  · rw [if_neg tiny, if_neg tiny]
    push Not at tiny
    have several := wf.several levels tiny.2
    generalize eq : ({ firstStageKeyPosition := 0, startBkSeqPos := 0,
                       endBkSeqPos := (node.validLen : Int) - 2
                       isStartPos := false, isEndPos := false, isLastLarge := false, treePosP1 := 1
                       traverse := { Traverse.zero with
                         endBkSeqPos := toU16 ((node.validLen : Int) - 2) } } : Descent) = s
    have start : OnTree c node c.treeLevels s := by
      rw [← eq]
      have fits : toU16 ((node.validLen : Int) - 2) + 2 = node.validLen := by
        unfold toU16
        omega
      refine ⟨⟨by simp, nonempty, ?_, ?_, .inr ⟨rfl, tiny.2⟩⟩,
        ⟨by dsimp only; omega, by dsimp only; omega⟩,
        ⟨root, tiny.2⟩, ⟨root, tiny.2⟩, fits.le⟩
      · dsimp only [Bool.toNat_false]
        omega
      · dsimp only [Bool.toNat_false]
        omega
    have walks (turns : Nat) (few : turns < c.treeLevels) :
        walk node x turns s.treePosP1 ≠ some 0 := by
      rw [← eq]
      exact fun zero => stays ⟨turns, few, zero⟩
    obtain ⟨accesses, ⟨position, s', found, ended⟩ | ⟨s', found, onTree⟩⟩ :=
      descendAccesses_inside wf six c.treeLevels le_rfl start walks
    · rw [found]
      dsimp only
      refine ⟨fun a used => ?_, .inl ended⟩
      rw [List.append_nil] at used
      exact (List.mem_append.mp used).elim (first a) (accesses a)
    · rw [found]
      dsimp only
      obtain ⟨seq, ended⟩ := seqFirstStageAccesses_inside (x := x) wf six onTree
      refine ⟨fun a used => ?_, .inl ended⟩
      rcases List.mem_append.mp used with used | used
      · exact first a used
      · exact (List.mem_append.mp used).elim (accesses a) (seq a)

theorem bringInSubtreeAccesses_inside (wf : WellFormed mem node) (side steps : Nat)
    {top bottom : Nat} (occupied : Occupied c node top) :
    ∀ a ∈ bringInSubtreeAccesses side steps top bottom, a.Inside c scratch := by
  induction steps generalizing top bottom with
  | zero => simp [bringInSubtreeAccesses]
  | succ steps ih =>
    intro a used
    rw [bringInSubtreeAccesses] at used
    split at used
    · rw [List.mem_singleton] at used
      rw [used]
      exact Access.inside_tree occupied.1
    · exact ih (wf.occupied_parent occupied) a used

theorem scanLargeAccesses_inside (wf : WellFormed mem node) (two : 2 ≤ scratch)
    (diffPos rest i : Nat) (bound : i + rest < node.validLen) :
    ∀ a ∈ scanLargeAccesses node diffPos rest i, a.Inside c scratch := by
  induction rest generalizing i with
  | zero =>
    intro a used
    rcases List.mem_pair.mp used with rfl | rfl <;> exact two
  | succ rest ih =>
    intro a used
    rw [scanLargeAccesses, List.mem_append] at used
    rcases used with used | used
    · rcases List.mem_pair.mp used with rfl | rfl
      · exact two
      · exact Access.inside_keys wf (by omega)
    · split at used
      · cases used
      · exact ih (i + 1) (by omega) a used

theorem scanSmallAccesses_inside (wf : WellFormed mem node) (one : 1 ≤ scratch)
    (diffPos rest i : Nat) (bound : i + 1 < node.validLen) :
    ∀ a ∈ scanSmallAccesses node diffPos rest i, a.Inside c scratch := by
  induction rest generalizing i with
  | zero =>
    intro a used
    rcases List.mem_pair.mp used with rfl | rfl <;> exact one
  | succ rest ih =>
    intro a used
    rw [scanSmallAccesses, List.mem_append] at used
    rcases used with used | used
    · rcases List.mem_pair.mp used with rfl | rfl
      · exact one
      · exact Access.inside_keys wf bound
    · split at used
      · cases used
      · exact ih (i - 1) (by omega) a used

theorem searchSecondStageSeqAccesses_inside (wf : WellFormed mem node) (six : 6 ≤ scratch)
    {position : Nat} {traverse : Traverse} (ended : Ended c node position traverse) (diffPos : Nat)
    (largeSmall : Bool) :
    ∀ a ∈ searchSecondStageSeqAccesses node position diffPos largeSmall traverse,
      a.Inside c scratch := by
  have inside := ended.position
  have stop := ended.stop
  intro a used
  rw [searchSecondStageSeqAccesses] at used
  split at used
  · exact scanLargeAccesses_inside wf (by omega) diffPos _ _ (by omega) a used
  · split at used
    · cases used
    · exact scanSmallAccesses_inside wf (by omega) diffPos _ _ (by omega) a used

theorem searchSecondStageTreeAccesses_inside (wf : WellFormed mem node) (six : 6 ≤ scratch)
    (diffPos : Nat) (largeSmall : Bool) (steps : Nat) {traverse : Traverse}
    (occupied : Occupied c node traverse.previous) :
    ∀ a ∈ searchSecondStageTreeAccesses node diffPos largeSmall steps traverse,
      a.Inside c scratch := by
  induction steps generalizing traverse with
  | zero => simp [searchSecondStageTreeAccesses]
  | succ steps ih =>
    have two : (Access.treeTraverse 2).Inside c scratch := show 2 < scratch by omega
    have three : (Access.treeTraverse 3).Inside c scratch := show 3 < scratch by omega
    have top : ∀ a ∈ [Access.treeTraverse 3, .blindiTree traverse.previous],
        a.Inside c scratch := by
      intro a used
      rcases List.mem_pair.mp used with rfl | rfl
      · exact three
      · exact Access.inside_tree occupied.1
    have both : ∀ a ∈ [Access.treeTraverse 3, .treeTraverse 2], a.Inside c scratch := by
      intro a used
      rcases List.mem_pair.mp used with rfl | rfl
      · exact three
      · exact two
    intro a used
    rw [searchSecondStageTreeAccesses] at used
    rw [List.mem_append, List.mem_append, List.mem_singleton] at used
    rcases used with (used | rfl) | used
    · exact top a used
    · exact Access.inside_keys wf (wf.occupied_lt occupied)
    · split at used
      · rw [List.mem_append, List.mem_singleton] at used
        rcases used with rfl | used
        · exact two
        · split at used
          · split at used
            · exact (List.mem_append.mp used).elim (both a)
                (bringInSubtreeAccesses_inside wf 0 _ occupied a)
            · exact top a used
          · split at used
            · exact top a used
            · exact (List.mem_append.mp used).elim (both a)
                (bringInSubtreeAccesses_inside wf 1 _ occupied a)
      · rw [List.mem_append] at used
        rcases used with used | used
        · simp only [List.mem_cons, List.not_mem_nil, or_false] at used
          rcases used with rfl | rfl | rfl | rfl
          · exact three
          · exact two
          · exact three
          · exact three
        · exact ih (wf.occupied_parent occupied) a used

/-- The callers with a tree_traverse of their own. -/
inductive Caller where
  | hybridFind
  | existsKey
  | find
  | lowerBound
  | upperBound
  | eraseOneDescend
  | insert2BlindiNodeWithKey
  | upsert2BlindiNodeWithKey
  | removeFromBlindiNodeWithKey
  deriving DecidableEq, Repr

def Caller.traverseLength (c : Params) : Caller → Nat
  | .hybridFind => 5
  | _ => c.numSlots

theorem searchBlindiNodeAccesses_inside (wf : WellFormed mem node) (levels : 0 < c.treeLevels)
    (type : SearchType) (traverse : Traverse) :
    (∀ a ∈ searchBlindiNodeAccesses mem node x type traverse, a.Inside c scratch) ↔ 6 ≤ scratch ∧
    ¬ LeavesTree node x := by
  constructor
  · intro inside
    have first (a : Access) (used : a ∈ searchFirstStageAccesses c node x traverse) :
        a.Inside c scratch := by
      refine inside a ?_
      rw [searchBlindiNodeAccesses]
      exact List.mem_append_left _ used
    rw [searchFirstStageAccesses] at first
    dsimp only at first
    rw [if_pos levels] at first
    constructor
    · have five : 5 < scratch :=
        first (.treeTraverse 5) (List.mem_append_left _ (List.mem_append_left _ (by decide)))
      omega
    · rintro ⟨turns, few, walks⟩
      have filled : node.blindiTree 0 ≠ c.endTree := by
        intro empty
        cases turns with
        | zero => simp [walk] at walks
        | succ turns => simp [walk, empty] at walks
      have several := wf.several levels filled
      have outside := first (.blindiTree ((0 : Nat) - 1)) (by
        refine List.mem_append_right _ ?_
        rw [if_neg (by simp only [filled, or_false]; omega)]
        exact List.mem_append_left _ (mem_descendAccesses c.treeLevels few walks))
      exact absurd outside.1 (by omega)
  · rintro ⟨six, stays⟩ a used
    obtain ⟨first, outcome⟩ := searchFirstStageAccesses_inside wf six levels stays traverse
    have root : 0 < c.treeSize := slot_lt_of_length (p := []) (by simpa using levels)
    rw [searchBlindiNodeAccesses] at used
    dsimp only at used
    generalize (searchFirstStage c node x traverse).1 = at_ at used outcome
    generalize (searchFirstStage c node x traverse).2 = after at used outcome
    have last : after.last < c.treeSize := outcome.elim Ended.last fun tiny => tiny.1 ▸ root
    rw [List.mem_append] at used
    rcases used with used | used
    · exact first a used
    · have two : (Access.treeTraverse 2).Inside c scratch := show 2 < scratch by omega
      have here : ∀ a ∈ [Access.treeTraverse 2, .blindiTree after.last], a.Inside c scratch := by
        intro a used
        rcases List.mem_pair.mp used with rfl | rfl
        · exact two
        · exact Access.inside_tree last
      have top : ∀ a ∈ [Access.blindiTree 0], a.Inside c scratch := by
        intro a used
        rw [List.mem_singleton.mp used]
        exact Access.inside_tree root
      split at used
      · cases used
      · simp only [List.mem_append] at used
        rcases used with (used | used) | used
        · exact here a used
        · split at used
          · cases used
          · rename_i filled
            rw [List.mem_append, List.mem_singleton] at used
            rcases used with used | rfl
            · exact here a used
            · exact Access.inside_keys wf (wf.occupied_lt ⟨last, filled⟩)
        · split at used
          · simp only [List.mem_append] at used
            rcases used with ((used | used) | used) | used
            · rw [List.mem_singleton.mp used]
              exact show 4 < scratch by omega
            · exact top a used
            · split at used
              · cases used
              · rename_i filled
                rcases List.mem_append.mp used with used | used
                · exact top a used
                · rw [List.mem_singleton.mp used]
                  exact Access.inside_keys wf (wf.occupied_lt ⟨root, filled⟩)
            · split at used
              · rw [List.mem_singleton.mp used]
                exact two
              · rename_i below
                push Not at below
                have ended := outcome.resolve_right fun tiny => below.1 tiny.2
                have entered : Occupied c node
                  ({ after with inTree := true } : Traverse).previous := ended.previous
                exact searchSecondStageTreeAccesses_inside wf six _ _ _ entered a used
          · rename_i above
            push Not at above
            have ended := outcome.resolve_right fun tiny => above.1 (tiny.1.symm ▸ tiny.2)
            exact searchSecondStageSeqAccesses_inside wf six ended _ _ a used

-- Six entries of tree_traverse are always written, and the slot numbers have 16 bits.
theorem searchBlindiNode_inside (wf : WellFormed mem node)
    (levels : 0 < c.treeLevels) (caller : Caller) (key : Bytes c.keyLen) (type : SearchType)
    (traverse : Traverse) :
    (∀ a ∈ searchBlindiNodeAccesses mem node key type traverse,
      a.Inside c (caller.traverseLength c)) ↔
      caller ≠ .hybridFind ∧ 6 ≤ c.numSlots ∧ ¬ LeavesTree node key := by
  rw [searchBlindiNodeAccesses_inside wf levels]
  cases caller <;> simp [Caller.traverseLength]

theorem searchBlindiNode_inside_sample : 6 ≤ sampleParams.numSlots ∧
    ∀ a ∈ searchBlindiNodeAccesses (c := sampleParams) sampleKey sampleNode (sampleKey 3)
      .predecessor .zero,
      a.Inside sampleParams (Caller.find.traverseLength sampleParams) :=
  ⟨by decide, (searchBlindiNode_inside (c := sampleParams) sampleNode_wellFormed (by decide) .find
    (sampleKey 3) .predecessor
    .zero).mpr ⟨by decide, by decide, not_leavesTree (by decide)⟩⟩

-- find of the hybrid tree declares five entries, and the search writes the sixth.
theorem searchBlindiNode_outside :
    WellFormed (c := sampleParams) sampleKey sampleNode ∧
      Access.treeTraverse 5 ∈
      searchBlindiNodeAccesses (c := sampleParams) sampleKey sampleNode (sampleKey 2) .point .zero ∧
      ¬ (Access.treeTraverse 5).Inside sampleParams
      (Caller.hybridFind.traverseLength sampleParams) :=
  ⟨sampleNode_wellFormed, by decide, Nat.lt_irrefl 5⟩

end ElasticIndex.SeqTree
