import ElasticIndex.SeqTree.RemoveCorrect

set_option autoImplicit false

namespace ElasticIndex.SeqTree

open SequenceEdit BitOrder BlindSequence CartesianTree CartesianTree.PosTree SlotTree

variable (c : Params)

/-- A new tree while the old one is handed out, and the old positions of its filled slots. -/
structure Share where
  tree : Nat → Nat
  pointOrig : Nat → Nat

def Share.place (s : Share) (pos value halfNodeSize : Nat) : Share :=
  { tree := Function.update s.tree pos ((value - halfNodeSize) % c.idxSize)
    pointOrig := Function.update s.pointOrig pos value }

-- Remaining levels, cur_pos. The assertion after the loop is compiled out.
def placeBelow (value halfNodeSize : Nat) : Nat → Nat → Share → Share
  | 0, _, s => s
  | rest + 1, curPos, s =>
    if s.tree curPos = c.endTree then s.place c curPos value halfNodeSize
    else placeBelow value halfNodeSize rest
      (if value < s.pointOrig curPos then 2 * (curPos + 1) - 1 else 2 * (curPos + 1)) s

def updateBlindiTreeFromTree (value halfNodeSize : Nat) (s : Share) : Share :=
  if s.tree 0 = c.endTree then s.place c 0 value halfNodeSize
  else placeBelow c value halfNodeSize (c.treeLevels - 1) (if value < s.pointOrig 0 then 1 else 2) s

def updateBlindiTreeFromSeq (blindiKeys : Nat → Nat) (validLen pos : Nat)
    (tree : Nat → Nat) : Nat → Nat :=
  Function.update tree pos (minPosOfSlot c blindiKeys tree validLen pos % c.idxSize)

-- A slot of the old tree goes to the half its position lies in; the position between them is
-- dropped.
def distributeSlot (tree : Nat → Nat) (half i : Nat) (s : Share × Share) : Share × Share :=
  if tree i + 2 ≤ half then (updateBlindiTreeFromTree c (tree i) 0 s.1, s.2)
  else if half ≤ tree i ∧ tree i ≠ c.endTree
    then (s.1, updateBlindiTreeFromTree c (tree i) half s.2)
  else s

def distributeLevel (tree : Nat → Nat) (half : Nat) : Nat → Nat → Share × Share → Share × Share
  | 0, _, s => s
  | rest + 1, i, s =>
    distributeLevel tree half rest (i + 1)
      (if tree ((i + 1) / 2 - 1) ≠ c.endTree then distributeSlot c tree half i s else s)

def distributeLevels (tree : Nat → Nat) (half : Nat) : Nat → Nat → Share × Share → Share × Share
  | 0, _, s => s
  | rest + 1, l, s =>
    distributeLevels tree half rest (l + 1)
      (distributeLevel c tree half (2 ^ (l - 1)) (2 ^ (l - 1) - 1) s)

def completeSlot (blindiKeys : Nat → Nat) (validLen i : Nat) (tree : Nat → Nat) : Nat → Nat :=
  if tree i = c.endTree ∧ tree ((i + 1) / 2 - 1) ≠ c.endTree
    then updateBlindiTreeFromSeq c blindiKeys validLen i tree
  else tree

def completeLevel (blindiKeys : Nat → Nat) (validLen : Nat) : Nat → Nat → (Nat → Nat) → Nat → Nat
  | 0, _, tree => tree
  | rest + 1, i, tree =>
    completeLevel blindiKeys validLen rest (i + 1) (completeSlot c blindiKeys validLen i tree)

def completeLevels (blindiKeys : Nat → Nat) (validLen : Nat) : Nat → Nat → (Nat → Nat) → Nat → Nat
  | 0, _, tree => tree
  | rest + 1, l, tree =>
    completeLevels blindiKeys validLen rest (l + 1)
      (completeLevel c blindiKeys validLen (2 ^ (l - 1)) (2 ^ (l - 1) - 1) tree)

-- The slots that are still empty; the two nodes do not touch each other's trees.
def completeFromSeq (blindiKeys : Nat → Nat) (validLen : Nat) (tree : Nat → Nat) : Nat → Nat :=
  let tree := if tree 0 = c.endTree
    then updateBlindiTreeFromSeq c blindiKeys validLen 0 tree else tree
  completeLevels c blindiKeys validLen (c.treeLevels - 1) 2 tree

-- The entries of point_orig are written before they are read.
def Share.empty (tree : Nat → Nat) : Share :=
  { tree := fill 0 c.treeSize c.endTree tree, pointOrig := fun _ => 0 }

def distribute (tree : Nat → Nat) (half : Nat) (s : Share × Share) : Share × Share :=
  distributeLevels c tree half (c.treeLevels - 1) 2 (distributeSlot c tree half 0 s)

-- nodeSmall and nodeLarge are the two target nodes with whatever they held.
def splitBlindiNode (node nodeSmall nodeLarge : SeqTreeBlindiNode) :
    SeqTreeBlindiNode × SeqTreeBlindiNode :=
  let slots := c.numSlots % 65536
  let cms := if slots < slots / 2 + breathingBlindiSize then slots
    else slots / 2 + breathingBlindiSize
  let half := node.validLen / 2
  let nodeSmall : SeqTreeBlindiNode :=
    { validLen := half
      blindiTree := nodeSmall.blindiTree
      currentMaxSlot := cms
      keyPtr := Function.update (blit 0 0 (half - 1) node.keyPtr nodeSmall.keyPtr) (half - 1)
        (node.keyPtr (half - 1))
      blindiKeys := blit 0 0 (half - 1) node.blindiKeys nodeSmall.blindiKeys }
  let nodeLarge : SeqTreeBlindiNode :=
    { validLen := half
      blindiTree := nodeLarge.blindiTree
      currentMaxSlot := cms
      keyPtr := Function.update (blit 0 half (half - 1) node.keyPtr nodeLarge.keyPtr) (half - 1)
        (node.keyPtr (c.numSlots - 1))
      blindiKeys := blit 0 half (half - 1) node.blindiKeys nodeLarge.blindiKeys }
  if 0 < c.treeLevels then
    let shares := distribute c node.blindiTree half (.empty c nodeSmall.blindiTree,
      .empty c nodeLarge.blindiTree)
    ({ nodeSmall with blindiTree := completeFromSeq c nodeSmall.blindiKeys half shares.1.tree },
      { nodeLarge with blindiTree := completeFromSeq c nodeLarge.blindiKeys half shares.2.tree })
  else (nodeSmall, nodeLarge)

variable {c : Params} {mem : Addr → Bytes c.keyLen} {node : SeqTreeBlindiNode}
  {b tree : Nat → Nat} {s : Share} {size o h v r : Nat}

-- What one of the two halves, the positions from o on, receives of a slot with value v.
def Share.take (c : Params) (o h v : Nat) (s : Share) : Share :=
  if o ≤ v ∧ v < o + (h - 1) then updateBlindiTreeFromTree c v o s else s

theorem distributeSlot_take {i : Nat} {s : Share × Share}
    (value : tree i = c.endTree ∨ tree i < 2 * h - 1) (idx : 2 * h ≤ c.endTree) :
    distributeSlot c tree h i s = (s.1.take c 0 h (tree i), s.2.take c h h (tree i)) := by
  have sentinel := endTree_eq c
  unfold distributeSlot Share.take
  by_cases low : tree i + 2 ≤ h
  · rw [if_pos low, if_pos (by omega), if_neg (by omega)]
  · rw [if_neg low]
    by_cases high : h ≤ tree i ∧ tree i ≠ c.endTree
    · rw [if_pos high, if_neg (by omega), if_pos (by omega)]
    · rw [if_neg high, if_neg (by omega), if_neg (by omega)]

/-- The filled slots of a tree over b are minima of their ranges. -/
structure Partial (c : Params) (b tree : Nat → Nat) (size : Nat) : Prop where
  root : tree 0 ≠ c.endTree → StrictMin b 0 size (tree 0)
  left : c.treeLevels = 2 → tree 1 ≠ c.endTree → tree 0 ≠ c.endTree ∧
    StrictMin b 0 (tree 0) (tree 1)
  right : c.treeLevels = 2 → tree 2 ≠ c.endTree → tree 0 ≠ c.endTree ∧
    StrictMin b (tree 0 + 1) size (tree 2)

theorem Share.take_outside (outside : ¬ (o ≤ v ∧ v < o + (h - 1))) :
    s.take c o h v = s := if_neg outside

theorem Share.take_root (inside : o ≤ v ∧ v < o + (h - 1)) (bound : v < c.endTree)
    (free : s.tree 0 = c.endTree) :
    (s.take c o h v).tree = Function.update s.tree 0 (v - o) ∧
    (s.take c o h v).pointOrig 0 = v := by
  have size : c.endTree = c.idxSize - 1 := rfl
  have small : (v - o) % c.idxSize = v - o := Nat.mod_eq_of_lt (by omega)
  rw [Share.take, if_pos inside, updateBlindiTreeFromTree, if_pos free, Share.place, small]
  refine ⟨rfl, ?_⟩
  change Function.update s.pointOrig 0 v 0 = v
  rw [Function.update_self]

theorem Share.take_child (inside : o ≤ v ∧ v < o + (h - 1)) (bound : v < c.endTree)
    (two : c.treeLevels = 2) (present : s.tree 0 ≠ c.endTree) (pos : Nat)
    (side : pos = if v < s.pointOrig 0 then 1 else 2) (free : s.tree pos = c.endTree) :
    (s.take c o h v).tree = Function.update s.tree pos (v - o) ∧
      (s.take c o h v).pointOrig 0 = s.pointOrig 0 := by
  have size : c.endTree = c.idxSize - 1 := rfl
  have small : (v - o) % c.idxSize = v - o := Nat.mod_eq_of_lt (by omega)
  have apart : (0 : Nat) ≠ pos := by
    rw [side]
    split_ifs <;> decide
  have levels : c.treeLevels - 1 = 0 + 1 := by omega
  rw [Share.take, if_pos inside, updateBlindiTreeFromTree, if_neg present, levels, placeBelow,
    ← side, if_pos free, Share.place, small]
  refine ⟨rfl, ?_⟩
  change Function.update s.pointOrig pos v 0 = s.pointOrig 0
  rw [Function.update_of_ne apart]

section

variable (two : c.treeLevels = 2) (root : StrictMin b 0 size (tree 0))
  (left : EntryOf c.endTree b 0 (tree 0) (tree 1))
  (right : EntryOf c.endTree b (tree 0 + 1) size (tree 2))
  (idx : size < c.endTree) (window : o + (h - 1) ≤ size) (free : ∀ i, i < 3 → s.tree i = c.endTree)

include left window idx in
theorem left_min (inside : o ≤ tree 1 ∧ tree 1 < o + (h - 1)) :
    StrictMin b 0 (tree 0) (tree 1) := by
  rcases left with ⟨_, none⟩ | min
  · omega
  · exact min

include right window idx in
theorem right_min (inside : o ≤ tree 2 ∧ tree 2 < o + (h - 1)) :
    StrictMin b (tree 0 + 1) size (tree 2) := by
  rcases right with ⟨_, none⟩ | min
  · omega
  · exact min

include two root left right idx window free in
-- The old root stays the root of its half, and its children stay below it.
theorem Share.take_with_root (inside : o ≤ tree 0 ∧ tree 0 < o + (h - 1)) :
    Partial c (fun i => b (o + i))
      (((s.take c o h (tree 0)).take c o h (tree 1)).take c o h (tree 2)).tree (h - 1) := by
  have bound := root.right
  obtain ⟨tree1, orig1⟩ := s.take_root inside (by omega) (free 0 (by omega))
  generalize s.take c o h (tree 0) = s1 at tree1 orig1
  have top1 : s1.tree 0 = tree 0 - o := by rw [tree1, Function.update_self]
  have left1 : s1.tree 1 = c.endTree := by
    rw [tree1, Function.update_of_ne (by omega), free 1 (by omega)]
  have right1 : s1.tree 2 = c.endTree := by
    rw [tree1, Function.update_of_ne (by omega), free 2 (by omega)]
  obtain ⟨s2, hs2⟩ : ∃ s2, s1.take c o h (tree 1) = s2 := ⟨_, rfl⟩
  have after : s2.tree 0 = tree 0 - o ∧ s2.pointOrig 0 = tree 0 ∧ s2.tree 2 = c.endTree ∧
      (s2.tree 1 ≠ c.endTree → StrictMin (fun i => b (o + i)) 0 (tree 0 - o) (s2.tree 1)) := by
    by_cases within : o ≤ tree 1 ∧ tree 1 < o + (h - 1)
    · have min := left_min left idx window within
      have := min.right
      obtain ⟨tree2, orig2⟩ := s1.take_child within (by omega) two (by omega) 1
        (by rw [orig1, if_pos min.right]) left1
      rw [hs2] at tree2 orig2
      rw [tree2, orig2, orig1, Function.update_self, Function.update_of_ne (by omega),
        Function.update_of_ne (by omega), top1, right1]
      exact ⟨rfl, rfl, rfl, fun _ => min.window (by omega) (by omega) (by omega) (by omega)⟩
    · rw [← hs2, s1.take_outside within, orig1, top1, left1, right1]
      exact ⟨rfl, rfl, rfl, fun present => absurd rfl present⟩
  rw [hs2]
  obtain ⟨top2, orig2, none2, left2⟩ := after
  have rootMin : StrictMin (fun i => b (o + i)) 0 (h - 1) (tree 0 - o) :=
    root.window (by omega) (by omega) (by omega) (by omega)
  by_cases within : o ≤ tree 2 ∧ tree 2 < o + (h - 1)
  · have min := right_min right idx window within
    have := min.left
    have := min.right
    obtain ⟨tree3, _⟩ :=
      s2.take_child within (by omega) two (by omega) 2 (by rw [orig2, if_neg (by omega)]) none2
    rw [tree3]
    refine ⟨fun _ => ?_, fun _ present => ?_, fun _ _ => ?_⟩
    · rw [Function.update_of_ne (by omega), top2]
      exact rootMin
    · rw [Function.update_of_ne (by omega)] at present ⊢
      rw [Function.update_of_ne (by omega), top2]
      exact ⟨by omega, left2 present⟩
    · rw [Function.update_self, Function.update_of_ne (by omega), top2]
      exact ⟨by omega, min.window (by omega) (by omega) (by omega) (by omega)⟩
  · rw [s2.take_outside within]
    refine ⟨fun _ => ?_, fun _ present => ?_, fun _ present => absurd none2 present⟩
    · rw [top2]
      exact rootMin
    · rw [top2]
      exact ⟨by omega, left2 present⟩

include root left right idx window free in
-- A half without the old root lies on one side of it, and takes the child of that side for its
-- root.
theorem Share.take_without_root (outside : ¬ (o ≤ tree 0 ∧ tree 0 < o + (h - 1))) :
    Partial c (fun i => b (o + i))
      (((s.take c o h (tree 0)).take c o h (tree 1)).take c o h (tree 2)).tree (h - 1) := by
  have bound := root.right
  have rooted {v : Nat} (tree' : Nat → Nat) (eq : tree' = Function.update s.tree 0 v)
      (min : StrictMin (fun i => b (o + i)) 0 (h - 1) v) :
          Partial c (fun i => b (o + i)) tree' (h - 1) := by
    subst eq
    refine ⟨fun _ => ?_, fun _ present => absurd ?_ present, fun _ present => absurd ?_ present⟩
    · rwa [Function.update_self]
    · rw [Function.update_of_ne (by omega), free 1 (by omega)]
    · rw [Function.update_of_ne (by omega), free 2 (by omega)]
  rw [s.take_outside outside]
  by_cases low : o ≤ tree 1 ∧ tree 1 < o + (h - 1)
  · have min := left_min left idx window low
    have := min.right
    have aside : ¬ (o ≤ tree 2 ∧ tree 2 < o + (h - 1)) := by
      intro high
      have := (right_min right idx window high).left
      omega
    obtain ⟨tree2, _⟩ := s.take_root low (by omega) (free 0 (by omega))
    rw [Share.take_outside aside]
    exact rooted _ tree2 (min.window (by omega) (by omega) (by omega) (by omega))
  · rw [s.take_outside low]
    by_cases high : o ≤ tree 2 ∧ tree 2 < o + (h - 1)
    · have min := right_min right idx window high
      have := min.left
      obtain ⟨tree3, _⟩ := s.take_root high (by omega) (free 0 (by omega))
      exact rooted _ tree3 (min.window (by omega) (by omega) (by omega) (by omega))
    · rw [s.take_outside high]
      exact ⟨fun present => absurd (free 0 (by omega)) present,
        fun _ present => absurd (free 1 (by omega)) present,
        fun _ present => absurd (free 2 (by omega)) present⟩

end

-- One of the two slots below the root: kept when it was handed out, found by a scan otherwise.
theorem completeSlot_spec (more : 1 < c.treeLevels) (scan : Scannable c b (size - 1)) {pos : Nat}
    (side : pos = 1 ∨ pos = 2) (top : EntryOf c.endTree b 0 (size - 1) (tree 0))
    (held : tree 0 ≠ c.endTree → tree pos ≠ c.endTree →
      EntryOf c.endTree b (sideRange size (tree 0) pos).1
        (sideRange size (tree 0) pos).2 (tree pos)) :
    (∀ i, i ≠ pos → completeSlot c b size pos tree i = tree i) ∧
      (tree 0 = c.endTree → completeSlot c b size pos tree pos = tree pos) ∧
      (tree 0 ≠ c.endTree →
        EntryOf c.endTree b (sideRange size (tree 0) pos).1 (sideRange size (tree 0) pos).2
        (completeSlot c b size pos tree pos)) := by
  have parent : (pos + 1) / 2 - 1 = 0 := by omega
  unfold completeSlot updateBlindiTreeFromSeq
  rw [parent]
  by_cases scanned : tree pos = c.endTree ∧ tree 0 ≠ c.endTree
  · rw [if_pos scanned]
    refine ⟨fun i ne => Function.update_of_ne ne _ _,
      fun none => absurd none scanned.2, fun _ => ?_⟩
    have inside : tree 0 < size - 1 := by
      rcases top with ⟨_, none⟩ | min
      · exact absurd none scanned.2
      · exact min.right
    rw [Function.update_self]
    exact scan.side more side inside
  · rw [if_neg scanned]
    exact ⟨fun _ _ => rfl, fun _ => rfl, fun present => held present fun none =>
      scanned ⟨none, present⟩⟩

theorem Partial.complete (levels : c.treeLevels = 1 ∨ c.treeLevels = 2)
    (part : Partial c b tree (size - 1)) (scan : Scannable c b (size - 1)) (positive : 1 ≤ size)
    {t : PosTree} (cartesian : IsCartesian b 0 (size - 1) t) :
    Cut c.endTree c.treeLevels (completeFromSeq c b size tree) t := by
  have fits := scan.fits
  obtain ⟨tree0, filled⟩ : ∃ tree0,
      (if tree 0 = c.endTree then updateBlindiTreeFromSeq c b size 0 tree else tree) = tree0 :=
    ⟨_, rfl⟩
  have unfolded : completeFromSeq c b size tree =
      completeLevels c b size (c.treeLevels - 1) 2 tree0 := by
    rw [completeFromSeq, filled]
  have rest (i : Nat) (ne : i ≠ 0) : tree0 i = tree i := by
    rw [← filled]
    split_ifs
    · exact Function.update_of_ne ne _ _
    · rfl
  have top : EntryOf c.endTree b 0 (size - 1) (tree0 0) := by
    rw [← filled]
    split_ifs with none
    · rw [updateBlindiTreeFromSeq, Function.update_self]
      exact scan.root positive
    · exact .inr (part.root none)
  rw [unfolded]
  rcases levels with one | two
  · have same : completeLevels c b size (c.treeLevels - 1) 2 tree0 = tree0 := by
      rw [one]
      rfl
    rw [same]
    exact cut_of_entries cartesian (.inl one) top (fun two => by omega) fits fun two => by omega
  · have same : completeLevels c b size (c.treeLevels - 1) 2 tree0 =
        completeSlot c b size 2 (completeSlot c b size 1 tree0) := by
      rw [two]
      rfl
    have root_of (present : tree 0 ≠ c.endTree) : tree0 0 = tree 0 := by
      rw [← filled, if_neg present]
    have heldLeft : tree0 0 ≠ c.endTree → tree0 1 ≠ c.endTree →
        EntryOf c.endTree b (sideRange size (tree0 0) 1).1
        (sideRange size (tree0 0) 1).2 (tree0 1) := by
      intro _ present
      rw [rest 1 (by omega)] at present ⊢
      obtain ⟨root, min⟩ := part.left two present
      rw [root_of root]
      exact .inr min
    have heldRight : tree0 0 ≠ c.endTree → tree0 2 ≠ c.endTree →
        EntryOf c.endTree b (sideRange size (tree0 0) 2).1
        (sideRange size (tree0 0) 2).2 (tree0 2) := by
      intro _ present
      rw [rest 2 (by omega)] at present ⊢
      obtain ⟨root, min⟩ := part.right two present
      rw [root_of root]
      exact .inr min
    have orphans (none : tree0 0 = c.endTree) : tree0 1 = c.endTree ∧ tree0 2 = c.endTree := by
      have free : tree 0 = c.endTree := by
        by_contra present
        exact present ((root_of present).symm.trans none)
      constructor
      · by_contra present
        rw [rest 1 (by omega)] at present
        exact (part.left two present).1 free
      · by_contra present
        rw [rest 2 (by omega)] at present
        exact (part.right two present).1 free
    obtain ⟨rest1, none1, some1⟩ := completeSlot_spec (by omega) scan (.inl rfl) top heldLeft
    rw [same]
    generalize completeSlot c b size 1 tree0 = tree1 at rest1 none1 some1
    have top1 := rest1 0 (by omega)
    have right1 := rest1 2 (by omega)
    have topHere : EntryOf c.endTree b 0 (size - 1) (tree1 0) := by rwa [top1]
    obtain ⟨rest2, none2, some2⟩ :=
      completeSlot_spec (by omega) scan (.inr rfl) topHere (by rwa [top1, right1])
    generalize completeSlot c b size 2 tree1 = tree2 at rest2 none2 some2
    have top2 := (rest2 0 (by omega)).trans top1
    have left2 := rest2 1 (by omega)
    rw [top1, right1] at none2
    rw [top1] at some2
    refine cut_of_entries cartesian (.inr two) (by rwa [top2]) (fun _ none => ?_) fits
      fun _ present => ?_
    · rw [top2] at none
      obtain ⟨left, right⟩ := orphans none
      exact ⟨left2.trans ((none1 none).trans left), (none2 none).trans right⟩
    · rw [top2] at present ⊢
      rw [left2]
      exact ⟨some1 present, some2 present⟩

theorem Share.take_single (one : c.treeLevels = 1) (root : StrictMin b 0 size (tree 0))
    (idx : size < c.endTree) (window : o + (h - 1) ≤ size) (free : s.tree 0 = c.endTree) :
    Partial c (fun i => b (o + i)) (s.take c o h (tree 0)).tree (h - 1) := by
  have bound := root.right
  refine ⟨fun present => ?_, fun two => by omega, fun two => by omega⟩
  by_cases inside : o ≤ tree 0 ∧ tree 0 < o + (h - 1)
  · obtain ⟨tree1, _⟩ := s.take_root inside (by omega) free
    rw [tree1, Function.update_self]
    exact root.window (by omega) (by omega) (by omega) (by omega)
  · rw [s.take_outside inside] at present
    exact absurd free present

theorem WellFormed.children {mem : Addr → Bytes c.keyLen} (wf : WellFormed mem node)
    (more : 1 < c.treeLevels) (several : 2 ≤ node.validLen) :
    EntryOf c.endTree node.blindiKeys 0 (node.blindiTree 0) (node.blindiTree 1) ∧
      EntryOf c.endTree node.blindiKeys (node.blindiTree 0 + 1) (node.validLen - 1)
        (node.blindiTree 2) := by
  obtain ⟨t, tree, cut⟩ := wf.tree
  obtain ⟨m, root⟩ := tree.root_of_lt (by omega)
  have top := cut [] (by simp; omega)
  have left := cut [false] more
  have right := cut [true] more
  rw [slot_nil, sub_nil, root, Option.getD_some] at top
  change node.blindiTree 1 = _ at left
  change node.blindiTree 2 = _ at right
  rw [top, left, right]
  exact ⟨entry_of_cartesian (tree.left root), entry_of_cartesian (tree.right root)⟩

-- Both trees after the old one is handed out, seen from the offset of each half.
theorem WellFormed.distributed (levels : c.treeLevels = 1 ∨ c.treeLevels = 2)
    (wf : WellFormed mem node) (even : node.validLen = 2 * h) (positive : 1 ≤ h) (s : Share × Share)
    (free : ∀ i, i < c.treeSize → s.1.tree i = c.endTree ∧ s.2.tree i = c.endTree) :
    Partial c node.blindiKeys (distribute c node.blindiTree h s).1.tree (h - 1) ∧
      Partial c (fun i => node.blindiKeys (h + i))
        (distribute c node.blindiTree h s).2.tree (h - 1) := by
  obtain ⟨shares, same⟩ : ∃ shares, distribute c node.blindiTree h s = shares := ⟨_, rfl⟩
  rw [same]
  replace same : shares = distributeLevels c node.blindiTree h (c.treeLevels - 1) 2
    (distributeSlot c node.blindiTree h 0 s) := same.symm
  have idx := wf.idx
  have root := wf.root_of_several (by omega) (by omega)
  have bound := root.right
  have zero : (fun i => node.blindiKeys (0 + i)) = node.blindiKeys := by simp
  rw [distributeSlot_take (.inr (by omega)) (by omega)] at same
  rcases levels with one | two
  · have free0 := free 0 (by rw [Params.treeSize, one]; decide)
    have single : shares =
        (s.1.take c 0 h (node.blindiTree 0), s.2.take c h h (node.blindiTree 0)) := by
      rw [same, one]
      rfl
    have low := Share.take_single (o := 0) (h := h) one root (by omega) (by omega) free0.1
    have high := Share.take_single (o := h) (h := h) one root (by omega) (by omega) free0.2
    rw [zero] at low
    rw [single]
    exact ⟨low, high⟩
  · have free3 (i : Nat) (lt : i < 3) := free i (by rw [Params.treeSize, two]; exact lt)
    obtain ⟨left, right⟩ := wf.children (by omega) (by omega)
    have present : node.blindiTree 0 ≠ c.endTree := by omega
    have value (i : Nat) (side : i = 1 ∨ i = 2) : node.blindiTree i = c.endTree ∨
        node.blindiTree i < 2 * h - 1 := by
      rcases side with rfl | rfl
      · rcases left with ⟨_, none⟩ | min
        · exact .inl none
        · have := min.right
          omega
      · rcases right with ⟨_, none⟩ | min
        · exact .inl none
        · have := min.right
          omega
    have levels (p : Share × Share) : distributeLevels c node.blindiTree h (c.treeLevels - 1) 2 p =
        distributeSlot c node.blindiTree h 2 (distributeSlot c node.blindiTree h 1 p) := by
      rw [two]
      change distributeLevel c node.blindiTree h 2 1 p = _
      simp only [distributeLevel, Nat.reduceAdd, Nat.reduceDiv, Nat.reduceSub, if_pos present]
    rw [levels, distributeSlot_take (value 1 (.inl rfl)) (by omega),
      distributeSlot_take (value 2 (.inr rfl)) (by omega)] at same
    have part (o : Nat) (window : o + (h - 1) ≤ node.validLen - 1) (p : Share)
        (none : ∀ i, i < 3 → p.tree i = c.endTree) : Partial c (fun i => node.blindiKeys (o + i))
          (((p.take c o h (node.blindiTree 0)).take c o h (node.blindiTree 1)).take c o h
              (node.blindiTree 2)).tree (h - 1) := by
      by_cases inside : o ≤ node.blindiTree 0 ∧ node.blindiTree 0 < o + (h - 1)
      · exact Share.take_with_root two root left right (by omega) window none inside
      · exact Share.take_without_root root left right (by omega) window none inside
    have low := part 0 (by omega) s.1 fun i lt => (free3 i lt).1
    have high := part h (by omega) s.2 fun i lt => (free3 i lt).2
    rw [zero] at low
    rw [same]
    exact ⟨low, high⟩

theorem Partial.congr {b' : Nat → Nat} (part : Partial c b tree size)
    (same : ∀ i, i < size → b' i = b i) : Partial c b' tree size := by
  refine ⟨fun present => (part.root present).congr fun i _ lt => same i lt, fun two present => ?_,
    fun two present => ?_⟩
  · obtain ⟨root, min⟩ := part.left two present
    have inside := (part.root root).right
    exact ⟨root, min.congr fun i _ lt => same i (by omega)⟩
  · obtain ⟨root, min⟩ := part.right two present
    exact ⟨root, min.congr fun i _ lt => same i lt⟩

-- A node over h neighbouring keys of a well formed one.
theorem WellFormed.part (levels : c.treeLevels = 1 ∨ c.treeLevels = 2) (wf : WellFormed mem node)
    (narrow : node.Narrow c) {half : SeqTreeBlindiNode} (positive : 1 ≤ h)
    (window : o + h ≤ node.validLen) (len : half.validLen = h)
    (keyPtr : ∀ i, i < h → half.keyPtr i = node.keyPtr (o + i))
    (bits : ∀ i, i + 1 < h → half.blindiKeys i = node.blindiKeys (o + i))
    (part : Partial c (fun i => node.blindiKeys (o + i)) tree (h - 1))
    (filled : half.blindiTree = completeFromSeq c half.blindiKeys h tree) :
    WellFormed mem half := by
  have fits := wf.fits
  have idx := wf.idx
  have blind : Blind (keyBits c.keyLen) (half.keys mem) half.blindiKeys h := by
    refine (wf.blind.window window).congr (fun i hi => ?_) bits
    rw [SeqTreeBlindiNode.keys, keyPtr i hi]
    rfl
  have scan := scannable_of_blind
    (fun i hi => bits i hi ▸ narrow (o + i) (by omega)) blind (by omega)
  obtain ⟨t, cartesian⟩ := blind.exists_cartesian h 0 (h - 1) le_rfl (by omega)
  have cut := (part.congr fun i hi => bits i (by omega)).complete levels scan positive cartesian
  refine ⟨by omega, by omega, by omega, len ▸ blind, t, ?_, ?_⟩
  · rwa [len]
  · rwa [filled]

structure Halves (mem : Addr → Bytes c.keyLen) (node : SeqTreeBlindiNode)
    (r : SeqTreeBlindiNode × SeqTreeBlindiNode) :
    Prop where
  small : WellFormed mem r.1
  large : WellFormed mem r.2
  first : entries r.1.validLen r.1.keyPtr =
    (entries node.validLen node.keyPtr).take (node.validLen / 2)
  second : entries r.2.validLen r.2.keyPtr =
    (entries node.validLen node.keyPtr).drop (node.validLen / 2)

theorem splitBlindiNode_arrays (node nodeSmall nodeLarge : SeqTreeBlindiNode)
    (full : node.validLen = c.numSlots) (even : node.validLen = 2 * h) (positive : 1 ≤ h) :
    let r := splitBlindiNode c node nodeSmall nodeLarge
    (r.1.validLen = h ∧ r.2.validLen = h) ∧
      (∀ i, i < h → r.1.keyPtr i = node.keyPtr i ∧ r.2.keyPtr i = node.keyPtr (h + i)) ∧
      ∀ i, i + 1 < h → r.1.blindiKeys i = node.blindiKeys i ∧ r.2.blindiKeys i =
      node.blindiKeys (h + i) := by
  intro r
  have half : node.validLen / 2 = h := by omega
  have last : c.numSlots - 1 = h + (h - 1) := by omega
  have unfolded : r = splitBlindiNode c node nodeSmall nodeLarge := rfl
  rw [splitBlindiNode] at unfolded
  dsimp only at unfolded
  rw [half, last] at unfolded
  have keys (o : Nat) (target : Nat → Addr) (i : Nat) (hi : i < h) :
      Function.update (blit 0 o (h - 1) node.keyPtr target) (h - 1) (node.keyPtr (o + (h - 1))) i =
      node.keyPtr (o + i) := by
    by_cases end_ : i = h - 1
    · rw [end_, Function.update_self]
    · rw [Function.update_of_ne end_, blit, if_pos (by omega), Nat.sub_zero]
  have bits (o : Nat) (target : Nat → Nat) (i : Nat) (hi : i + 1 < h) :
      blit 0 o (h - 1) node.blindiKeys target i = node.blindiKeys (o + i) := by
    rw [blit, if_pos (by omega), Nat.sub_zero]
  have first := keys 0 nodeSmall.keyPtr
  have firstBits := bits 0 nodeSmall.blindiKeys
  simp only [Nat.zero_add] at first firstBits
  rw [unfolded]
  split_ifs <;> exact ⟨⟨rfl, rfl⟩, fun i hi => ⟨first i hi, keys h nodeLarge.keyPtr i hi⟩,
    fun i hi => ⟨firstBits i hi, bits h nodeLarge.blindiKeys i hi⟩⟩

theorem splitBlindiNode_parts (levels : c.treeLevels = 1 ∨ c.treeLevels = 2)
    {mem : Addr → Bytes c.keyLen} {node : SeqTreeBlindiNode} (wf : WellFormed mem node)
    (narrow : node.Narrow c) (full : node.validLen = c.numSlots)
    (nodeSmall nodeLarge : SeqTreeBlindiNode) :
    Halves mem node (splitBlindiNode c node nodeSmall nodeLarge) := by
  have nonempty := wf.nonempty
  have slots := c.even
  obtain ⟨h, even⟩ : ∃ h, node.validLen = 2 * h := ⟨node.validLen / 2, by omega⟩
  have half : node.validLen / 2 = h := by omega
  obtain ⟨⟨smallLen, largeLen⟩, keyPtr, bits⟩ :=
    splitBlindiNode_arrays node nodeSmall nodeLarge full even (by omega)
  have emptied (i : Nat) (lt : i < c.treeSize) :
      (Share.empty c nodeSmall.blindiTree).tree i = c.endTree ∧
      (Share.empty c nodeLarge.blindiTree).tree i = c.endTree :=
    ⟨if_pos (by omega), if_pos (by omega)⟩
  obtain ⟨low, high⟩ :=
    wf.distributed levels even (by omega) (.empty c nodeSmall.blindiTree,
    .empty c nodeLarge.blindiTree)
    emptied
  obtain ⟨trees, shared⟩ : ∃ trees, distribute c node.blindiTree h
    (.empty c nodeSmall.blindiTree, .empty c nodeLarge.blindiTree) = trees := ⟨_, rfl⟩
  obtain ⟨r, split⟩ : ∃ r, splitBlindiNode c node nodeSmall nodeLarge = r := ⟨_, rfl⟩
  have filled : r.1.blindiTree = completeFromSeq c r.1.blindiKeys h trees.1.tree ∧
      r.2.blindiTree = completeFromSeq c r.2.blindiKeys h trees.2.tree := by
    rw [← split, ← shared, splitBlindiNode]
    dsimp only
    rw [if_pos (show 0 < c.treeLevels by omega), half]
    exact ⟨rfl, rfl⟩
  rw [shared] at low high
  rw [split] at smallLen largeLen keyPtr bits ⊢
  have zero : (fun i => node.blindiKeys (0 + i)) = node.blindiKeys := by simp
  refine ⟨?_, ?_, ?_, ?_⟩
  · refine wf.part (o := 0) levels narrow (by omega) (by omega) smallLen (fun i hi => ?_)
      (fun i hi => ?_) (by rwa [zero]) filled.1
    · rw [Nat.zero_add]
      exact (keyPtr i hi).1
    · rw [Nat.zero_add]
      exact (bits i hi).1
  · exact wf.part levels narrow (by omega) (by omega) largeLen (fun i hi => (keyPtr i hi).2)
      (fun i hi => (bits i hi).2) high filled.2
  · rw [smallLen, half, ← entries_take (by omega)]
    exact entries_congr fun i hi => (keyPtr i hi).1
  · rw [largeLen, half, ← entries_drop, show node.validLen - h = h by omega]
    exact entries_congr fun i hi => (keyPtr i hi).2

-- Splitting a full node gives two well formed nodes over the two halves of its keys.
theorem splitBlindiNode_halves (shallow : c.Shallow) (mem : Addr → Bytes c.keyLen)
    (node : SeqTreeBlindiNode) (wf : WellFormed mem node) (full : node.validLen = c.numSlots)
    (nodeSmall nodeLarge : SeqTreeBlindiNode) :
    Halves mem node (splitBlindiNode c node nodeSmall nodeLarge) :=
  splitBlindiNode_parts shallow.levels wf (wf.narrow shallow) full nodeSmall nodeLarge

-- The keys 1, 2, 4, 8, 16 and 32.
def fullNode : SeqTreeBlindiNode :=
  { validLen := 6
    blindiTree := cutArray 255 2
      (.node (.node (.node (.node (.node .nil 0 .nil) 1 .nil) 2 .nil) 3 .nil) 4 .nil)
    currentMaxSlot := 6
    keyPtr := fun i => 2 ^ i
    blindiKeys := fun i => 6 - i }

theorem fullNode_wellFormed : WellFormed (c := sampleParams) sampleKey fullNode := by
  have compares : ∀ i : Nat, i < 5 → compareStage (sampleKey (2 ^ i)) (sampleKey (2 ^ (i + 1))) =
      { eq := false, bigSmall := false, position := 6 - i } := by decide
  refine ⟨by decide, by decide, by decide, fun i hi => ?_,
    .node (.node (.node (.node (.node .nil 0 .nil) 1 .nil) 2 .nil) 3 .nil) 4 .nil, by decide,
    cut_cutArray 255 2 _⟩
  change i + 1 < 6 at hi
  have result := compares i (by omega)
  exact lessAt_of_compare result

theorem splitBlindiNode_halves_sample :
    Halves (c := sampleParams) sampleKey fullNode
      (splitBlindiNode sampleParams fullNode fullNode fullNode) :=
  splitBlindiNode_halves (c := sampleParams) ⟨.inr rfl, by decide⟩ sampleKey fullNode
    fullNode_wellFormed rfl fullNode
    fullNode

end ElasticIndex.SeqTree
