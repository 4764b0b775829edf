import ElasticIndex.SubTrie.Remove
import ElasticIndex.SubTrie.Split

set_option autoImplicit false

namespace ElasticIndex.SubTrie

open SequenceEdit BitOrder BlindSequence BlindTrie BlindTrie.Trie Loop

/-- The entries so far are those before i_new_forward and the right sides of the spine of the large
node, which lie at the end. -/
structure MergeWalk where
  iSmall : Nat
  iLarge : Nat
  iNewForward : Nat
  iNewBackwords : Nat
  isSmallEnd : Bool
  isLargeEnd : Bool
  new : EntryArrays

def mergeStep (c : Params) (node nodeLarge : SubTrieBlindiNode) (diffPos : Nat) (s : MergeWalk) :
    MergeWalk ⊕ MergeWalk :=
  if s.isSmallEnd ∧ s.isLargeEnd then .inr s
  else if (s.isSmallEnd ∨ diffPos < node.blindiKeys s.iSmall) ∧
    (s.isLargeEnd ∨ diffPos < nodeLarge.blindiKeys s.iLarge) then
    .inr s
  else if s.isLargeEnd ∨ ¬ s.isSmallEnd ∧ node.blindiKeys s.iSmall < nodeLarge.blindiKeys s.iLarge
    then
    let iSmall := s.iSmall + node.subtrieArray s.iSmall
    .inl { s with
      new := s.new.copy s.iNewForward s.iSmall (node.subtrieArray s.iSmall) node
      iNewForward := s.iNewForward + node.subtrieArray s.iSmall
      iSmall
      isSmallEnd := s.isSmallEnd || iSmall = node.validLen - 1 }
  else
    let next := nodeLarge.subtrieArray s.iLarge + s.iLarge
    let movers := s.iNewBackwords - next
    let new := s.new.put s.iNewForward (nodeLarge.blindiKeys s.iLarge)
      ((nodeLarge.subtrieArray s.iLarge + node.validLen - s.iSmall) % c.idxSize)
    .inl { s with
      new := new.copy (next + node.validLen) next movers nodeLarge
      iNewBackwords := s.iNewBackwords - movers
      iNewForward := s.iNewForward + 1
      iLarge := s.iLarge + 1
      isLargeEnd := s.isLargeEnd || s.iLarge + 1 = s.iNewBackwords - movers }

-- The separator and what is left of both nodes.
def MergeWalk.finish (c : Params) (node nodeLarge : SubTrieBlindiNode) (diffPos : Nat)
    (s : MergeWalk) : EntryArrays :=
  let rest := node.validLen - 1 - s.iSmall
  let new := s.new.put s.iNewForward (diffPos % c.bitidxSize)
    ((node.validLen - s.iSmall) % c.idxSize)
  let new := new.copy (s.iNewForward + 1) s.iSmall rest node
  new.copy (s.iNewForward + 1 + rest) s.iLarge (s.iNewBackwords - s.iLarge) nodeLarge

def MergeWalk.writeBack (c : Params) (node nodeLarge : SubTrieBlindiNode)
    (diffPos newValidLen : Nat) (s : MergeWalk) :
    SubTrieBlindiNode :=
  let new := s.finish c node nodeLarge diffPos
  { node with
    subtrieArray := blit 0 0 (newValidLen - 1) new.subtrieArray node.subtrieArray
    blindiKeys := blit 0 0 (newValidLen - 1) new.blindiKeys node.blindiKeys
    validLen := newValidLen % c.idxSize }

def copyNode (node nodeLarge : SubTrieBlindiNode) : SubTrieBlindiNode :=
  { blindiKeys := blit 0 0 (nodeLarge.validLen - 1) nodeLarge.blindiKeys node.blindiKeys
    subtrieArray := blit 0 0 (nodeLarge.validLen - 1) nodeLarge.subtrieArray node.subtrieArray
    keyPtr := blit 0 0 nodeLarge.validLen nodeLarge.keyPtr node.keyPtr
    validLen := nodeLarge.validLen }

variable {c : Params}

-- new stands for the two arrays before anything is written to them.
def SubTrieBlindiNode.mergeBlindiNodes (rounds : Nat) (mem : Addr → Bytes c.keyLen)
    (new : EntryArrays) (this nodeLarge : SubTrieBlindiNode) : Option SubTrieBlindiNode :=
  let diffPos := (compareStage (mem (this.keyPtr (this.validLen - 1)))
    (mem (nodeLarge.keyPtr 0))).position
  let node := { this with
    keyPtr := blit this.validLen 0 nodeLarge.validLen nodeLarge.keyPtr this.keyPtr
    blindiKeys := Function.update
      (blit this.validLen 0 (nodeLarge.validLen - 1) nodeLarge.blindiKeys this.blindiKeys)
      this.validLen (diffPos % c.bitidxSize) }
  let newValidLen := (this.validLen + nodeLarge.validLen) % 65536
  (run (mergeStep c node nodeLarge diffPos) rounds
    { iSmall := 0, iLarge := 0, iNewForward := 0, iNewBackwords := nodeLarge.validLen - 1
      isSmallEnd := this.validLen < 2, isLargeEnd := nodeLarge.validLen < 2, new }).map
        (MergeWalk.writeBack c node nodeLarge diffPos newValidLen)

def mergeBlindiNodes (rounds : Nat) (mem : Addr → Bytes c.keyLen) (new : EntryArrays)
    (node largeNode : SubTrieBlindiNode) :
    Option SubTrieBlindiNode :=
  if node.validLen = 0 then some (copyNode node largeNode)
  else if largeNode.validLen = 0 then some node
  else node.mergeBlindiNodes rounds mem new largeNode

variable {mem : Addr → Bytes c.keyLen} {node nodeLarge : SubTrieBlindiNode}
  {s l t : Trie} {i j d : Nat}

-- The test of one side of the loop.
theorem spine_top {bits counts : Nat → Nat} {ended : Bool} (lists : BlindTrie.Lists bits counts i t)
    (flag : ended = true ↔ t.leaves = 1) : (ended = true ∨ d < bits i) ↔ t.AtLeast (d + 1) := by
  cases t with
  | leaf => exact ⟨fun _ => trivial, fun _ => .inl (flag.mpr rfl)⟩
  | branch e l r =>
    have posL := l.leaves_pos
    have posR := r.leaves_pos
    have open_ : ¬ ended = true := fun both => by
      have one := flag.mp both
      rw [leaves_branch] at one
      omega
    rw [lists.1]
    exact ⟨fun either => either.resolve_left open_, fun above => .inr above⟩

/-- The state of the loop with the subtries s and l left to merge. -/
structure Merging (node nodeLarge : SubTrieBlindiNode) (w : MergeWalk) (s l : Trie) : Prop where
  small : BlindTrie.Lists node.blindiKeys node.subtrieArray w.iSmall s
  large : BlindTrie.Lists nodeLarge.blindiKeys nodeLarge.subtrieArray w.iLarge l
  smallSize : w.iSmall + s.leaves = node.validLen
  largeSize : w.iLarge + l.leaves = w.iNewBackwords + 1
  forward : w.iNewForward = w.iSmall + w.iLarge
  smallEnd : w.isSmallEnd = true ↔ s.leaves = 1
  largeEnd : w.isLargeEnd = true ↔ l.leaves = 1

-- The entries of the large node are copied behind those of the small one, which keeps its trie.
theorem Merging.start (size : s.leaves = node.validLen) (sizeLarge : l.leaves = nodeLarge.validLen)
    (lists : BlindTrie.Lists node.blindiKeys node.subtrieArray 0 s)
    (listsLarge : BlindTrie.Lists nodeLarge.blindiKeys nodeLarge.subtrieArray 0 l) (bit : Nat)
    (new : EntryArrays) :
    Merging { node with
        keyPtr := blit node.validLen 0 nodeLarge.validLen nodeLarge.keyPtr node.keyPtr
        blindiKeys := Function.update
          (blit node.validLen 0 (nodeLarge.validLen - 1) nodeLarge.blindiKeys node.blindiKeys)
          node.validLen bit } nodeLarge
      { iSmall := 0, iLarge := 0, iNewForward := 0, iNewBackwords := nodeLarge.validLen - 1,
        isSmallEnd := decide (node.validLen < 2), isLargeEnd :=
  decide (nodeLarge.validLen < 2), new } s l := by
  have posS := s.leaves_pos
  have posL := l.leaves_pos
  refine ⟨lists.congr fun i _ hi => ?_, listsLarge, by dsimp only; omega,
    by dsimp only; omega, rfl, ?_, ?_⟩
  · dsimp only
    rw [Function.update_of_ne (by omega), blit, if_neg (by omega)]
    exact ⟨rfl, rfl⟩
  · rw [decide_eq_true_eq]
    omega
  · rw [decide_eq_true_eq]
    omega

/-- The arrays from i_new_forward on list the joined trie once the loop has left; what lies before
and after is kept. -/
structure Merged (before : EntryArrays) (pos : Nat) (t : Trie) (after : EntryArrays) : Prop where
  lists : after.Lists pos t
  outside : ∀ i, i < pos ∨ pos + t.leaves ≤ i + 1 → after.SameAt before i

theorem Merging.finish {w : MergeWalk} (merging : Merging node nodeLarge w s l)
    (bit : d < c.bitidxSize) (idx : s.leaves + l.leaves ≤ c.idxSize) :
    Merged w.new w.iNewForward (.branch d s l) (w.finish c node nodeLarge d) := by
  obtain ⟨small, large, smallSize, largeSize, forward, _, _⟩ := merging
  have posS := s.leaves_pos
  have posL := l.leaves_pos
  have rest : node.validLen - 1 - w.iSmall = s.leaves - 1 := by omega
  have count : (node.validLen - w.iSmall) % c.idxSize = s.leaves := by
    rw [show node.validLen - w.iSmall = s.leaves by omega]
    exact Nat.mod_eq_of_lt (by omega)
  obtain ⟨new, put⟩ : ∃ new, w.new.put w.iNewForward d s.leaves = new := ⟨_, rfl⟩
  obtain ⟨half, copied⟩ : ∃ half, new.copy (w.iNewForward + 1) w.iSmall (s.leaves - 1) node =
    half := ⟨_, rfl⟩
  have finish : w.finish c node nodeLarge d =
      half.copy (w.iNewForward + 1 + (s.leaves - 1)) w.iLarge
      (w.iNewBackwords - w.iLarge) nodeLarge := by
    rw [MergeWalk.finish, rest, count, Nat.mod_eq_of_lt bit, put, copied]
  rw [finish]
  have last {i : Nat} (outside : i < w.iNewForward + 1 + (s.leaves - 1) ∨
      w.iNewForward + (s.leaves + l.leaves) ≤ i + 1) :
      (half.copy (w.iNewForward + 1 + (s.leaves - 1)) w.iLarge
        (w.iNewBackwords - w.iLarge) nodeLarge).SameAt half i := EntryArrays.copy_outside (by omega)
  have middle {i : Nat}
    (outside : ¬ (w.iNewForward + 1 ≤ i ∧ i < w.iNewForward + 1 + (s.leaves - 1))) :
      half.SameAt new i := by
    rw [← copied]
    exact EntryArrays.copy_outside outside
  have first {i : Nat} (ne : i ≠ w.iNewForward) : new.SameAt w.new i := by
    rw [← put]
    exact EntryArrays.put_other ne
  refine ⟨?_, fun i hi => ?_⟩
  · obtain ⟨bitHere, countHere⟩ := (last (i := w.iNewForward) (by omega)).trans (middle (by omega))
    rw [← put] at bitHere countHere
    refine ⟨bitHere.trans (Function.update_self ..),
      countHere.trans (Function.update_self ..), ?_, ?_⟩
    · refine EntryArrays.Lists.congr (s := half) ?_ fun i hi hi' => last (by omega)
      rw [← copied]
      exact EntryArrays.copy_lists (o := 0) _ small (by omega)
    · rw [show w.iNewForward + s.leaves = w.iNewForward + 1 + (s.leaves - 1) + 0 by omega]
      exact EntryArrays.copy_lists (o := 0) _ large (by omega)
  · rw [leaves_branch] at hi
    exact ((last (by omega)).trans (middle (by omega))).trans (first (by omega))

-- The next branch is that of the small node.
theorem Merging.stepSmall {w : MergeWalk} {e : Nat} {sl sr : Trie}
    (not_root : ¬ (d < e ∧ l.AtLeast (d + 1))) (next : l.AtLeast (e + 1))
    (merging : Merging node nodeLarge w (.branch e sl sr) l) :
    ∃ w₁, mergeStep c node nodeLarge d w = .inl w₁ ∧ Merging node nodeLarge w₁ sr l ∧
      w₁.iSmall = w.iSmall + sl.leaves ∧ w₁.iLarge = w.iLarge ∧ w₁.iNewForward =
        w.iNewForward + sl.leaves ∧
      w₁.new = w.new.copy w.iNewForward w.iSmall sl.leaves node := by
  obtain ⟨⟨bitHere, count, left, right⟩, large, smallSize, largeSize, forward, smallEnd,
    largeEnd⟩ := id merging
  have posL := sl.leaves_pos
  have posR := sr.leaves_pos
  rw [leaves_branch] at smallSize smallEnd
  have open_ : ¬ w.isSmallEnd = true := fun ended => by
    have := smallEnd.mp ended
    omega
  have stays : ¬ ((w.isSmallEnd = true ∨ d < node.blindiKeys w.iSmall) ∧
      (w.isLargeEnd = true ∨ d < nodeLarge.blindiKeys w.iLarge)) := by
    rw [spine_top merging.small merging.smallEnd, spine_top merging.large merging.largeEnd]
    exact not_root
  have turn : w.isLargeEnd = true ∨ ¬ w.isSmallEnd = true ∧ node.blindiKeys w.iSmall <
      nodeLarge.blindiKeys w.iLarge := by
    rw [bitHere]
    exact ((spine_top (d := e) merging.large merging.largeEnd).mpr next).imp_right fun less =>
      ⟨open_, less⟩
  refine ⟨{ w with
      new := w.new.copy w.iNewForward w.iSmall sl.leaves node
      iNewForward := w.iNewForward + sl.leaves
      iSmall := w.iSmall + sl.leaves
      isSmallEnd := w.isSmallEnd || w.iSmall + sl.leaves = node.validLen - 1 }, ?_, ?_,
        rfl, rfl, rfl, rfl⟩
  · rw [mergeStep, if_neg fun both => open_ both.1, if_neg stays, if_pos turn, count]
  · refine ⟨right, large, by dsimp only; omega, largeSize, by dsimp only; omega, ?_, largeEnd⟩
    rw [Bool.or_eq_true, decide_eq_true_eq, or_iff_right open_]
    omega

-- The next branch is that of the large node, whose right side goes to the end.
theorem Merging.stepLarge {w : MergeWalk} {f : Nat} {ll lr : Trie}
    (not_root : ¬ (s.AtLeast (d + 1) ∧ d < f)) (next : s.AtLeast f)
    (merging : Merging node nodeLarge w s (.branch f ll lr))
    (idx : s.leaves + ll.leaves < c.idxSize) :
    ∃ w₁, mergeStep c node nodeLarge d w = .inl w₁ ∧ Merging node nodeLarge w₁ s ll ∧
      w₁.iSmall = w.iSmall ∧ w₁.iLarge = w.iLarge + 1 ∧ w₁.iNewForward = w.iNewForward + 1 ∧
      w₁.new = (w.new.put w.iNewForward f (s.leaves + ll.leaves)).copy
        (w.iNewForward + (s.leaves + ll.leaves)) (w.iLarge + ll.leaves)
        (lr.leaves - 1) nodeLarge := by
  obtain ⟨small, ⟨bitHere, count, left, right⟩, smallSize, largeSize, forward, smallEnd,
    largeEnd⟩ := id merging
  have posS := s.leaves_pos
  have posL := ll.leaves_pos
  have posR := lr.leaves_pos
  rw [leaves_branch] at largeSize largeEnd
  have open_ : ¬ w.isLargeEnd = true := fun ended => by
    have := largeEnd.mp ended
    omega
  have stays : ¬ ((w.isSmallEnd = true ∨ d < node.blindiKeys w.iSmall) ∧
      (w.isLargeEnd = true ∨ d < nodeLarge.blindiKeys w.iLarge)) := by
    rw [spine_top merging.small merging.smallEnd, spine_top merging.large merging.largeEnd]
    exact not_root
  have turn : ¬ (w.isLargeEnd = true ∨ ¬ w.isSmallEnd = true ∧ node.blindiKeys w.iSmall <
      nodeLarge.blindiKeys w.iLarge) := by
    rintro (ended | ⟨branch, less⟩)
    · exact open_ ended
    · cases s with
      | leaf => exact branch (smallEnd.mpr rfl)
      | branch e sl sr =>
        rw [small.1, bitHere] at less
        exact absurd less (Nat.not_lt.mpr next)
  have movers : w.iNewBackwords - (ll.leaves + w.iLarge) = lr.leaves - 1 := by omega
  have total : (ll.leaves + node.validLen - w.iSmall) % c.idxSize = s.leaves + ll.leaves := by
    rw [show ll.leaves + node.validLen - w.iSmall = s.leaves + ll.leaves by omega]
    exact Nat.mod_eq_of_lt idx
  have target : ll.leaves + w.iLarge + node.validLen =
    w.iNewForward + (s.leaves + ll.leaves) := by omega
  refine ⟨{ w with
      new := (w.new.put w.iNewForward f (s.leaves + ll.leaves)).copy
        (w.iNewForward + (s.leaves + ll.leaves))
        (w.iLarge + ll.leaves) (lr.leaves - 1) nodeLarge
      iNewBackwords := w.iNewBackwords - (lr.leaves - 1)
      iNewForward := w.iNewForward + 1
      iLarge := w.iLarge + 1
      isLargeEnd := w.isLargeEnd || w.iLarge + 1 = w.iNewBackwords - (lr.leaves - 1) }, ?_, ?_,
        rfl, rfl, rfl, rfl⟩
  · rw [mergeStep, if_neg fun both => open_ both.2, if_neg stays, if_neg turn, count, bitHere]
    dsimp only
    rw [movers, total, target, Nat.add_comm ll.leaves]
  · refine ⟨small, left, smallSize, by dsimp only; omega, by dsimp only; omega, smallEnd, ?_⟩
    rw [Bool.or_eq_true, decide_eq_true_eq, or_iff_right open_]
    omega

-- The loop follows the merge of the two spines.
theorem Merging.ends {w : MergeWalk} (joins : Joins d s l t)
    (merging : Merging node nodeLarge w s l) (bit : d < c.bitidxSize)
    (idx : w.iSmall + w.iLarge + s.leaves + l.leaves ≤ c.idxSize) :
    ∃ w', Ends (mergeStep c node nodeLarge d) w w' ∧ Merged w.new w.iNewForward t
      (w'.finish c node nodeLarge d) := by
  induction joins generalizing w with
  | @root s l low high =>
    refine ⟨w, .leave ?_, merging.finish bit (by omega)⟩
    by_cases both : w.isSmallEnd ∧ w.isLargeEnd
    · exact if_pos both
    · rw [mergeStep, if_neg both, if_pos]
      exact ⟨(spine_top merging.small merging.smallEnd).mpr low,
        (spine_top merging.large merging.largeEnd).mpr high⟩
  | @small e sl sr l t not_root next joins ih =>
    obtain ⟨bitHere, count, left, right⟩ := merging.small
    have posL := sl.leaves_pos
    have posR := sr.leaves_pos
    have size := joins.leaves
    rw [leaves_branch] at idx
    obtain ⟨w₁, goes, merging₁, small, large, forward, new⟩ :=
      merging.stepSmall (c := c) not_root next
    obtain ⟨w', ends, merged⟩ := ih merging₁ (by omega)
    rw [forward, new] at merged
    refine ⟨w', .turn goes ends, ⟨?_, ?_, ?_, merged.lists⟩, fun i hi => ?_⟩
    · exact (merged.outside _ (by omega)).1.trans ((w.new.copy_at posL).1.trans bitHere)
    · exact (merged.outside _ (by omega)).2.trans ((w.new.copy_at posL).2.trans count)
    · refine EntryArrays.Lists.congr ?_ fun i hi hi' => merged.outside i (by omega)
      exact EntryArrays.copy_lists (o := 1) _ left (by omega)
    · rw [leaves_branch] at hi
      exact (merged.outside i (by omega)).trans (EntryArrays.copy_outside (by omega))
  | @large f s ll lr t not_root next joins ih =>
    obtain ⟨bitHere, count, left, right⟩ := merging.large
    have posS := s.leaves_pos
    have posL := ll.leaves_pos
    have posR := lr.leaves_pos
    have size := joins.leaves
    rw [leaves_branch] at idx
    obtain ⟨w₁, goes, merging₁, small, large, forward, new⟩ :=
      merging.stepLarge (c := c) not_root next (by omega)
    obtain ⟨w', ends, merged⟩ := ih merging₁ (by omega)
    rw [forward, new] at merged
    have kept {i : Nat} (before : i < w.iNewForward + (s.leaves + ll.leaves)) :
        ((w.new.put w.iNewForward f (s.leaves + ll.leaves)).copy
        (w.iNewForward + (s.leaves + ll.leaves))
          (w.iLarge + ll.leaves) (lr.leaves - 1) nodeLarge).SameAt
            (w.new.put w.iNewForward f (s.leaves + ll.leaves)) i :=
              EntryArrays.copy_outside (by omega)
    obtain ⟨sameBit, sameCount⟩ := (merged.outside w.iNewForward (by omega)).trans (kept (by omega))
    refine ⟨w', .turn goes ends, ⟨sameBit.trans (Function.update_self ..),
      sameCount.trans ((Function.update_self ..).trans size.symm), merged.lists, ?_⟩,
      fun i hi => ?_⟩
    · rw [size]
      refine EntryArrays.Lists.congr ?_ fun i hi hi' => merged.outside i (by omega)
      exact EntryArrays.copy_lists (o := 0) _ right (by omega)
    · rw [leaves_branch] at hi
      exact ((merged.outside i (by omega)).trans (EntryArrays.copy_outside (by omega))).trans
        (EntryArrays.put_other (by omega))

/-- What a merge leaves in the node. -/
structure Joined (mem : Addr → Bytes c.keyLen)
    (node largeNode merged : SubTrieBlindiNode) : Prop where
  encodes : Encodes mem merged
  keyPtr : entries merged.validLen merged.keyPtr =
    entries node.validLen node.keyPtr ++ entries largeNode.validLen largeNode.keyPtr

theorem compareStage_of_less {x y : Bytes c.keyLen} (less : (keyBits c.keyLen).Less x y) :
    (keyBits c.keyLen).LessAt x y (compareStage x y).position := by
  have differ := compareStage_ne less.ne
  have correct := compareStage_correct x y
  cases side : (compareStage x y).bigSmall with
  | true => exact absurd (correct.big differ side).less less.asymm
  | false => exact correct.small differ side

theorem mergeBlindiNodes_returns (size : s.leaves = node.validLen)
    (sizeLarge : l.leaves = nodeLarge.validLen)
    (lists : BlindTrie.Lists node.blindiKeys node.subtrieArray 0 s)
    (listsLarge : BlindTrie.Lists nodeLarge.blindiKeys nodeLarge.subtrieArray 0 l)
    (joins : Joins d s l t)
    (diff : (compareStage (mem (node.keyPtr (node.validLen - 1)))
      (mem (nodeLarge.keyPtr 0))).position = d)
    (bit : d < c.bitidxSize) (idx : node.validLen + nodeLarge.validLen < c.idxSize)
    (new : EntryArrays) :
    ∃ merged, Returns (fun rounds => mergeBlindiNodes rounds mem new node nodeLarge) merged ∧
      merged.validLen = node.validLen + nodeLarge.validLen ∧
      merged.keyPtr = blit node.validLen 0 nodeLarge.validLen nodeLarge.keyPtr node.keyPtr ∧
      BlindTrie.Lists merged.blindiKeys merged.subtrieArray 0 t := by
  have posS := s.leaves_pos
  have posL := l.leaves_pos
  have total := joins.leaves
  have word := c.idxSize_le
  have start := Merging.start size sizeLarge lists listsLarge (d % c.bitidxSize) new
  obtain ⟨node', written⟩ : ∃ node' : SubTrieBlindiNode, ({ node with
      keyPtr := blit node.validLen 0 nodeLarge.validLen nodeLarge.keyPtr node.keyPtr
      blindiKeys := Function.update
        (blit node.validLen 0 (nodeLarge.validLen - 1) nodeLarge.blindiKeys node.blindiKeys)
        node.validLen (d % c.bitidxSize) } : SubTrieBlindiNode) = node' := ⟨_, rfl⟩
  rw [written] at start
  obtain ⟨w', ends, merged⟩ := start.ends joins bit (by dsimp only; omega)
  have whole : (node.validLen + nodeLarge.validLen) % 65536 = node.validLen + nodeLarge.validLen :=
    Nat.mod_eq_of_lt (by omega)
  refine ⟨w'.writeBack c node' nodeLarge d (node.validLen + nodeLarge.validLen), ?_,
    Nat.mod_eq_of_lt idx,
    by rw [← written]; rfl, ?_⟩
  · refine (ends.returns.map
      (MergeWalk.writeBack c node' nodeLarge d (node.validLen + nodeLarge.validLen))).congr
      fun rounds => ?_
    rw [mergeBlindiNodes, if_neg (by omega), if_neg (by omega), SubTrieBlindiNode.mergeBlindiNodes,
      diff, written, whole]
  · refine BlindTrie.Lists.congr merged.lists fun i _ hi => ?_
    rw [MergeWalk.writeBack]
    dsimp only
    rw [blit, blit, if_pos (by omega), if_pos (by omega), Nat.sub_zero, Nat.zero_add]
    exact ⟨rfl, rfl⟩

theorem Params.bits_fit (c : Params) (length : c.keyLen ≤ 8192) : 8 * c.keyLen ≤ c.bitidxSize := by
  unfold Params.bitidxSize
  split_ifs <;> omega

theorem Params.length_fits (c : Params) {n : Nat} (fits : n ≤ c.numSlots) (slots : n < 65536) :
    n < c.idxSize := by
  unfold Params.idxSize
  split_ifs <;> omega

-- A merge of two nodes that fit the indices ends with all their keys in the one.
theorem merge_joined (bits : 8 * c.keyLen ≤ c.bitidxSize) (mem : Addr → Bytes c.keyLen)
    {node largeNode : SubTrieBlindiNode} (small : Encodes mem node) (large : Encodes mem largeNode)
    (below : ∀ i j, i < node.validLen → j < largeNode.validLen →
      (keyBits c.keyLen).Less (node.keys mem i) (largeNode.keys mem j))
    (fits : node.validLen + largeNode.validLen ≤ c.numSlots)
    (idx : node.validLen + largeNode.validLen < c.idxSize) (new : EntryArrays) :
    ∃ merged, Returns (fun rounds => mergeBlindiNodes rounds mem new node largeNode) merged ∧
      Joined mem node largeNode merged := by
  obtain ⟨s, size, splits, lists⟩ := small.listed
  obtain ⟨l, sizeLarge, splitsLarge, listsLarge⟩ := large.listed
  have posS := s.leaves_pos
  have posL := l.leaves_pos
  obtain ⟨d, diff⟩ : ∃ d,
      (compareStage (mem (node.keyPtr (node.validLen - 1))) (mem (largeNode.keyPtr 0))).position =
      d :=
    ⟨_, rfl⟩
  have apart := compareStage_of_less (below (node.validLen - 1) 0 (by omega) (by omega))
  rw [SubTrieBlindiNode.keys, SubTrieBlindiNode.keys, diff] at apart
  have bit : d < c.bitidxSize := lt_of_lt_of_le apart.inside bits
  obtain ⟨t, joins⟩ := exists_joins d s l
  have total := joins.leaves
  obtain ⟨merged, returns, validLen, keyPtr, listsMerged⟩ :=
    mergeBlindiNodes_returns size sizeLarge lists listsLarge joins diff bit idx new
  have first {i : Nat} (hi : i < node.validLen) : merged.keyPtr i = node.keyPtr i := by
    rw [keyPtr, blit, if_neg (by omega)]
  have second {i : Nat} (hi : i < largeNode.validLen) : merged.keyPtr (node.validLen + i) =
      largeNode.keyPtr i := by
    rw [keyPtr, blit, if_pos (by omega), Nat.zero_add, Nat.add_sub_cancel_left]
  have splitsMerged : Splits (keyBits c.keyLen) (merged.keys mem) 0 t := by
    refine joins.splits (splits.congr fun i _ hi => ?_) (splitsLarge.move fun i hi => ?_) ?_
    · exact congrArg mem (first (by omega))
    · rw [Nat.zero_add, Nat.zero_add, size]
      exact congrArg mem (second (by omega))
    · rw [Nat.zero_add, size, SubTrieBlindiNode.keys, SubTrieBlindiNode.keys, first (by omega)]
      rwa [show merged.keyPtr node.validLen = largeNode.keyPtr 0 from second (i := 0) (by omega)]
  refine ⟨merged, returns, ?_, ?_⟩
  · exact encodes_of_lists (by omega) (by omega) (by omega) splitsMerged
      (joins.under (small.under size lists) (large.under sizeLarge listsLarge) bit) listsMerged
  · rw [validLen, entries_add, entries_congr fun i hi => first hi,
      entries_congr fun i hi => second hi]

-- A merge of two nodes ends with all their keys in the one.
theorem mergeBlindiNodes_encodes (length : c.keyLen ≤ 8192) (mem : Addr → Bytes c.keyLen)
    (node largeNode : SubTrieBlindiNode) (small : Encodes mem node) (large : Encodes mem largeNode)
    (below : ∀ i j, i < node.validLen → j < largeNode.validLen →
      (keyBits c.keyLen).Less (node.keys mem i) (largeNode.keys mem j))
    (fits : node.validLen + largeNode.validLen ≤ c.numSlots)
    (slots : node.validLen + largeNode.validLen < 65536) (new : EntryArrays) :
    ∃ merged, Returns (fun rounds => mergeBlindiNodes rounds mem new node largeNode) merged ∧
      Joined mem node largeNode merged :=
  merge_joined (c.bits_fit length) mem small large below fits (c.length_fits fits slots) new

-- The keys 8 and 9.
def highNode : SubTrieBlindiNode :=
  { blindiKeys := fun i => [7].getD i 0, subtrieArray := fun i => [1].getD i 0,
    keyPtr := fun i => [8, 9].getD i 0
    validLen := 2 }

theorem highNode_encodes : Encodes (c := sampleParams) sampleKey highNode := by
  have compare : compareStage (sampleKey 8) (sampleKey 9) =
    { eq := false, bigSmall := false, position := 7 } := by decide
  refine encodes_of_lists (t := .branch 7 .leaf .leaf) (by decide) (by decide) rfl
    ⟨fun i j _ hi hj hj' => ?_, trivial, trivial⟩
    (by simp [Trie.Under, Params.bitidxSize]) (lists_iff.mpr rfl)
  simp only [leaves_leaf] at hi hj hj'
  obtain rfl : i = 0 := by omega
  obtain rfl : j = 1 := by omega
  exact lessAt_of_compare compare

-- A merge of two nodes ends with all their keys in the one.
theorem mergeBlindiNodes_encodes_sample :
    ∃ merged, Returns (fun rounds =>
      mergeBlindiNodes (c := sampleParams) rounds sampleKey ⟨fun _ => 0, fun _ => 0⟩ sampleNode
      highNode) merged ∧ Joined (c := sampleParams) sampleKey sampleNode highNode merged := by
  have compares : ∀ i : Nat, i < 4 → ∀ j : Nat, j < 2 →
      compareStage (sampleNode.keys (c := sampleParams) sampleKey i)
      (highNode.keys (c := sampleParams) sampleKey j) =
        { eq := false, bigSmall := false, position := 4 } := by decide
  exact mergeBlindiNodes_encodes (c := sampleParams) (by decide) sampleKey sampleNode highNode
    sampleNode_encodes
    highNode_encodes (fun i j hi hj => (lessAt_of_compare (compares i hi j hj)).less)
      (by decide) (by decide) _

-- The bit at which the two keys differ has no room in the node.
theorem longNodes_unmerged (merged : SubTrieBlindiNode) :
    ¬ Joined (c := longParams) (chainKey 8193) (chainNode 1 65536) (chainNode 1 65537) merged := by
  intro joined
  have listed : entries merged.validLen merged.keyPtr = [65536, 65537] := joined.keyPtr
  have len : merged.validLen = 2 := by
    rw [← length_entries merged.validLen merged.keyPtr, listed]
    rfl
  rw [len] at listed
  have whole : [merged.keyPtr 0, merged.keyPtr 1] = [65536, 65537] := listed
  obtain ⟨first, second⟩ : merged.keyPtr 0 = 65536 ∧ merged.keyPtr 1 = 65537 := by simpa using whole
  exact longNode_unfit joined.encodes len first second

theorem merge_validLen {rounds : Nat} {new : EntryArrays} {merged : SubTrieBlindiNode}
    (some_ : node.validLen ≠ 0) (someLarge : nodeLarge.validLen ≠ 0)
    (result : mergeBlindiNodes rounds mem new node nodeLarge = some merged) :
    merged.validLen = (node.validLen + nodeLarge.validLen) % 65536 % c.idxSize := by
  rw [mergeBlindiNodes, if_neg some_, if_neg someLarge, SubTrieBlindiNode.mergeBlindiNodes]
    at result
  obtain ⟨s, _, rfl⟩ := Option.map_eq_some_iff.mp result
  rfl

-- 65536 keys are more than new_valid_len can count.
theorem vastNodes_lost (new : EntryArrays) (merged : SubTrieBlindiNode)
    (returns : Returns (fun rounds =>
      mergeBlindiNodes (c := vastParams) rounds (chainKey 8192) new (chainNode 65535 0)
      (chainNode 1 65535)) merged) :
    ¬ Joined (c := vastParams) (chainKey 8192) (chainNode 65535 0) (chainNode 1 65535) merged := by
  intro joined
  obtain ⟨bound, result⟩ := returns
  have nonempty := joined.encodes.nonempty
  rw [merge_validLen (by decide) (by decide) (result bound le_rfl)] at nonempty
  revert nonempty
  decide

-- Both limits are needed: the key length and the type of new_valid_len.
theorem merging_limits :
    (∃ (c : Params) (mem : Addr → Bytes c.keyLen) (node largeNode : SubTrieBlindiNode)
      (new : EntryArrays),
      c.keyLen = 8193 ∧ c.numSlots = 6 ∧ Encodes mem node ∧ Encodes mem largeNode ∧
        (∀ i j, i < node.validLen → j < largeNode.validLen →
          (keyBits c.keyLen).Less (node.keys mem i) (largeNode.keys mem j)) ∧
        node.validLen + largeNode.validLen ≤ c.numSlots ∧
        ¬ ∃ merged, Returns (fun rounds => mergeBlindiNodes rounds mem new node largeNode) merged ∧
          Joined mem node largeNode merged) ∧
      ∃ (c : Params) (mem : Addr → Bytes c.keyLen) (node largeNode : SubTrieBlindiNode)
        (new : EntryArrays),
        c.keyLen = 8192 ∧ c.numSlots = 65536 ∧ Encodes mem node ∧ Encodes mem largeNode ∧
          (∀ i j, i < node.validLen → j < largeNode.validLen →
            (keyBits c.keyLen).Less (node.keys mem i) (largeNode.keys mem j)) ∧
          node.validLen + largeNode.validLen ≤ c.numSlots ∧
          ¬ ∃ merged, Returns (fun rounds => mergeBlindiNodes rounds mem new node largeNode)
            merged ∧
            Joined mem node largeNode merged := by
  refine ⟨⟨longParams, chainKey 8193, chainNode 1 65536, chainNode 1 65537,
    ⟨fun _ => 0, fun _ => 0⟩, rfl, rfl,
      chainNode_encodes (by decide) (by decide) (by decide) (by decide) (by decide),
      chainNode_encodes (by decide) (by decide) (by decide) (by decide) (by decide),
      fun i j hi hj => ?_, by decide, fun ⟨merged, _, joined⟩ => longNodes_unmerged merged joined⟩,
    ⟨vastParams, chainKey 8192, chainNode 65535 0, chainNode 1 65535,
    ⟨fun _ => 0, fun _ => 0⟩, rfl, rfl,
      chainNode_encodes (by decide) (by decide) (by decide) (by decide) (by decide),
      chainNode_encodes (by decide) (by decide) (by decide) (by decide) (by decide),
      fun i j hi hj => ?_, by decide,
      fun ⟨merged, returns, joined⟩ => vastNodes_lost _ merged returns joined⟩⟩
  · change i < 1 at hi
    change j < 1 at hj
    change (keyBits 8193).Less (chainKey 8193 (65536 + i)) (chainKey 8193 (65537 + j))
    exact (chainKey_less (by omega) (by omega)).less
  · change i < 65535 at hi
    change (keyBits 8192).Less (chainKey 8192 (0 + i)) (chainKey 8192 (65535 + j))
    change j < 1 at hj
    exact (chainKey_less (a := 0 + i) (b := 65535 + j) (by omega) (by omega)).less

end ElasticIndex.SubTrie
