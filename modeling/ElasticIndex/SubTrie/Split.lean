import ElasticIndex.SubTrie.Search

set_option autoImplicit false

namespace ElasticIndex.SubTrie

open SequenceEdit BitOrder BlindSequence BlindTrie BlindTrie.Trie Loop

/-- The two arrays of a node that is being filled. -/
structure EntryArrays where
  blindiKeys : Nat → Nat
  subtrieArray : Nat → Nat

def EntryArrays.copy (s : EntryArrays) (dst src count : Nat)
    (node : SubTrieBlindiNode) : EntryArrays :=
  { blindiKeys := blit dst src count node.blindiKeys s.blindiKeys
    subtrieArray := blit dst src count node.subtrieArray s.subtrieArray }

def EntryArrays.put (s : EntryArrays) (pos bit subtrie : Nat) : EntryArrays :=
  { blindiKeys := Function.update s.blindiKeys pos bit
    subtrieArray := Function.update s.subtrieArray pos subtrie }

/-- The two stacks are listed from their tops. -/
structure SplitWalk where
  curI : Nat
  smallI : Nat
  largeI : Nat
  keyPtrPos : Nat
  small : EntryArrays
  large : EntryArrays
  treeTraverse : List Nat
  largeTreeTraverse : List Nat

-- Down the path to the cut; leaves with sum_movers2leftnode_from_traverse at the divider.
def splitStep (node : SubTrieBlindiNode) (mid : Nat) (s : SplitWalk) :
    SplitWalk ⊕ (SplitWalk × Nat) :=
  let subtrie := node.subtrieArray s.curI
  let next := s.curI + subtrie
  let movers := s.largeI + 1 - next
  let large := s.large.copy (next - mid) next movers node
  if s.keyPtrPos + subtrie ≤ mid - 1 then
    .inl { s with
      small := s.small.copy s.smallI s.curI subtrie node
      smallI := s.smallI + subtrie
      treeTraverse := s.curI :: s.treeTraverse
      keyPtrPos := s.keyPtrPos + subtrie
      curI := next }
  else if mid < s.keyPtrPos + subtrie then
    .inl { s with
      large := large
      largeI := s.largeI - movers
      largeTreeTraverse := s.curI :: s.largeTreeTraverse
      treeTraverse := s.curI :: s.treeTraverse
      curI := s.curI + 1 }
  else
    .inr ({ s with
      small := s.small.copy s.smallI (s.curI + 1) (subtrie - 1) node
      smallI := s.smallI + (subtrie - 1)
      large := large
      largeI := movers }, subtrie)

-- Back up the path. The counter of this loop is unsigned, so only its break ends it.
def collect (node : SubTrieBlindiNode) : List Nat → List Nat → Nat → EntryArrays →
    Option EntryArrays
  | [], _, _, _ => none
  | pos :: traverse, kept, movers, large =>
    if kept.head? = some pos then
      let large := large.put (kept.length - 1) (node.blindiKeys pos)
        (node.subtrieArray pos - movers)
      if kept.length = 1 then some large else collect node traverse kept.tail movers large
    else collect node traverse kept (movers + node.subtrieArray pos) large

def SplitWalk.finish (node : SubTrieBlindiNode) (s : SplitWalk) (movers : Nat) :
    Option EntryArrays :=
  if s.largeTreeTraverse.length = 0 then some s.large
  else collect node s.treeTraverse s.largeTreeTraverse movers s.large

-- nodeSmall and nodeLarge are the two target nodes with whatever they held.
def splitBlindiNode (rounds : Nat) (node nodeSmall nodeLarge : SubTrieBlindiNode) :
    Option (SubTrieBlindiNode × SubTrieBlindiNode) :=
  let mid := node.validLen / 2
  (run (splitStep node mid) rounds
    { curI := 0, smallI := 0, largeI := node.validLen - 2, keyPtrPos := 0
      small := { blindiKeys := nodeSmall.blindiKeys, subtrieArray := nodeSmall.subtrieArray }
      large := { blindiKeys := nodeLarge.blindiKeys, subtrieArray := nodeLarge.subtrieArray }
      treeTraverse := [], largeTreeTraverse := [] }).bind fun (s, movers) =>
    (s.finish node movers).map fun large =>
      ({ blindiKeys := s.small.blindiKeys
         subtrieArray := s.small.subtrieArray
         keyPtr := blit 0 0 mid node.keyPtr nodeSmall.keyPtr
         validLen := mid },
        { blindiKeys := large.blindiKeys
          subtrieArray := large.subtrieArray
          keyPtr := blit 0 mid mid node.keyPtr nodeLarge.keyPtr
          validLen := mid })

variable {c : Params} {mem : Addr → Bytes c.keyLen} {node : SubTrieBlindiNode} {t : Trie}
  {j lo m mid : Nat}

def EntryArrays.Lists (s : EntryArrays) (j : Nat) (t : Trie) : Prop :=
  BlindTrie.Lists s.blindiKeys s.subtrieArray j t

def EntryArrays.SameAt (s s' : EntryArrays) (i : Nat) : Prop :=
  s.blindiKeys i = s'.blindiKeys i ∧ s.subtrieArray i = s'.subtrieArray i

theorem EntryArrays.Lists.congr {s s' : EntryArrays} (h : s.Lists j t)
    (same : ∀ i, j ≤ i → i + 1 < j + t.leaves → s'.SameAt s i) : s'.Lists j t :=
  BlindTrie.Lists.congr h same

theorem EntryArrays.copy_outside {s : EntryArrays} {dst src count i : Nat}
    (outside : ¬ (dst ≤ i ∧ i < dst + count)) :
    (s.copy dst src count node).SameAt s i := ⟨if_neg outside, if_neg outside⟩

-- A copied listing lists the same trie.
theorem EntryArrays.copy_lists (s : EntryArrays) {dst src count o : Nat}
    (lists : BlindTrie.Lists node.blindiKeys node.subtrieArray (src + o) t)
    (inside : o + t.leaves ≤ count + 1) : (s.copy dst src count node).Lists (dst + o) t := by
  refine BlindTrie.Lists.move lists fun i hi => ?_
  change blit _ _ _ _ _ _ = _ ∧ blit _ _ _ _ _ _ = _
  have place : src + (dst + o + i - dst) = src + o + i := by omega
  rw [blit, blit, if_pos (by omega), if_pos (by omega), place]
  exact ⟨rfl, rfl⟩

theorem EntryArrays.put_other {s : EntryArrays} {pos bit subtrie i : Nat} (ne : i ≠ pos) :
    (s.put pos bit subtrie).SameAt s i :=
  ⟨Function.update_of_ne ne _ _, Function.update_of_ne ne _ _⟩

theorem EntryArrays.SameAt.trans {s s' s'' : EntryArrays} {i : Nat} (h : s.SameAt s' i)
    (g : s'.SameAt s'' i) :
    s.SameAt s'' i := ⟨h.1.trans g.1, h.2.trans g.2⟩

/-- What the way back makes of the entries: the stacks of this subtrie are used up, and movers is
the number of its leaves that went to the small node. -/
structure Collected (node : SubTrieBlindiNode) (j depth m : Nat) (t : Trie)
    (path kept : List Nat) (movers : Nat) (before after : EntryArrays) : Prop where
  none : kept = [] → after = before
  lists : after.Lists depth (lastLeaves m t)
  outside : ∀ i, i < depth ∨ depth + (t.leaves - m) ≤ i + 1 → after.SameAt before i
  more : ∀ traverse others : List Nat, others.length = depth →
    (∀ q, q ∈ others → q < j) → others ≠ [] →
    collect node (path ++ traverse) (kept ++ others) movers before =
    collect node traverse others m after
  last : ∀ traverse : List Nat, depth = 0 → kept ≠ [] →
    collect node (path ++ traverse) kept movers before = some after

-- The three ways a branch can lie to the cut.
theorem Collected.divider {d : Nat} {l r : Trie} {arrays : EntryArrays} {depth : Nat}
    (right : arrays.Lists depth r) :
    Collected node j depth l.leaves (.branch d l r) [] [] l.leaves arrays arrays := by
  refine ⟨fun _ => rfl, ?_, fun i _ => ⟨rfl, rfl⟩, fun traverse others _ _ _ => rfl,
    fun _ _ ne => absurd rfl ne⟩
  rwa [lastLeaves, if_neg (Nat.lt_irrefl _), if_pos rfl]

theorem Collected.beside {d depth movers : Nat} {l r : Trie} {path kept : List Nat}
    {before after : EntryArrays} (count : node.subtrieArray j = l.leaves) (past : l.leaves < m)
    (bound : m < l.leaves + r.leaves)
    (right : Collected node (j + l.leaves) depth (m - l.leaves) r path kept movers before after) :
    Collected node j depth m (.branch d l r) (path ++ [j]) kept movers before after := by
  refine ⟨right.none, ?_, fun i hi => right.outside i ?_, fun traverse others len below ne => ?_,
    fun traverse zero ne => ?_⟩
  · rw [lastLeaves, if_neg (by omega), if_neg (by omega)]
    exact right.lists
  · rw [leaves_branch] at hi
    omega
  · have rest := right.more (j :: traverse) others len
      (fun q inside => (below q inside).trans_le (Nat.le_add_right _ _)) ne
    have head : others.head? ≠ some j := fun same =>
      absurd (below j (List.mem_of_head? same)) (Nat.lt_irrefl j)
    rw [List.append_assoc, List.singleton_append, rest, collect, if_neg head, count,
      Nat.sub_add_cancel past.le]
  · rw [List.append_assoc, List.singleton_append]
    exact right.last (j :: traverse) zero ne

theorem Collected.above {d depth movers : Nat} {l r : Trie} {path kept : List Nat}
    {before after : EntryArrays} (bit : node.blindiKeys j = d)
    (count : node.subtrieArray j = l.leaves) (positive : 1 ≤ m) (inside : m < l.leaves)
    (right : before.Lists (depth + (l.leaves - m)) r)
    (left : Collected node (j + 1) (depth + 1) m l path kept movers before after) :
    Collected node j depth m (.branch d l r) (path ++ [j]) (kept ++ [j]) movers before
      (after.put depth d (l.leaves - m)) := by
  have size := (leaves_halves positive inside).2
  have posR := r.leaves_pos
  have other {i : Nat} (ne : i ≠ depth) : (after.put depth d (l.leaves - m)).SameAt after i :=
    EntryArrays.put_other ne
  refine ⟨fun empty => ?_, ?_, fun i hi => ?_, fun traverse others len below ne => ?_,
    fun traverse zero _ => ?_⟩
  · cases List.append_ne_nil_of_right_ne_nil kept (List.cons_ne_nil j []) empty
  · rw [lastLeaves, if_pos inside]
    refine ⟨Function.update_self .., (Function.update_self ..).trans size.symm, ?_, ?_⟩
    · exact left.lists.congr fun i hi _ => other (by omega)
    · rw [size]
      exact right.congr fun i hi _ => (other (by omega)).trans (left.outside i (.inr (by omega)))
  · rw [leaves_branch] at hi
    exact (other (by omega)).trans (left.outside i (by omega))
  · have rest := left.more (j :: traverse) (j :: others) (by rw [List.length_cons, len])
      (fun q member => by
        rcases List.mem_cons.mp member with rfl | member
        · exact Nat.lt_succ_self q
        · exact (below q member).trans (Nat.lt_succ_self j))
      (List.cons_ne_nil _ _)
    have several : (j :: others).length ≠ 1 := by
      rw [List.length_cons]
      have := List.length_pos_of_ne_nil ne
      omega
    rw [List.append_assoc, List.append_assoc, List.singleton_append,
      List.singleton_append, rest, collect, if_pos List.head?_cons, if_neg several, bit, count,
      List.length_cons, Nat.add_sub_cancel, len, List.tail_cons]
  · have rest := left.more (j :: traverse) [j] (by rw [zero]; rfl)
      (fun q member => by rw [List.mem_singleton.mp member]; exact Nat.lt_succ_self j)
        (List.cons_ne_nil _ _)
    rw [List.append_assoc, List.singleton_append, rest, collect, if_pos List.head?_cons,
      if_pos List.length_singleton, bit, count, zero]
    rfl

structure Descended (node : SubTrieBlindiNode) (j lo m : Nat) (t : Trie) (s s' : SplitWalk)
    (movers : Nat) : Prop where
  small : s'.small.Lists lo (firstLeaves m t)
  smallKept : ∀ i, i < lo → s'.small.SameAt s.small i
  largeKept : ∀ i, s.largeTreeTraverse.length + (t.leaves - m) ≤ i + 1 → s'.large.SameAt s.large i
  collected : ∃ path kept after, s'.treeTraverse = path ++ s.treeTraverse ∧
    s'.largeTreeTraverse = kept ++ s.largeTreeTraverse ∧
    Collected node j s.largeTreeTraverse.length m t path kept movers s'.large after

theorem EntryArrays.copy_at (s : EntryArrays) {dst src count : Nat} (inside : 0 < count) :
    (s.copy dst src count node).blindiKeys dst = node.blindiKeys src ∧
      (s.copy dst src count node).subtrieArray dst = node.subtrieArray src := by
  change blit _ _ _ _ _ _ = _ ∧ blit _ _ _ _ _ _ = _
  rw [blit, blit, if_pos (by omega), if_pos (by omega), Nat.sub_self, Nat.add_zero]
  exact ⟨rfl, rfl⟩

-- One case for each way down: a subtrie that is small, one that is cut, and the divider.
theorem splitStep_ends (lists : Lists node.blindiKeys node.subtrieArray j t) (positive : 1 ≤ m)
    (bound : m < t.leaves) {s : SplitWalk} (cur : s.curI = j) (key : s.keyPtrPos = lo)
    (small : s.smallI = lo) (large : s.largeI + 2 = j + t.leaves)
    (depth : lo + s.largeTreeTraverse.length = j) (cut : lo + m = mid) :
    ∃ s' movers, Ends (splitStep node mid) s (s', movers) ∧
    Descended node j lo m t s s' movers := by
  induction t generalizing j lo m s with
  | leaf =>
    rw [leaves_leaf] at bound
    omega
  | branch d l r ihl ihr =>
    obtain ⟨bit, count, left, right⟩ := id lists
    have posL := l.leaves_pos
    have posR := r.leaves_pos
    rw [leaves_branch] at bound large
    have movers : s.largeI + 1 - (j + l.leaves) = r.leaves - 1 := by omega
    have target : j + l.leaves - mid = s.largeTreeTraverse.length + (l.leaves - m) ∨
      l.leaves < m := by omega
    rcases Nat.lt_trichotomy m l.leaves with cutLeft | here | cutRight
    · have goes : splitStep node mid s = .inl { s with
          large := s.large.copy (j + l.leaves - mid) (j + l.leaves) (r.leaves - 1) node
          largeI := s.largeI - (r.leaves - 1)
          largeTreeTraverse := j :: s.largeTreeTraverse
          treeTraverse := j :: s.treeTraverse
          curI := j + 1 } := by
        rw [splitStep, cur, key, count, if_neg (by omega), if_pos (by omega), movers]
      obtain ⟨s', movers', ends, down⟩ := ihl (m := m) left positive cutLeft
        (s := { s with
          large := s.large.copy (j + l.leaves - mid) (j + l.leaves) (r.leaves - 1) node
          largeI := s.largeI - (r.leaves - 1)
          largeTreeTraverse := j :: s.largeTreeTraverse
          treeTraverse := j :: s.treeTraverse
          curI := j + 1 }) rfl key
            small (by dsimp only; omega) (by rw [List.length_cons]; omega) cut
      have kept := down.largeKept
      rw [List.length_cons] at kept
      obtain ⟨path, moved, after, traverse, largeTraverse, collected⟩ := down.collected
      rw [List.length_cons] at collected
      have copied : s'.large.Lists (s.largeTreeTraverse.length + (l.leaves - m)) r := by
        refine EntryArrays.Lists.congr ?_ fun i hi _ => kept i (by omega)
        rw [show s.largeTreeTraverse.length + (l.leaves - m) = j + l.leaves - mid + 0 by omega]
        exact EntryArrays.copy_lists _ right (by omega)
      refine ⟨s', movers', .turn goes ends, ?_, down.smallKept, fun i hi => ?_, path ++ [j],
        moved ++ [j], _, ?_, ?_,
        collected.above bit count positive cutLeft copied⟩
      · rw [firstLeaves, if_pos cutLeft]
        exact down.small
      · rw [leaves_branch] at hi
        exact (kept i (by omega)).trans (EntryArrays.copy_outside (by omega))
      · rw [List.append_assoc]
        exact traverse
      · rw [List.append_assoc]
        exact largeTraverse
    · have goes : splitStep node mid s = .inr ({ s with
          small := s.small.copy s.smallI (j + 1) (l.leaves - 1) node
          smallI := s.smallI + (l.leaves - 1)
          large := s.large.copy (j + l.leaves - mid) (j + l.leaves) (r.leaves - 1) node
          largeI := r.leaves - 1 }, l.leaves) := by
        rw [splitStep, cur, key, count, if_neg (by omega), if_neg (by omega), movers]
      subst here
      have copied : (s.large.copy (j + l.leaves - mid) (j + l.leaves) (r.leaves - 1) node).Lists
          s.largeTreeTraverse.length r := by
        rw [show s.largeTreeTraverse.length = j + l.leaves - mid + 0 by omega]
        exact EntryArrays.copy_lists _ right (by omega)
      refine ⟨_, _, .leave goes, ?_, fun i hi => EntryArrays.copy_outside (by omega),
        fun i hi => EntryArrays.copy_outside ?_, [], [], _, rfl, rfl, Collected.divider copied⟩
      · rw [firstLeaves, if_neg (Nat.lt_irrefl _), if_pos rfl, small]
        exact EntryArrays.copy_lists (o := 0) _ left (by omega)
      · rw [leaves_branch] at hi
        omega
    · have goes : splitStep node mid s = .inl { s with
          small := s.small.copy s.smallI j l.leaves node
          smallI := s.smallI + l.leaves
          treeTraverse := j :: s.treeTraverse
          keyPtrPos := lo + l.leaves
          curI := j + l.leaves } := by
        rw [splitStep, cur, key, count, if_pos (by omega)]
      obtain ⟨s', movers', ends, down⟩ := ihr (m := m - l.leaves) right (by omega) (by omega)
        (s := { s with
          small := s.small.copy s.smallI j l.leaves node
          smallI := s.smallI + l.leaves
          treeTraverse := j :: s.treeTraverse
          keyPtrPos := lo + l.leaves
          curI := j + l.leaves }) rfl
            rfl (by dsimp only; omega) (by dsimp only; omega) (by dsimp only; omega)
        (show lo + l.leaves + (m - l.leaves) = mid by omega)
      obtain ⟨path, moved, after, traverse, largeTraverse, collected⟩ := down.collected
      have kept (i : Nat) (hi : i < lo + l.leaves) := down.smallKept i hi
      refine ⟨s', movers', .turn goes ends, ?_, fun i hi => ?_, fun i hi => down.largeKept i ?_,
        path ++ [j], moved, _, ?_,
        largeTraverse, collected.beside count cutRight bound⟩
      · obtain ⟨sameBit, sameCount⟩ := kept lo (by omega)
        obtain ⟨copiedBit, copiedCount⟩ : (s.small.copy lo j l.leaves node).blindiKeys lo =
          node.blindiKeys j ∧
            (s.small.copy lo j l.leaves node).subtrieArray lo = node.subtrieArray j :=
            s.small.copy_at posL
        rw [firstLeaves, if_neg (by omega), if_neg (by omega)]
        rw [small] at sameBit sameCount kept
        refine ⟨sameBit.trans (copiedBit.trans bit),
          sameCount.trans (copiedCount.trans count), ?_, down.small⟩
        refine EntryArrays.Lists.congr ?_ fun i hi hi' => kept i (by omega)
        exact EntryArrays.copy_lists (o := 1) _ left (by omega)
      · exact (kept i (by omega)).trans (EntryArrays.copy_outside (by omega))
      · rw [leaves_branch] at hi
        dsimp only
        omega
      · rw [List.append_assoc]
        exact traverse

/-- What a split leaves in the two nodes. -/
structure Halves (mem : Addr → Bytes c.keyLen) (node : SubTrieBlindiNode)
    (r : SubTrieBlindiNode × SubTrieBlindiNode) :
    Prop where
  small : Encodes mem r.1
  large : Encodes mem r.2
  smallKeys : entries r.1.validLen r.1.keyPtr =
    (entries node.validLen node.keyPtr).take (node.validLen / 2)
  largeKeys : entries r.2.validLen r.2.keyPtr =
    (entries node.validLen node.keyPtr).drop (node.validLen / 2)

-- The walk down and the way back end, and leave the two tries in the arrays.
theorem splitBlindiNode_returns (size : t.leaves = node.validLen)
    (lists : BlindTrie.Lists node.blindiKeys node.subtrieArray 0 t) (positive : 1 ≤ mid)
    (half : mid = node.validLen / 2) (nodeSmall nodeLarge : SubTrieBlindiNode) :
    ∃ small large : EntryArrays, small.Lists 0 (firstLeaves mid t) ∧
    large.Lists 0 (lastLeaves mid t) ∧
      Returns (fun rounds => splitBlindiNode rounds node nodeSmall nodeLarge)
        ({ blindiKeys := small.blindiKeys, subtrieArray := small.subtrieArray
           keyPtr := blit 0 0 mid node.keyPtr nodeSmall.keyPtr, validLen := mid },
         { blindiKeys := large.blindiKeys, subtrieArray := large.subtrieArray
           keyPtr := blit 0 mid mid node.keyPtr nodeLarge.keyPtr, validLen := mid }) := by
  obtain ⟨s', movers, ends, down⟩ := splitStep_ends (m := mid) lists positive (by omega)
    (s := { curI := 0, smallI := 0, largeI := node.validLen - 2, keyPtrPos := 0
            small := { blindiKeys := nodeSmall.blindiKeys, subtrieArray := nodeSmall.subtrieArray }
            large := { blindiKeys := nodeLarge.blindiKeys, subtrieArray := nodeLarge.subtrieArray }
            treeTraverse := [], largeTreeTraverse := [] })
    rfl rfl rfl (by dsimp only; omega) rfl (Nat.zero_add mid)
  obtain ⟨path, kept, after, traverse, largeTraverse, collected⟩ := down.collected
  rw [List.append_nil] at traverse largeTraverse
  have finish : s'.finish node movers = some after := by
    rw [SplitWalk.finish, largeTraverse, traverse]
    by_cases none : kept = []
    · rw [if_pos (by rw [none]; rfl), collected.none none]
    · have back := collected.last [] rfl none
      rw [List.append_nil] at back
      rw [if_neg fun zero => none (List.length_eq_zero_iff.mp zero), back]
  refine ⟨s'.small, after, down.small, collected.lists, ?_⟩
  subst half
  refine ends.returns.bind ((Returns.pure _).congr fun rounds => ?_)
  dsimp only
  rw [finish]
  rfl

theorem encodes_of_lists {node : SubTrieBlindiNode} (fits : node.validLen ≤ c.numSlots)
    (idx : node.validLen < c.idxSize) (size : t.leaves = node.validLen)
    (splits : Splits (keyBits c.keyLen) (node.keys mem) 0 t) (under : t.Under c.bitidxSize)
    (lists : BlindTrie.Lists node.blindiKeys node.subtrieArray 0 t) : Encodes mem node :=
  ⟨fits, idx, fun i hi => (Lists.under lists).mp under i (Nat.zero_le _) (by omega), t, size,
    splits,
    entries_of_lists size lists⟩

theorem Encodes.under (encodes : Encodes mem node) (size : t.leaves = node.validLen)
    (lists : BlindTrie.Lists node.blindiKeys node.subtrieArray 0 t) : t.Under c.bitidxSize :=
  lists.under.mpr fun i _ hi => encodes.bits i (by omega)

-- A split of a node with an even number of keys ends with the two halves.
theorem split_halved (encodes : Encodes mem node) (even : node.validLen % 2 = 0)
    (nodeSmall nodeLarge : SubTrieBlindiNode) :
    ∃ r, Returns (fun rounds => splitBlindiNode rounds node nodeSmall nodeLarge) r ∧
    Halves mem node r := by
  obtain ⟨t, size, splits, lists⟩ := encodes.listed
  have nonempty := encodes.nonempty
  have fits := encodes.fits
  have idx := encodes.idx
  obtain ⟨mid, half⟩ : ∃ mid, mid = node.validLen / 2 := ⟨_, rfl⟩
  have positive : 1 ≤ mid := by omega
  have whole : node.validLen - mid = mid := by omega
  obtain ⟨small, large, first, last, returns⟩ :=
    splitBlindiNode_returns size lists positive half nodeSmall nodeLarge
  obtain ⟨splitsFirst, splitsLast⟩ := splits.halves positive (by omega)
  obtain ⟨sizeFirst, sizeLast⟩ := leaves_halves (t := t) positive (by omega)
  obtain ⟨underFirst, underLast⟩ := Trie.Under.halves (m := mid) (encodes.under size lists)
  have keysFirst {i : Nat} (hi : i < mid) : blit 0 0 mid node.keyPtr nodeSmall.keyPtr i =
      node.keyPtr i := by
    rw [blit, if_pos (by omega), Nat.sub_zero, Nat.zero_add]
  have keysLast {i : Nat} (hi : i < mid) : blit 0 mid mid node.keyPtr nodeLarge.keyPtr i =
      node.keyPtr (mid + i) := by
    rw [blit, if_pos (by omega), Nat.sub_zero]
  refine ⟨_, returns, ?_, ?_, ?_, ?_⟩
  · refine encodes_of_lists (by dsimp only; omega) (by dsimp only; omega) sizeFirst
      ?_ underFirst first
    refine splitsFirst.congr fun i _ hi => congrArg mem (keysFirst (by omega))
  · refine encodes_of_lists (by dsimp only; omega) (by dsimp only; omega)
      (by dsimp only; omega) ?_ underLast last
    refine splitsLast.move fun i hi => ?_
    rw [SubTrieBlindiNode.keys, SubTrieBlindiNode.keys]
    dsimp only
    rw [Nat.zero_add, Nat.zero_add, keysLast (by omega)]
  · rw [← half, ← entries_take (by omega)]
    exact entries_congr fun i hi => keysFirst hi
  · rw [← half, ← entries_drop, whole]
    exact entries_congr fun i hi => keysLast hi

-- A split of a full node ends with the two halves.
theorem splitBlindiNode_encodes (mem : Addr → Bytes c.keyLen) (node : SubTrieBlindiNode)
    (encodes : Encodes mem node) (full : node.validLen = c.numSlots)
    (nodeSmall nodeLarge : SubTrieBlindiNode) :
    ∃ r, Returns (fun rounds => splitBlindiNode rounds node nodeSmall nodeLarge) r ∧
    Halves mem node r :=
  split_halved encodes (full ▸ c.even) nodeSmall nodeLarge

-- The keys 0 to 5; the cut is below the left side of the root.
def fullNode : SubTrieBlindiNode :=
  { blindiKeys := fun i => [5, 6, 7, 7, 7].getD i 0
    subtrieArray := fun i => [4, 2, 1, 1, 1].getD i 0
    keyPtr := fun i => i
    validLen := 6 }

def fullTrie : Trie :=
  .branch 5 (.branch 6 (.branch 7 .leaf .leaf) (.branch 7 .leaf .leaf)) (.branch 7 .leaf .leaf)

theorem fullNode_apart {i j : Nat} (lt : i < j) (bound : j < 6) :
    (keyBits 1).LessAt (sampleKey i) (sampleKey j)
    (if i / 4 ≠ j / 4 then 5 else if i / 2 ≠ j / 2 then 6 else 7) := by
  have compares : ∀ i : Nat, i < 6 → ∀ j : Nat, j < 6 → i < j →
    compareStage (sampleKey i) (sampleKey j) =
      { eq := false, bigSmall := false,
        position := if i / 4 ≠ j / 4 then 5 else if i / 2 ≠ j / 2 then 6 else 7 } := by
    decide
  exact lessAt_of_compare (compares i (by omega) j bound lt)

theorem fullTrie_splits : Splits (keyBits 1) sampleKey 0 fullTrie := by
  refine ⟨?_, ⟨?_, ⟨?_, trivial, trivial⟩, ?_, trivial, trivial⟩, ?_, trivial, trivial⟩
  all_goals
    intro i j hi hi' hj hj'
    simp only [leaves_branch, leaves_leaf] at hi hi' hj hj'
    have apart := fullNode_apart (i := i) (j := j) (by omega) (by omega)
  · rwa [if_pos (by omega)] at apart
  · rwa [if_neg (by omega), if_pos (by omega)] at apart
  · rwa [if_neg (by omega), if_neg (by omega)] at apart
  · rwa [if_neg (by omega), if_neg (by omega)] at apart
  · rwa [if_neg (by omega), if_neg (by omega)] at apart

theorem fullNode_encodes : Encodes (c := sampleParams) sampleKey fullNode :=
  encodes_of_lists (t := fullTrie) (by decide) (by decide) rfl fullTrie_splits (by
    simp [fullTrie, Trie.Under, Params.bitidxSize])
    (lists_iff.mpr rfl)

-- A split of a full node ends with the two halves.
theorem splitBlindiNode_encodes_sample :
    ∃ r, Returns (fun rounds => splitBlindiNode rounds fullNode fullNode fullNode) r ∧
    Halves (c := sampleParams) sampleKey fullNode r :=
  splitBlindiNode_encodes (c := sampleParams) sampleKey fullNode fullNode_encodes
    rfl fullNode fullNode

end ElasticIndex.SubTrie
