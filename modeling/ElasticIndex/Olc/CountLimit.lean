import ElasticIndex.Olc.Insert

set_option autoImplicit false

namespace ElasticIndex.Olc

open Interleaving Runs

-- Nodes with room for 65537 children: their count wraps before they are full.
abbrev wideConfig : Config := { innerSlots := 65537, leafSlots := 2 }

abbrev WideRun (s : Machine Unit Nat Nat) : Prop :=
  Reachable Machine.Start (Step (Acts wideConfig sampleBlank id (DistinctInserts id))) s

-- The next steps of the only thread.
def advance (c : Config) : Nat → Shared Nat Nat → Local Nat Nat →
    Option (Shared Nat Nat × Local Nat Nat)
  | 0, s, l => some (s, l)
  | fuel + 1, s, l =>
    (perform c sampleBlank id s l .resume).bind fun (s', l', _) => advance c fuel s' l'

theorem advance_add (c : Config) (i j : Nat) (s : Shared Nat Nat) (l : Local Nat Nat) :
    advance c (i + j) s l = (advance c i s l).bind fun (s', l') => advance c j s' l' := by
  induction i generalizing s l with
  | zero => simp [advance]
  | succ i ih => simp [Nat.succ_add, advance, ih, Option.bind_assoc]

theorem advance_reachable {n : Nat} {s s' : Shared Nat Nat} {l l' : Local Nat Nat}
    (run : WideRun ⟨s, fun _ => l⟩) (advances : advance wideConfig n s l = some (s', l')) :
    WideRun ⟨s', fun _ => l'⟩ := by
  induction n generalizing s l with
  | zero =>
    cases advances
    exact run
  | succ n ih =>
    simp only [advance, Option.bind_eq_some_iff] at advances
    obtain ⟨⟨s'', l'', answer⟩, performs, rest⟩ := advances
    have next := run.next (.run (t := ()) ⟨.resume, answer, trivial, performs⟩)
    have same : Function.update (fun _ : Unit => l) () l'' = fun _ => l'' := funext fun _ => by simp
    rw [same] at next
    exact ih next rest

variable {c : Config} {s : Shared Nat Nat} {m : Memory Nat Nat} {n : BTreeInner Nat}
  {k a b r child : Nat} {known : Bool} {begun returned : List Nat}

theorem unlocked_of_mod {version : Nat} (free : version % 4 = 0) :
    (isLocked version || isObsolete version) = false := by
  have locked : isLocked version = false := by
    rw [← Bool.not_eq_true, isLocked_iff]
    omega
  have obsolete : isObsolete version = false := by
    have low : version &&& 1 = version % 2 := Nat.and_one_is_mod version
    rw [isObsolete, low, show version % 2 = 0 by omega]
    rfl
  rw [locked, obsolete]
  rfl

theorem advance_goto {fuel : Nat} {call : Call Nat Nat} {pc pc' : Pc Nat} {m' : Memory Nat Nat}
    (next : resume c sampleBlank id m call pc = some (m', .goto pc')) :
    advance c (fuel + 1) ⟨m, begun, returned⟩ (.busy call known pc) =
      advance c fuel ⟨m', begun, returned⟩ (.busy call known pc') := by
  simp [advance, perform, next]

-- From the root to a child that is a leaf.
theorem advance_descend (root : m.root = r) (is : m.node r = .inner n)
    (roomy : n.count ≠ c.innerSlots - 1) (free : m.version r % 4 = 0)
    (leads : n.children (n.lowerBound k) = child) (freeChild : m.version child % 4 = 0)
    {entries : List Nat} (leaf : m.node child = .leaf entries) :
    advance c 9 ⟨m, begun, returned⟩ (.busy (.insert k) known .loadRoot) =
      some (⟨m, begun, returned⟩, .busy (.insert k) known
        (.leafFull (some (r, m.version r)) child (m.version child))) := by
  have readRoot : resume c sampleBlank id m (.insert k) (.readRootVersion r) =
      some (m, .goto (.checkRoot r (m.version r))) := by
      simp only [resume, unlocked_of_mod free, Bool.false_eq_true, if_false]
  have check : resume c sampleBlank id m (.insert k) (.checkRoot r (m.version r)) =
      some (m, .goto (.readType none r (m.version r))) := by simp [resume, root]
  have type : resume c sampleBlank id m (.insert k) (.readType none r (m.version r)) =
      some (m, .goto (.innerFull none r (m.version r))) := by simp [resume, is, Call.inserts]
  have room : resume c sampleBlank id m (.insert k) (.innerFull none r (m.version r)) =
      some (m, .goto (.findChild r (m.version r))) := by
      simp [resume, is, BTreeInner.isFull, roomy, Pc.descend]
  have find : resume c sampleBlank id m (.insert k) (.findChild r (m.version r)) =
      some (m, .goto (.checkInner r (m.version r) child)) := by simp [resume, is, Call.key, leads]
  have same : resume c sampleBlank id m (.insert k) (.checkInner r (m.version r) child) =
      some (m, .goto (.readVersion r (m.version r) child)) := by simp [resume]
  have read : resume c sampleBlank id m (.insert k) (.readVersion r (m.version r) child) =
      some (m, .goto (.readType (some (r, m.version r)) child (m.version child))) := by
    simp only [resume, unlocked_of_mod freeChild, Bool.false_eq_true, if_false]
  have last : resume c sampleBlank id m (.insert k)
    (.readType (some (r, m.version r)) child (m.version child)) =
      some (m, .goto (.leafFull (some (r, m.version r)) child (m.version child))) := by
    simp [resume, leaf, Call.inserts]
  have load : resume c sampleBlank id m (.insert k) .loadRoot =
      some (m, .goto (.readRootVersion r)) := by
    simp [resume, root]
  rw [advance_goto load, advance_goto readRoot, advance_goto check, advance_goto type,
    advance_goto room, advance_goto find, advance_goto same, advance_goto read, advance_goto last]
  rfl

-- The memory after a full leaf has been split and its parent told.
def afterLeafSplit (m : Memory Nat Nat) (r child : Nat) (n : BTreeInner Nat)
    (a b : Nat) : Memory Nat Nat :=
  (((((m.addVersion r).addVersion child).afterSplit child (.leaf [a]) (.leaf [b])).write r
    (.inner (n.insert a m.allocated))).addVersion child).addVersion r

theorem advance_split (two : c.leafSlots = 2) (is : m.node r = .inner n)
    (leaf : m.node child = .leaf [a, b]) (ne : child ≠ r) (old : r ≠ m.allocated) :
    advance c 7 ⟨m, begun, returned⟩ (.busy (.insert k) known
        (.leafFull (some (r, m.version r)) child (m.version child))) =
      some (⟨afterLeafSplit m r child n a b, begun, returned⟩,
        .busy (.insert k) known .loadRoot) := by
  have full : resume c sampleBlank id m (.insert k)
    (.leafFull (some (r, m.version r)) child (m.version child)) =
      some (m, .goto (.lockParent r (m.version r) child (m.version child))) := by
    simp [resume, leaf, BTreeLeaf.isFull, two, Pc.afterFull]
  have lockParent : resume c sampleBlank id m (.insert k)
    (.lockParent r (m.version r) child (m.version child)) =
      some (m.addVersion r, .goto (.lockNode (some r) child (m.version child))) := by simp [resume]
  have lockNode : resume c sampleBlank id (m.addVersion r) (.insert k)
    (.lockNode (some r) child (m.version child)) =
      some ((m.addVersion r).addVersion child, .goto (.split (some r) child)) := by
    simp [resume, Memory.addVersion, Function.update_of_ne ne]
  have split : resume c sampleBlank id ((m.addVersion r).addVersion child) (.insert k)
    (.split (some r) child) =
      some (((m.addVersion r).addVersion child).afterSplit child (.leaf [a]) (.leaf [b]),
        .goto (.insertSep (some r) child a m.allocated)) := by
    have here : ((m.addVersion r).addVersion child).node child = .leaf [a, b] := leaf
    have halves : BTreeLeaf.split id [a, b] = some (a, [a], [b]) := by simp [BTreeLeaf.split]
    simp only [resume, here, halves]
    rfl
  have link : resume c sampleBlank id
    (((m.addVersion r).addVersion child).afterSplit child (.leaf [a]) (.leaf [b]))
      (.insert k) (.insertSep (some r) child a m.allocated) =
      some ((((m.addVersion r).addVersion child).afterSplit child (.leaf [a]) (.leaf [b])).write r
        (.inner (n.insert a m.allocated)), .goto (.unlockNode (some r) child)) := by
    have here : (((m.addVersion r).addVersion child).afterSplit child (.leaf [a]) (.leaf [b])).node
        r = .inner n := by
      rw [split_node_other (m := (m.addVersion r).addVersion child) (Ne.symm ne) old]
      exact is
    simp [resume, here]
  rw [advance_goto full, advance_goto lockParent, advance_goto lockNode, advance_goto split,
    advance_goto link]
  rfl

-- A leaf with room takes the key, and the call returns.
theorem advance_insert (two : c.leafSlots = 2) (leaf : m.node child = .leaf [a])
    (ne : child ≠ r) (less : a < k) :
    advance c 5 ⟨m, begun, returned⟩ (.busy (.insert k) known
        (.leafFull (some (r, m.version r)) child (m.version child))) =
      some (⟨((m.addVersion child).write child (.leaf [a, k])).addVersion child, begun,
        k :: returned⟩, .idle) := by
  have room : resume c sampleBlank id m (.insert k)
    (.leafFull (some (r, m.version r)) child (m.version child)) =
      some (m, .goto (.lockLeaf (some (r, m.version r)) child (m.version child))) := by
    simp [resume, leaf, BTreeLeaf.isFull, two]
  have lock : resume c sampleBlank id m (.insert k)
    (.lockLeaf (some (r, m.version r)) child (m.version child)) =
      some (m.addVersion child, .goto (.validateParent r (m.version r) child)) := by
    simp [resume, Pc.afterLeafLock]
  have validate : resume c sampleBlank id (m.addVersion child) (.insert k)
    (.validateParent r (m.version r) child) =
      some (m.addVersion child, .goto (.insertLeaf child)) := by
    simp [resume, Memory.addVersion, Function.update_of_ne (Ne.symm ne)]
  have insert : resume c sampleBlank id (m.addVersion child) (.insert k) (.insertLeaf child) =
      some ((m.addVersion child).write child (.leaf [a, k]), .goto (.unlockReturn child)) := by
    have here : (m.addVersion child).node child = .leaf [a] := leaf
    simp [resume, here, BTreeLeaf.insert, not_lt.mpr (le_of_lt less)]
  rw [advance_goto room, advance_goto lock, advance_goto validate, advance_goto insert]
  rfl

/-- After the keys 1 .. n + 2 the root has n separators; the last leaf is full and the other leaves
have one key. -/
structure Comb (n r last second : Nat) (i : BTreeInner Nat) (m : Memory Nat Nat) : Prop where
  root : m.root = r
  inner : m.node r = .inner i
  count : i.count = n
  keys : ∀ x : Nat, x < n → i.keys x = x + 1
  lastChild : i.children n = last
  secondChild : i.children 1 = second
  lastLeaf : m.node last = .leaf [n + 1, n + 2]
  secondLeaf : m.node second = .leaf [2]
  freeRoot : m.version r % 4 = 0
  freeLast : m.version last % 4 = 0
  freeSecond : m.version second % 4 = 0
  oldRoot : r < m.allocated
  oldLast : last < m.allocated
  oldSecond : second < m.allocated
  distinct : last ≠ r ∧ second ≠ r ∧ second ≠ last

section Comb

variable {last second : Nat} {i : BTreeInner Nat}

theorem Comb.lowerBound {n : Nat} (comb : Comb n r last second i m)
    (some_ : 0 < n) (above : n < k) :
    i.lowerBound k = n := by
  have sorted : i.Sorted := fun x y lt bound => by
    rw [comb.count] at bound
    rw [comb.keys x (by omega), comb.keys y bound]
    omega
  refine BTreeInner.Routes.lowerBound sorted (fun none => ?_) ⟨fun x lt => ?_,
    fun x le lt => ?_⟩ comb.count.ge
  · rw [comb.count] at none
    omega
  · rw [comb.keys x lt]
    omega
  · rw [comb.count] at lt
    omega

/-- What the split of the last leaf leaves behind. -/
structure CombSplit (n r last second new : Nat) (i : BTreeInner Nat)
    (m : Memory Nat Nat) : Prop where
  root : m.root = r
  inner : m.node r = .inner i
  count : i.count = (n + 1) % 65536
  keys : ∀ x : Nat, x < n + 1 → i.keys x = x + 1
  lastChild : i.children (n + 1) = new
  secondChild : i.children 1 = second
  newLeaf : m.node new = .leaf [n + 2]
  secondLeaf : m.node second = .leaf [2]
  freeRoot : m.version r % 4 = 0
  freeNew : m.version new % 4 = 0
  freeSecond : m.version second % 4 = 0
  oldRoot : r < m.allocated
  oldNew : new < m.allocated
  oldSecond : second < m.allocated
  distinct : new ≠ r ∧ second ≠ r ∧ second ≠ new

theorem Comb.split {n : Nat} (comb : Comb n r last second i m) (two : 2 ≤ n) :
    CombSplit n r last second m.allocated (i.insert (n + 1) m.allocated)
      (afterLeafSplit m r last i (n + 1) (n + 2)) := by
  have at_ : i.lowerBound (n + 1) = n := comb.lowerBound (by omega) (by omega)
  obtain ⟨lastNe, secondNe, secondNeLast⟩ := comb.distinct
  have oldRoot := comb.oldRoot
  have oldLast := comb.oldLast
  have oldSecond := comb.oldSecond
  have rootNew : r ≠ m.allocated := by omega
  have lastNew : last ≠ m.allocated := by omega
  have secondNew : second ≠ m.allocated := by omega
  have count := comb.count
  refine ⟨comb.root, ?_, ?_, fun x lt => ?_, ?_, ?_, ?_, ?_, ?_, ?_, ?_, ?_, ?_, ?_, ?_⟩
  · simp [afterLeafSplit, Memory.addVersion, Memory.write]
  · simp only [BTreeInner.insert, count]
  · rw [BTreeInner.insert_keys at_ count.ge (by omega)]
    rcases Nat.lt_or_eq_of_le (Nat.le_of_lt_succ lt) with less | rfl
    · rw [SequenceEdit.insertAt_below _ _ less, comb.keys x less]
    · rw [SequenceEdit.insertAt_self]
  · rw [BTreeInner.insert_children at_ count.ge (by omega), SequenceEdit.insertAt_self]
  · rw [BTreeInner.insert_children at_ count.ge (by omega),
      SequenceEdit.insertAt_below _ _ (by omega), comb.secondChild]
  · simp [afterLeafSplit, Memory.addVersion, Memory.write, Memory.afterSplit,
      Memory.allocate, Ne.symm rootNew]
  · simp [afterLeafSplit, Memory.addVersion, Memory.write, Memory.afterSplit, Memory.allocate,
      secondNe, secondNew, secondNeLast, comb.secondLeaf]
  · have free := comb.freeRoot
    simp [afterLeafSplit, Memory.addVersion, Memory.write, Memory.afterSplit, Memory.allocate,
      rootNew, Ne.symm lastNe]
    omega
  · simp [afterLeafSplit, Memory.addVersion, Memory.write, Memory.afterSplit,
      Memory.allocate, Ne.symm rootNew, Ne.symm lastNew, initialVersion]
  · have free := comb.freeSecond
    simp [afterLeafSplit, Memory.addVersion, Memory.write, Memory.afterSplit, Memory.allocate,
      secondNe, secondNew, secondNeLast]
    omega
  · exact Nat.lt_succ_of_lt oldRoot
  · exact Nat.lt_succ_self _
  · exact Nat.lt_succ_of_lt oldSecond
  · exact ⟨Ne.symm rootNew, secondNe, secondNew⟩

-- One more insert: sixteen steps up to the restart after the split, fourteen to the return.
theorem Comb.first {n : Nat} (comb : Comb n r last second i m) (two : 2 ≤ n) (small : n < 65536) :
    advance wideConfig 16 ⟨m, begun, returned⟩ (.busy (.insert (n + 3)) known .loadRoot) =
      some (⟨afterLeafSplit m r last i (n + 1) (n + 2), begun, returned⟩,
        .busy (.insert (n + 3)) known .loadRoot) := by
  have leads : i.children (i.lowerBound (n + 3)) = last := by
    rw [comb.lowerBound (by omega) (by omega), comb.lastChild]
  have old := comb.oldRoot
  have roomy : i.count ≠ wideConfig.innerSlots - 1 := by
    rw [comb.count]
    change n ≠ 65536
    omega
  rw [show 16 = 9 + 7 from rfl, advance_add,
    advance_descend comb.root comb.inner roomy comb.freeRoot leads comb.freeLast comb.lastLeaf]
  exact advance_split rfl comb.inner comb.lastLeaf comb.distinct.1 (Nat.ne_of_lt old)

theorem CombSplit.returns {n new leaf a : Nat} (split : CombSplit n r last second new i m)
    (leads : i.children (i.lowerBound (n + 3)) = leaf) (is : m.node leaf = .leaf [a])
    (less : a < n + 3) (free : m.version leaf % 4 = 0) (ne : leaf ≠ r) :
    advance wideConfig 14 ⟨m, begun, returned⟩ (.busy (.insert (n + 3)) known .loadRoot) =
      some (⟨((m.addVersion leaf).write leaf (.leaf [a, n + 3])).addVersion leaf, begun,
        (n + 3) :: returned⟩,
        .idle) := by
  have roomy : i.count ≠ wideConfig.innerSlots - 1 := by
    rw [split.count]
    change _ ≠ 65536
    omega
  rw [show 14 = 9 + 5 from rfl, advance_add,
    advance_descend split.root split.inner roomy split.freeRoot leads free is]
  exact advance_insert rfl is ne less

-- Below the wrap the comb grows by one tooth.
theorem CombSplit.comb {n new : Nat} (split : CombSplit n r last second new i m) (two : 2 ≤ n)
    (small : n + 1 < 65536) :
    i.children (i.lowerBound (n + 3)) = new ∧ Comb (n + 1) r new second i
      (((m.addVersion new).write new (.leaf [n + 2, n + 3])).addVersion new) := by
  have count : i.count = n + 1 := by rw [split.count, Nat.mod_eq_of_lt small]
  obtain ⟨newNe, secondNe, secondNeNew⟩ := split.distinct
  have comb : Comb (n + 1) r new second i
      (((m.addVersion new).write new (.leaf [n + 2, n + 3])).addVersion new) := by
    refine ⟨split.root, ?_, count, split.keys, split.lastChild, split.secondChild, ?_, ?_, ?_, ?_,
      ?_, split.oldRoot,
      split.oldNew, split.oldSecond, split.distinct⟩
    · simp [Memory.addVersion, Memory.write, Ne.symm newNe, split.inner]
    · simp [Memory.addVersion, Memory.write]
    · simp [Memory.addVersion, Memory.write, secondNeNew, split.secondLeaf]
    · have free := split.freeRoot
      simpa [Memory.addVersion, Memory.write, Ne.symm newNe] using free
    · have free := split.freeNew
      simp [Memory.addVersion, Memory.write]
      omega
    · have free := split.freeSecond
      simpa [Memory.addVersion, Memory.write, secondNeNew] using free
  exact ⟨by rw [comb.lowerBound (by omega) (by omega), split.lastChild], comb⟩

end Comb

/-- A state of the run between two inserts. -/
structure CombState (n : Nat) (s : Shared Nat Nat) : Prop where
  comb : ∃ r last second i, Comb n r last second i s.memory
  begun : ∀ k ∈ s.begun, k ≤ n + 2
  three : 3 ∈ s.returned

theorem advance_begin (run : WideRun ⟨s, fun _ => .idle⟩) (fresh : k ∉ s.begun) :
    WideRun ⟨{ s with begun := k :: s.begun },
      fun _ => .busy (.insert k) (decide (k ∈ s.returned)) .loadRoot⟩ := by
  have next := run.next (.run (t := ()) ⟨.begin (.insert k), none, ⟨k, rfl, fresh⟩, rfl⟩)
  have same : ∀ l : Local Nat Nat, Function.update (fun _ : Unit => (.idle : Local Nat Nat)) () l =
      fun _ => l :=
    fun l => funext fun _ => by simp
  rw [same] at next
  exact next

theorem CombState.grow {n : Nat} (run : WideRun ⟨s, fun _ => .idle⟩)
    (state : CombState n s) (two : 2 ≤ n) (small : n + 1 < 65536) :
    ∃ s', WideRun ⟨s', fun _ => .idle⟩ ∧ CombState (n + 1) s' := by
  obtain ⟨⟨r, last, second, i, comb⟩, begun, three⟩ := state
  have fresh : n + 3 ∉ s.begun := fun member => by
    have le := begun _ member
    omega
  have split := comb.split two
  obtain ⟨leads, next⟩ := split.comb two small
  have restarted := advance_reachable (advance_begin run fresh) (comb.first two (by omega))
  have returned := advance_reachable restarted
    (split.returns leads split.newLeaf (by omega) split.freeNew split.distinct.1)
  refine ⟨_, returned, ⟨r, _, second, _, next⟩, fun k hk => ?_, List.mem_cons_of_mem _ three⟩
  rcases List.mem_cons.mp hk with rfl | old
  · omega
  · have le := begun k old
    omega

-- One insert from beginning to end.
def insertAlone (steps k : Nat) (s : Shared Nat Nat) : Option (Shared Nat Nat) :=
  match advance wideConfig steps { s with begun := k :: s.begun }
    (.busy (.insert k) (decide (k ∈ s.returned)) .loadRoot) with
  | some (s', .idle) => some s'
  | _ => none

theorem insertAlone_reachable {steps : Nat} {s' : Shared Nat Nat}
    (run : WideRun ⟨s, fun _ => .idle⟩) (fresh : k ∉ s.begun)
    (inserts : insertAlone steps k s = some s') : WideRun ⟨s', fun _ => .idle⟩ := by
  unfold insertAlone at inserts
  split at inserts
  · rename_i advances
    cases inserts
    exact advance_reachable (advance_begin run fresh) advances
  · cases inserts

def contents (m : Memory Nat Nat) (node : Nat) : List Nat :=
  match m.node node with
  | .inner _ => []
  | .leaf entries => entries

def separators (m : Memory Nat Nat) (node : Nat) : List Nat :=
  match m.node node with
  | .inner i => [i.count, i.keys 0, i.keys 1, i.children 1, i.children 2]
  | .leaf _ => []

theorem leaf_of_contents {entries : List Nat} (has : contents m r = entries)
    (some_ : entries ≠ []) :
    m.node r = .leaf entries := by
  unfold contents at has
  split at has
  · exact absurd has.symm some_
  · rename_i is
    rw [is, has]

-- The first four inserts build a comb with two separators.
theorem comb_start : ∃ s, WideRun ⟨s, fun _ => .idle⟩ ∧ CombState 2 s := by
  have first : WideRun ⟨⟨.empty, [], []⟩, fun _ => .idle⟩ := .start ⟨rfl, fun _ => rfl⟩
  have plays : ((insertAlone 8 1 ⟨.empty, [], []⟩).bind fun s1 =>
      (insertAlone 8 2 s1).bind fun s2 =>
      (insertAlone 24 3 s2).bind fun s3 => (insertAlone 30 4 s3).map fun s =>
      [s1.begun, s2.begun, s3.begun, s.begun, s.returned, [s.memory.root, s.memory.allocated],
        [s.memory.version 1, s.memory.version 2, s.memory.version 3], contents s.memory 1,
        contents s.memory 3,
        separators s.memory 2]) =
      some [[1], [2, 1], [3, 2, 1], [4, 3, 2, 1], [4, 3, 2, 1], [2, 4], [12, 8, 8], [2], [3, 4],
          [2, 1, 2, 1, 3]] := by
    decide +kernel
  obtain ⟨s1, p1, plays⟩ := Option.bind_eq_some_iff.mp plays
  obtain ⟨s2, p2, plays⟩ := Option.bind_eq_some_iff.mp plays
  obtain ⟨s3, p3, plays⟩ := Option.bind_eq_some_iff.mp plays
  obtain ⟨s, p4, seen⟩ := Option.map_eq_some_iff.mp plays
  simp only [List.cons.injEq, and_true] at seen
  obtain ⟨b1, b2, b3, b4, returned, ⟨root, allocated⟩, ⟨v1, v2, v3⟩, c1, c3, inner⟩ := seen
  have run1 := insertAlone_reachable first List.not_mem_nil p1
  have run2 := insertAlone_reachable run1 (by simp [b1]) p2
  have run3 := insertAlone_reachable run2 (by simp [b2]) p3
  have run4 := insertAlone_reachable run3 (by simp [b3]) p4
  refine ⟨s, run4, ?_, fun k hk => ?_, by simp [returned]⟩
  · unfold separators at inner
    split at inner
    · rename_i i is
      simp only [List.cons.injEq, and_true] at inner
      obtain ⟨count, k0, k1, second, last⟩ := inner
      refine ⟨2, 3, 1, i, root, is, count, fun x lt => ?_, last, second,
        leaf_of_contents c3 (by decide),
        leaf_of_contents c1 (by decide), by omega, by omega, by omega, by omega, by omega,
        by omega, by decide⟩
      rcases show x = 0 ∨ x = 1 by omega with rfl | rfl
      · exact k0
      · exact k1
    · cases inner
  · rw [b4] at hk
    simp only [List.mem_cons, List.not_mem_nil, or_false] at hk
    omega

theorem comb_reachable {n : Nat} (two : 2 ≤ n) (small : n < 65536) :
    ∃ s, WideRun ⟨s, fun _ => .idle⟩ ∧ CombState n s := by
  induction n, two using Nat.le_induction with
  | base => exact comb_start
  | succ n two ih =>
    obtain ⟨s, run, state⟩ := ih (by omega)
    exact state.grow run two small

-- With _InnerSlots = 65537 the count of the root wraps to 0 at its 65536th separator, and all keys
-- but three are out of reach.
theorem count_wraps : ∃ s : Machine Unit Nat Nat,
    Reachable Machine.Start
      (Step (Acts { innerSlots := 65537, leafSlots := 2 } sampleBlank id (DistinctInserts id))) s ∧
      (∀ t, s.locals t = .idle) ∧ 3 ∈ s.shared.returned ∧
      ¬ ∃ fuel leaf, s.shared.memory.descend 3 fuel s.shared.memory.root = some leaf ∧
        s.shared.memory.Stores id leaf 3 := by
  obtain ⟨n, hn⟩ : ∃ n, n = 65535 := ⟨_, rfl⟩
  obtain ⟨s, run, ⟨r, last, second, i, comb⟩, begun, three⟩ :=
    comb_reachable (n := n) (by omega) (by omega)
  have fresh : n + 3 ∉ s.begun := fun member => by
    have le := begun _ member
    omega
  have split := comb.split (by omega)
  have empty : (i.insert (n + 1) s.memory.allocated).count = 0 := by
    rw [split.count, hn]
  have routes : ∀ k : Nat, 1 < k → (i.insert (n + 1) s.memory.allocated).lowerBound k =
      1 := fun k more => by
    have key : (i.insert (n + 1) s.memory.allocated).keys 0 = 1 := split.keys 0 (by omega)
    simp [BTreeInner.lowerBound, BTreeInner.lowerBoundLoop, empty, key,
      not_lt.mpr (le_of_lt more), more]
  have leads : (i.insert (n + 1) s.memory.allocated).children
      ((i.insert (n + 1) s.memory.allocated).lowerBound (n + 3)) = second := by
    rw [routes _ (by omega), split.secondChild]
  obtain ⟨newNe, secondNe, secondNeNew⟩ := split.distinct
  have restarted := advance_reachable (advance_begin run fresh) (comb.first (by omega) (by omega))
  have returned := advance_reachable restarted
    (split.returns leads split.secondLeaf (by omega) split.freeSecond secondNe)
  refine ⟨_, returned, fun _ => rfl, List.mem_cons_of_mem _ three, ?_⟩
  rintro ⟨fuel, leaf, found, stores⟩
  generalize hm : afterLeafSplit s.memory r last i (n + 1) (n + 2) = m at split found stores
  have rootNode : (((m.addVersion second).write second (.leaf [2, n + 3])).addVersion second).node
    r =
      .inner (i.insert (n + 1) s.memory.allocated) := by
    simp [Memory.addVersion, Memory.write, Ne.symm secondNe, split.inner]
  have secondNode : (((m.addVersion second).write second (.leaf [2, n + 3])).addVersion second).node
    second =
      .leaf [2, n + 3] := by
    simp [Memory.addVersion, Memory.write]
  have reached : leaf = second := by
    rw [show (((m.addVersion second).write second (.leaf [2, n + 3])).addVersion second).root =
      m.root from rfl, split.root] at found
    cases fuel with
    | zero => cases found
    | succ fuel =>
      rw [Memory.descend, rootNode] at found
      simp only [routes 3 (by omega), split.secondChild] at found
      cases fuel with
      | zero => cases found
      | succ fuel =>
        rw [Memory.descend, secondNode] at found
        exact (Option.some.inj found).symm
  obtain ⟨entries, is, a, ha, eq⟩ := stores
  rw [reached, secondNode, Node.leaf.injEq] at is
  rw [← is] at ha
  simp only [id] at eq
  simp only [List.mem_cons, List.not_mem_nil, or_false] at ha
  omega

end ElasticIndex.Olc
