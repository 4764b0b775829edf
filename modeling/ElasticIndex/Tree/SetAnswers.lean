import ElasticIndex.Tree.SetRuns

set_option autoImplicit false

namespace ElasticIndex.Tree

open Separators LinkedRow Loop Refinement

/-- A build of the SubTrie tree. -/
structure SubTrieBuild where
  c : SubTrie.Params
  innerslotmax : Nat
  blank : SubTrie.SubTrieBlindiNode
  new : SubTrie.EntryArrays
  length : c.keyLen ≤ 8192
  several : 2 ≤ c.numSlots
  small : c.numSlots < 65536
  inner : 2 ≤ innerslotmax

namespace SubTrieBuild

variable (B : SubTrieBuild)

abbrev type : EraseType (Key B.c.keyLen) SubTrie.SubTrieBlindiNode := subTrieErase B.c B.blank B.new

abbrev slots : Slots := { leaf := B.c.numSlots, inner := B.innerslotmax }

abbrev endSlot : Leaf SubTrie.SubTrieBlindiNode → Nat := fun _ => B.c.numSlots

theorem lawful (mem : Addr → Key B.c.keyLen) :
    B.type.Lawful mem B.slots.leaf (SubTrie.Encodes (c := B.c) mem) fun _ _ => True :=
  subTrieErase_lawful B.length (Nat.le_of_succ_le B.several) B.small mem B.blank B.new

theorem behind (mem : Addr → Key B.c.keyLen) :
    EndsBehind (LeafSound B.type.toNodeType B.slots (SubTrie.Encodes (c := B.c) mem)) B.endSlot :=
  fun _ sound => sound.fits

abbrev Run (mem : Addr → Key B.c.keyLen) (asserts : Bool) :
    CountedTree (Key B.c.keyLen) SubTrie.SubTrieBlindiNode → Finset (Key B.c.keyLen) → Prop :=
  SetRun B.type B.slots mem (fun _ _ => True) B.endSlot asserts

theorem erasable (mem : Addr → Key B.c.keyLen)
    (t : BTree (Key B.c.keyLen) SubTrie.SubTrieBlindiNode) (c : Command (Key B.c.keyLen)) :
    Erasable B.type.toNodeType mem (fun _ _ => True) false t c := by
  cases c with
  | eraseOne key => exact ⟨fun _ _ _ _ _ => trivial, fun on => by cases on⟩
  | insert | exists_ | find | size => trivial

end SubTrieBuild

/-- A build of the SeqTree tree whose bits lie below END_TREE. -/
structure SeqTreeBuild where
  c : SeqTree.Params
  innerslotmax : Nat
  blank : SeqTree.SeqTreeBlindiNode
  below : BitsBelow c
  several : 2 ≤ c.numSlots
  small : c.numSlots < 65536
  inner : 2 ≤ innerslotmax

namespace SeqTreeBuild

variable (B : SeqTreeBuild)

abbrev type : EraseType (Key B.c.keyLen) SeqTree.SeqTreeBlindiNode := seqTreeErase B.c B.blank

abbrev slots : Slots := { leaf := B.c.numSlots, inner := B.innerslotmax }

abbrev endSlot (_ : SeqTreeBuild) : Leaf SeqTree.SeqTreeBlindiNode → Nat := Leaf.slotuse

theorem lawful (mem : Addr → Key B.c.keyLen) :
    B.type.Lawful mem B.slots.leaf (SeqTree.WellFormed (c := B.c) mem) (Removable mem) :=
  seqTreeErase_lawful B.below (Nat.le_of_succ_le B.several) B.small mem B.blank

theorem behind (mem : Addr → Key B.c.keyLen) :
    EndsBehind (LeafSound B.type.toNodeType B.slots (SeqTree.WellFormed (c := B.c) mem))
      B.endSlot :=
  endsBehind_slotuse

-- No erasure takes the smaller of two keys out of a leaf.
abbrev Run (mem : Addr → Key B.c.keyLen) (asserts : Bool) :
    CountedTree (Key B.c.keyLen) SeqTree.SeqTreeBlindiNode → Finset (Key B.c.keyLen) → Prop :=
  SetRun B.type B.slots mem (Removable mem) B.endSlot asserts

end SeqTreeBuild

section Rounds

variable (c : SeqTree.Params) (blank : SeqTree.SeqTreeBlindiNode) (slots : Slots)
  (mem : Addr → Key c.keyLen) (asserts : Bool) (rounds : Nat)

-- The loops of a SeqTree node are bounded by the node itself.
theorem seqTree_eraseOneDescend_rounds (key : Key c.keyLen) (level : Nat)
    (s : Store SeqTree.SeqTreeBlindiNode) (around : Around (Key c.keyLen) level)
    (node : Node (Key c.keyLen) Ptr level) :
    eraseOneDescend (seqTreeErase c blank) slots mem asserts rounds key level s around node =
      eraseOneDescend (seqTreeErase c blank) slots mem asserts 0 key level s around node := by
  induction level generalizing s with
  | zero => rfl
  | succ level ih => rw [eraseOneDescend_succ, eraseOneDescend_succ, ih]

theorem seqTree_step_rounds (endSlot : Leaf SeqTree.SeqTreeBlindiNode → Nat)
    (m : CountedTree (Key c.keyLen) SeqTree.SeqTreeBlindiNode) (command : Command (Key c.keyLen)) :
    m.step (seqTreeErase c blank) slots mem asserts endSlot rounds command =
      m.step (seqTreeErase c blank) slots mem asserts endSlot 0 command := by
  cases command with
  | eraseOne key =>
    have descends := seqTree_eraseOneDescend_rounds c blank slots mem asserts rounds key
    simp only [CountedTree.step, CountedTree.eraseOne, BTree.eraseOne, descends]
  | insert | exists_ | find | size => rfl

end Rounds

-- Without assertions, whatever the commands are, as long as no key goes in twice.
theorem subTrie_refines (B : SubTrieBuild) (mem : Addr → Key B.c.keyLen)
    (commands : List (Command (Key B.c.keyLen)))
    (admissible : Admissible (NewKey mem) (setStep mem) ∅ commands) :
    ∃ m, Returns (fun rounds =>
      runAll (CountedTree.step B.type B.slots mem false B.endSlot rounds) .empty commands)
      (m, (specAll (setStep mem) ∅ commands).2) ∧
      m.tree.content B.type.toNodeType mem = (specAll (setStep mem) ∅ commands).1.sort := by
  have simulates : Simulates (CountedTree.step B.type B.slots mem false B.endSlot) (setStep mem)
    (fun _ => NewKey mem)
      (Abstracts B.type.toNodeType B.slots mem (SubTrie.Encodes (c := B.c) mem) Loose) := by
    intro m S c abstracts new
    exact sortedMap_simulates false (B.lawful mem) loose_discipline False.elim B.several B.inner
      (B.behind mem) m S c abstracts
      ⟨new, B.erasable mem _ _⟩
  obtain ⟨m, returns, abstracts⟩ := simulates.run (abstracts_empty loose_discipline) admissible
  exact ⟨m, returns, abstracts.content⟩

abbrev sampleBuild : SubTrieBuild :=
  { c := SubTrie.sampleParams, innerslotmax := 8, blank := SubTrie.sampleNode,
    new := ⟨fun _ => 0, fun _ => 0⟩
    length := by decide, several := by decide, small := by decide, inner := by decide }

def subTrieMem : Addr → Key 1 := SubTrie.sampleKey

def sampleCommands : List (Command (Key 1)) :=
  [.insert 1, .insert 2, .insert 3, .insert 4, .insert 5, .insert 6, .insert 7,
    .eraseOne (subTrieMem 2), .exists_ (subTrieMem 2), .eraseOne (subTrieMem 2),
    .eraseOne (subTrieMem 7), .size, .find (subTrieMem 5)]

theorem sampleCommands_new : Admissible (NewKey subTrieMem) (setStep subTrieMem) ∅ sampleCommands ∧
    (specAll (setStep subTrieMem) ∅ sampleCommands).1 =
    ([1, 3, 4, 5, 6].map subTrieMem).toFinset := by
  decide

-- A split, and a merge of what is left.
theorem subTrie_refines_sample : ∃ m,
    Returns (fun rounds =>
      runAll (CountedTree.step sampleBuild.type sampleBuild.slots subTrieMem false
        sampleBuild.endSlot rounds) .empty
      sampleCommands) (m, [.done true, .done true, .done true, .done true, .done true, .done true,
        .done true, .done true, .done false, .done false, .done true, .count 5,
          .at_ (some (subTrieMem 5))]) ∧
      m.tree.content sampleBuild.type.toNodeType subTrieMem =
        (specAll (setStep subTrieMem) ∅ sampleCommands).1.sort :=
  subTrie_refines sampleBuild subTrieMem sampleCommands sampleCommands_new.1

-- Every command is run: without assertions nothing but a key that is there already stands in the
-- way.
theorem SubTrieBuild.reaches (B : SubTrieBuild) (mem : Addr → Key B.c.keyLen)
    (commands : List (Command (Key B.c.keyLen)))
    (admissible : Admissible (NewKey mem) (setStep mem) ∅ commands) :
    ∃ m, B.Run mem false m (specAll (setStep mem) ∅ commands).1 :=
  (sortedMap_simulates false (B.lawful mem) loose_discipline False.elim B.several B.inner
    (B.behind mem)).reaches
    (fun _ _ _ _ new => ⟨new, B.erasable mem _ _⟩)
      (abstracts_empty loose_discipline) .start admissible

theorem sampleCommands_reached :
    ∃ m, sampleBuild.Run subTrieMem false m ([1, 3, 4, 5, 6].map subTrieMem).toFinset := by
  obtain ⟨m, run⟩ := sampleBuild.reaches subTrieMem sampleCommands sampleCommands_new.1
  exact ⟨m, sampleCommands_new.2 ▸ run⟩

def sampleMem : Addr → Key 1 := SeqTree.sampleKey

theorem sampleType_below : BitsBelow SeqTree.sampleParams := ⟨.inr rfl, by decide⟩

abbrev seqTreeSample : SeqTreeBuild :=
  { c := SeqTree.sampleParams, innerslotmax := 8, blank := SeqTree.sampleNode,
    below := sampleType_below
    several := by decide, small := by decide, inner := by decide }

instance decidableSampleAllowed (asserts : Bool) (m : CountedTree (Key 1) SeqTree.SeqTreeBlindiNode)
    (S : Finset (Key 1)) (c : Command (Key 1)) :
    Decidable (Allowed seqTreeSample.type.toNodeType sampleMem
      (Removable (c := SeqTree.sampleParams) sampleMem) asserts m S c) :=
  @decidableAllowed _ _ _ _ _ _ (fun node x =>
    decidableRemovable (c := SeqTree.sampleParams) sampleMem node x) asserts m S c

instance decidableSampleRemovable (t : BTree (Key 1) SeqTree.SeqTreeBlindiNode) (x : Key 1) :
    Decidable (t.Removable seqTreeSample.type.toNodeType sampleMem
      (Removable (c := SeqTree.sampleParams) sampleMem) x) :=
  @decidableTreeRemovable _ _ _ _ _ _ (fun node x =>
    decidableRemovable (c := SeqTree.sampleParams) sampleMem node x) t x

def seqTreeRun (asserts : Bool) (commands : List (Command (Key 1))) :
    Option (CountedTree (Key 1) SeqTree.SeqTreeBlindiNode) :=
  testedAll (CountedTree.step seqTreeSample.type seqTreeSample.slots sampleMem asserts
    seqTreeSample.endSlot 0) (setStep sampleMem)
    (Allowed seqTreeSample.type.toNodeType sampleMem
      (Removable (c := SeqTree.sampleParams) sampleMem) asserts) .empty ∅ commands

theorem seqTreeRun_reached {asserts : Bool} {commands : List (Command (Key 1))}
    {m : CountedTree (Key 1) SeqTree.SeqTreeBlindiNode}
    (run : seqTreeRun asserts commands = some m) :
    seqTreeSample.Run sampleMem asserts m (specAll (setStep sampleMem) ∅ commands).1 :=
  testedAll_reached (fun rounds m c =>
    seqTree_step_rounds SeqTree.sampleParams SeqTree.sampleNode seqTreeSample.slots
      sampleMem asserts rounds
    seqTreeSample.endSlot m c) .start run

-- Ten keys in two leaves.
def grownCommands : List (Command (Key 1)) := [4, 5, 6, 7, 8, 9, 10, 1, 2, 3].map Command.insert

theorem grownCommands_reached (asserts : Bool) :
    ∃ m S, seqTreeSample.Run sampleMem asserts m S ∧ S.card = 10 ∧
    (cells m.tree.leaves).length = 2 := by
  have built : (specAll (setStep sampleMem) ∅ grownCommands).1.card = 10 ∧
      ∀ asserts, (seqTreeRun asserts grownCommands).any (fun m =>
        decide ((cells m.tree.leaves).length = 2)) = true := by decide +kernel
  obtain ⟨card, run⟩ := built
  obtain ⟨m, here, two⟩ := (Option.any_eq_true _ _).mp (run asserts)
  exact ⟨m, _, seqTreeRun_reached here, card, of_decide_eq_true two⟩

-- A full leaf, and beside it one that erasures have left with the key 9.
def loneCommands : List (Command (Key 1)) :=
  grownCommands ++ [.eraseOne (sampleMem 7), .eraseOne (sampleMem 8), .eraseOne (sampleMem 10)]

def loneKeys : Finset (Key 1) := ([1, 2, 3, 4, 5, 6, 9].map sampleMem).toFinset

-- The key 9 is alone in the last leaf; 1 is not, and its leaf keeps more than one key.
theorem loneCommands_reached (asserts : Bool) :
    ∃ m, seqTreeSample.Run sampleMem asserts m loneKeys ∧
    m.tree.LastAlone (seqTreeSample.type.keys sampleMem) (sampleMem 9) ∧
    m.tree.Removable seqTreeSample.type.toNodeType sampleMem
      (Removable (c := SeqTree.sampleParams) sampleMem) (sampleMem 1) ∧
    ¬ m.tree.LastAlone (seqTreeSample.type.keys sampleMem) (sampleMem 1) := by
  have built : (specAll (setStep sampleMem) ∅ loneCommands).1 = loneKeys ∧
      ∀ asserts, (seqTreeRun asserts loneCommands).any (fun m => decide
        (m.tree.LastAlone (seqTreeSample.type.keys sampleMem) (sampleMem 9) ∧
          m.tree.Removable seqTreeSample.type.toNodeType sampleMem
          (Removable (c := SeqTree.sampleParams) sampleMem) (sampleMem 1) ∧
          ¬ m.tree.LastAlone (seqTreeSample.type.keys sampleMem) (sampleMem 1))) =
          true := by decide +kernel
  obtain ⟨set, run⟩ := built
  obtain ⟨m, here, alone⟩ := (Option.any_eq_true _ _).mp (run asserts)
  exact ⟨m, set ▸ seqTreeRun_reached here, of_decide_eq_true alone⟩

-- The SeqTree tree is a sorted set as long as no leaf loses the smaller of its two keys.
theorem seqTree_keepsSet (B : SeqTreeBuild) (mem : Addr → Key B.c.keyLen) (asserts : Bool)
    (m : CountedTree (Key B.c.keyLen) SeqTree.SeqTreeBlindiNode) (S : Finset (Key B.c.keyLen))
    (run : B.Run mem asserts m S) :
    KeepsSet B.type B.slots mem (Removable mem) B.endSlot asserts m S :=
  SetRun.keepsSet (B.lawful mem) B.several B.inner (B.behind mem) run

theorem seqTree_keepsSet_sample : ∃ m S, seqTreeSample.Run sampleMem false m S ∧ S.card = 7 ∧
    KeepsSet seqTreeSample.type seqTreeSample.slots sampleMem
      (Removable (c := SeqTree.sampleParams) sampleMem) seqTreeSample.endSlot false m S := by
  obtain ⟨m, run, _⟩ := loneCommands_reached false
  exact ⟨m, loneKeys, run, by decide, seqTree_keepsSet seqTreeSample sampleMem false m _ run⟩

-- Without assertions: a sorted map that ++ walks through up to end(), as long as no leaf loses the
-- smaller of its two keys.
theorem seqTree_sortedMap (B : SeqTreeBuild) (mem : Addr → Key B.c.keyLen)
    (m : CountedTree (Key B.c.keyLen) SeqTree.SeqTreeBlindiNode) (S : Finset (Key B.c.keyLen))
    (run : B.Run mem false m S) :
    KeepsSet B.type B.slots mem (Removable mem) B.endSlot false m S ∧
      ∀ x ∈ S, ∃ it, Returns (fun rounds => m.tree.find B.type mem B.endSlot rounds x) it ∧
        (∀ n, S.sort.idxOf x + n < S.card → ∃ it', it.after m.tree.store n = some it' ∧
          m.tree.store.keyOf (B.type.keys mem) it' = S.sort[S.sort.idxOf x + n]?) ∧
        ∀ n, it.after m.tree.store n = m.tree.store.endAt B.endSlot ↔
        S.card ≤ S.sort.idxOf x + n := by
  refine ⟨SetRun.keepsSet (B.lawful mem) B.several B.inner (B.behind mem) run, fun x stored => ?_⟩
  obtain ⟨it, returns, walked⟩ :=
    SetRun.walked (B.lawful mem) B.several B.inner (B.behind mem) run stored
  refine ⟨it, returns, walked.reads, fun n => (walked.meets n).trans ?_⟩
  exact ⟨fun meets => meets.1, fun le => ⟨le, fun _ _ _ _ => rfl⟩⟩

theorem seqTree_sortedMap_sample : ∃ m S, seqTreeSample.Run sampleMem false m S ∧ S.card = 7 ∧
    KeepsSet seqTreeSample.type seqTreeSample.slots sampleMem
      (Removable (c := SeqTree.sampleParams) sampleMem)
      seqTreeSample.endSlot false m S ∧
    ∃ it, Returns (fun rounds =>
    m.tree.find seqTreeSample.type sampleMem seqTreeSample.endSlot rounds (sampleMem 1)) it ∧
      it.after m.tree.store 7 = m.tree.store.endAt seqTreeSample.endSlot := by
  obtain ⟨m, run, _⟩ := loneCommands_reached false
  have card : loneKeys.card = 7 := by decide
  obtain ⟨keeps, walks⟩ := seqTree_sortedMap seqTreeSample sampleMem m _ run
  obtain ⟨it, returns, _, meets⟩ := walks (sampleMem 1) (by decide)
  exact ⟨m, _, run, card, keeps, it, returns, (meets 7).mpr (by omega)⟩

-- The leaf with 1 and 128 loses 1, and its tree still tells where 1 stood.
def losingCommands : List (Command (Key 1)) :=
  [.insert 1, .insert 128, .insert 192, .eraseOne (sampleMem 1),
    .eraseOne (sampleMem 128), .insert 224, .find (sampleMem 224)]

theorem seqTree_loses : ¬ ∀ commands, Admissible (NewKey sampleMem) (setStep sampleMem) ∅ commands →
    ∃ m, Returns (fun rounds => runAll
      (CountedTree.step seqTreeSample.type seqTreeSample.slots sampleMem false seqTreeSample.endSlot
        rounds) .empty commands)
      (m, (specAll (setStep sampleMem) ∅ commands).2) := by
  intro all
  obtain ⟨m, bound, returns⟩ := all losingCommands (by decide)
  have same : CountedTree.step seqTreeSample.type seqTreeSample.slots sampleMem false
    seqTreeSample.endSlot bound =
      CountedTree.step seqTreeSample.type seqTreeSample.slots sampleMem false
      seqTreeSample.endSlot 0 :=
    funext fun m => funext fun command =>
      seqTree_step_rounds SeqTree.sampleParams SeqTree.sampleNode seqTreeSample.slots
      sampleMem false bound seqTreeSample.endSlot m command
  have answers := congrArg (Option.map Prod.snd) (returns bound le_rfl)
  dsimp only at answers
  rw [same, Option.map_some] at answers
  have differ : Option.map Prod.snd
      (runAll (CountedTree.step seqTreeSample.type seqTreeSample.slots sampleMem false
        seqTreeSample.endSlot 0) .empty losingCommands) ≠
        some (specAll (setStep sampleMem) ∅ losingCommands).2 := by decide +kernel
  exact differ answers

-- Without assertions the SubTrie tree is a sorted map; ++ comes to its end() only when the last
-- leaf is full.
theorem subTrie_sortedMap (B : SubTrieBuild) (mem : Addr → Key B.c.keyLen)
    (m : CountedTree (Key B.c.keyLen) SubTrie.SubTrieBlindiNode) (S : Finset (Key B.c.keyLen))
    (run : B.Run mem false m S) :
    KeepsSet B.type B.slots mem (fun _ _ => True) B.endSlot false m S ∧
      ∀ x ∈ S, ∃ it, Returns (fun rounds => m.tree.find B.type mem B.endSlot rounds x) it ∧
        (∀ n, S.sort.idxOf x + n < S.card → ∃ it', it.after m.tree.store n = some it' ∧
          m.tree.store.keyOf (B.type.keys mem) it' = S.sort[S.sort.idxOf x + n]?) ∧
        ((∃ n, it.after m.tree.store n = m.tree.store.endAt B.endSlot) ↔
          ∀ a leaf, m.tree.store.tailleaf = some a → m.tree.store.leaf a = some leaf →
          leaf.slotuse = B.c.numSlots) := by
  refine ⟨SetRun.keepsSet (B.lawful mem) B.several B.inner (B.behind mem) run, fun x stored => ?_⟩
  obtain ⟨it, returns, walked⟩ :=
    SetRun.walked (B.lawful mem) B.several B.inner (B.behind mem) run stored
  refine ⟨it, returns, walked.reads, fun meets a leaf last live => ?_, fun full => ⟨S.card, ?_⟩⟩
  · obtain ⟨n, meets⟩ := meets
    exact (((walked.meets n).mp meets).2 a leaf last live).symm
  · exact (walked.meets S.card).mpr ⟨Nat.le_add_left _ _,
      fun a leaf last live => (full a leaf last live).symm⟩

theorem subTrie_sortedMap_sample : ∃ m S, sampleBuild.Run subTrieMem false m S ∧
    KeepsSet sampleBuild.type sampleBuild.slots subTrieMem
      (fun _ _ => True) sampleBuild.endSlot false m S ∧
    ∃ it, Returns (fun rounds =>
      m.tree.find sampleBuild.type subTrieMem sampleBuild.endSlot rounds (subTrieMem 3)) it ∧
      ∀ n, n < 4 → ∃ it', it.after m.tree.store n = some it' ∧
        m.tree.store.keyOf (sampleBuild.type.keys subTrieMem) it' =
          ([3, 4, 5, 6].map subTrieMem)[n]? := by
  obtain ⟨m, run⟩ := sampleCommands_reached
  have sorted : ([1, 3, 4, 5, 6].map subTrieMem).toFinset.sort = [1, 3, 4, 5, 6].map subTrieMem :=
    (List.toFinset_sort (· ≤ ·) (by decide)).mpr (by decide)
  obtain ⟨keeps, walks⟩ := subTrie_sortedMap sampleBuild subTrieMem m _ run
  obtain ⟨it, returns, reads, _⟩ := walks (subTrieMem 3) (by decide)
  refine ⟨m, _, run, keeps, it, returns, fun n lt => ?_⟩
  have read := reads n
  rw [sorted, show ([1, 3, 4, 5, 6].map subTrieMem).idxOf (subTrieMem 3) = 1 by decide,
    Nat.add_comm] at read
  exact read (show n + 1 < 5 by omega)

-- With 1 and 3 in the tree, the walk never comes to end().
theorem subTrie_walks_past_end :
    ∃ m, sampleBuild.Run subTrieMem false m {subTrieMem 1, subTrieMem 3} ∧
    ∃ it, Returns (fun rounds =>
      m.tree.find sampleBuild.type subTrieMem sampleBuild.endSlot rounds (subTrieMem 1)) it ∧
      ∀ n, it.after m.tree.store n ≠ m.tree.store.endAt sampleBuild.endSlot := by
  have set : (specAll (setStep subTrieMem) ∅ [.insert 1, .insert 3]).1 =
    {subTrieMem 1, subTrieMem 3} := by decide
  obtain ⟨m, run⟩ := sampleBuild.reaches subTrieMem [.insert 1, .insert 3] (by decide)
  rw [set] at run
  obtain ⟨it, returns, walked⟩ :=
    SetRun.walked (sampleBuild.lawful subTrieMem) sampleBuild.several sampleBuild.inner
    (sampleBuild.behind subTrieMem) run (show subTrieMem 1 ∈ _ by decide)
  refine ⟨m, run, it, returns, fun n meets => ?_⟩
  obtain ⟨a, leaf, last, live, few⟩ :=
    SetRun.tail_leaf (sampleBuild.lawful subTrieMem) sampleBuild.several sampleBuild.inner
    (sampleBuild.behind subTrieMem) run ⟨subTrieMem 1, by decide⟩
  have full := ((walked.meets n).mp meets).2 a leaf last live
  have two : ({subTrieMem 1, subTrieMem 3} : Finset (Key 1)).card = 2 := by decide
  have six : sampleBuild.endSlot leaf = 6 := rfl
  omega

-- With assertions, erase_one comes back for all keys but one that is alone in a leaf that is the
-- last one of its parent.
theorem erases_unless_alone (asserts : Bool) :
    (∀ (B : SubTrieBuild) (mem : Addr → Key B.c.keyLen)
      (m : CountedTree (Key B.c.keyLen) SubTrie.SubTrieBlindiNode) (S : Finset (Key B.c.keyLen))
      (x : Key B.c.keyLen), B.Run mem asserts m S →
      ((∃ m', Returns (fun rounds => m.eraseOne B.type B.slots mem asserts rounds x) (m',
        decide (x ∈ S))) ↔
        (asserts = true → ¬ m.tree.LastAlone (B.type.keys mem) x))) ∧
    ∀ (B : SeqTreeBuild) (mem : Addr → Key B.c.keyLen)
      (m : CountedTree (Key B.c.keyLen) SeqTree.SeqTreeBlindiNode) (S : Finset (Key B.c.keyLen))
      (x : Key B.c.keyLen), B.Run mem asserts m S →
      m.tree.Removable B.type.toNodeType mem (Removable mem) x →
      ((∃ m', Returns (fun rounds => m.eraseOne B.type B.slots mem asserts rounds x) (m',
        decide (x ∈ S))) ↔
        (asserts = true → ¬ m.tree.LastAlone (B.type.keys mem) x)) := by
  refine ⟨fun B mem m S x run => ?_, fun B mem m S x run removes => ?_⟩
  · exact SetRun.erases_iff (B.lawful mem) B.several B.inner (B.behind mem) run fun _ _ _ _ _ =>
      trivial
  · exact SetRun.erases_iff (B.lawful mem) B.several B.inner (B.behind mem) run removes

-- A leaf at the root may lose its last key, and of two leaves the first one may lose any.
theorem erases_unless_alone_sample :
    (∃ m, sampleBuild.Run subTrieMem true m {subTrieMem 1} ∧ ∃ m', Returns
      (fun rounds => m.eraseOne sampleBuild.type sampleBuild.slots subTrieMem true rounds
        (subTrieMem 1)) (m', true)) ∧
    ∃ m S, seqTreeSample.Run sampleMem true m S ∧ S.card = 7 ∧ ∃ m', Returns
      (fun rounds => m.eraseOne seqTreeSample.type seqTreeSample.slots sampleMem true rounds
        (sampleMem 1)) (m', true) := by
  constructor
  · have first : ((CountedTree.step sampleBuild.type sampleBuild.slots subTrieMem true
      sampleBuild.endSlot 0 .empty
        (Command.insert 1)).any fun r => decide (r.1.tree.root.map Sigma.fst = some 0)) = true := by
        decide
    obtain ⟨⟨m, answer⟩, insert, single⟩ := (Option.any_eq_true _ _).mp first
    have run : sampleBuild.Run subTrieMem true m {subTrieMem 1} :=
      Refinement.Reached.start.next (c := Command.insert 1) ⟨Finset.notMem_empty _, trivial⟩ ⟨0,
        fun rounds _ => insert⟩
    have free : ¬ m.tree.LastAlone (sampleBuild.type.keys subTrieMem) (subTrieMem 1) := by
      obtain ⟨⟨level, node⟩, eq, zero⟩ := Option.map_eq_some_iff.mp (of_decide_eq_true single)
      cases zero
      rw [BTree.LastAlone, eq]
      exact id
    have stored : decide (subTrieMem 1 ∈ ({subTrieMem 1} : Finset (Key 1))) = true := by decide
    exact ⟨m, run, stored ▸
      ((erases_unless_alone true).1 sampleBuild subTrieMem m _ (subTrieMem 1) run).mpr fun _ =>
      free⟩
  · obtain ⟨m, run, _, removes, free⟩ := loneCommands_reached true
    have stored : decide (sampleMem 1 ∈ loneKeys) = true := by decide
    refine ⟨m, _, run, show loneKeys.card = 7 by decide, ?_⟩
    exact stored ▸ ((erases_unless_alone true).2 seqTreeSample sampleMem m _ (sampleMem 1) run
      removes).mpr fun _ => free

-- The last child of the root has only the key 9 left, and the leaf beside it is full: the erasure
-- of 9 stops at the assertion, which is all that is in its way.
theorem erase_meets_assertion : ∃ m S, seqTreeSample.Run sampleMem true m S ∧ sampleMem 9 ∈ S ∧
    (∀ rounds, m.eraseOne seqTreeSample.type seqTreeSample.slots sampleMem true rounds
      (sampleMem 9) = none) ∧
    ∃ m', ∀ rounds, m.eraseOne seqTreeSample.type seqTreeSample.slots sampleMem false rounds
      (sampleMem 9) = some (m', true) := by
  have stops : (seqTreeRun true loneCommands).any (fun m =>
      (m.eraseOne seqTreeSample.type seqTreeSample.slots sampleMem true 0 (sampleMem 9)).isNone &&
        (m.eraseOne seqTreeSample.type seqTreeSample.slots sampleMem false 0 (sampleMem 9)).any
        fun r => r.2) = true := by
    decide +kernel
  obtain ⟨m, run, both⟩ := (Option.any_eq_true _ _).mp stops
  simp only [Bool.and_eq_true, Option.isNone_iff_eq_none] at both
  obtain ⟨stop, ⟨m', ok⟩, pass, rfl⟩ := And.imp_right (Option.any_eq_true _ _).mp both
  have rounds (asserts : Bool) (rounds : Nat) :
    m.eraseOne seqTreeSample.type seqTreeSample.slots sampleMem asserts rounds (sampleMem 9) =
      m.eraseOne seqTreeSample.type seqTreeSample.slots sampleMem asserts 0 (sampleMem 9) := by
    simp only [CountedTree.eraseOne, BTree.eraseOne,
      seqTree_eraseOneDescend_rounds SeqTree.sampleParams SeqTree.sampleNode seqTreeSample.slots
      sampleMem asserts rounds]
  exact ⟨m, _, seqTreeRun_reached run, by decide, fun n => (rounds true n).trans stop, m',
    fun n => (rounds false n).trans pass⟩

-- verify_node goes through in every state with assertions; without them it tells whether the
-- separators are exact.
theorem verifies (asserts : Bool) :
    (∀ (B : SubTrieBuild) (mem : Addr → Key B.c.keyLen)
      (m : CountedTree (Key B.c.keyLen) SubTrie.SubTrieBlindiNode) (S : Finset (Key B.c.keyLen)),
      B.Run mem asserts m S →
      (m.verifyRoot B.type.toNodeType B.slots mem = true ↔
        Exact (m.tree.store.pages (B.type.keys mem) m.tree.leaves)) ∧
      (asserts = true → m.verifyRoot B.type.toNodeType B.slots mem = true)) ∧
    ∀ (B : SeqTreeBuild) (mem : Addr → Key B.c.keyLen)
      (m : CountedTree (Key B.c.keyLen) SeqTree.SeqTreeBlindiNode) (S : Finset (Key B.c.keyLen)),
      B.Run mem asserts m S →
      (m.verifyRoot B.type.toNodeType B.slots mem = true ↔
        Exact (m.tree.store.pages (B.type.keys mem) m.tree.leaves)) ∧
      (asserts = true → m.verifyRoot B.type.toNodeType B.slots mem = true) := by
  refine ⟨fun B mem m S run => ?_, fun B mem m S run => ?_⟩
  · exact SetRun.verify_iff (B.lawful mem) B.several B.inner (B.behind mem) run
  · exact SetRun.verify_iff (B.lawful mem) B.several B.inner (B.behind mem) run

theorem verifies_sample :
    (∃ m S, seqTreeSample.Run sampleMem true m S ∧
      m.verifyRoot seqTreeSample.type.toNodeType seqTreeSample.slots sampleMem = true) ∧
    ∃ m S, sampleBuild.Run subTrieMem false m S ∧ S.card = 5 ∧
      (m.verifyRoot sampleBuild.type.toNodeType sampleBuild.slots subTrieMem = true ↔
        Exact (m.tree.store.pages (sampleBuild.type.keys subTrieMem) m.tree.leaves)) := by
  constructor
  · obtain ⟨m, run, _⟩ := loneCommands_reached true
    exact ⟨m, _, run, ((verifies true).2 seqTreeSample sampleMem m _ run).2 rfl⟩
  · obtain ⟨m, run⟩ := sampleCommands_reached
    exact ⟨m, _, run, by decide, ((verifies false).1 sampleBuild subTrieMem m _ run).1⟩

theorem balanced (asserts : Bool) :
    (∀ (B : SubTrieBuild) (mem : Addr → Key B.c.keyLen)
      (m : CountedTree (Key B.c.keyLen) SubTrie.SubTrieBlindiNode) (S : Finset (Key B.c.keyLen)),
      B.Run mem asserts m S → Balanced B.type.toNodeType B.slots m.tree S) ∧
    ∀ (B : SeqTreeBuild) (mem : Addr → Key B.c.keyLen)
      (m : CountedTree (Key B.c.keyLen) SeqTree.SeqTreeBlindiNode) (S : Finset (Key B.c.keyLen)),
      B.Run mem asserts m S → Balanced B.type.toNodeType B.slots m.tree S := by
  refine ⟨fun B mem m S run => ?_, fun B mem m S run => ?_⟩
  · exact (SetRun.abstracts (B.lawful mem) loose_discipline False.elim B.several B.inner
      (B.behind mem) run).balances (B.lawful mem).toLawful
  · exact (SetRun.abstracts (B.lawful mem) loose_discipline False.elim B.several B.inner
      (B.behind mem) run).balances (B.lawful mem).toLawful

theorem balanced_sample :
    (∃ m S, sampleBuild.Run subTrieMem false m S ∧ S.card = 5 ∧
      Balanced sampleBuild.type.toNodeType sampleBuild.slots m.tree S) ∧
    ∃ m S, seqTreeSample.Run sampleMem true m S ∧
    Balanced seqTreeSample.type.toNodeType seqTreeSample.slots m.tree S := by
  constructor
  · obtain ⟨m, run⟩ := sampleCommands_reached
    exact ⟨m, _, run, by decide, (balanced false).1 sampleBuild subTrieMem m _ run⟩
  · obtain ⟨m, run, _⟩ := loneCommands_reached true
    exact ⟨m, _, run, (balanced true).2 seqTreeSample sampleMem m _ run⟩

theorem leaf_chains (asserts : Bool) :
    (∀ (B : SubTrieBuild) (mem : Addr → Key B.c.keyLen)
      (m : CountedTree (Key B.c.keyLen) SubTrie.SubTrieBlindiNode) (S : Finset (Key B.c.keyLen)),
      B.Run mem asserts m S → LeafChain m.tree) ∧
    ∀ (B : SeqTreeBuild) (mem : Addr → Key B.c.keyLen)
      (m : CountedTree (Key B.c.keyLen) SeqTree.SeqTreeBlindiNode) (S : Finset (Key B.c.keyLen)),
      B.Run mem asserts m S → LeafChain m.tree := by
  refine ⟨fun B mem m S run => ?_, fun B mem m S run => ?_⟩
  · exact (SetRun.abstracts (B.lawful mem) loose_discipline False.elim B.several B.inner
      (B.behind mem) run).intact.leafChain
  · exact (SetRun.abstracts (B.lawful mem) loose_discipline False.elim B.several B.inner
      (B.behind mem) run).intact.leafChain

theorem leaf_chains_sample :
    (∃ m S, sampleBuild.Run subTrieMem false m S ∧ S.card = 5 ∧ LeafChain m.tree) ∧
    ∃ m S, seqTreeSample.Run sampleMem true m S ∧ LeafChain m.tree := by
  constructor
  · obtain ⟨m, run⟩ := sampleCommands_reached
    exact ⟨m, _, run, by decide, (leaf_chains false).1 sampleBuild subTrieMem m _ run⟩
  · obtain ⟨m, run, _⟩ := loneCommands_reached true
    exact ⟨m, _, run, (leaf_chains true).2 seqTreeSample sampleMem m _ run⟩

end ElasticIndex.Tree
