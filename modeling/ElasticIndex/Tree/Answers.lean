import ElasticIndex.Tree.HybridBounds
import ElasticIndex.Tree.HybridSweep
import ElasticIndex.Tree.SetAnswers

set_option autoImplicit false

namespace ElasticIndex.Tree

open Separators Loop Refinement

theorem Hybrid.Reached.inserts {c : Hybrid.Config} {mem : Addr → c.Key}
    {blank : SeqTree.SeqTreeBlindiNode} {t : Hybrid.HybridTree c} {stored : List c.Key}
    {key : Addr} (fits : c.Fits) (reached : Hybrid.Reached mem blank t stored)
    (missing : mem key ∉ stored) :
    (∃ t' it, t.insert mem blank key = some (t', it, true) ∧
      t'.store.keyOf (Hybrid.HybridNode.keys mem) it = some (mem key)) ↔
        (∀ root, t.root = some root → t.store.leaf (descend (mem key) root.1 root.2) ≠ none) ∧
          Hybrid.IteratorRight mem t key := by
  obtain ⟨known, -, keeps | dangling⟩ := reached.keeps fits
  · have more : Hybrid.Keeps mem (key :: known) t stored :=
      keeps.mono fun a inside => List.mem_cons_of_mem _ inside
    obtain ⟨t', it, inserts⟩ := more.insert blank fits List.mem_cons_self missing
    have live (root : (level : Nat) × Node c.Key Ptr level) (eq : t.root = some root) :
        t.store.leaf (descend (mem key) root.1 root.2) ≠ none := by
      obtain ⟨_, _, leaf, _, reaches⟩ := keeps.reaches (mem key) eq
      rw [reaches.live]
      simp
    rw [← inserts.iterator]
    constructor
    · rintro ⟨t'', it', insert, right⟩
      have same := insert.symm.trans inserts.run
      simp only [Option.some.injEq, Prod.mk.injEq, and_true] at same
      obtain ⟨rfl, rfl⟩ := same
      exact ⟨live, right⟩
    · exact fun right => ⟨t', it, inserts.run, right.2⟩
  · constructor
    · rintro ⟨t', it, insert, _⟩
      rw [dangling.stuck] at insert
      cases insert
    · obtain ⟨a, root, gone⟩ := dangling
      exact fun right => absurd gone (right.1 _ root)

-- The three trees; lower_bound ends with slot++, which leaves the entry below x the answer of a
-- miss inside a leaf.
theorem bounds_answers (asserts : Bool) :
    (∀ (B : SeqTreeBuild) (mem : Addr → Key B.c.keyLen)
      (m : CountedTree (Key B.c.keyLen) SeqTree.SeqTreeBlindiNode) (S : Finset (Key B.c.keyLen)),
      B.Run mem asserts m S →
      AnswersBounds B.type.toNodeType mem B.endSlot m.tree S.sort) ∧
    (∀ (B : SubTrieBuild) (mem : Addr → Key B.c.keyLen)
      (m : CountedTree (Key B.c.keyLen) SubTrie.SubTrieBlindiNode) (S : Finset (Key B.c.keyLen)),
      B.Run mem asserts m S →
      AnswersBounds B.type.toNodeType mem B.endSlot m.tree S.sort) ∧
    ∀ (c : Hybrid.Config) (mem : Addr → c.Key) (blank : SeqTree.SeqTreeBlindiNode)
      (t : Hybrid.HybridTree c) (stored : List c.Key), c.Fits → Hybrid.Reached mem blank t stored →
      ∀ x, (∃ it, t.lowerBound mem x = some it ∧
        Bound (Hybrid.HybridNode.keys mem) Leaf.slotuse t.store (· ∈ stored) (x ≤ ·) it) ↔
          Hybrid.LowerBoundRight mem t stored x := by
  refine ⟨fun B mem m S run => ?_, fun B mem m S run => ?_,
    fun c mem blank t stored fits reached x => Hybrid.lowerBound_bound_iff fits reached x⟩
  · exact SetRun.bounds (B.lawful mem) B.several B.inner (B.behind mem) run
  · exact SetRun.bounds (B.lawful mem) B.several B.inner (B.behind mem) run

-- Six keys in plain leaves of four, before the first limit is reached.
theorem plain_reached : ∃ t, Hybrid.Reached Hybrid.sampleMem SeqTree.sampleNode t
      (([8, 16, 24, 32, 40, 48].map Hybrid.sampleMem).reverse ++ []) ∧
    t.stats.hybridstatus = .goOn ∧ ∀ root, t.root = some root →
      ∃ leaf, t.store.leaf (descend (Hybrid.sampleMem 20) root.1 root.2) = some leaf ∧
      leaf.node.Plain := by
  have built : ((Hybrid.sampleRun (fun _ _ => true) [8, 16, 24, 32, 40, 48]).map fun t =>
      decide (t.stats.hybridstatus = .goOn) && t.root.all fun root =>
        (t.store.leaf (descend (Hybrid.sampleMem 20) root.1 root.2)).any fun leaf =>
          decide leaf.node.Plain) =
          some true := by decide
  obtain ⟨t, run, plain⟩ := Option.map_eq_some_iff.mp built
  obtain ⟨status, plain⟩ := (Bool.and_eq_true _ _).mp plain
  have reached := Hybrid.insertAll_run (R := Hybrid.Reached Hybrid.sampleMem SeqTree.sampleNode)
    (fun _ _ _ _ _ start _ missing insert => start.insert missing insert) .empty (by decide) run
  refine ⟨t, reached, of_decide_eq_true status, fun root eq => ?_⟩
  rw [eq] at plain
  obtain ⟨leaf, live, isPlain⟩ := (Option.any_eq_true _ _).mp plain
  exact ⟨leaf, live, of_decide_eq_true isPlain⟩

-- Seven keys do not fit into one leaf of six, nor six into one of four.
theorem bounds_answers_sample :
    (∃ m S, seqTreeSample.Run sampleMem true m S ∧ S.card = 10 ∧
      AnswersBounds seqTreeSample.type.toNodeType sampleMem seqTreeSample.endSlot m.tree S.sort) ∧
    (∃ m S, sampleBuild.Run subTrieMem false m S ∧ S.card = 7 ∧
      AnswersBounds sampleBuild.type.toNodeType subTrieMem sampleBuild.endSlot m.tree S.sort) ∧
    ∃ t it, Hybrid.Reached Hybrid.sampleMem SeqTree.sampleNode t
        (([8, 16, 24, 32, 40, 48].map Hybrid.sampleMem).reverse ++ []) ∧
      t.lowerBound Hybrid.sampleMem (Hybrid.sampleMem 20) = some it ∧
      t.store.keyOf (Hybrid.HybridNode.keys Hybrid.sampleMem) it = some (Hybrid.sampleMem 24) := by
  refine ⟨?_, ?_, ?_⟩
  · obtain ⟨m, S, run, card, _⟩ := grownCommands_reached true
    exact ⟨m, S, run, card, (bounds_answers true).1 seqTreeSample sampleMem m S run⟩
  · have built : Admissible (NewKey subTrieMem) (setStep subTrieMem) ∅
      ([1, 2, 3, 4, 5, 6, 7].map Command.insert) ∧
        (specAll (setStep subTrieMem) ∅ ([1, 2, 3, 4, 5, 6, 7].map Command.insert)).1.card = 7 := by
        decide
    obtain ⟨m, run⟩ := sampleBuild.reaches subTrieMem _ built.1
    exact ⟨m, _, run, built.2, (bounds_answers false).2.1 sampleBuild subTrieMem m _ run⟩
  · obtain ⟨t, reached, _, plain⟩ := plain_reached
    have right : Hybrid.LowerBoundRight Hybrid.sampleMem t
        (([8, 16, 24, 32, 40, 48].map Hybrid.sampleMem).reverse ++ []) (Hybrid.sampleMem 20) := by
      intro root eq
      obtain ⟨leaf, live, isPlain⟩ := plain root eq
      refine ⟨leaf, live, ?_⟩
      rw [if_pos isPlain]
      exact .inl ⟨Hybrid.sampleMem 48, by decide, by decide⟩
    obtain ⟨it, answer, bound⟩ :=
      ((bounds_answers true).2.2 Hybrid.sampleConfig Hybrid.sampleMem SeqTree.sampleNode
      t _ Hybrid.sampleConfig_fits reached (Hybrid.sampleMem 20)).mpr right
    refine ⟨t, it, reached, answer, bound.first _ ⟨⟨by decide, by decide⟩, ?_⟩⟩
    rintro k ⟨inside, le⟩
    revert le
    revert k
    decide

-- With 1 and 3 in the tree, lower_bound(2) stands at 1.
theorem lowerBound_inside : ∃ m, seqTreeSample.Run sampleMem false m {sampleMem 1, sampleMem 3} ∧
    ¬ ∃ it, Returns (fun rounds =>
        m.tree.lowerBound seqTreeSample.type.toNodeType sampleMem seqTreeSample.endSlot rounds
          (sampleMem 2)) it ∧
      Bound (seqTreeSample.type.keys sampleMem) seqTreeSample.endSlot m.tree.store
        (· ∈ ({sampleMem 1, sampleMem 3} : Finset (Key 1))) (sampleMem 2 ≤ ·) it := by
  have built : ((seqTreeRun false [.insert 1, .insert 3]).map fun m =>
      (m.tree.lowerBound seqTreeSample.type.toNodeType sampleMem seqTreeSample.endSlot 0
          (sampleMem 2)).map fun it =>
        m.tree.store.keyOf (seqTreeSample.type.keys sampleMem) it) =
            some (some (some (sampleMem 1))) := by
    decide +kernel
  obtain ⟨m, run, answer⟩ := Option.map_eq_some_iff.mp built
  obtain ⟨it, answer, at_⟩ := Option.map_eq_some_iff.mp answer
  have set : (specAll (setStep sampleMem) ∅ [.insert 1, .insert 3]).1 =
    {sampleMem 1, sampleMem 3} := by decide
  refine ⟨m, set ▸ seqTreeRun_reached run, ?_⟩
  rintro ⟨it', returns, bound⟩
  have answers : Returns (fun rounds =>
      m.tree.lowerBound seqTreeSample.type.toNodeType sampleMem seqTreeSample.endSlot rounds
          (sampleMem 2)) it :=
    ⟨0, fun _ _ => answer⟩
  obtain rfl := returns.unique answers
  have least : IsLeast {k | k ∈ ({sampleMem 1, sampleMem 3} : Finset (Key 1)) ∧ sampleMem 2 ≤ k}
      (sampleMem 3) := by
    refine ⟨⟨by decide, by decide⟩, fun k inside => ?_⟩
    obtain ⟨mem', le⟩ := inside
    revert le
    revert k
    decide
  have right := bound.first _ least
  rw [at_] at right
  exact absurd (Option.some.inj right) (by decide)

-- A blind leaf answers with slot 0, whatever the place of the key; only the plain way returns the
-- slot it has found.
theorem inserted_iterators (key : Addr) (asserts : Bool) :
    (∀ (B : SeqTreeBuild) (mem : Addr → Key B.c.keyLen)
      (m : CountedTree (Key B.c.keyLen) SeqTree.SeqTreeBlindiNode) (S : Finset (Key B.c.keyLen)),
      B.Run mem asserts m S → mem key ∉ S →
        (InsertsAt B.type.toNodeType B.slots mem m.tree key ↔ ∀ root, m.tree.root = some root →
          ∀ k ∈ takingPart B.c.numSlots
            (m.tree.store.keysAt (B.type.keys mem) (descend (mem key) root.1 root.2))
            (mem key), mem key < k)) ∧
    ∀ (c : Hybrid.Config) (mem : Addr → c.Key) (blank : SeqTree.SeqTreeBlindiNode)
      (t : Hybrid.HybridTree c) (stored : List c.Key), c.Fits → Hybrid.Reached mem blank t stored →
      mem key ∉ stored →
        ((∃ t' it, t.insert mem blank key = some (t', it, true) ∧
            t'.store.keyOf (Hybrid.HybridNode.keys mem) it = some (mem key)) ↔
          (∀ root, t.root = some root → t.store.leaf (descend (mem key) root.1 root.2) ≠ none) ∧
            Hybrid.IteratorRight mem t key) := by
  refine ⟨fun B mem m S run missing => ?_,
    fun c mem blank t stored fits reached missing => reached.inserts fits missing⟩
  exact SetRun.inserts (B.lawful mem) B.several B.inner (B.behind mem) run missing

-- The new key comes before all others in its leaf, or goes into a plain one.
theorem inserted_iterators_sample :
    (∃ m S, seqTreeSample.Run sampleMem true m S ∧ S.card = 7 ∧
      InsertsAt seqTreeSample.type.toNodeType seqTreeSample.slots sampleMem m.tree 0) ∧
    ∃ t t' it, Hybrid.Reached Hybrid.sampleMem SeqTree.sampleNode t
        (([8, 16, 24, 32, 40, 48].map Hybrid.sampleMem).reverse ++ []) ∧
      t.insert Hybrid.sampleMem SeqTree.sampleNode 20 = some (t', it, true) ∧
      t'.store.keyOf (Hybrid.HybridNode.keys Hybrid.sampleMem) it = some (Hybrid.sampleMem 20) := by
  constructor
  · obtain ⟨m, run, _⟩ := loneCommands_reached true
    have least : ∀ k ∈ loneKeys, sampleMem 0 < k := by decide
    refine ⟨m, loneKeys, run, by decide,
      ((inserted_iterators 0 true).1 seqTreeSample sampleMem m _ run (by decide)).mpr
      fun root eq k inside => ?_⟩
    have stored := mem_content_of_descend eq (takingPart_sub inside)
    rw [(seqTree_keepsSet seqTreeSample sampleMem true m loneKeys run).content,
      Finset.mem_sort] at stored
    exact least k stored
  · obtain ⟨t, reached, status, plain⟩ := plain_reached
    have path (root : (level : Nat) × Node Hybrid.sampleConfig.Key Ptr level)
      (eq : t.root = some root) :
        ∃ leaf, t.store.leaf (descend (Hybrid.sampleMem 20) root.1 root.2) = some leaf ∧
          Hybrid.PlainPath t.stats.hybridstatus leaf := by
      obtain ⟨leaf, live, isPlain⟩ := plain root eq
      refine ⟨leaf, live, isPlain, ?_⟩
      rw [status]
      simp [Hybrid.Converts]
    obtain ⟨t', it, insert, right⟩ :=
      ((inserted_iterators 20 true).2 Hybrid.sampleConfig Hybrid.sampleMem
      SeqTree.sampleNode t _ Hybrid.sampleConfig_fits reached (by decide)).mpr ⟨fun root eq => by
        obtain ⟨leaf, live, _⟩ := path root eq
        simp [live], fun root leaf eq live => by
        obtain ⟨leaf', live', plain⟩ := path root eq
        rw [live] at live'
        cases live'
        exact .inl plain⟩
    exact ⟨t, t', it, reached, insert, right⟩

-- With 1 in the tree, the insertion of 3 returns an iterator to 1.
theorem inserted_behind : ∃ m, seqTreeSample.Run sampleMem false m {sampleMem 1} ∧
    sampleMem 3 ∉ ({sampleMem 1} : Finset (Key 1)) ∧
    ¬ InsertsAt seqTreeSample.type.toNodeType seqTreeSample.slots sampleMem m.tree 3 := by
  have built : ((seqTreeRun false [.insert 1]).map fun m =>
      (m.tree.insert seqTreeSample.type.toNodeType seqTreeSample.slots sampleMem 0 3).map fun r =>
        r.1.store.keyOf (seqTreeSample.type.keys sampleMem) r.2.1) =
            some (some (some (sampleMem 1))) := by
    decide
  obtain ⟨m, run, answer⟩ := Option.map_eq_some_iff.mp built
  obtain ⟨r, insert, at_⟩ := Option.map_eq_some_iff.mp answer
  have set : (specAll (setStep sampleMem) ∅ [.insert 1]).1 = {sampleMem 1} := by decide
  refine ⟨m, set ▸ seqTreeRun_reached run, by decide, ?_⟩
  rintro ⟨t', it, returns, right⟩
  have answers : Returns (fun rounds =>
      m.tree.insert seqTreeSample.type.toNodeType seqTreeSample.slots sampleMem rounds 3) r :=
        ⟨0, fun _ _ => insert⟩
  obtain rfl := returns.unique answers
  rw [at_] at right
  exact absurd (Option.some.inj right) (by decide)

end ElasticIndex.Tree
