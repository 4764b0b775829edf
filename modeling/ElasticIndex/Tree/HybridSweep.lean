import ElasticIndex.Tree.HybridBreathing

set_option autoImplicit false

namespace ElasticIndex.Tree.Hybrid

open Separators SeqTree

variable {c : Config} {mem : Addr → c.Key} {blank : SeqTreeBlindiNode} {t t' : HybridTree c}
  {key : Addr} {r : Iterator × Bool}

section LeafPart

variable {s s' : Store (HybridNode c.Key)} {leaf : Leaf (HybridNode c.Key)}
  {node : HybridNode c.Key} {slots : List (c.Key × Addr)} {type : BlindiLeafType}
  {n : SeqTreeBlindiNode} {parent parent' : Parent c} {a a' new : Ptr} {status : HybridStatus}
  {h h' : Heap c} {out : LeafOutcome (Heap c) c.Key Ptr (Iterator × Bool)}

-- The sweep of an inner node finds no plain leaf to convert.
def Sweeps (status : HybridStatus) (s : Store (HybridNode c.Key)) (inner : InnerNode c.Key Ptr)
    (slot : Nat) : Prop :=
  status = .mustCompress ∧ Blind s (inner.childid slot) ∧ inner.alreadycomprerss = false ∧
    ∀ i, i < inner.slotuse → Blind s (inner.childid i)

-- Whether the inner node above a leaf is marked.
def Marked (parent : Parent c) : Prop := ∃ p ∈ parent, p.1.alreadycomprerss = true

theorem reseat_marked : Marked (reseat parent new) ↔ Marked parent := by
  cases parent with
  | none => exact Iff.rfl
  | some p => simp [Marked, reseat]

theorem transferBtreeNode_reseat
    (run : transferBtreeNode blank type h parent a leaf slots = some (h', parent', new)) :
    parent' = reseat parent new := by
  obtain ⟨⟨s, parent₁, new₁⟩, replace, same⟩ := Option.map_eq_some_iff.mp run
  simp only [Prod.mk.injEq] at same
  obtain ⟨-, rfl, rfl⟩ := same
  obtain ⟨-, -, -, moved⟩ := replaceLeaf_contents replace
  exact moved

-- Only the sweep marks an inner node, and only when it finds no plain leaf.
theorem compress_marked (seat : Seat parent a)
    (run : compress blank status h parent a = some (h', parent', a')) (marked : Marked parent') :
    Marked parent ∨ ∃ p ∈ parent, Sweeps status h.store p.1 p.2 := by
  obtain ⟨leaf, live, next⟩ := Option.bind_eq_some_iff.mp run
  cases node : leaf.node with
  | btree slots =>
    rw [node] at next
    dsimp only at next
    left
    split_ifs at next
    · exact reseat_marked.mp (transferBtreeNode_reseat next ▸ marked)
    · exact reseat_marked.mp (transferBtreeNode_reseat next ▸ marked)
    · cases next
      exact marked
  | blindi type n =>
    rw [node] at next
    dsimp only at next
    split_ifs at next with must
    · obtain ⟨⟨inner, slot⟩, rfl, next⟩ := Option.bind_eq_some_iff.mp next
      dsimp only at next
      split_ifs at next with flag
      · cases next
        exact .inl marked
      · obtain ⟨⟨h₁, inner'⟩, sweeps, same⟩ := Option.map_eq_some_iff.mp next
        simp only [Prod.mk.injEq] at same
        obtain ⟨rfl, rfl, rfl⟩ := same
        obtain ⟨found, first, sweeps⟩ := Option.bind_eq_some_iff.mp sweeps
        cases found with
        | none =>
          have blind : Blind h.store (inner.childid slot) := by
            rw [(seat _ rfl).2, blind_iff live, node]
            exact id
          exact .inr ⟨_, rfl, must, blind, by simpa using flag, fun i lt =>
            firstBtree_blind first i (Nat.zero_le i) (by rwa [Nat.zero_add]) (by simp)⟩
        | some entry =>
          obtain ⟨i, leaf₁, slots⟩ := entry
          obtain ⟨⟨h₂, parent₁, new⟩, transfer, same⟩ := Option.map_eq_some_iff.mp sweeps
          simp only [Prod.mk.injEq] at same
          obtain ⟨rfl, rfl⟩ := same
          obtain rfl := transferBtreeNode_reseat transfer
          obtain ⟨p, at_, set⟩ := marked
          cases at_
          exact .inl ⟨_, rfl, flag_setChild.symm.trans set⟩
    · cases next
      exact .inl marked

theorem makeRoom_marked {target : Target c}
    (run : makeRoom mem blank key s parent a leaf type n = some (parent', target)) :
    Marked parent' ↔ Marked parent := by
  unfold makeRoom at run
  by_cases full : leaf.slotuse = c.leafslotmax * type.size
  · rw [if_pos full] at run
    cases extended : type.extended with
    | some wider =>
      rw [extended] at run
      obtain ⟨⟨s₁, parent₁, new⟩, replace, same⟩ := Option.map_eq_some_iff.mp run
      simp only [Prod.mk.injEq] at same
      obtain ⟨rfl, -⟩ := same
      obtain ⟨-, -, -, rfl⟩ := replaceLeaf_contents replace
      exact reseat_marked
    | none =>
      rw [extended] at run
      obtain ⟨⟨s₁, splitkey, newleaf⟩, -, next⟩ := Option.bind_eq_some_iff.mp run
      dsimp only at next
      split_ifs at next with high
      · cases next
        exact Iff.rfl
      · obtain ⟨left, -, next⟩ := Option.bind_eq_some_iff.mp next
        cases node : left.node with
        | btree slots =>
          rw [node] at next
          cases next
        | blindi type n =>
          rw [node] at next
          cases next
          exact Iff.rfl
  · rw [if_neg full] at run
    cases run
    exact Iff.rfl

theorem leafPart_marked (seat : Seat parent a)
    (run : leafPart mem blank status key h parent a = some out)
    (marked : ∃ inner ∈ out.parent, inner.alreadycomprerss = true) : Marked parent ∨
    ∃ p ∈ parent, Sweeps status h.store p.1 p.2 := by
  obtain ⟨⟨h₁, parent₁, a₁⟩, compress, next⟩ := Option.bind_eq_some_iff.mp run
  obtain ⟨leaf, live, insert⟩ := Option.bind_eq_some_iff.mp next
  have lift {parent : Parent c} (same : out.parent = parent.map Prod.fst) : Marked parent := by
    obtain ⟨inner, at_, set⟩ := marked
    rw [same] at at_
    obtain ⟨p, here, rfl⟩ := Option.map_eq_some_iff.mp at_
    exact ⟨p, here, set⟩
  refine compress_marked seat compress ?_
  cases node : leaf.node with
  | btree slots =>
    rw [node] at insert
    obtain ⟨target, split, write⟩ := Option.bind_eq_some_iff.mp insert
    obtain ⟨leaf₁, live₁, write⟩ := Option.bind_eq_some_iff.mp write
    cases node₁ : leaf₁.node with
    | btree slots =>
      rw [node₁] at write
      cases write
      exact lift rfl
    | blindi type n =>
      rw [node₁] at write
      cases write
  | blindi type n =>
    rw [node] at insert
    obtain ⟨⟨parent', target⟩, room, write⟩ := Option.bind_eq_some_iff.mp insert
    obtain ⟨leaf₁, live₁, write⟩ := Option.bind_eq_some_iff.mp write
    cases node₁ : leaf₁.node with
    | btree slots =>
      rw [node₁] at write
      cases write
    | blindi type n =>
      rw [node₁] at write
      cases write
      exact (makeRoom_marked room).mp (lift rfl)

end LeafPart

-- The inner nodes of level 1.
def HybridTree.parents (t : HybridTree c) : Row c.Key (InnerNode c.Key Ptr) :=
  match t.root with
  | some ⟨level + 1, node⟩ => Tree.parents level ⊥ node
  | _ => []

theorem parents_leaf {a : Ptr} {newchild : Option (c.Key × Ptr)}
    (eq : t.root = some (@growRoot c.Key Ptr 0 a newchild)) :
    ∀ e ∈ t.parents, e.2.alreadycomprerss = false := by
  unfold HybridTree.parents
  rw [eq]
  cases newchild with
  | none => simp [growRoot]
  | some entry =>
    intro e inside
    simp only [growRoot, parents, List.mem_singleton] at inside
    rw [inside]

theorem parents_growRoot {level : Nat} (node : Node c.Key Ptr (level + 1))
    (newchild : Option (c.Key × Node c.Key Ptr (level + 1)))
    (eq : t.root = some (growRoot node newchild)) :
    t.parents = (splitRow ⊥ node newchild).flatMap fun e => Tree.parents level e.1 e.2 := by
  unfold HybridTree.parents
  rw [eq]
  cases newchild with
  | none => simp [growRoot, splitRow]
  | some entry => rfl

-- Every inner node of level 1 that is marked has only blind leaves below it.
def Swept (t : HybridTree c) : Prop :=
  ∀ e ∈ t.parents, e.2.alreadycomprerss = true → ∀ i, i ≤ e.2.slotuse →
    Blind t.store (e.2.childid i)

-- When the insertion is the one that marks its inner node, the last child is blind as well.
def SweepsAll (mem : Addr → c.Key) (t : HybridTree c) (key : Addr) : Prop :=
  ∀ level node, t.root = some ⟨level + 1, node⟩ →
    let inner := descendParent (mem key) level node
    Sweeps t.stats.hybridstatus t.store inner (findLower inner.slotkey (mem key)) →
      Blind t.store (inner.childid inner.slotuse)

theorem Swept.insert_deep {level : Nat} {node : Node c.Key Ptr (level + 1)} (splits : c.Splits)
    (accounted : Accounted t) (eq : t.root = some ⟨level + 1, node⟩) (swept : Swept t)
    (sweeps : SweepsAll mem t key) (run : t.insert mem blank key = some (t', r)) : Swept t' := by
  obtain ⟨used, accounts, place⟩ := accounted
  have perm : used.Perm (cells t.leaves) := place.resolve_left fun dangling => by
    rw [dangling.stuck] at run
    cases run
  have accounts := accounts.perm perm
  have leaves : t.leaves = Tree.leaves (level + 1) ⊥ node := by rw [HybridTree.leaves, eq]
  rw [leaves] at accounts
  obtain ⟨h', node', newchild, descends, root, store, -⟩ := HybridTree.insert_run eq run
  obtain ⟨before, sep, inner, after, slot, out, inner', front, low, a', back, l, split, whole,
    descent, position, leaf, parent, reseated,
    row', rows, below, flag, fresh⟩ := insertDescend_reseated splits accounts descends
  have parents : t.parents = before ++ (sep, inner) :: after := by
    rw [HybridTree.parents, eq]
    exact whole
  have parents' := parents_growRoot node' newchild root
  rw [rows] at parents'
  intro e here set i le
  rw [store]
  have elsewhere {part : Row c.Key (InnerNode c.Key Ptr)} (among : e ∈ part)
    (inside : e ∈ t.parents)
      (rest : ∀ x ∈ cells (children part), contents h'.store x = contents t.store x) :
          Blind h'.store (e.2.childid i) := by
    have child : e.2.childid i ∈ cells (Tree.row e.1 e.2) := mem_cells_row.mpr ⟨i, le, rfl⟩
    obtain ⟨entry, at_, same⟩ := List.mem_map.mp child
    rw [blind_congr (rest _ (List.mem_map.mpr ⟨entry, List.mem_flatMap.mpr ⟨e, among, at_⟩, same⟩))]
    exact swept e inside set i le
  rw [parents'] at here
  rcases List.mem_append.mp here with here | here
  · rcases List.mem_append.mp here with here | here
    · exact elsewhere here (by rw [parents]; simp [here]) fun x inside =>
        reseated.others x (List.mem_append_left _ inside)
    · rcases List.mem_cons.mp here with rfl | new
      · -- The inner node has been marked before, or the sweep marks it now.
        have all (j : Nat) (le : j ≤ inner.slotuse) : Blind t.store (inner.childid j) := by
          have seat : Seat (some (inner, slot)) (inner.childid slot) := fun p at_ => by
            cases at_
            have bound := findLower_le inner.slotkey (mem key)
            exact ⟨by rw [position]; simpa [InnerNode.slotkey, InnerNode.slotuse] using bound, rfl⟩
          rcases leafPart_marked seat leaf ⟨inner', parent, flag ▸ set⟩
            with ⟨p, at_, marked⟩ | ⟨p, at_, now⟩
          · cases at_
            exact swept (sep, inner) (by rw [parents]; simp) marked j le
          · cases at_
            rcases Nat.lt_or_eq_of_le le with lt | rfl
            · exact now.2.2.2 j lt
            · rw [descent] at now ⊢
              exact sweeps level node eq (by rwa [position, descent] at now)
        refine reseated.blind (fun x inside => ?_) _ ?_
        · obtain ⟨j, le, rfl⟩ := mem_cells_row.mp inside
          exact all j le
        · have inside : l.childid i ∈
              cells ((splitRow sep l split).flatMap fun e => Tree.row e.1 e.2) := by
            simp only [splitRow, List.flatMap_cons, cells_append, List.mem_append]
            exact .inl (mem_cells_row.mpr ⟨i, le, rfl⟩)
          have under : held (some (inner', slot)) a' = cells front ++ a' :: cells back := by
            rw [← cells_cons, ← cells_append, ← row']
            rfl
          rw [below] at inside
          rw [under]
          cases divided : out.split <;> simp_all [splitRow, cells] <;> tauto
      · obtain ⟨entry, at_, rfl⟩ := Option.map_eq_some_iff.mp (Option.mem_toList.mp new)
        have unset := fresh entry at_
        exact absurd (unset.symm.trans set) (by simp)
  · exact elsewhere here (by rw [parents]; simp [here]) fun x inside =>
      reseated.others x (List.mem_append_right _ inside)

/-- Runs in which the last child of an inner node is blind whenever the sweep is the one that marks
the node. -/
inductive SweepingRun (mem : Addr → c.Key) (blank : SeqTreeBlindiNode) : HybridTree c → Prop where
  | empty : SweepingRun mem blank (.empty c)
  | insert {t t' : HybridTree c} {key : Addr} {r : Iterator × Bool} : SweepingRun mem blank t →
    SweepsAll mem t key →
    t.insert mem blank key = some (t', r) → SweepingRun mem blank t'

theorem SweepingRun.built (run : SweepingRun mem blank t) : Built mem blank t := by
  induction run with
  | empty => exact .empty
  | insert _ _ insert ih => exact ih.insert insert

theorem Swept.insert (splits : c.Splits) (built : Built mem blank t) (swept : Swept t)
    (sweeps : SweepsAll mem t key) (run : t.insert mem blank key = some (t', r)) : Swept t' := by
  obtain ⟨accounted, new⟩ := built.accounted splits
  cases eq : t.root with
  | none =>
    rw [new eq] at run
    obtain ⟨stats, -, -, -, first⟩ :=
      empty_insert mem blank (show 0 < c.leafslotmax by have := splits.leaf; omega) key
    have same := first.symm.trans run
    simp only [Option.some.injEq, Prod.mk.injEq] at same
    obtain ⟨rfl, -⟩ := same
    exact fun e inside => absurd inside List.not_mem_nil
  | some root =>
    obtain ⟨level, node⟩ := root
    cases level with
    | zero =>
      obtain ⟨h', node', newchild, descends, root, -⟩ := HybridTree.insert_run eq run
      exact fun e inside set => absurd ((parents_leaf root e inside).symm.trans set) (by simp)
    | succ level => exact swept.insert_deep splits accounted eq sweeps run

theorem sweep_complete (splits : c.Splits) (run : SweepingRun mem blank t) : Swept t := by
  induction run with
  | empty => exact fun e inside => absurd inside List.not_mem_nil
  | insert run sweeps insert ih => exact ih.insert splits run.built sweeps insert

section Sample

instance decidableSweeps (status : HybridStatus) (s : Store (HybridNode c.Key))
    (inner : InnerNode c.Key Ptr) (slot : Nat) :
    Decidable (Sweeps status s inner slot) := by
  unfold Sweeps
  infer_instance

instance decidableSweepsAll (mem : Addr → c.Key) (t : HybridTree c) (key : Addr) :
    Decidable (SweepsAll mem t key) :=
  match root : t.root with
  | some ⟨level + 1, node⟩ =>
    decidable_of_iff (Sweeps t.stats.hybridstatus t.store (descendParent (mem key) level node)
        (findLower (descendParent (mem key) level node).slotkey (mem key)) →
          Blind t.store ((descendParent (mem key) level node).childid
          (descendParent (mem key) level node).slotuse))
      ⟨fun all level' node' same => by rw [root] at same; cases same; exact all,
        fun all => all level node root⟩
  | some ⟨0, _⟩ => .isTrue fun level node same => by rw [root] at same; cases same
  | none => .isTrue fun level node same => by rw [root] at same; cases same

-- The last child has been converted before the sweep marks the inner node; the key 3 comes twice.
theorem sweep_complete_sample : ∃ t, SweepingRun sampleMem SeqTree.sampleNode t ∧
    (t.parents.map fun e => e.2.alreadycomprerss) = [true, false] ∧ Swept t := by
  have marked : ((sampleRun (fun t key => decide (SweepsAll sampleMem t key))
      (sampleKeys ++ [200, 78, 1, 2, 3, 3, 4, 5, 6])).map fun t => t.parents.map fun e =>
      e.2.alreadycomprerss) =
        some [true, false] := by decide +kernel
  obtain ⟨t, run, flags⟩ := Option.map_eq_some_iff.mp marked
  have sweeping := @insertAll_steps sampleConfig sampleMem SeqTree.sampleNode _ [] _ _
    (fun t _ => SweepingRun sampleMem SeqTree.sampleNode t)
    (fun t t' stored key r start ok insert => start.insert (of_decide_eq_true ok) insert) _ .empty
      run
  exact ⟨t, sweeping, flags, sweep_complete ⟨by decide, by decide, by decide⟩ sweeping⟩

-- The loop of the sweep stops before the last child, which is a plain leaf here.
theorem sweep_incomplete :
    ∃ t stored, Reached sampleMem SeqTree.sampleNode t stored ∧ ¬ Swept t := by
  have plain : ((sampleRun (fun _ _ => true) (sampleKeys ++ [200, 1, 2, 3, 4, 5, 6])).map fun t =>
      t.parents.any fun e =>
      e.2.alreadycomprerss && decide (¬ Blind t.store (e.2.childid e.2.slotuse))) =
        some true := by decide +kernel
  obtain ⟨t, run, found⟩ := Option.map_eq_some_iff.mp plain
  have reached := insertAll_run (R := Reached sampleMem SeqTree.sampleNode)
    (fun t t' stored key r start ok missing insert => start.insert missing insert)
      .empty (by decide) run
  obtain ⟨e, inside, both⟩ := List.any_eq_true.mp found
  simp only [Bool.and_eq_true, decide_eq_true_eq] at both
  exact ⟨t, _, reached, fun swept => both.2 (swept e inside both.1 _ le_rfl)⟩

end Sample

end ElasticIndex.Tree.Hybrid
