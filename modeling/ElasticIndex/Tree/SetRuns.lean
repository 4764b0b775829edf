import ElasticIndex.Tree.SortedBounds
import ElasticIndex.Tree.SortedShape
import ElasticIndex.Tree.Verify

set_option autoImplicit false

namespace ElasticIndex.Tree

open Separators LinkedRow Loop Refinement

variable {K N : Type} [LinearOrder K] {slots : Slots} {mem : Addr → K} {T : EraseType K N}
  {Valid : N → Prop} {Q : Row K (List K) → Prop} {tight : Prop} {removable : N → K → Prop}
  {asserts : Bool} {endSlot : Leaf N → Nat} {m : CountedTree K N} {S : Finset K}

-- The trees that commands build, with the keys they hold.
abbrev SetRun (T : EraseType K N) (slots : Slots) (mem : Addr → K) (removable : N → K → Prop)
    (endSlot : Leaf N → Nat) (asserts : Bool) :
    CountedTree K N → Finset K → Prop :=
  Refinement.Reached (CountedTree.step T slots mem asserts endSlot) (setStep mem)
    (Allowed T.toNodeType mem removable asserts) .empty ∅

theorem SetRun.abstracts (lawful : T.Lawful mem slots.leaf Valid removable)
    (discipline : Discipline tight Q) (only : tight → asserts = true) (several : 2 ≤ slots.leaf)
    (severalInner : 2 ≤ slots.inner)
    (behind : EndsBehind (LeafSound T.toNodeType slots Valid) endSlot)
    (runs : SetRun T slots mem removable endSlot asserts m S) :
    Abstracts T.toNodeType slots mem Valid Q m S :=
  (sortedMap_simulates asserts lawful discipline only several severalInner behind).reached
    (abstracts_empty discipline) runs

/-- A set of keys, kept in increasing order, whose next command answers as the set does. -/
structure KeepsSet (T : EraseType K N) (slots : Slots) (mem : Addr → K) (removable : N → K → Prop)
    (endSlot : Leaf N → Nat) (asserts : Bool) (m : CountedTree K N) (S : Finset K) : Prop where
  content : m.tree.content T.toNodeType mem = S.sort
  itemcount : m.itemcount = S.card
  answers : ∀ c, Allowed T.toNodeType mem removable asserts m S c →
    ∃ m', Returns (fun rounds => m.step T slots mem asserts endSlot rounds c) (m',
    (setStep mem S c).2) ∧
      m'.tree.content T.toNodeType mem = (setStep mem S c).1.sort

theorem SetRun.keepsSet (lawful : T.Lawful mem slots.leaf Valid removable)
    (several : 2 ≤ slots.leaf) (severalInner : 2 ≤ slots.inner)
    (behind : EndsBehind (LeafSound T.toNodeType slots Valid) endSlot)
    (runs : SetRun T slots mem removable endSlot asserts m S) :
    KeepsSet T slots mem removable endSlot asserts m S := by
  have abstracts := runs.abstracts lawful loose_discipline False.elim several severalInner behind
  refine ⟨abstracts.content, abstracts.itemcount, fun c allowed => ?_⟩
  obtain ⟨m', returns, next⟩ :=
    sortedMap_simulates asserts lawful loose_discipline False.elim several severalInner behind m S
    c abstracts allowed
  exact ⟨m', returns, next.content⟩

-- The bounds queries of a tree that commands have built.
theorem SetRun.bounds (lawful : T.Lawful mem slots.leaf Valid removable) (several : 2 ≤ slots.leaf)
    (severalInner : 2 ≤ slots.inner)
    (behind : EndsBehind (LeafSound T.toNodeType slots Valid) endSlot)
    (runs : SetRun T slots mem removable endSlot asserts m S) :
    AnswersBounds T.toNodeType mem endSlot m.tree S.sort := by
  have abstracts := runs.abstracts lawful loose_discipline False.elim several severalInner behind
  rw [← abstracts.content]
  exact abstracts.intact.bounds lawful.toLawful loose_discipline behind

theorem descend_mem {key : K} (level : Nat) {low : WithBot K} (node : Node K Ptr level)
    (below : low < key) :
    descend key level node ∈ cells (leaves level low node) := by
  induction level generalizing low with
  | zero => exact List.mem_singleton_self _
  | succ level ih =>
    obtain ⟨before, sep, after, eq, _, less, _⟩ :=
      row_findLower (K := K) (C := Node K Ptr level) node below
    obtain ⟨e, inside, same⟩ :=
      List.mem_map.mp (ih (node.childid (findLower node.slotkey key)) less)
    have spread : leaves (level + 1) low node = (row low node).flatMap fun e =>
      leaves level e.1 e.2 := rfl
    rw [spread, eq]
    have child : (sep, node.childid (findLower node.slotkey key)) ∈ before ++ (sep, _) :: after :=
      List.mem_append_right _ List.mem_cons_self
    exact List.mem_map.mpr ⟨e, List.mem_flatMap.mpr ⟨_, child, inside⟩, same⟩

theorem mem_content_of_descend {T : NodeType K N} {t : BTree K N}
    {root : (level : Nat) × Node K Ptr level} (eq : t.root = some root) {key k : K}
    (inside : k ∈ t.store.keysAt (T.keys mem) (descend key root.1 root.2)) :
    k ∈ t.content T mem := by
  rw [BTree.content, allKeys_cells, BTree.leaves, eq]
  exact List.mem_flatMap.mpr ⟨_, descend_mem root.1 root.2 (WithBot.bot_lt_coe key), inside⟩

-- The insertion returns an iterator to the new entry.
def InsertsAt (T : NodeType K N) (slots : Slots) (mem : Addr → K) (t : BTree K N)
    (key : Addr) : Prop :=
  ∃ t' it, Returns (fun rounds => t.insert T slots mem rounds key) (t', it, true) ∧
    t'.store.keyOf (T.keys mem) it = some (mem key)

-- The new entry has to be the first one of the part of the leaf that takes it.
theorem SetRun.inserts (lawful : T.Lawful mem slots.leaf Valid removable) (several : 2 ≤ slots.leaf)
    (severalInner : 2 ≤ slots.inner)
    (behind : EndsBehind (LeafSound T.toNodeType slots Valid) endSlot)
    (runs : SetRun T slots mem removable endSlot asserts m S) {key : Addr} (missing : mem key ∉ S) :
    InsertsAt T.toNodeType slots mem m.tree key ↔ ∀ root, m.tree.root = some root →
      ∀ k ∈ takingPart slots.leaf
        (m.tree.store.keysAt (T.keys mem) (descend (mem key) root.1 root.2))
        (mem key), mem key < k := by
  have abstracts := runs.abstracts lawful loose_discipline False.elim several severalInner behind
  obtain ⟨t', ⟨it, success⟩, inserted⟩ :=
    abstracts.intact.insert lawful.toLawful loose_discipline several
    (Nat.zero_lt_of_lt severalInner) (abstracts.mem_iff.not.mpr missing)
  have success : success = true := inserted.success
  subst success
  refine Iff.trans ?_ inserted.iterator
  constructor
  · rintro ⟨t'', it', returns, right⟩
    cases returns.unique inserted.returns
    exact right
  · exact fun right => ⟨t', it, inserted.returns, right⟩

/-- The walk from the place of a stored key reads the keys from there on, and comes to where ++
stays. -/
structure Walked (T : NodeType K N) (mem : Addr → K) (endSlot : Leaf N → Nat)
    (t : BTree K N) (S : Finset K) (x : K) (it : Iterator) : Prop where
  reads : ∀ n, S.sort.idxOf x + n < S.card →
    ∃ it', it.after t.store n = some it' ∧ t.store.keyOf (T.keys mem) it' =
    S.sort[S.sort.idxOf x + n]?
  meets : ∀ n, it.after t.store n = t.store.endAt endSlot ↔ S.card ≤ S.sort.idxOf x + n ∧
    ∀ a leaf, t.store.tailleaf = some a → t.store.leaf a = some leaf → endSlot leaf = leaf.slotuse

theorem SetRun.walked (lawful : T.Lawful mem slots.leaf Valid removable) (several : 2 ≤ slots.leaf)
    (severalInner : 2 ≤ slots.inner)
    (behind : EndsBehind (LeafSound T.toNodeType slots Valid) endSlot)
    (runs : SetRun T slots mem removable endSlot asserts m S) {x : K} (stored : x ∈ S) :
    ∃ it, Returns (fun rounds => m.tree.find T mem endSlot rounds x) it ∧
      Walked T.toNodeType mem endSlot m.tree S x it := by
  have abstracts := runs.abstracts lawful loose_discipline False.elim several severalInner behind
  obtain ⟨it, returns, found, _⟩ := abstracts.intact.find lawful loose_discipline behind x
  have key := (found (abstracts.mem_iff.mpr stored)).2
  have walks := abstracts.intact.walksFrom lawful.toLawful loose_discipline key
  have meets := abstracts.intact.meets_end lawful.toLawful loose_discipline behind key
  rw [abstracts.content] at walks
  simp only [abstracts.content, Finset.length_sort] at meets
  refine ⟨it, returns, fun n lt => ?_, meets⟩
  exact walks.reads n (by rwa [Finset.length_sort])

theorem SetRun.tail_leaf (lawful : T.Lawful mem slots.leaf Valid removable)
    (several : 2 ≤ slots.leaf) (severalInner : 2 ≤ slots.inner)
    (behind : EndsBehind (LeafSound T.toNodeType slots Valid) endSlot)
    (runs : SetRun T slots mem removable endSlot asserts m S) (some_ : S.Nonempty) :
    ∃ a leaf, m.tree.store.tailleaf = some a ∧ m.tree.store.leaf a = some leaf ∧
    leaf.slotuse ≤ S.card := by
  have abstracts := runs.abstracts lawful loose_discipline False.elim several severalInner behind
  have content := abstracts.content
  have strung := abstracts.intact.strung
  have length := congrArg List.length content
  rw [Finset.length_sort] at length
  have leaves : m.tree.leaves ≠ [] := by
    intro none
    rw [BTree.content, none] at length
    exact some_.card_pos.ne length
  have last : (cells m.tree.leaves).getLast? = some (m.tree.leaves.getLast leaves).2 := by
    rw [cells, List.getLast?_map, List.getLast?_eq_getLast_of_ne_nil leaves, Option.map_some]
  obtain ⟨leaf, live, sound⟩ := strung.live _ (List.mem_of_getLast? last)
  refine ⟨_, leaf, strung.tail.trans last, live, ?_⟩
  have split := List.dropLast_append_getLast leaves
  rw [BTree.content, ← split, pages_append, allKeys_append, List.length_append,
    pages_cons] at length
  have here : (allKeys [((m.tree.leaves.getLast leaves).1,
      m.tree.store.keysAt (T.keys mem) (m.tree.leaves.getLast leaves).2)]).length =
        leaf.slotuse := by
    have counted : (T.keys mem leaf.node).length = T.getValidLen leaf.node := keys_length leaf.node
    rw [keysAt_of_leaf live, sound.counted, ← counted]
    simp [allKeys]
  have tail := here.le
  simp only [Store.pages, List.map_nil] at length
  omega

-- The assertion in erase_one_descend lets through all but the last key of a leaf that is the last
-- one of its parent.
theorem SetRun.erases_iff (lawful : T.Lawful mem slots.leaf Valid removable)
    (several : 2 ≤ slots.leaf) (severalInner : 2 ≤ slots.inner)
    (behind : EndsBehind (LeafSound T.toNodeType slots Valid) endSlot)
    (runs : SetRun T slots mem removable endSlot asserts m S) {x : K}
    (removes : m.tree.Removable T.toNodeType mem removable x) :
    (∃ m', Returns (fun rounds => m.eraseOne T slots mem asserts rounds x) (m', decide (x ∈ S))) ↔
      (asserts = true → ¬ m.tree.LastAlone (T.keys mem) x) := by
  have abstracts := runs.abstracts lawful loose_discipline False.elim several severalInner behind
  constructor
  · rintro ⟨m', bound, returns⟩ rfl alone
    obtain ⟨bound', none⟩ := abstracts.intact.eraseOne_alone lawful loose_discipline removes alone
    have both : m.eraseOne T slots mem true (max bound bound') x = some (m', decide (x ∈ S)) :=
      returns _ (le_max_left _ _)
    rw [CountedTree.eraseOne, none _ (le_max_right _ _)] at both
    cases both
  · intro free
    obtain ⟨m', returns, _⟩ :=
      abstracts.eraseOne asserts lawful loose_discipline several severalInner removes fun on =>
      free (on.resolve_right id)
    exact ⟨_, returns⟩

theorem SetRun.verify_iff (lawful : T.Lawful mem slots.leaf Valid removable)
    (several : 2 ≤ slots.leaf) (severalInner : 2 ≤ slots.inner)
    (behind : EndsBehind (LeafSound T.toNodeType slots Valid) endSlot)
    (runs : SetRun T slots mem removable endSlot asserts m S) :
    (m.verifyRoot T.toNodeType slots mem = true ↔
      Exact (m.tree.store.pages (T.keys mem) m.tree.leaves)) ∧
      (asserts = true → m.verifyRoot T.toNodeType slots mem = true) := by
  have abstracts := runs.abstracts lawful loose_discipline False.elim several severalInner behind
  have iff := abstracts.verify_iff lawful.toLawful loose_discipline severalInner
  have loose : Loose (m.tree.store.pages (T.keys mem) m.tree.leaves) := abstracts.intact.pages
  refine ⟨iff.trans loose.tight_iff, fun on => iff.mpr ?_⟩
  exact (runs.abstracts lawful tight_discipline (fun _ => on) several severalInner
    behind).intact.pages

end ElasticIndex.Tree
