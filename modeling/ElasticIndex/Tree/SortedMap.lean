import Mathlib.Data.Finset.Sort
import ElasticIndex.Shared.Refinement
import ElasticIndex.Tree.EraseNodes

set_option autoImplicit false

namespace ElasticIndex.Tree

open Separators LinkedRow Loop Refinement

variable {K N : Type} [LinearOrder K]

/-- A tree with m_stats.itemcount. -/
structure CountedTree (K N : Type) where
  tree : BTree K N
  itemcount : Nat

def CountedTree.empty : CountedTree K N := { tree := .empty, itemcount := 0 }

-- insert_start counts a key that has gone in.
def CountedTree.insert (T : NodeType K N) (slots : Slots) (mem : Addr → K) (rounds : Nat)
    (m : CountedTree K N) (key : Addr) :
    Option (CountedTree K N × Iterator × Bool) :=
  (m.tree.insert T slots mem rounds key).map fun r =>
    ({ tree := r.1, itemcount := if r.2.2 then m.itemcount + 1 else m.itemcount }, r.2)

def CountedTree.eraseOne (T : EraseType K N) (slots : Slots) (mem : Addr → K) (asserts : Bool)
    (rounds : Nat) (m : CountedTree K N) (key : K) : Option (CountedTree K N × Bool) :=
  (m.tree.eraseOne T slots mem asserts rounds key).map fun r =>
    ({ tree := r.1, itemcount := if r.2 then m.itemcount - 1 else m.itemcount }, r.2)

inductive Command (K : Type) where
  | insert (key : Addr)
  | eraseOne (key : K)
  | exists_ (key : K)
  | find (key : K)
  | size
  deriving DecidableEq

/-- The key at the iterator that find returns stands for it, nothing for end(). -/
inductive Answer (K : Type) where
  | done (yes : Bool)
  | at_ (key : Option K)
  | count (itemcount : Nat)
  deriving DecidableEq

-- What find says: the key at its iterator, unless that is end().
def CountedTree.foundKey (T : EraseType K N) (mem : Addr → K) (endSlot : Leaf N → Nat)
    (rounds : Nat) (m : CountedTree K N) (key : K) :
    Option (Option K) :=
  (m.tree.find T mem endSlot rounds key).map fun it =>
    if m.tree.store.endAt endSlot = some it then none else m.tree.store.keyOf (T.keys mem) it

def CountedTree.step (T : EraseType K N) (slots : Slots) (mem : Addr → K) (asserts : Bool)
    (endSlot : Leaf N → Nat) (rounds : Nat) (m : CountedTree K N) : Command K →
    Option (CountedTree K N × Answer K)
  | .insert key => (m.insert T.toNodeType slots mem rounds key).map fun r => (r.1, .done r.2.2)
  | .eraseOne key => (m.eraseOne T slots mem asserts rounds key).map fun r => (r.1, .done r.2)
  | .exists_ key => (m.tree.exists_ T mem rounds key).map fun hit => (m, .done hit)
  | .find key => (m.foundKey T mem endSlot rounds key).map fun key => (m, .at_ key)
  | .size => some (m, .count m.itemcount)

-- The set of keys that the map stands for.
def setStep (mem : Addr → K) (S : Finset K) : Command K → Finset K × Answer K
  | .insert key => (insert (mem key) S, .done (decide (mem key ∉ S)))
  | .eraseOne key => (S.erase key, .done (decide (key ∈ S)))
  | .exists_ key => (S, .done (decide (key ∈ S)))
  | .find key => (S, .at_ (if key ∈ S then some key else none))
  | .size => (S, .count S.card)

-- Keys go in once.
def NewKey (mem : Addr → K) (S : Finset K) : Command K → Prop
  | .insert key => mem key ∉ S
  | _ => True

instance decidableNewKey (mem : Addr → K) (S : Finset K) (c : Command K) :
    Decidable (NewKey mem S c) :=
  match c with
  | .insert key => inferInstanceAs (Decidable (mem key ∉ S))
  | .eraseOne _ | .exists_ _ | .find _ | .size => .isTrue trivial

-- The erasures that the nodes, and the assertions that are compiled in, let through.
def Erasable (T : NodeType K N) (mem : Addr → K) (removable : N → K → Prop) (asserts : Bool)
    (t : BTree K N) : Command K → Prop
  | .eraseOne key =>
    t.Removable T mem removable key ∧ (asserts = true → ¬ t.LastAlone (T.keys mem) key)
  | _ => True

def Allowed (T : NodeType K N) (mem : Addr → K) (removable : N → K → Prop) (asserts : Bool)
    (m : CountedTree K N) (S : Finset K) (c : Command K) : Prop :=
  NewKey mem S c ∧ Erasable T mem removable asserts m.tree c

theorem BTree.removable_iff {T : NodeType K N} {mem : Addr → K} {removable : N → K → Prop}
    [∀ node x, Decidable (removable node x)] {t : BTree K N} {x : K} :
    (t.root.all fun root => (t.store.leaf (descend x root.1 root.2)).all fun leaf =>
      !(T.keys mem leaf.node).contains x || decide (removable leaf.node x)) = true ↔
      t.Removable T mem removable x := by
  simp only [Option.all_eq_true, Bool.or_eq_true, Bool.not_eq_true',
    decide_eq_true_eq, BTree.Removable]
  refine forall₄_congr fun root _ leaf _ => ?_
  rw [← Bool.not_eq_true, List.contains_iff_mem, imp_iff_not_or]

instance decidableTreeRemovable {T : NodeType K N} {mem : Addr → K} {removable : N → K → Prop}
    [∀ node x, Decidable (removable node x)] (t : BTree K N) (x : K) :
    Decidable (t.Removable T mem removable x) := decidable_of_iff _ BTree.removable_iff

instance decidableLastAlone (content : N → List K) (t : BTree K N) (x : K) :
    Decidable (t.LastAlone content x) :=
  match t with
  | ⟨none, _⟩ => .isFalse id
  | ⟨some ⟨0, _⟩, _⟩ => .isFalse id
  | ⟨some ⟨_ + 1, _⟩, _⟩ => inferInstanceAs (Decidable (_ ∧ _))

instance decidableErasable {T : NodeType K N} {mem : Addr → K} {removable : N → K → Prop}
    [∀ node x, Decidable (removable node x)] (asserts : Bool) (t : BTree K N) (c : Command K) :
    Decidable (Erasable T mem removable asserts t c) :=
  match c with
  | .eraseOne _ => inferInstanceAs (Decidable (_ ∧ _))
  | .insert _ | .exists_ _ | .find _ | .size => .isTrue trivial

instance decidableAllowed {T : NodeType K N} {mem : Addr → K} {removable : N → K → Prop}
    [∀ node x, Decidable (removable node x)] (asserts : Bool) (m : CountedTree K N) (S : Finset K)
    (c : Command K) : Decidable (Allowed T mem removable asserts m S c) :=
  inferInstanceAs (Decidable (_ ∧ _))

/-- The tree holds the keys of the set in increasing order. -/
structure Abstracts (T : NodeType K N) (slots : Slots) (mem : Addr → K) (Valid : N → Prop)
    (Q : Row K (List K) → Prop) (m : CountedTree K N) (S : Finset K) : Prop where
  intact : Intact T slots mem Valid Q m.tree
  content : m.tree.content T mem = S.sort
  itemcount : m.itemcount = S.card

variable {slots : Slots} {mem : Addr → K} {T : EraseType K N} {Valid : N → Prop}
  {Q : Row K (List K) → Prop} {tight : Prop} {removable : N → K → Prop} {asserts : Bool}
  {t : BTree K N} {m : CountedTree K N} {S : Finset K} {key : Addr} {x : K}
  {endSlot : Leaf N → Nat}

theorem Intact.insert {T : NodeType K N} (lawful : T.Lawful mem slots.leaf Valid)
    (discipline : Discipline tight Q) (several : 2 ≤ slots.leaf) (positive : 0 < slots.inner)
    (intact : Intact T slots mem Valid Q t) (missing : mem key ∉ t.content T mem) :
    ∃ t' r, Inserted T slots mem Valid Q t key t' r := by
  by_cases new : t.root = none
  · exact intact.insert_first lawful discipline several new key
  · exact intact.insert_next lawful discipline several positive new missing

theorem Intact.sorted {T : NodeType K N} (discipline : Discipline tight Q)
    (intact : Intact T slots mem Valid Q t) :
    (t.content T mem).Pairwise (· < ·) := (discipline.loose intact.pages).sorted

-- Increasing keys are the sorted list of their set.
theorem sort_of_mem {l : List K} (increasing : l.Pairwise (· < ·))
    (same : ∀ k, k ∈ l ↔ k ∈ S) : l = S.sort := by
  have nodup : l.Nodup := increasing.imp fun h => h.ne
  have set : l.toFinset = S := by
    ext k
    rw [List.mem_toFinset, same]
  rw [← set]
  exact ((List.toFinset_sort (· ≤ ·) nodup).mpr (increasing.imp fun h => h.le)).symm

theorem abstracts_empty {T : NodeType K N} (discipline : Discipline tight Q) :
    Abstracts T slots mem Valid Q .empty ∅ :=
  ⟨intact_empty discipline, by rw [Finset.sort_empty]; rfl, rfl⟩

theorem Abstracts.mem_iff {T : NodeType K N} (abstracts : Abstracts T slots mem Valid Q m S) :
    x ∈ m.tree.content T mem ↔ x ∈ S := by
  rw [abstracts.content]
  exact Finset.mem_sort _

theorem Abstracts.insert {T : NodeType K N} (lawful : T.Lawful mem slots.leaf Valid)
    (discipline : Discipline tight Q) (several : 2 ≤ slots.leaf) (positive : 0 < slots.inner)
    (abstracts : Abstracts T slots mem Valid Q m S) (missing : mem key ∉ S) :
    ∃ m' it, Returns (fun rounds => m.insert T slots mem rounds key) (m', it, true) ∧
      Abstracts T slots mem Valid Q m' (insert (mem key) S) := by
  obtain ⟨t', ⟨it, success⟩, inserted⟩ :=
    abstracts.intact.insert lawful discipline several positive (abstracts.mem_iff.not.mpr missing)
  have success : success = true := inserted.success
  subst success
  refine ⟨{ tree := t', itemcount := m.itemcount + 1 }, it,
      inserted.returns.map fun r : BTree K N × Iterator × Bool =>
    (({ tree := r.1, itemcount := if r.2.2 then m.itemcount + 1 else m.itemcount } :
      CountedTree K N), r.2), inserted.intact,
    sort_of_mem (inserted.intact.sorted discipline) fun k => ?_, ?_⟩
  · rw [inserted.content, abstracts.mem_iff, Finset.mem_insert]
  · rw [Finset.card_insert_of_notMem missing, ← abstracts.itemcount]

theorem Abstracts.eraseOne (asserts : Bool) (lawful : T.Lawful mem slots.leaf Valid removable)
    (discipline : Discipline tight Q) (several : 2 ≤ slots.leaf) (severalInner : 2 ≤ slots.inner)
    (abstracts : Abstracts T.toNodeType slots mem Valid Q m S)
    (removes : m.tree.Removable T.toNodeType mem removable x)
    (passes : asserts = true ∨ tight → ¬ m.tree.LastAlone (T.keys mem) x) :
    ∃ m', Returns (fun rounds => m.eraseOne T slots mem asserts rounds x) (m', decide (x ∈ S)) ∧
      Abstracts T.toNodeType slots mem Valid Q m' (S.erase x) := by
  obtain ⟨t', returns, intact, content⟩ :=
    abstracts.intact.eraseOne lawful discipline several severalInner removes passes
  have same : decide (x ∈ m.tree.content T.toNodeType mem) = decide (x ∈ S) :=
    decide_eq_decide.mpr abstracts.mem_iff
  rw [same] at returns
  refine ⟨{ tree := t', itemcount := if decide (x ∈ S) then m.itemcount - 1 else m.itemcount },
    returns.map fun r : BTree K N × Bool =>
      (({ tree := r.1, itemcount := if r.2 then m.itemcount - 1 else m.itemcount } :
        CountedTree K N), r.2), intact,
    sort_of_mem (intact.sorted discipline) fun k => ?_, ?_⟩
  · rw [content, List.Nodup.mem_erase_iff ((abstracts.intact.sorted discipline).imp fun h => h.ne),
      abstracts.mem_iff, Finset.mem_erase]
  · by_cases stored : x ∈ S
    · simp [stored, Finset.card_erase_of_mem, abstracts.itemcount]
    · simp [stored, Finset.erase_eq_of_notMem, abstracts.itemcount]

omit [LinearOrder K] in
theorem Strung.endAt {ok : Nat → N → Prop} {s : Store N} {l : List Ptr} (strung : Strung ok s l)
    (endSlot : Leaf N → Nat) :
    ∃ it, s.endAt endSlot = some it := by
  unfold Store.endAt
  cases tail : s.tailleaf with
  | none => exact ⟨_, rfl⟩
  | some a =>
    obtain ⟨leaf, live, _⟩ := strung.live a (List.mem_of_getLast? (strung.tail.symm.trans tail))
    exact ⟨_, by dsimp only; rw [live]; rfl⟩

-- The search in the leaf of a key.
theorem Intact.search (lawful : T.Lawful mem slots.leaf Valid removable)
    (discipline : Discipline tight Q) (intact : Intact T.toNodeType slots mem Valid Q t) (x : K) :
    ∃ found, Returns (fun rounds => t.search T mem rounds x) found ∧
      (x ∈ t.content T.toNodeType mem ↔ ∃ a r, found = some (a, r) ∧ r.hit = true) ∧
      ∀ a r, found = some (a, r) → r.hit = true → ∃ leaf, t.store.leaf a = some leaf ∧
      LeafSound T.toNodeType slots Valid leaf.slotuse leaf.node ∧
        (T.keys mem leaf.node)[r.position]? = some x := by
  cases eq : t.root with
  | none =>
    have content : t.content T.toNodeType mem = [] := by
      rw [BTree.content, BTree.leaves, eq]
      rfl
    refine ⟨none, (Returns.pure _).congr fun rounds => by rw [BTree.search, eq], by simp [content],
      fun a r same => by cases same⟩
  | some root =>
    obtain ⟨leaf, live, sound, iff⟩ := intact.at_ discipline eq x
    obtain ⟨r, ⟨bound, search⟩, hit, found⟩ := lawful.point sound.valid x
    refine ⟨some (descend x root.1 root.2, r), ⟨bound, fun rounds le => ?_⟩, ?_,
      fun a r' same hit' => ?_⟩
    · have answer : T.searchBlindiNode rounds mem leaf.node x .point = some r := search rounds le
      dsimp only
      rw [BTree.search, eq]
      dsimp only
      rw [live, Option.bind_some, answer]
      rfl
    · rw [iff, ← hit]
      constructor
      · intro yes
        exact ⟨_, _, rfl, yes⟩
      · rintro ⟨_, _, same, yes⟩
        cases same
        exact yes
    · cases same
      exact ⟨leaf, live, sound, found hit'⟩

theorem Intact.exists_ (lawful : T.Lawful mem slots.leaf Valid removable)
    (discipline : Discipline tight Q) (intact : Intact T.toNodeType slots mem Valid Q t) (x : K) :
    Returns (fun rounds => t.exists_ T mem rounds x) (decide (x ∈ t.content T.toNodeType mem)) := by
  obtain ⟨found, returns, iff, _⟩ := intact.search lawful discipline x
  have answer : found.elim false (fun found => found.2.hit) =
      decide (x ∈ t.content T.toNodeType mem) := by
    cases found with
    | none => simp [iff]
    | some found =>
      obtain ⟨a, r⟩ := found
      cases hit : r.hit <;> simp [iff, hit]
  exact answer ▸ returns.map fun found : Option (Ptr × Found) =>
    found.elim false fun found => found.2.hit

-- find stands at the key, or returns end().
theorem Intact.find (lawful : T.Lawful mem slots.leaf Valid removable)
    (discipline : Discipline tight Q)
    (behind : EndsBehind (LeafSound T.toNodeType slots Valid) endSlot)
    (intact : Intact T.toNodeType slots mem Valid Q t) (x : K) :
    ∃ it, Returns (fun rounds => t.find T mem endSlot rounds x) it ∧
      (x ∈ t.content T.toNodeType mem → t.store.endAt endSlot ≠ some it ∧
        t.store.keyOf (T.keys mem) it = some x) ∧
      (x ∉ t.content T.toNodeType mem → t.store.endAt endSlot = some it) := by
  obtain ⟨found, ⟨bound, search⟩, iff, at_⟩ := intact.search lawful discipline x
  obtain ⟨end_, atEnd⟩ := intact.strung.endAt endSlot
  by_cases stored : x ∈ t.content T.toNodeType mem
  · obtain ⟨a, r, rfl, hit⟩ := iff.mp stored
    obtain ⟨leaf, live, sound, here⟩ := at_ a r rfl hit
    refine ⟨⟨some a, r.position⟩, ⟨bound, fun rounds le => ?_⟩, fun _ => ⟨fun same => ?_, ?_⟩,
      fun absent => absurd stored absent⟩
    · have answer : t.search T mem rounds x = some (some (a, r)) := search rounds le
      dsimp only
      rw [BTree.find, answer, Option.bind_some]
      exact if_pos hit
    · have lt := (List.getElem?_eq_some_iff.mp here).1
      have length : (T.keys mem leaf.node).length = T.getValidLen leaf.node := keys_length leaf.node
      have counted := sound.counted
      unfold Store.endAt at same
      cases tail : t.store.tailleaf with
      | none => simp [tail] at same
      | some b =>
        simp only [tail] at same
        obtain ⟨last, live', eq⟩ := Option.map_eq_some_iff.mp same
        simp only [Iterator.mk.injEq, Option.some.injEq] at eq
        obtain ⟨rfl, slot⟩ := eq
        rw [live] at live'
        cases live'
        have past := behind leaf sound
        omega
    · rw [Store.keyOf, Option.bind_some, live]
      exact here
  · refine ⟨end_, ⟨bound, fun rounds le => ?_⟩, fun inside => absurd inside stored, fun _ => atEnd⟩
    have answer : t.search T mem rounds x = some found := search rounds le
    have miss := iff.not.mp stored
    dsimp only
    rw [BTree.find, answer, Option.bind_some]
    cases found with
    | none => exact atEnd
    | some found =>
      obtain ⟨a, r⟩ := found
      exact (if_neg fun hit => miss ⟨a, r, rfl, hit⟩).trans atEnd

theorem Intact.foundKey (lawful : T.Lawful mem slots.leaf Valid removable)
    (discipline : Discipline tight Q)
    (behind : EndsBehind (LeafSound T.toNodeType slots Valid) endSlot)
    (intact : Intact T.toNodeType slots mem Valid Q m.tree) (x : K) :
    Returns (fun rounds => m.foundKey T mem endSlot rounds x)
      (if x ∈ m.tree.content T.toNodeType mem then some x else none) := by
  obtain ⟨it, returns, inside, outside⟩ := intact.find lawful discipline behind x
  have answer : (if m.tree.store.endAt endSlot = some it then none
    else m.tree.store.keyOf (T.keys mem) it) =
      if x ∈ m.tree.content T.toNodeType mem then some x else none := by
    by_cases stored : x ∈ m.tree.content T.toNodeType mem
    · rw [if_neg (inside stored).1, if_pos stored, (inside stored).2]
    · rw [if_pos (outside stored), if_neg stored]
  exact answer ▸ returns.map fun it => if m.tree.store.endAt endSlot = some it then none
    else m.tree.store.keyOf (T.keys mem) it

-- One command of the map is one step of the set.
theorem sortedMap_simulates (asserts : Bool) (lawful : T.Lawful mem slots.leaf Valid removable)
    (discipline : Discipline tight Q) (only : tight → asserts = true) (several : 2 ≤ slots.leaf)
    (severalInner : 2 ≤ slots.inner)
    (behind : EndsBehind (LeafSound T.toNodeType slots Valid) endSlot) :
    Simulates (CountedTree.step T slots mem asserts endSlot) (setStep mem)
      (Allowed T.toNodeType mem removable asserts) (Abstracts T.toNodeType slots mem Valid Q) := by
  rintro m S c abstracts ⟨new, erasable⟩
  have intact := abstracts.intact
  cases c with
  | insert key =>
    obtain ⟨m', it, returns, next⟩ :=
      abstracts.insert lawful.toLawful discipline several (by omega) new
    refine ⟨m', ?_, next⟩
    have yes : decide (mem key ∉ S) = true := decide_eq_true new
    simp only [setStep, yes]
    exact returns.map fun r : CountedTree K N × Iterator × Bool => (r.1, Answer.done r.2.2)
  | eraseOne key =>
    obtain ⟨m', returns, next⟩ :=
      abstracts.eraseOne asserts lawful discipline several severalInner erasable.1
      fun on => erasable.2 (on.elim id only)
    exact ⟨m', returns.map fun r : CountedTree K N × Bool => (r.1, Answer.done r.2), next⟩
  | exists_ key =>
    have returns := intact.exists_ lawful discipline key
    rw [show decide (key ∈ m.tree.content T.toNodeType mem) =
      decide (key ∈ S) from decide_eq_decide.mpr abstracts.mem_iff] at returns
    exact ⟨m, returns.map fun hit => (m, Answer.done hit), abstracts⟩
  | find key =>
    have returns := intact.foundKey lawful discipline behind key
    simp only [abstracts.mem_iff] at returns
    exact ⟨m, returns.map fun key => (m, Answer.at_ key), abstracts⟩
  | size =>
    refine ⟨m, ?_, abstracts⟩
    simp only [setStep, ← abstracts.itemcount]
    exact Returns.pure _

end ElasticIndex.Tree
