import ElasticIndex.Tree.HybridBounds
import ElasticIndex.Tree.HybridSweep
import ElasticIndex.Tree.SortedMap

set_option autoImplicit false

namespace ElasticIndex.Tree.Hybrid

open Separators SeqTree Loop Refinement

variable {c : Config} {mem : Addr → c.Key} {known : List Addr} {blank : SeqTreeBlindiNode}
  {t t' : HybridTree c} {stored : List c.Key} {key : Addr} {x : c.Key} {r : Iterator × Bool}
  {S : Finset c.Key}

-- A hit does not depend on the kind of search.
theorem point_hybrid (fits : c.Fits) {type : BlindiLeafType} {node : SeqTreeBlindiNode}
    (sound : Stocked (c := c.params type) mem node) (x : c.Key) :
    let r := searchBlindiNode (c := c.params type) mem node x .point .zero
    (r.hit = true ↔ x ∈ HybridNode.keys mem (.blindi type node)) ∧
      (r.hit = true → (HybridNode.keys mem (.blindi type node))[r.position]? = some x) := by
  intro r
  have low := fits.low type
  have hit : r.hit = true ↔ x ∈ HybridNode.keys mem (.blindi type node) := by
    rw [← (search_hybrid fits sound x).hit]
    exact ((searchBlindiNode_hit_eq (c := c.params type) mem node x .point .zero).trans
      (searchBlindiNode_hit_eq (c := c.params type) mem node x .predecessor .zero).symm).congr_left
  refine ⟨hit, fun yes => ?_⟩
  have inside := hit.mp yes
  rw [keys_entries] at inside ⊢
  obtain ⟨i, lt, same⟩ := SequenceEdit.mem_entries.mp inside
  have position : r.position = i := by
    by_cases flat : c.treeLevels = 0
    · exact (searchBlindiNode_flat_hit (c := c.params type) flat low.representable
        sound .point lt same).2
    · have some_ : 1 ≤ (c.params type).treeLevels := Nat.one_le_iff_ne_zero.mpr flat
      exact (searchBlindiNode_hit (c := c.params type) low.representable sound.wellFormed some_
        .point .zero lt same).2
  have at_ : (SequenceEdit.entries node.validLen (node.keys (c := c.params type) mem))[i]? =
      some (node.keys (c := c.params type) mem i) := by
    simp [SequenceEdit.entries, lt]
  rw [position]
  exact at_.trans (congrArg some same)

-- The leaf of the key tells whether it is there.
theorem Reaches.find {root : (level : Nat) × Node c.Key Ptr level} {before after : Row c.Key Ptr}
    {sep : WithBot c.Key} {leaf : Leaf (HybridNode c.Key)} (fits : c.Fits) (eq : t.root = some root)
    (reaches : Reaches mem known t stored x root before sep leaf after) :
    (x ∈ leaf.node.keys mem → ∃ i, t.find mem x = some ⟨some (descend x root.1 root.2), i⟩ ∧
      (leaf.node.keys mem)[i]? = some x) ∧
      (x ∉ leaf.node.keys mem → t.find mem x = t.store.end_) := by
  have increasing := reaches.good.increasing (by rw [reaches.routes.eq]; simp) reaches.live
  have valid := reaches.valid
  have length := counted_hybrid.length valid
  cases node : leaf.node with
  | btree slots =>
    have run : t.find mem x =
        if findLower (slots.map Prod.fst) x < leaf.slotuse ∧
        slots[findLower (slots.map Prod.fst) x]?.map Prod.fst = some x then
          some ⟨some (descend x root.1 root.2), findLower (slots.map Prod.fst) x⟩
              else t.store.end_ := by
      rw [HybridTree.find, eq]
      dsimp only
      rw [reaches.live, Option.bind_some, node]
    rw [node] at increasing length
    dsimp only [HybridNode.keys] at increasing length ⊢
    constructor
    · intro inside
      have here := findLower_of_mem increasing inside
      have lt := (List.getElem?_eq_some_iff.mp here).1
      refine ⟨findLower (slots.map Prod.fst) x, ?_, here⟩
      rw [run, if_pos ⟨by omega, by rw [← List.getElem?_map]; exact here⟩]
    · intro absent
      have miss : ¬ slots[findLower (slots.map Prod.fst) x]?.map Prod.fst = some x := by
        rw [← List.getElem?_map]
        exact fun here => absent (List.mem_of_getElem? here)
      rw [run, if_neg fun both => miss both.2]
  | blindi type n =>
    have run : t.find mem x = if (searchBlindiNode (c := c.params type) mem n x .point .zero).hit
      then
        some ⟨some (descend x root.1 root.2),
            (searchBlindiNode (c := c.params type) mem n x .point .zero).position⟩
            else t.store.end_ := by
      rw [HybridTree.find, eq]
      dsimp only
      rw [reaches.live, Option.bind_some, node]
    rw [node] at valid
    obtain ⟨hit, position⟩ := point_hybrid fits valid.2.1 x
    rw [run, ← hit]
    constructor
    · intro yes
      exact ⟨_, if_pos yes, position yes⟩
    · intro miss
      exact if_neg miss

-- The keys of the leaves from left to right.
def HybridTree.content (mem : Addr → c.Key) (t : HybridTree c) : List c.Key :=
  allKeys (t.store.pages (HybridNode.keys mem) t.leaves)

/-- A tree that holds a set: its keys from left to right, their number, and what find says of any
key. -/
structure Holds (mem : Addr → c.Key) (t : HybridTree c) (S : Finset c.Key) : Prop where
  content : t.content mem = S.sort
  itemcount : t.stats.itemcount = S.card
  hit : ∀ x ∈ S, ∃ it, t.find mem x = some it ∧ t.store.keyOf (HybridNode.keys mem) it = some x ∧
    t.store.end_ ≠ some it
  miss : ∀ x, x ∉ S → t.find mem x = t.store.end_

theorem HybridSound.data {node : HybridNode c.Key} {least slotuse : Nat}
    (sound : HybridSound mem known least slotuse node) :
    node.keys mem = node.data.map mem ∧ ∀ a ∈ node.data, a ∈ known := by
  cases node with
  | btree slots =>
    obtain ⟨-, -, -, -, stored⟩ := sound
    refine ⟨?_, fun a inside => ?_⟩
    · rw [HybridNode.keys, HybridNode.data, List.map_map]
      exact List.map_congr_left fun e inside => (stored e inside).1.symm
    · obtain ⟨e, at_, rfl⟩ := List.mem_map.mp inside
      exact (stored e at_).2
  | blindi type n => exact ⟨rfl, sound.2.2⟩

theorem Keeps.hit (fits : c.Fits) (keeps : Keeps mem known t stored) (inside : x ∈ stored) :
    ∃ it a, t.find mem x = some it ∧ t.store.keyOf (HybridNode.keys mem) it = some x ∧
    t.store.end_ ≠ some it ∧
      t.data it = some a ∧ a ∈ known ∧ mem a = x := by
  cases eq : t.root with
  | none =>
    obtain ⟨-, rfl⟩ := keeps.empty eq
    exact absurd inside List.not_mem_nil
  | some root =>
    obtain ⟨before, sep, leaf, after, reaches⟩ := keeps.reaches x eq
    obtain ⟨i, find, here⟩ :=
      (reaches.find fits eq).1
      ((reaches.good.stored_iff keeps.keys reaches.routes reaches.live).mp inside)
    have stands : Stands (HybridNode.keys mem) t.store t.leaves
        ⟨some (descend x root.1 root.2), i⟩ _ _ :=
      .inside reaches.routes.eq reaches.live (List.getElem?_eq_some_iff.mp here).1
    obtain ⟨keys, known_⟩ := HybridSound.data reaches.valid
    rw [keys, List.getElem?_map] at here
    obtain ⟨a, at_, same⟩ := Option.map_eq_some_iff.mp here
    refine ⟨_, a, find, ?_, stands.not_end reaches.good counted_hybrid endsBehind_slotuse, ?_,
      known_ a (List.mem_of_getElem? at_), same⟩
    · rw [Store.keyOf, Option.bind_some, reaches.live, Option.bind_some, keys, List.getElem?_map,
        at_, Option.map_some, same]
    · rw [HybridTree.data, Option.bind_some, reaches.live]
      exact at_

theorem Keeps.miss (fits : c.Fits) (keeps : Keeps mem known t stored) (absent : x ∉ stored) :
    t.find mem x = t.store.end_ := by
  cases eq : t.root with
  | none => rw [HybridTree.find, eq]
  | some root =>
    obtain ⟨before, sep, leaf, after, reaches⟩ := keeps.reaches x eq
    exact (reaches.find fits eq).2
      ((reaches.good.stored_iff keeps.keys reaches.routes reaches.live).not.mp absent)

theorem Keeps.holds (fits : c.Fits) (keeps : Keeps mem known t stored) (distinct : stored.Nodup) :
    Holds mem t stored.toFinset := by
  have sorted : (t.content mem).Pairwise (· < ·) := by
    by_cases none : t.root = none
    · have leaves : t.leaves = [] := by rw [HybridTree.leaves, none]
      simp [HybridTree.content, leaves, allKeys, Store.pages]
    · have good := keeps.good none
      exact good.tight.sorted good.tight.ascending
  refine ⟨sort_of_mem sorted fun k => ?_, ?_, fun x inside => ?_, fun x absent => ?_⟩
  · rw [List.mem_toFinset, keeps.keys]
    rfl
  · rw [keeps.items, List.toFinset_card_of_nodup distinct]
  · obtain ⟨it, a, find, key, differs, -⟩ := keeps.hit fits (List.mem_toFinset.mp inside)
    exact ⟨it, find, key, differs⟩
  · exact keeps.miss fits fun inside => absent (List.mem_toFinset.mpr inside)

theorem Reached.distinct (reached : Reached mem blank t stored) : stored.Nodup := by
  induction reached with
  | empty => exact List.nodup_nil
  | insert _ missing _ ih => exact List.nodup_cons.mpr ⟨missing, ih⟩

theorem Dangling.find (dangling : Dangling t) (x : c.Key) : t.find mem x = none := by
  obtain ⟨a, root, gone⟩ := dangling
  rw [HybridTree.find, root]
  dsimp only [descend]
  rw [gone]
  rfl

-- The limit of SHOULD_COMPRESS has been passed whenever the status is not GO_ON.
def Warm (t : HybridTree c) : Prop := t.stats.hybridstatus ≠ .goOn →
    c.limit2ShouldCompress < t.stats.itemcount

theorem next_warm {stats : Stats}
    (warm : stats.hybridstatus ≠ .goOn → c.limit2ShouldCompress < stats.itemcount) :
    (stats.next c).hybridstatus ≠ .goOn → c.limit2ShouldCompress < (stats.next c).itemcount := by
  rw [next_itemcount]
  intro status
  by_cases before : stats.hybridstatus = .goOn
  · unfold Stats.next at status
    rw [before] at status
    dsimp only at status
    split_ifs at status with limit
    · exact limit.2
    · exact absurd before status
  · exact warm before

theorem Warm.insert (warm : Warm t) (run : t.insert mem blank key = some (t', r)) : Warm t' := by
  unfold HybridTree.insert at run
  cases eq : t.root with
  | none =>
    rw [eq] at run
    obtain ⟨⟨h, node, newchild, r'⟩, _, same⟩ := Option.map_eq_some_iff.mp run
    cases same
    exact next_warm fun status => Nat.lt_of_lt_of_le (warm status) (Nat.le_add_right _ _)
  | some root =>
    rw [eq] at run
    obtain ⟨⟨h, node, newchild, r'⟩, _, same⟩ := Option.map_eq_some_iff.mp run
    cases same
    exact next_warm fun status => Nat.lt_of_lt_of_le (warm status) (Nat.le_add_right _ _)

-- The status is still GO_ON while the root is a leaf.
def Grown (t : HybridTree c) : Prop := t.stats.hybridstatus ≠ .goOn →
    ∀ root, t.root = some root → root.1 ≠ 0

-- A leaf at the root is plain, and too small for the status to have changed.
theorem Keeps.grown (fits : c.Fits) (roomy : c.leafslotmax ≤ c.limit2ShouldCompress)
    (keeps : Keeps mem known t stored) (distinct : stored.Nodup) (warm : Warm t) : Grown t := by
  rintro status ⟨level, node⟩ eq rfl
  obtain ⟨leaf, live, plain, good, some_⟩ := keeps.root_leaf eq
  have row : t.leaves = [(⊥, node)] := by rw [HybridTree.leaves, eq]; rfl
  have limit := warm status
  obtain ⟨leaf', live', valid⟩ := good.live node (by simp [cells])
  cases live.symm.trans live'
  have length := counted_hybrid.length valid
  have holds := keeps.holds fits distinct
  have content : t.content mem = leaf.node.keys mem := by
    rw [HybridTree.content, row, pages_cons, keysAt_of_leaf live]
    simp [allKeys, Store.pages]
  have card := congrArg List.length (content.symm.trans holds.content)
  rw [Finset.length_sort] at card
  have items := holds.itemcount
  have room : leaf.slotuse ≤ c.leafslotmax := by
    cases eq' : leaf.node with
    | btree slots =>
      rw [eq'] at valid
      exact valid.2.2.2.1
    | blindi type n =>
      rw [eq'] at plain
      exact plain.elim
  omega

-- No insertion converts a leaf at the root.
theorem Keeps.stays (fits : c.Fits) (keeps : Keeps mem known t stored) (grown : Grown t)
    (inserted : key ∈ known) (missing : mem key ∉ stored)
    (run : t.insert mem blank key = some (t', r)) : Keeps mem known t' (mem key :: stored) := by
  cases eq : t.root with
  | none =>
    obtain ⟨rfl, rfl⟩ := keeps.empty eq
    obtain ⟨t'', it, inserts, kept⟩ := insert_first mem blank fits inserted
    cases run.symm.trans inserts.run
    exact kept
  | some root =>
    obtain ⟨level, node⟩ := root
    cases level with
    | zero =>
      obtain ⟨leaf, live, -⟩ := keeps.root_leaf eq
      have go : t.stats.hybridstatus = .goOn := by
        by_contra status
        exact grown status _ eq rfl
      have stays : ¬ Converts t.stats.hybridstatus leaf := by
        rw [go]
        rintro (must | ⟨should, _⟩)
        · cases must
        · cases should
      obtain ⟨t'', it, inserts, kept⟩ := insert_leaf blank fits keeps eq inserted missing live stays
      cases run.symm.trans inserts.run
      exact kept
    | succ level =>
      obtain ⟨t'', it, inserts⟩ := insert_deep blank fits keeps eq inserted missing
      cases run.symm.trans inserts.run
      refine inserts.keeps.resolve_right ?_
      rintro ⟨a, single, _⟩
      unfold HybridTree.insert at run
      rw [eq] at run
      obtain ⟨⟨h, node', newchild, r'⟩, _, same⟩ := Option.map_eq_some_iff.mp run
      cases same
      have level := congrArg (Option.map Sigma.fst) single
      cases newchild <;> simp [growRoot] at level

theorem Reached.warm (reached : Reached mem blank t stored) : Warm t := by
  induction reached with
  | empty => exact fun status => absurd rfl status
  | insert _ _ insert ih => exact ih.insert insert

inductive Command (K : Type) where
  | insert (key : Addr)
  | find (key : K)
  | size
  deriving DecidableEq

-- The command of the sorted set.
def Command.onSet : Command c.Key → Tree.Command c.Key
  | .insert key => .insert key
  | .find key => .find key
  | .size => .size

def HybridTree.step (mem : Addr → c.Key) (blank : SeqTreeBlindiNode) (t : HybridTree c) :
    Command c.Key → Option (HybridTree c × Answer c.Key)
  | .insert key => (t.insert mem blank key).map fun r => (r.1, .done r.2.2)
  | .find key => (t.find mem key).map fun it => (t, .at_ (t.store.keyOf (HybridNode.keys mem) it))
  | .size => some (t, .count t.stats.itemcount)

abbrev setStep (mem : Addr → c.Key) (S : Finset c.Key) (command : Command c.Key) :
    Finset c.Key × Answer c.Key :=
  Tree.setStep mem S command.onSet

-- Keys go in once, and find is asked for a key that is there.
def Present (mem : Addr → c.Key) (S : Finset c.Key) : Command c.Key → Prop
  | .insert key => mem key ∉ S
  | .find key => key ∈ S
  | .size => True

instance decidablePresent (mem : Addr → c.Key) (S : Finset c.Key) (command : Command c.Key) :
    Decidable (Present mem S command) :=
  match command with
  | .insert key => inferInstanceAs (Decidable (mem key ∉ S))
  | .find key => inferInstanceAs (Decidable (key ∈ S))
  | .size => .isTrue trivial

-- A tree whose root has stayed, with the set of its keys.
def Elastic (mem : Addr → c.Key) (t : HybridTree c) (S : Finset c.Key) : Prop :=
  ∃ known stored, Keeps mem known t stored ∧ stored.Nodup ∧ stored.toFinset = S ∧ Warm t

theorem Elastic.holds (fits : c.Fits) (elastic : Elastic mem t S) : Holds mem t S := by
  obtain ⟨known, stored, keeps, distinct, rfl, -⟩ := elastic
  exact keeps.holds fits distinct

theorem Elastic.insert (blank : SeqTreeBlindiNode) (fits : c.Fits)
    (roomy : c.leafslotmax ≤ c.limit2ShouldCompress) (elastic : Elastic mem t S)
    (missing : mem key ∉ S) : ∃ t' it, t.insert mem blank key = some (t', it, true) ∧
    Elastic mem t' (insert (mem key) S) := by
  obtain ⟨known, stored, keeps, distinct, rfl, warm⟩ := elastic
  rw [List.mem_toFinset] at missing
  have more : Keeps mem (key :: known) t stored :=
    keeps.mono fun a inside => List.mem_cons_of_mem _ inside
  obtain ⟨t', it, inserts⟩ := more.insert blank fits List.mem_cons_self missing
  have grown := keeps.grown fits roomy distinct warm
  refine ⟨t', it, inserts.run, key :: known, mem key :: stored,
    more.stays fits grown List.mem_cons_self missing inserts.run,
    List.nodup_cons.mpr ⟨missing, distinct⟩, List.toFinset_cons, warm.insert inserts.run⟩

theorem elastic_simulates (blank : SeqTreeBlindiNode) (fits : c.Fits)
    (roomy : c.leafslotmax ≤ c.limit2ShouldCompress) :
    Simulates (fun _ => HybridTree.step mem blank) (setStep mem) (fun _ => Present mem)
      (Elastic mem) := by
  intro t S command elastic present
  have holds := elastic.holds fits
  cases command with
  | insert key =>
    obtain ⟨t', it, run, next⟩ := elastic.insert blank fits roomy present
    have answer : (setStep mem S (.insert key)).2 = .done true :=
      congrArg Answer.done (decide_eq_true present)
    refine ⟨t', ⟨0, fun _ _ => ?_⟩, next⟩
    simp only [HybridTree.step, run, Option.map_some, answer]
  | find key =>
    obtain ⟨it, find, at_, -⟩ := holds.hit key present
    have answer : (setStep mem S (.find key)).2 = .at_ (some key) :=
      congrArg Answer.at_ (if_pos present)
    refine ⟨t, ⟨0, fun _ _ => ?_⟩, elastic⟩
    simp only [HybridTree.step, find, Option.map_some, at_, answer]
  | size =>
    have answer : (setStep mem S .size).2 = .count t.stats.itemcount :=
      congrArg Answer.count holds.itemcount.symm
    refine ⟨t, ⟨0, fun _ _ => ?_⟩, elastic⟩
    simp only [HybridTree.step, answer]

-- As long as the first limit leaves room for one leaf, the tree is a sorted set however it changes
-- its leaves.
theorem elastic_refines (blank : SeqTreeBlindiNode) (fits : c.Fits)
    (roomy : c.leafslotmax ≤ c.limit2ShouldCompress) (commands : List (Command c.Key))
    (admissible : Admissible (Present mem) (setStep mem) ∅ commands) :
    ∃ t, runAll (HybridTree.step mem blank) (.empty c) commands = some
      (t, (specAll (setStep mem) ∅ commands).2) ∧
      Holds mem t (specAll (setStep mem) ∅ commands).1 := by
  have first : Elastic mem (.empty c) ∅ :=
    ⟨[], [], keeps_new, List.nodup_nil, rfl, fun status => absurd rfl status⟩
  obtain ⟨t, ⟨bound, returns⟩, elastic⟩ := (elastic_simulates blank fits roomy).run first admissible
  exact ⟨t, returns bound le_rfl, elastic.holds fits⟩

-- The tree ends up with plain leaves, small blindi leaves and one that has been widened twice.
theorem elastic_refines_sample :
    ∃ t, runAll (HybridTree.step sampleMem SeqTree.sampleNode) (.empty sampleConfig)
      ((sampleKeys ++ [200, 1, 2, 3, 4, 5, 6, 7]).map Command.insert ++
        [.find (sampleMem 3), .size]) =
        some (t, List.replicate 29 (.done true) ++ [.at_ (some (sampleMem 3)), .count 29]) ∧
      Holds sampleMem t (specAll (setStep sampleMem) ∅
        ((sampleKeys ++ [200, 1, 2, 3, 4, 5, 6, 7]).map Command.insert ++
          [.find (sampleMem 3), .size])).1 :=
  elastic_refines SeqTree.sampleNode sampleConfig_fits (by decide) _ (by decide +kernel)

-- Whatever the limits are, a tree that insertions reach holds their keys, unless its only leaf has
-- been converted.
theorem elastic_holds (fits : c.Fits) (reached : Reached mem blank t stored) :
    (¬ Dangling t → Holds mem t stored.toFinset) ∧ (Dangling t → ∀ x, t.find mem x = none) := by
  refine ⟨fun stands => ?_, fun dangling => dangling.find⟩
  obtain ⟨known, -, either⟩ := reached.keeps fits
  exact (either.resolve_right stands).holds fits reached.distinct

section Index

variable {keys : List Addr}

-- The status leaves GO_ON only when the root is an inner node.
def LateLimits (mem : Addr → c.Key) (blank : SeqTreeBlindiNode) : Prop :=
  ∀ t stored, Reached mem blank t stored → Grown t

theorem lateLimits_of_roomy (fits : c.Fits) (roomy : c.leafslotmax ≤ c.limit2ShouldCompress) :
    LateLimits mem blank := by
  have run {t : HybridTree c} {stored : List c.Key} (reached : Reached mem blank t stored) :
      ∃ known, Keeps mem known t stored := by
    induction reached with
    | empty => exact ⟨[], keeps_new⟩
    | @insert t t' stored key r reached missing insert ih =>
      obtain ⟨known, keeps⟩ := ih
      have more : Keeps mem (key :: known) t stored :=
        keeps.mono fun a inside => List.mem_cons_of_mem _ inside
      exact ⟨_, more.stays fits (keeps.grown fits roomy reached.distinct reached.warm)
        List.mem_cons_self missing insert⟩
  intro t stored reached
  obtain ⟨known, keeps⟩ := run reached
  exact keeps.grown fits roomy reached.distinct reached.warm

theorem Keeps.insertAll (fits : c.Fits) (late : LateLimits mem blank)
    (reached : Reached mem blank t stored) (keeps : Keeps mem known t stored)
    (distinct : ((keys.map mem).reverse ++ stored).Nodup) :
    ∃ t', t.insertAll mem blank (fun _ _ => true) keys = some t' ∧
      Keeps mem (keys.reverse ++ known) t' ((keys.map mem).reverse ++ stored) := by
  induction keys generalizing t known stored with
  | nil => exact ⟨t, rfl, keeps⟩
  | cons key keys ih =>
    have shape : ((key :: keys).map mem).reverse ++ stored =
      (keys.map mem).reverse ++ mem key :: stored := by simp
    have shape' : (key :: keys).reverse ++ known = keys.reverse ++ key :: known := by simp
    rw [shape] at distinct ⊢
    rw [shape']
    have missing : mem key ∉ stored := (List.nodup_cons.mp (List.nodup_append.mp distinct).2.1).1
    have more : Keeps mem (key :: known) t stored :=
      keeps.mono fun a inside => List.mem_cons_of_mem _ inside
    obtain ⟨next, it, inserts⟩ := more.insert blank fits List.mem_cons_self missing
    have kept := more.stays fits (late t stored reached) List.mem_cons_self missing inserts.run
    obtain ⟨t', run, keeps'⟩ := ih (reached.insert missing inserts.run) kept distinct
    refine ⟨t', ?_, keeps'⟩
    rw [HybridTree.insertAll, if_pos rfl, inserts.run, Option.bind_some]
    exact run

-- m_tailleaf is a leaf that has not been freed, so that end() can read its slotuse.
def TailLive (t : HybridTree c) : Prop := ∀ a, t.store.tailleaf = some a → t.store.leaf a ≠ none

theorem tailLive_iff : TailLive t ↔ t.store.end_ ≠ none := by
  unfold TailLive Store.end_ Store.endAt
  cases t.store.tailleaf with
  | none => simp
  | some a => simp

-- find differs from end() for the inserted keys only, and then stands at the key and its data.
def Finds (mem : Addr → c.Key) (t : HybridTree c) (keys : List Addr) (x : c.Key) : Prop :=
  ∃ it e, t.find mem x = some it ∧ t.store.end_ = some e ∧ (it ≠ e ↔ x ∈ keys.map mem) ∧
    ∀ a ∈ keys, mem a = x → t.store.keyOf (HybridNode.keys mem) it = some x ∧ t.data it = some a

-- Insertions of distinct keys never fail, and each key is found with its data whatever the leaves
-- have become; end() alone can be lost.
theorem elastic_index (fits : c.Fits) (late : LateLimits mem blank)
    (distinct : (keys.map mem).Nodup) :
    ∃ t, (HybridTree.empty c).insertAll mem blank (fun _ _ => true) keys = some t ∧
      (∀ a ∈ keys, ∃ it, t.find mem (mem a) = some it ∧ t.store.keyOf (HybridNode.keys mem) it =
        some (mem a) ∧ t.data it = some a) ∧
      ∀ x, Finds mem t keys x ↔ TailLive t := by
  have start : Keeps mem [] (HybridTree.empty c) [] := keeps_new
  obtain ⟨t, run, keeps⟩ := start.insertAll fits late .empty (by simpa using distinct)
  rw [List.append_nil, List.append_nil] at keeps
  have stored_of {a : Addr} (inside : a ∈ keys) : mem a ∈ (keys.map mem).reverse :=
    List.mem_reverse.mpr (List.mem_map.mpr ⟨a, inside, rfl⟩)
  have hit {a : Addr} (inside : a ∈ keys) : ∃ it, t.find mem (mem a) = some it ∧
      t.store.keyOf (HybridNode.keys mem) it = some (mem a) ∧ t.store.end_ ≠ some it ∧
      t.data it = some a := by
    obtain ⟨it, b, find, key, differs, data, known, same⟩ := keeps.hit fits (stored_of inside)
    obtain rfl : b = a := List.inj_on_of_nodup_map distinct (List.mem_reverse.mp known) inside same
    exact ⟨it, find, key, differs, data⟩
  refine ⟨t, run, fun a inside => ?_, fun x => ⟨?_, fun live => ?_⟩⟩
  · obtain ⟨it, find, key, -, data⟩ := hit inside
    exact ⟨it, find, key, data⟩
  · rintro ⟨it, e, -, end_, -⟩
    rw [tailLive_iff, end_]
    exact Option.some_ne_none e
  · obtain ⟨e, end_⟩ := Option.ne_none_iff_exists'.mp (tailLive_iff.mp live)
    by_cases inside : x ∈ keys.map mem
    · obtain ⟨a, at_, rfl⟩ := List.mem_map.mp inside
      obtain ⟨it, find, key, differs, data⟩ := hit at_
      refine ⟨it, e, find, end_, ⟨fun _ => inside, fun _ same => differs (same ▸ end_)⟩,
        fun b at_' same => ?_⟩
      rw [List.inj_on_of_nodup_map distinct at_' at_ same]
      exact ⟨key, data⟩
    · refine ⟨e, e, (keeps.miss fits (by simpa using inside)).trans end_, end_, ?_,
        fun b at_ same => ?_⟩
      · exact ⟨fun differs => absurd rfl differs, fun at_ => absurd at_ inside⟩
      · exact absurd (List.mem_map.mpr ⟨b, at_, same⟩) inside

-- Leaves of six keys, inner nodes of eight; the first limit is passed by the seventh key.
def indexConfig : Config :=
  { treeLevels := 1, keyLen := 1, leafslotmax := 6, innerslotmax := 8
    even := SeqTree.sampleParams.even
    limit2MustCompress := 30, limit2ShouldCompress := 6, sizeofNode := 4, sizeofInner := 4 }

theorem indexConfig_fits :
    indexConfig.Fits := ⟨by decide, by decide, by decide, by decide, .inl (by decide), by decide⟩

def indexMem : Addr → indexConfig.Key := SeqTree.sampleKey

theorem indexConfig_late : LateLimits indexMem SeqTree.sampleNode :=
  lateLimits_of_roomy indexConfig_fits (by decide)

abbrev indexRun (keys : List Addr) : Option (HybridTree indexConfig) :=
  (HybridTree.empty indexConfig).insertAll indexMem SeqTree.sampleNode (fun _ _ => true) keys

def indexKeys : List Addr := [30, 80, 90, 120, 150, 180, 210] ++ (List.range 22).map (· + 31)

-- A plain leaf becomes a blindi2 leaf and is widened twice, and MUST_COMPRESS has been reached.
theorem elastic_index_sample : ∃ t, indexRun indexKeys = some t ∧
    t.stats.hybridstatus = .mustCompress ∧
    (cells t.leaves).map (fun a => decide (Blind t.store a)) = [true, false] ∧
    ∀ x, Finds indexMem t indexKeys x := by
  have state : ((indexRun indexKeys).map fun t => decide (t.stats.hybridstatus = .mustCompress ∧
      (cells t.leaves).map (fun a => decide (Blind t.store a)) = [true, false] ∧
      t.store.end_ ≠ none)) = some true := by
    decide +kernel
  have distinct : (indexKeys.map indexMem).Nodup := by decide
  obtain ⟨t, run, -, finds⟩ := elastic_index indexConfig_fits indexConfig_late distinct
  rw [indexRun, run, Option.map_some, Option.some.injEq, decide_eq_true_eq] at state
  obtain ⟨status, leaves, live⟩ := state
  exact ⟨t, run, status, leaves, fun x => (finds x).mpr (tailLive_iff.mpr live)⟩

-- The tenth insertion converts the last leaf, and find of a key that is not there reads the freed
-- m_tailleaf.
theorem find_reads_freed_leaf : LateLimits indexMem SeqTree.sampleNode ∧
    ∃ t, indexRun [1, 2, 3, 4, 5, 6, 7, 8, 9, 10] = some t ∧
    t.find indexMem (indexMem 11) = none ∧ ¬ Finds indexMem t [1, 2, 3, 4, 5, 6, 7, 8, 9, 10]
      (indexMem 11) := by
  have state : ((indexRun [1, 2, 3, 4, 5, 6, 7, 8, 9, 10]).map fun t =>
    t.find indexMem (indexMem 11)) = some none := by decide +kernel
  obtain ⟨t, run, lost⟩ := Option.map_eq_some_iff.mp state
  refine ⟨indexConfig_late, t, run, lost, ?_⟩
  rintro ⟨it, -, find, -⟩
  rw [lost] at find
  cases find

end Index

end ElasticIndex.Tree.Hybrid
