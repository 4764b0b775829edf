import ElasticIndex.Tree.HybridInsert

set_option autoImplicit false

namespace ElasticIndex.Tree.Hybrid

open Separators SeqTree SequenceEdit

variable {c : Config} {mem : Addr → c.Key} {known : List Addr} {blank : SeqTreeBlindiNode}
  {status : HybridStatus} {h : Heap c} {inner : InnerNode c.Key Ptr}
  {rows before after : Row c.Key (InnerNode c.Key Ptr)} {sep : WithBot c.Key}
  {leaf : Leaf (HybridNode c.Key)} {key : Addr} {a : Ptr}

/-- What the leaf part of an insertion does below the inner node inner, which becomes inner'. -/
structure LeafStep (mem : Addr → c.Key) (known : List Addr) (status : HybridStatus)
    (s : Store (HybridNode c.Key)) (before : Row c.Key (InnerNode c.Key Ptr)) (sep : WithBot c.Key)
    (inner : InnerNode c.Key Ptr) (after : Row c.Key (InnerNode c.Key Ptr)) (slot : Nat)
    (leaf : Leaf (HybridNode c.Key)) (key : Addr)
    (out : LeafOutcome (Heap c) c.Key Ptr (Iterator × Bool)) (inner' : InnerNode c.Key Ptr)
    (front : Row c.Key Ptr) (low : WithBot c.Key) (a' : Ptr) (back : Row c.Key Ptr) : Prop where
  parent : out.parent = some inner'
  row : row sep inner' = front ++ (low, a') :: back
  length : front.length = slot
  good : HybridGood mem known 2 out.state.store
    (children before ++ (front ++ splitRow low a' out.split ++ back) ++ children after)
  tail : TailSafe s (children (before ++ (sep, inner) :: after)) →
    TailSafe out.state.store
    (children before ++ (front ++ splitRow low a' out.split ++ back) ++ children after)
  keys : ∀ x, x ∈ allKeys (out.state.store.pages (HybridNode.keys mem)
      (children before ++ (front ++ splitRow low a' out.split ++ back) ++ children after)) ↔
    x = mem key ∨ x ∈ allKeys
    (s.pages (HybridNode.keys mem) (children (before ++ (sep, inner) :: after)))
  success : out.result.2 = true
  iterator : out.state.store.keyOf (HybridNode.keys mem) out.result.1 = some (mem key) ↔
    PlainPath status leaf ∨ ∀ k ∈ leaf.node.takingPart mem (mem key), mem key < k

-- The key that is missing from the tree is missing from the leaf.
theorem missing_leaf {row : Row c.Key Ptr} {s : Store (HybridNode c.Key)} (inside : a ∈ cells row)
    (live : s.leaf a = some leaf) {x : c.Key}
    (missing : x ∉ allKeys (s.pages (HybridNode.keys mem) row)) :
    x ∉ leaf.node.keys mem := by
  intro here
  obtain ⟨e, at_, rfl⟩ := List.mem_map.mp inside
  refine missing (mem_allKeys.mpr ⟨_, List.mem_map_of_mem at_, ?_⟩)
  dsimp only
  rwa [keysAt_of_leaf live]

variable {s s' : Store (HybridNode c.Key)} {inner₁ : InnerNode c.Key Ptr}
  {leaf' : Leaf (HybridNode c.Key)} {front back : Row c.Key Ptr} {low : WithBot c.Key} {slot : Nat}
  {a' : Ptr} {out : LeafOutcome (Heap c) c.Key Ptr (Iterator × Bool)}

theorem leafStep_of_done
    (compressed : Compressed mem known status s (children before) sep inner (children after) slot
      leaf s' inner₁ leaf')
    (row : row sep inner₁ = front ++ (low, inner₁.childid slot) :: back)
    (length : front.length = slot)
    (done : Done mem known 2 s' (children before ++ front) low (inner₁.childid slot) leaf'
      (back ++ children after) key
      out.state.store a' out.split)
    (parent : out.parent = some (inner₁.setChild slot a')) (success : out.result.2 = true)
    (iterator : out.state.store.keyOf (HybridNode.keys mem) out.result.1 = some (mem key) ↔
      leaf'.node.Plain ∨ ∀ k ∈ leaf'.node.takingPart mem (mem key), mem key < k) :
    LeafStep mem known status s before sep inner after slot leaf key out
      (inner₁.setChild slot a') front low a' back := by
  have row' := row_setChild row a'
  rw [length] at row'
  have assoc : children before ++ front ++ splitRow low a' out.split ++ (back ++ children after) =
      children before ++ (front ++ splitRow low a' out.split ++ back) ++ children after := by simp
  have eq : children before ++ Tree.row sep inner₁ ++ children after =
      children before ++ front ++ (low, inner₁.childid slot) ::
      (back ++ children after) := by rw [row]; simp
  have good' := done.good
  have tail' := done.tail
  have keys' := done.keys
  rw [assoc] at good' tail' keys'
  rw [← eq] at tail' keys'
  refine ⟨parent, row', length, good', fun tail => ?_, fun x => ?_, success, ?_⟩
  · rw [children_middle] at tail
    exact tail' (compressed.tail tail)
  · rw [keys', compressed.pages, children_middle]
  · rw [iterator, compressed.plain, compressed.part]

theorem leafPart_spec (blank : SeqTreeBlindiNode) (fits : c.Fits)
    (good : HybridGood mem known 2 h.store (children rows))
    (routes : Routes rows (mem key) before sep inner after)
    (slot_eq : slot = findLower inner.slotkey (mem key))
    (live : h.store.leaf (inner.childid slot) = some leaf) (inserted : key ∈ known)
    (missing : mem key ∉ allKeys (h.store.pages (HybridNode.keys mem) (children rows)))
    (status : HybridStatus) :
    ∃ out inner' front low a' back, leafPart mem blank status key h (some (inner, slot))
      (inner.childid slot) = some out ∧
      LeafStep mem known status h.store before sep inner after slot leaf key out inner'
        front low a' back := by
  obtain rfl := routes.eq
  have inside : slot ≤ inner.slotuse := by
    simpa [InnerNode.slotkey, InnerNode.slotuse, slot_eq] using findLower_le inner.slotkey (mem key)
  rw [children_middle] at good missing
  obtain ⟨h', inner₁, leaf', compress, compressed⟩ :=
    compress_spec blank fits good inside live status
  have routes₁ : Routes (before ++ (sep, inner₁) :: after) (mem key) before sep inner₁ after :=
    ⟨rfl, routes.below, routes.above⟩
  have good₁ := compressed.good
  rw [← children_middle] at good₁
  obtain ⟨front, low, back, row, length, reached⟩ := Routes.child routes₁ good₁.ascending
  rw [compressed.slotkey, ← slot_eq] at row length reached
  rw [reached.eq] at good₁
  have missing' : mem key ∉ leaf'.node.keys mem := by
    rw [← compressed.pages, ← children_middle, reached.eq] at missing
    exact missing_leaf (by simp) compressed.live missing
  rw [reached.eq] at reached
  cases node : leaf'.node with
  | btree slots =>
    obtain ⟨out, run, parent, done, success, iterator, _⟩ :=
      insertBtree_spec blank fits le_rfl good₁ reached
      compressed.live node inserted missing' (some (inner₁, slot))
    have unfolded : leafPart mem blank status key h (some (inner, slot)) (inner.childid slot) =
        insertBtree mem blank key h' (some (inner₁, slot)) (inner₁.childid slot) leaf' slots := by
      simp only [leafPart, compress, compressed.live, node, Option.bind_some]
    rw [unfolded]
    refine ⟨out, _, front, low, _, back, run,
      leafStep_of_done compressed row length done (parent.trans ?_) success ?_⟩
    · rw [setChild_childid]
      rfl
    · rw [node]
      exact ⟨fun _ => .inl trivial, fun _ => iterator⟩
  | blindi type n =>
    obtain ⟨a', out, run, parent, done, success, iterator⟩ :=
      insertBlindi_spec blank fits good₁ reached
      compressed.live node inserted missing' (show inner₁.childid slot =
        inner₁.childid slot from rfl)
    have unfolded : leafPart mem blank status key h (some (inner, slot)) (inner.childid slot) =
        insertBlindi mem blank key h' (some (inner₁, slot)) (inner₁.childid slot) leaf' type n := by
      simp only [leafPart, compress, compressed.live, node, Option.bind_some]
    rw [unfolded]
    refine ⟨out, _, front, low, a', back, run,
      leafStep_of_done compressed row length done parent success ?_⟩
    rw [iterator, node]
    exact ⟨.inr, fun either => either.resolve_left id⟩

def HybridTree.leaves (t : HybridTree c) : Row c.Key Ptr :=
  match t.root with
  | none => []
  | some root => Tree.leaves root.1 ⊥ root.2

/-- The trees that insertions of new keys build, with the keys inserted. -/
inductive Reached (mem : Addr → c.Key) (blank : SeqTreeBlindiNode) : HybridTree c →
    List c.Key → Prop where
  | empty : Reached mem blank (.empty c) []
  | insert {t t' : HybridTree c} {stored : List c.Key} {key : Addr} {r : Iterator × Bool} :
    Reached mem blank t stored →
    mem key ∉ stored → t.insert mem blank key = some (t', r) →
    Reached mem blank t' (mem key :: stored)

-- A conversion of the leaf at the root leaves the root behind.
def Dangling (t : HybridTree c) : Prop := ∃ a, t.root = some ⟨0, a⟩ ∧ t.store.leaf a = none

/-- A tree over the stored keys at known addresses; one without a root is new, one with a single
leaf has a plain one. -/
structure Keeps (mem : Addr → c.Key) (known : List Addr) (t : HybridTree c)
    (stored : List c.Key) : Prop where
  empty : t.root = none → t = .empty c ∧ stored = []
  good : t.root ≠ none → HybridGood mem known (min 2 stored.length) t.store t.leaves
  tail : TailSafe t.store t.leaves
  keys : ∀ k, k ∈ stored ↔ k ∈ allKeys (t.store.pages (HybridNode.keys mem) t.leaves)
  should : t.stats.hybridstatus = .shouldCompress → 1 ≤ stored.length
  must : t.stats.hybridstatus = .mustCompress → 2 ≤ stored.length
  items : t.stats.itemcount = stored.length
  single : stored.length < 2 → ∀ root, t.root = some root → root.1 = 0
  plain : ∀ a, t.root = some ⟨0, a⟩ → ¬ Blind t.store a

-- The iterator an insertion returns stands at slot 0 unless the leaf is plain and stays so.
def IteratorRight (mem : Addr → c.Key) (t : HybridTree c) (key : Addr) : Prop :=
  ∀ root leaf, t.root = some root → t.store.leaf (descend (mem key) root.1 root.2) = some leaf →
    PlainPath t.stats.hybridstatus leaf ∨ ∀ k ∈ leaf.node.takingPart mem (mem key), mem key < k

structure Inserts (mem : Addr → c.Key) (known : List Addr) (blank : SeqTreeBlindiNode)
    (t : HybridTree c) (stored : List c.Key) (key : Addr) (t' : HybridTree c)
    (it : Iterator) : Prop where
  run : t.insert mem blank key = some (t', it, true)
  keeps : Keeps mem known t' (mem key :: stored) ∨ Dangling t'
  iterator : t'.store.keyOf (HybridNode.keys mem) it = some (mem key) ↔ IteratorRight mem t key

variable {t : HybridTree c} {stored : List c.Key} {stats : Stats}

theorem next_itemcount : (stats.next c).itemcount = stats.itemcount := by
  unfold Stats.next
  split <;> split_ifs <;> rfl

theorem next_breathingSum : (stats.next c).breathingSum = stats.breathingSum := by
  unfold Stats.next
  split <;> split_ifs <;> rfl

theorem next_must (must : (stats.next c).hybridstatus = .mustCompress) :
    stats.hybridstatus = .shouldCompress ∨ stats.hybridstatus = .mustCompress := by
  unfold Stats.next at must
  split at must <;> rename_i status
  · split_ifs at must
    rw [status] at must
    cases must
  · split_ifs at must
    rw [status] at must
    cases must
  · exact .inl status
  · exact .inr status

-- What insert_start makes of the result of the descent.
theorem insert_result {root : (level : Nat) × Node c.Key Ptr level}
    (eq : t.root = some root) {h : Heap c} {node : Node c.Key Ptr root.1}
    {newchild : Option (c.Key × Node c.Key Ptr root.1)} {it : Iterator}
    (run : insertDescend c.innerslotmax
      (leafPart mem blank t.stats.hybridstatus key) (mem key) root.1
      { store := t.store, btreeleaves := t.stats.btreeleaves,
        breathingSum := t.stats.breathingSum } root.2 =
        some (h, node, newchild, (it, true))) :
    ∃ t', t.insert mem blank key = some (t', it, true) ∧ t'.root = some (growRoot node newchild) ∧
    t'.store = h.store ∧
      t'.stats.itemcount = t.stats.itemcount + 1 ∧
      (t'.stats.hybridstatus = .mustCompress → t.stats.hybridstatus = .shouldCompress ∨
        t.stats.hybridstatus = .mustCompress) := by
  refine ⟨{ root := some (growRoot node newchild), store := h.store,
            stats := Stats.next c { t.stats with
      btreeleaves := h.btreeleaves
      breathingSum := h.breathingSum
      itemcount := t.stats.itemcount + 1
      limit2MustCompress :=
        if newchild.isSome then lower t.stats.limit2MustCompress c.sizeofInner
          else t.stats.limit2MustCompress } },
    ?_, rfl, rfl, next_itemcount, fun must => by have before := next_must must; exact before⟩
  unfold HybridTree.insert
  rw [eq]
  dsimp only
  rw [run]
  rfl

theorem insert_deep (blank : SeqTreeBlindiNode) (fits : c.Fits) (keeps : Keeps mem known t stored)
    {level : Nat} {node : Node c.Key Ptr (level + 1)} (eq : t.root = some ⟨level + 1, node⟩)
    (inserted : key ∈ known) (missing : mem key ∉ stored) :
    ∃ t' it, Inserts mem known blank t stored key t' it := by
  have several : 2 ≤ stored.length := by
    by_contra few
    have := keeps.single (by omega) _ eq
    simp at this
  have good := keeps.good (by rw [eq]; simp)
  rw [min_eq_left several] at good
  have leaves : t.leaves = children (Tree.parents level ⊥ node) := by
    rw [HybridTree.leaves, eq]
    exact leaves_eq level ⊥ node
  have ascending := good.ascending
  have ascending' : Ascending (Tree.leaves (level + 1) ⊥ node) := by
    rw [HybridTree.leaves, eq] at ascending
    exact ascending
  obtain ⟨before, sep, after, routes, spec⟩ :=
    insertDescend_spec (S := Heap c) (R := Iterator × Bool) fits.inner
    level node (WithBot.bot_lt_coe (mem key)) ascending'
  have descends := descend_descendParent (mem key) level node
  have keys := keeps.keys
  have tail := keeps.tail
  rw [leaves] at good keys tail
  obtain ⟨_, _, _, _, _, reached⟩ := Routes.child routes good.ascending
  have member := congrArg cells reached.eq
  obtain ⟨leaf, live, _⟩ := good.live ((descendParent (mem key) level node).childid
    (findLower (descendParent (mem key) level node).slotkey (mem key))) (by rw [member]; simp)
  obtain ⟨out, inner', front, low, a', back, run, step⟩ := leafPart_spec blank
    (h := { store := t.store, btreeleaves := t.stats.btreeleaves,
            breathingSum := t.stats.breathingSum }) fits good routes rfl live inserted
    (fun inside => missing ((keys _).mpr inside)) t.stats.hybridstatus
  obtain ⟨l, r, add, rows, -⟩ := addNewchild_row fits.inner step.row out.split
  rw [step.length] at add
  obtain ⟨node', newchild, rows', result⟩ := spec out l r (by rw [step.parent]; exact add)
  have run := result _ _ run
  have pair : out.result = (out.result.1, true) := by rw [← step.success]
  rw [pair] at run
  obtain ⟨t', insert, root, store, items, must⟩ := insert_result eq run
  have leaves' : t'.leaves = children before ++ (front ++ splitRow low a' out.split ++ back) ++
      children after := by
    have spread : (fun e : WithBot c.Key × Node c.Key Ptr (level + 1) =>
      Tree.leaves (level + 1) e.1 e.2) =
        fun e => (Tree.parents level e.1 e.2).flatMap fun e => row e.1 e.2 :=
        funext fun e => leaves_eq level e.1 e.2
    rw [HybridTree.leaves, root]
    dsimp only
    rw [leaves_growRoot, spread, ← List.flatMap_assoc, rows', List.flatMap_append,
      List.flatMap_append, rows]
    rfl
  refine ⟨t', out.result.1, insert,
    .inl ⟨fun none => ?_, fun _ => ?_, ?_, fun k => ?_, fun _ => ?_, fun _ => ?_, ?_, fun few => ?_,
    fun a single => ?_⟩, ?_⟩
  · rw [root] at none
    cases none
  · rw [leaves', store, List.length_cons, min_eq_left (by omega)]
    exact step.good
  · rw [leaves', store]
    exact step.tail (by rwa [← routes.eq])
  · rw [leaves', store, step.keys, ← routes.eq, ← keys, List.mem_cons]
  · simp
  · simp only [List.length_cons]
    omega
  · rw [items, keeps.items, List.length_cons]
  · simp only [List.length_cons] at few
    omega
  · rw [root] at single
    cases newchild <;> simp [growRoot] at single
  · rw [store, step.iterator]
    constructor
    · intro right root' leaf' same live'
      rw [eq] at same
      cases same
      dsimp only at live'
      rw [descends, live] at live'
      cases live'
      exact right
    · intro right
      exact right _ leaf eq (by dsimp only; rw [descends]; exact live)

end ElasticIndex.Tree.Hybrid
