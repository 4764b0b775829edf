import ElasticIndex.Tree.HybridRun

set_option autoImplicit false

namespace ElasticIndex.Tree.Hybrid

open Separators SeqTree SequenceEdit

variable {c : Config} {mem : Addr → c.Key} {known : List Addr} {blank : SeqTreeBlindiNode}
  {t : HybridTree c} {stored : List c.Key} {key : Addr} {a : Ptr} {leaf : Leaf (HybridNode c.Key)}
  {s : Store (HybridNode c.Key)} {least most : Nat}

-- A tree of one leaf has as many keys in it as the leaf.
theorem raise (good : HybridGood mem known least s [(⊥, a)]) (live : s.leaf a = some leaf)
    (le : most ≤ leaf.slotuse) :
    HybridGood mem known most s [(⊥, a)] := by
  refine ⟨fun x inside => ?_, good.distinct, good.old, good.linked, good.tight⟩
  obtain ⟨leaf', live', valid⟩ := good.live x inside
  obtain rfl : x = a := by simpa [cells] using inside
  rw [live] at live'
  cases live'
  refine ⟨leaf, live, ?_⟩
  cases node : leaf.node with
  | btree slots =>
    rw [node] at valid
    exact ⟨valid.1, valid.2.1, le, valid.2.2.2⟩
  | blindi type n =>
    rw [node] at valid
    exact valid

-- The leaf at the root, which no inner node stands above.
theorem Keeps.root_leaf (keeps : Keeps mem known t stored) (eq : t.root = some ⟨0, a⟩) :
    ∃ leaf, t.store.leaf a = some leaf ∧
    leaf.node.Plain ∧ HybridGood mem known (min 2 leaf.slotuse) t.store [(⊥, a)] ∧
    1 ≤ leaf.slotuse := by
  have good := keeps.good (by rw [eq]; simp)
  have leaves : t.leaves = [(⊥, a)] := by rw [HybridTree.leaves, eq]; rfl
  rw [leaves] at good
  obtain ⟨leaf, live, valid⟩ := good.live a (by simp [cells])
  have plain : leaf.node.Plain := by
    by_contra blind
    exact keeps.plain a eq ((blind_iff live).mpr blind)
  refine ⟨leaf, live, plain, raise good live (min_le_right _ _), ?_⟩
  have some_ := counted_hybrid.nonempty valid
  have length := counted_hybrid.length valid
  have := List.length_pos_iff.mpr some_
  omega

theorem leafPart_plain (blank : SeqTreeBlindiNode) {h : Heap c} {slots : List (c.Key × Addr)}
    {status : HybridStatus} (live : h.store.leaf a = some leaf) (plain : leaf.node = .btree slots)
    (stays : ¬ Converts status leaf) (parent : Parent c) :
    leafPart mem blank status key h parent a = insertBtree mem blank key h parent a leaf slots := by
  have stays' : ¬ (status = .mustCompress ∨ status = .shouldCompress ∧
    leaf.slotuse = c.leafslotmax) := stays
  unfold leafPart compress
  rw [live, Option.bind_some, plain]
  dsimp only
  rw [if_neg stays', Option.bind_some]
  dsimp only
  rw [live, Option.bind_some, plain]

theorem insert_leaf (blank : SeqTreeBlindiNode) (fits : c.Fits) (keeps : Keeps mem known t stored)
    (eq : t.root = some ⟨0, a⟩) (inserted : key ∈ known) (missing : mem key ∉ stored)
    (live : t.store.leaf a = some leaf) (stays : ¬ Converts t.stats.hybridstatus leaf) :
    ∃ t' it, Inserts mem known blank t stored key t' it ∧ Keeps mem known t'
      (mem key :: stored) := by
  obtain ⟨leaf', live', plain, good, some_⟩ := keeps.root_leaf eq
  rw [live] at live'
  cases live'
  have leaves : t.leaves = [(⊥, a)] := by rw [HybridTree.leaves, eq]; rfl
  have keys := keeps.keys
  have tail := keeps.tail
  rw [leaves] at keys tail
  have fresh : mem key ∉ leaf.node.keys mem :=
    missing_leaf (show a ∈ cells [(⊥, a)] by simp [cells]) live fun inside =>
      missing ((keys _).mpr inside)
  obtain ⟨slots, node⟩ : ∃ slots, leaf.node = .btree slots := by
    cases node : leaf.node with
    | btree slots => exact ⟨slots, rfl⟩
    | blindi type n =>
      rw [node] at plain
      exact plain.elim
  let h : Heap c := { store := t.store, btreeleaves := t.stats.btreeleaves,
                      breathingSum := t.stats.breathingSum }
  have here : h.store.leaf a = some leaf := live
  have same : leafPart mem blank t.stats.hybridstatus key h none a = _ :=
    leafPart_plain blank here node stays none
  have single : HybridGood mem known (min 2 leaf.slotuse) h.store ([] ++ (⊥, a) :: []) := good
  have routes : Routes ([] ++ (⊥, a) :: []) (mem key) [] ⊥ a [] :=
    ⟨rfl, WithBot.bot_lt_coe _, by simp⟩
  obtain ⟨out, run, parent, done, success, iterator, short⟩ :=
    insertBtree_spec blank fits (min_le_left _ _) single routes live node
    inserted fresh none
  have pair : out.result = (out.result.1, true) := by rw [← success]
  have descends : insertDescend c.innerslotmax
    (leafPart mem blank t.stats.hybridstatus key) (mem key) 0 h a =
      some (out.state, a, out.split, (out.result.1, true)) := by
    change (leafPart mem blank t.stats.hybridstatus key h none a).map _ = _
    rw [same, run, ← pair]
    rfl
  obtain ⟨t', insert, root, store, items, must⟩ := insert_result eq descends
  have leaves' : t'.leaves = splitRow ⊥ a out.split := by
    rw [HybridTree.leaves, root]
    dsimp only
    rw [leaves_growRoot]
    simp [Tree.leaves, List.flatMap_singleton']
  have good' : HybridGood mem known 2 out.state.store (splitRow ⊥ a out.split) := by
    have good' := done.good
    rw [List.nil_append, List.append_nil] at good'
    by_cases two : 2 ≤ leaf.slotuse
    · rwa [min_eq_left two] at good'
    · have size := fits.slots
      obtain ⟨none, leaf', live', slotuse⟩ := short (by omega)
      rw [none] at good' ⊢
      exact raise good' live' (by omega)
  have stored_some : 1 ≤ stored.length := by
    have inside := List.length_pos_iff.mpr
      (counted_hybrid.nonempty (good.live a (by simp [cells])).choose_spec.2)
    obtain ⟨k, rest, cons⟩ := List.exists_cons_of_length_pos inside
    have live'' := (good.live a (by simp [cells])).choose_spec.1
    have mem' : k ∈ stored := by
      rw [keys, pages_cons, keysAt_of_leaf live'', cons]
      simp [allKeys]
    exact List.length_pos_of_mem mem'
  have kept : Keeps mem known t' (mem key :: stored) := by
    refine ⟨fun none => ?_, fun _ => ?_, ?_, fun k => ?_, fun _ => by simp, fun _ => by simp; omega,
      ?_, fun few => ?_, fun b single => ?_⟩
    · rw [root] at none
      cases none
    · rw [leaves', store, List.length_cons, min_eq_left (by omega)]
      exact good'
    · rw [leaves', store]
      simpa using done.tail tail
    · have here := done.keys k
      rw [List.nil_append, List.append_nil] at here
      rw [leaves', store, here, List.mem_cons, keys]
      rfl
    · rw [items, keeps.items, List.length_cons]
    · simp only [List.length_cons] at few
      omega
    · rw [root] at single
      cases split : out.split with
      | none =>
        rw [split] at single
        simp only [growRoot, Option.some.injEq, Sigma.mk.injEq, heq_eq_eq, true_and] at single
        rw [store, ← single, done.blind a (by simp [split, splitRow, cells])]
        exact not_not.mpr plain
      | some entry =>
        rw [split] at single
        simp [growRoot] at single
  refine ⟨t', out.result.1, ⟨insert, .inl kept, ?_⟩, kept⟩
  rw [store]
  refine ⟨fun _ root' leaf' same' live' => ?_, fun _ => iterator⟩
  rw [eq] at same'
  cases same'
  have live' : t.store.leaf a = some leaf' := live'
  rw [live] at live'
  cases live'
  exact .inl ⟨plain, stays⟩

-- What becomes of a plain leaf at the root that is converted: the new leaf takes the key, and
-- nothing points to it.
theorem leafPart_root (blank : SeqTreeBlindiNode) {h : Heap c} {slots : List (c.Key × Addr)}
    {status : HybridStatus} (fits : c.Fits) (live : h.store.leaf a = some leaf)
    (old : a < h.store.fresh) (plain : leaf.node = .btree slots)
    (valid : HybridSound mem known 2 leaf.slotuse leaf.node)
    (increasing : (leaf.node.keys mem).Pairwise (· < ·)) (inserted : key ∈ known)
    (missing : mem key ∉ leaf.node.keys mem) (converts : Converts status leaf) :
    ∃ out, leafPart mem blank status key h none a = some out ∧ out.state.store.leaf a = none ∧
    out.split = none ∧
      out.result.2 = true ∧
      (out.state.store.keyOf (HybridNode.keys mem) out.result.1 = some (mem key) ↔
        ∀ k ∈ leaf.node.keys mem, mem key < k) := by
  have converts' : status = .mustCompress ∨ status = .shouldCompress ∧
    leaf.slotuse = c.leafslotmax := converts
  rw [plain] at valid increasing missing ⊢
  obtain ⟨length, _, several, room, stored⟩ := valid
  have size := fits.slots
  have typeRoom : leaf.slotuse < c.leafslotmax *
      (if leaf.slotuse ≠ c.leafslotmax then BlindiLeafType.blindi1 else .blindi2).size := by
    split_ifs with full
    · simp only [BlindiLeafType.size]
      omega
    · simp only [BlindiLeafType.size]
      omega
  unfold leafPart compress
  rw [live, Option.bind_some, plain]
  dsimp only
  rw [if_pos converts']
  generalize (if leaf.slotuse ≠ c.leafslotmax then BlindiLeafType.blindi1 else .blindi2) =
    type at typeRoom
  obtain ⟨sound, keys⟩ :=
    transferSlots_spec blank 2 fits type increasing stored (by omega) (by omega)
  rw [← length] at sound keys
  obtain ⟨n, node⟩ : ∃ n, transferSlots blank type leaf.slotuse slots = .blindi type n := ⟨_, rfl⟩
  rw [node] at sound keys
  let s := ((h.store.allocateLeaf (transferSlots blank type leaf.slotuse slots)).2.put h.store.fresh
    { leaf with node := transferSlots blank type leaf.slotuse slots }).free a
  have apart : h.store.fresh ≠ a := old.ne'
  have here : s.leaf h.store.fresh = some { leaf with node := .blindi type n } := by
    simp only [s, Store.free, Function.update_of_ne apart, node]
    exact put_self
  have gone : s.leaf a = none := by simp [s, Store.free]
  have run : transferBtreeNode blank type h none a leaf slots =
      some ({ store := s
              btreeleaves := h.btreeleaves - 1
              breathingSum := h.breathingSum +
                transferBtree2blindiBreathing (c.params type) leaf.slotuse },
        none, h.store.fresh) := rfl
  rw [run, Option.bind_some]
  dsimp only
  rw [here, Option.bind_some]
  have full : ¬ leaf.slotuse = c.leafslotmax * type.size := by omega
  have missing' : mem key ∉ HybridNode.keys mem (.blindi type n) := by rwa [keys]
  obtain ⟨success, sound', p, le, keys'⟩ :=
    insert_hybrid 2 fits inserted sound.2 (by have := sound.1; omega) missing'
  have count : (HybridNode.keys mem (.blindi type n)).length = n.validLen := by
    rw [HybridNode.keys, List.length_map, length_entries]
  have members (x : c.Key) : x ∈
    HybridNode.keys mem (.blindi type (insert2BlindiNodeWithKey (c := c.params type) mem n key).2) ↔
      x = mem key ∨ x ∈ HybridNode.keys mem (.blindi type n) := by
    rw [keys', List.mem_insertIdx (by omega)]
  refine ⟨_, by
    unfold insertBlindi makeRoom
    dsimp only
    rw [if_neg full, Option.bind_some]
    dsimp only
    rw [here, Option.bind_some], ?_, rfl, decide_eq_true success, ?_⟩
  · exact (put_other apart.symm).trans gone
  · have same : HybridNode.keys mem (.btree slots) =
      HybridNode.keys mem (.blindi type n) := keys.symm
    rw [same, ← first_iff (increasing_keys sound'.2.1) missing' members]
    simp [Store.keyOf]

theorem insert_root (blank : SeqTreeBlindiNode) (fits : c.Fits) (keeps : Keeps mem known t stored)
    (eq : t.root = some ⟨0, a⟩) (inserted : key ∈ known) (missing : mem key ∉ stored)
    (live : t.store.leaf a = some leaf) (converts : Converts t.stats.hybridstatus leaf) :
    ∃ t' it, Inserts mem known blank t stored key t' it ∧ Dangling t' := by
  obtain ⟨leaf', live', plain, good, some_⟩ := keeps.root_leaf eq
  rw [live] at live'
  cases live'
  have leaves : t.leaves = [(⊥, a)] := by rw [HybridTree.leaves, eq]; rfl
  have keys := keeps.keys
  rw [leaves] at keys
  have fresh : mem key ∉ leaf.node.keys mem :=
    missing_leaf (show a ∈ cells [(⊥, a)] by simp [cells]) live fun inside =>
      missing ((keys _).mpr inside)
  obtain ⟨slots, node⟩ : ∃ slots, leaf.node = .btree slots := by
    cases node : leaf.node with
    | btree slots => exact ⟨slots, rfl⟩
    | blindi type n =>
      rw [node] at plain
      exact plain.elim
  have two : 2 ≤ leaf.slotuse := by
    rcases converts with must | full
    · have several := keeps.must must
      have good := keeps.good (by rw [eq]; simp)
      rw [leaves, min_eq_left several] at good
      obtain ⟨leaf', live', valid⟩ := good.live a (by simp [cells])
      rw [live] at live'
      cases live'
      rw [node] at valid
      exact valid.2.2.1
    · have size := fits.slots
      omega
  rw [min_eq_left two] at good
  obtain ⟨leaf', live', valid⟩ := good.live a (by simp [cells])
  rw [live] at live'
  cases live'
  let h : Heap c := { store := t.store, btreeleaves := t.stats.btreeleaves,
                      breathingSum := t.stats.breathingSum }
  have here : h.store.leaf a = some leaf := live
  have old : a < h.store.fresh := good.old a (by simp [cells])
  obtain ⟨out, run, gone, split, success, iterator⟩ := leafPart_root blank fits here old node valid
    (good.increasing (by simp [cells]) live) inserted fresh converts
  have pair : out.result = (out.result.1, true) := by rw [← success]
  have descends : insertDescend c.innerslotmax
    (leafPart mem blank t.stats.hybridstatus key) (mem key) 0 h a =
      some (out.state, a, none, (out.result.1, true)) := by
    change (leafPart mem blank t.stats.hybridstatus key h none a).map _ = _
    rw [run, ← pair, ← split]
    rfl
  obtain ⟨t', insert, root, store, items, must⟩ := insert_result eq descends
  have dangling : Dangling t' := ⟨a, root, by rw [store]; exact gone⟩
  refine ⟨t', out.result.1, ⟨insert, .inr dangling, ?_⟩, dangling⟩
  rw [store, iterator]
  have part : leaf.node.takingPart mem (mem key) = leaf.node.keys mem := by rw [node]; rfl
  constructor
  · intro all root' leaf' same' live'
    rw [eq] at same'
    cases same'
    have live' : t.store.leaf a = some leaf' := live'
    rw [live] at live'
    cases live'
    exact .inr (by rwa [part])
  · intro right
    rcases right _ leaf eq live with path | all
    · exact absurd converts path.2
    · rwa [part] at all

-- The leaf of the first key.
def firstLeaf (mem : Addr → c.Key) (key : Addr) : Leaf (HybridNode c.Key) :=
  { slotuse := 1, prevleaf := none, nextleaf := none, node := .btree [(mem key, key)] }

-- The store with a new, empty leaf as its head and tail.
def oneLeaf (c : Config) : Store (HybridNode c.Key) :=
  { (Store.empty.allocateLeaf (.btree [])).2 with headleaf := some 1, tailleaf := some 1 }

theorem empty_insert (mem : Addr → c.Key) (blank : SeqTreeBlindiNode)
    (some_ : 0 < c.leafslotmax) (key : Addr) :
    ∃ stats : Stats, (stats.hybridstatus = .mustCompress → False) ∧ stats.itemcount = 1 ∧
    stats.breathingSum = 0 ∧
      (HybridTree.empty c).insert mem blank key =
        some ({ root := some ⟨0, 1⟩, store := (oneLeaf c).put 1 (firstLeaf mem key), stats },
          ⟨some 1, 0⟩, true) := by
  have room : ¬ 0 = c.leafslotmax := by omega
  let empty : Leaf (HybridNode c.Key) :=
    { slotuse := 0, prevleaf := none, nextleaf := none, node := .btree [] }
  have live : (oneLeaf c).leaf 1 = some empty := by
    simp [oneLeaf, empty, Store.allocateLeaf, Store.empty]
  let h : Heap c := { store := oneLeaf c, btreeleaves := 1, breathingSum := 0 }
  have stays : ¬ Converts .goOn empty := by simp [Converts]
  have leafRun : leafPart mem blank .goOn key h none 1 = some {
      state := { store := (oneLeaf c).put 1 (firstLeaf mem key), btreeleaves := 1,
                 breathingSum := 0 }, parent := none, split := none
      result := (⟨some 1, 0⟩, true) } := by
    rw [leafPart_plain blank live (show empty.node = .btree [] from rfl) stays]
    unfold insertBtree splitBtree
    dsimp only
    rw [if_neg room, Option.bind_some]
    dsimp only
    rw [live]
    rfl
  refine ⟨Stats.next c { hybridstatus := .goOn, itemcount := 1, btreeleaves := 1
                         limit2MustCompress := lower c.limit2MustCompress c.sizeofNode,
                           breathingSum := 0 },
    fun must => ?_, next_itemcount, next_breathingSum, ?_⟩
  · rcases next_must must with status | status <;> cases status
  · have descends : insertDescend c.innerslotmax (leafPart mem blank .goOn key)
      (mem key) 0 h (1 : Ptr) =
        some ({ store := (oneLeaf c).put 1 (firstLeaf mem key), btreeleaves := 1,
                breathingSum := 0 }, 1, none,
          (⟨some 1, 0⟩, true)) := by
      change (leafPart mem blank .goOn key h none 1).map _ = _
      rw [leafRun]
      rfl
    unfold HybridTree.insert
    dsimp only [HybridTree.empty]
    generalize lower c.limit2MustCompress c.sizeofNode = limit
    refine (congrArg (Option.map _) descends).trans ?_
    simp [growRoot]

theorem insert_first (mem : Addr → c.Key) (blank : SeqTreeBlindiNode) (fits : c.Fits)
    (inserted : key ∈ known) :
    ∃ t' it, Inserts mem known blank (.empty c) [] key t' it ∧ Keeps mem known t' [mem key] := by
  have size := fits.slots
  obtain ⟨stats, status, items, -, run⟩ :=
    empty_insert mem blank (show 0 < c.leafslotmax by omega) key
  let t' : HybridTree c :=
    { root := some ⟨0, 1⟩, store := (oneLeaf c).put 1 (firstLeaf mem key), stats }
  have leaves : t'.leaves = [(⊥, 1)] := rfl
  have only (x : Ptr) (inside : x ∈ cells t'.leaves) : x = 1 := by
    rw [leaves] at inside
    simpa [cells] using inside
  have page : t'.store.keysAt (HybridNode.keys mem) 1 = [mem key] := keysAt_of_leaf put_self
  have keeps : Keeps mem known t' [mem key] := by
    refine ⟨fun none => (by cases none), fun _ => ?_, fun t last => ?_, fun k => ?_,
      fun _ => le_rfl, fun must => ?_, ?_, fun _ root same => ?_,
      fun a same => ?_⟩
    · refine ⟨fun x inside => ?_, by simp [leaves, cells], fun x inside => ?_, ?_, ?_⟩
      · rw [only x inside]
        exact ⟨_, put_self, rfl, le_rfl, le_rfl, by simp only [firstLeaf]; omega,
          by simpa using inserted⟩
      · rw [only x inside]
        exact Nat.one_lt_two
      · rw [leaves]
        exact ⟨links_put_self, trivial⟩
      · rw [leaves, pages_cons, page]
        exact ⟨⟨by simp, by simp, .singleton _⟩, .singleton _⟩
    · obtain rfl : 1 = t := Option.some.inj last
      exact ⟨Nat.one_lt_two, fun _ => rfl⟩
    · rw [leaves, pages_cons, page]
      simp [allKeys]
    · exact (status must).elim
    · exact items
    · cases same
      rfl
    · obtain rfl : 1 = a := by simpa [t'] using same
      rw [blind_iff put_self]
      exact not_not.mpr trivial
  exact ⟨t', ⟨some 1, 0⟩,
    ⟨run, .inl keeps, ⟨fun _ root leaf none => (by cases none), fun _ => rfl⟩⟩, keeps⟩

theorem Keeps.insert (blank : SeqTreeBlindiNode) (fits : c.Fits) (keeps : Keeps mem known t stored)
    (inserted : key ∈ known) (missing : mem key ∉ stored) :
    ∃ t' it, Inserts mem known blank t stored key t' it := by
  cases eq : t.root with
  | none =>
    obtain ⟨rfl, rfl⟩ := keeps.empty eq
    obtain ⟨t', it, inserts, _⟩ := insert_first mem blank fits inserted
    exact ⟨t', it, inserts⟩
  | some root =>
    obtain ⟨level, node⟩ := root
    cases level with
    | zero =>
      obtain ⟨leaf, live, _⟩ := keeps.root_leaf eq
      by_cases converts : Converts t.stats.hybridstatus leaf
      · obtain ⟨t', it, inserts, _⟩ :=
          insert_root blank fits keeps eq inserted missing live converts
        exact ⟨t', it, inserts⟩
      · obtain ⟨t', it, inserts, _⟩ :=
          insert_leaf blank fits keeps eq inserted missing live converts
        exact ⟨t', it, inserts⟩
    | succ level => exact insert_deep blank fits keeps eq inserted missing

theorem keeps_new : Keeps mem known (.empty c) [] :=
  ⟨fun _ => ⟨rfl, rfl⟩, fun some_ => absurd rfl some_, fun t last => (by cases last),
    fun k => by simp [HybridTree.leaves, HybridTree.empty, allKeys],
    fun status => (by cases status), fun status => (by cases status), rfl,
    fun _ root none => (by cases none),
    fun a none => (by cases none)⟩

-- Nothing can be done with a tree whose root is gone.
theorem Dangling.stuck (dangling : Dangling t) (key : Addr) : t.insert mem blank key = none := by
  obtain ⟨a, root, gone⟩ := dangling
  unfold HybridTree.insert
  rw [root]
  change ((leafPart mem blank t.stats.hybridstatus key
    { store := t.store, btreeleaves := t.stats.btreeleaves, breathingSum := t.stats.breathingSum }
    none a).map _).map _ = _
  unfold leafPart compress
  rw [gone]
  rfl

theorem HybridGood.mono {known' : List Addr} {row : Row c.Key Ptr}
    (good : HybridGood mem known least s row) (sub : ∀ a ∈ known, a ∈ known') :
    HybridGood mem known' least s row := by
  refine ⟨fun x inside => ?_, good.distinct, good.old, good.linked, good.tight⟩
  obtain ⟨leaf, live, valid⟩ := good.live x inside
  refine ⟨leaf, live, ?_⟩
  cases node : leaf.node with
  | btree slots =>
    rw [node] at valid
    obtain ⟨length, some_, enough, room, stored⟩ := valid
    exact ⟨length, some_, enough, room, fun e at_ => ⟨(stored e at_).1, sub _ (stored e at_).2⟩⟩
  | blindi type n =>
    rw [node] at valid
    exact ⟨valid.1, valid.2.1, fun a at_ => sub a (valid.2.2 a at_)⟩

theorem Keeps.mono {known' : List Addr} (keeps : Keeps mem known t stored)
    (sub : ∀ a ∈ known, a ∈ known') :
    Keeps mem known' t stored :=
  ⟨keeps.empty, fun some_ => (keeps.good some_).mono sub, keeps.tail, keeps.keys, keeps.should,
    keeps.must, keeps.items, keeps.single,
    keeps.plain⟩

-- Every address below the root has been inserted.
theorem Reached.keeps (fits : c.Fits) (reached : Reached mem blank t stored) :
    ∃ known, known.map mem = stored ∧ (Keeps mem known t stored ∨ Dangling t) := by
  induction reached with
  | empty => exact ⟨[], rfl, .inl keeps_new⟩
  | @insert t t' stored key r _ missing run ih =>
    obtain ⟨known, rfl, keeps | dangling⟩ := ih
    · have more : Keeps mem (key :: known) t (known.map mem) :=
        keeps.mono fun a inside => List.mem_cons_of_mem _ inside
      obtain ⟨t'', it, inserts⟩ := more.insert blank fits List.mem_cons_self missing
      have same := inserts.run.symm.trans run
      simp only [Option.some.injEq, Prod.mk.injEq] at same
      exact ⟨key :: known, rfl, same.1 ▸ inserts.keeps⟩
    · rw [dangling.stuck] at run
      cases run

section Sample

variable {t' : HybridTree c}

instance decidableBlind (s : Store (HybridNode c.Key)) (a : Ptr) : Decidable (Blind s a) :=
  match at_ : s.nodeAt a with
  | some (.blindi type node) => .isTrue ⟨type, node, at_⟩
  | some (.btree _) => .isFalse fun ⟨_, _, here⟩ => by rw [at_] at here; cases here
  | none => .isFalse fun ⟨_, _, here⟩ => by rw [at_] at here; cases here

-- The insertions of a list of keys, one after the other, as long as ok.
def HybridTree.insertAll (mem : Addr → c.Key) (blank : SeqTreeBlindiNode)
    (ok : HybridTree c → Addr → Bool) (t : HybridTree c) :
    List Addr → Option (HybridTree c)
  | [] => some t
  | key :: keys =>
    if ok t key then (t.insert mem blank key).bind fun r =>
      r.1.insertAll mem blank ok keys else none

theorem insertAll_steps {ok : HybridTree c → Addr → Bool} {R : HybridTree c → List c.Key → Prop}
    (step : ∀ t t' stored key r, R t stored → ok t key = true → t.insert mem blank key =
      some (t', r) → R t' (mem key :: stored))
    {keys : List Addr} (start : R t stored) (run : t.insertAll mem blank ok keys = some t') :
    R t' ((keys.map mem).reverse ++ stored) := by
  induction keys generalizing t stored with
  | nil =>
    cases run
    exact start
  | cons key keys ih =>
    unfold HybridTree.insertAll at run
    split_ifs at run with allowed
    obtain ⟨⟨next, r⟩, insert, rest⟩ := Option.bind_eq_some_iff.mp run
    have shape : ((key :: keys).map mem).reverse ++ stored =
      (keys.map mem).reverse ++ mem key :: stored := by simp
    rw [shape]
    exact ih (step t next stored key r start allowed insert) rest

-- The same for keys that are all new.
theorem insertAll_run {ok : HybridTree c → Addr → Bool} {R : HybridTree c → List c.Key → Prop}
    (step : ∀ t t' stored key r, R t stored → ok t key = true → mem key ∉ stored →
      t.insert mem blank key = some (t', r) →
      R t' (mem key :: stored))
    {keys : List Addr} (start : R t stored) (distinct : ((keys.map mem).reverse ++ stored).Nodup)
    (run : t.insertAll mem blank ok keys = some t') : R t' ((keys.map mem).reverse ++ stored) := by
  refine insertAll_steps (R := fun t stored => stored.Nodup → R t stored)
    (fun t t' stored key r start allowed insert distinct => ?_)
    (fun _ => start) run distinct
  obtain ⟨missing, rest⟩ := List.nodup_cons.mp distinct
  exact step t t' stored key r (start rest) allowed missing insert

-- Leaves of four keys, keys of one byte, nodes without a tree; the limits are met after 20 keys.
def sampleConfig : Config :=
  { treeLevels := 0, keyLen := 1, leafslotmax := 4, innerslotmax := 8, even := rfl
    limit2MustCompress := 32, limit2ShouldCompress := 20, sizeofNode := 8, sizeofInner := 8 }

theorem sampleConfig_fits :
    sampleConfig.Fits := ⟨by decide, by decide, by decide, by decide, .inr rfl, by decide⟩

def sampleMem : Addr → sampleConfig.Key := SeqTree.sampleKey

-- The keys 8, 16, .., 168 fill two inner nodes with five leaves each.
def sampleKeys : List Addr := (List.range 21).map fun i => 8 * (i + 1)

abbrev sampleRun (ok : HybridTree sampleConfig → Addr → Bool) (keys : List Addr) :
    Option (HybridTree sampleConfig) :=
  (HybridTree.empty sampleConfig).insertAll sampleMem SeqTree.sampleNode ok keys

end Sample

end ElasticIndex.Tree.Hybrid
