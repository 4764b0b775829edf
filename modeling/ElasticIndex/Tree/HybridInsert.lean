import ElasticIndex.Tree.HybridCorrect

set_option autoImplicit false

namespace ElasticIndex.Tree.Hybrid

open Separators SeqTree SequenceEdit

variable {c : Config} {mem : Addr → c.Key} {known : List Addr} {blank : SeqTreeBlindiNode}
  {least : Nat} {s s' : Store (HybridNode c.Key)} {before after : Row c.Key Ptr}
  {sep : WithBot c.Key} {a a' target : Ptr} {leaf half : Leaf (HybridNode c.Key)}
  {split : Option (c.Key × Ptr)} {key : Addr} {node small large : HybridNode c.Key} {k : c.Key}

theorem blind_iff (live : s.leaf a = some leaf) : Blind s a ↔ ¬ leaf.node.Plain := by
  unfold Blind
  rw [Store.nodeAt, live, Option.map_some]
  cases leaf.node with
  | btree slots => simp [HybridNode.Plain]
  | blindi type node => simp [HybridNode.Plain]

/-- Room for the key in the leaf target, one of the leaves that leaf a has become. -/
structure Room (mem : Addr → c.Key) (known : List Addr) (least : Nat) (s : Store (HybridNode c.Key))
    (before : Row c.Key Ptr) (sep : WithBot c.Key) (a : Ptr) (leaf : Leaf (HybridNode c.Key))
    (after : Row c.Key Ptr) (key : Addr) (s' : Store (HybridNode c.Key)) (a' : Ptr)
    (split : Option (c.Key × Ptr)) (target : Ptr) (half : Leaf (HybridNode c.Key)) : Prop where
  good : HybridGood mem known least s' (before ++ splitRow sep a' split ++ after)
  tail : TailSafe s (before ++ (sep, a) :: after) →
    TailSafe s' (before ++ splitRow sep a' split ++ after)
  keys : ∀ x, x ∈ allKeys
    (s'.pages (HybridNode.keys mem) (before ++ splitRow sep a' split ++ after)) ↔
    x ∈ allKeys (s.pages (HybridNode.keys mem) (before ++ (sep, a) :: after))
  member : target ∈ cells (splitRow sep a' split)
  routes : ∃ before' sep' after',
    Routes (before ++ splitRow sep a' split ++ after) (mem key) before' sep' target after'
  live : s'.leaf target = some half
  sub : ∀ x ∈ half.node.keys mem, x ∈ leaf.node.keys mem
  blind : ∀ x ∈ cells (splitRow sep a' split), Blind s' x ↔ ¬ leaf.node.Plain

/-- The same with the key in it. -/
structure Done (mem : Addr → c.Key) (known : List Addr) (least : Nat) (s : Store (HybridNode c.Key))
    (before : Row c.Key Ptr) (sep : WithBot c.Key) (a : Ptr) (leaf : Leaf (HybridNode c.Key))
    (after : Row c.Key Ptr) (key : Addr) (s' : Store (HybridNode c.Key)) (a' : Ptr)
    (split : Option (c.Key × Ptr)) : Prop where
  good : HybridGood mem known least s' (before ++ splitRow sep a' split ++ after)
  tail : TailSafe s (before ++ (sep, a) :: after) →
    TailSafe s' (before ++ splitRow sep a' split ++ after)
  keys : ∀ x, x ∈ allKeys
    (s'.pages (HybridNode.keys mem) (before ++ splitRow sep a' split ++ after)) ↔
    x = mem key ∨ x ∈ allKeys (s.pages (HybridNode.keys mem) (before ++ (sep, a) :: after))
  blind : ∀ x ∈ cells (splitRow sep a' split), Blind s' x ↔ ¬ leaf.node.Plain

theorem room_same (good : HybridGood mem known least s (before ++ (sep, a) :: after))
    (routes : Routes (before ++ (sep, a) :: after) (mem key) before sep a after)
    (live : s.leaf a = some leaf) :
    Room mem known least s before sep a leaf after key s a none a leaf := by
  have row : before ++ splitRow sep a none ++ after =
    before ++ (sep, a) :: after := by simp [splitRow]
  refine ⟨by rwa [row], fun tail => by rwa [row], fun x => by rw [row], by simp [splitRow, cells],
    ⟨before, sep, after, ?_⟩, live,
    fun x inside => inside, fun x inside => ?_⟩
  · rwa [row]
  · obtain rfl : x = a := by simpa [splitRow, cells] using inside
    exact blind_iff live

theorem Room.write (node : HybridNode c.Key)
    (room : Room mem known least s before sep a leaf after key s' a' split target half)
    (missing : mem key ∉ leaf.node.keys mem)
    (valid : HybridSound mem known least (half.slotuse + 1) node)
    (increasing : (node.keys mem).Pairwise (· < ·))
    (members : ∀ x, x ∈ node.keys mem ↔ x = mem key ∨ x ∈ half.node.keys mem)
    (plain : node.Plain ↔ half.node.Plain) :
    Done mem known least s before sep a leaf after key
      (s'.put target { half with node, slotuse := half.slotuse + 1 }) a' split := by
  obtain ⟨before', sep', after', routes⟩ := room.routes
  obtain ⟨sound, keys⟩ :=
    room.good.insert_key { half with node, slotuse := half.slotuse + 1 } routes room.live
    (fun inside => missing (room.sub _ inside)) rfl rfl valid increasing members
  refine ⟨sound, fun tail => ?_, fun x => (keys x).trans (or_congr_right (room.keys x)),
    fun x inside => ?_⟩
  · exact room.tail tail
  · by_cases same : x = target
    · subst same
      rw [blind_iff put_self, ← room.blind x inside, blind_iff room.live, plain]
    · rw [← room.blind x inside, Blind, Blind, Store.nodeAt, Store.nodeAt, put_other same]

-- The half of a split leaf on the side of the key.
theorem room_divided (good : HybridGood mem known least s (before ++ (sep, a) :: after))
    (routes : Routes (before ++ (sep, a) :: after) (mem key) before sep a after)
    (live : s.leaf a = some leaf) (divided : Divided s a leaf small large s')
    (keys : leaf.node.keys mem = small.keys mem ++ large.keys mem)
    (last : (small.keys mem).getLast? = some k) (more : large.keys mem ≠ [])
    (okSmall : HybridSound mem known least (leaf.slotuse / 2) small)
    (okLarge : HybridSound mem known least (leaf.slotuse - leaf.slotuse / 2) large)
    (plainSmall : small.Plain ↔ leaf.node.Plain) (plainLarge : large.Plain ↔ leaf.node.Plain) :
    (k < mem key → Room mem known least s before sep a leaf after key s' a
      (some (k, s.fresh)) s.fresh
      { slotuse := leaf.slotuse - leaf.slotuse / 2, prevleaf := some a, nextleaf := leaf.nextleaf,
        node := large }) ∧
    (¬ k < mem key → Room mem known least s before sep a leaf after key s' a (some (k, s.fresh)) a
      { leaf with slotuse := leaf.slotuse / 2, nextleaf := some s.fresh, node := small }) := by
  have row : before ++ splitRow sep a (some (k, s.fresh)) ++ after =
      before ++ (sep, a) :: (↑k, s.fresh) :: after := by
    simp [splitRow]
  have sound := good.divide live divided keys last more okSmall okLarge
  have tail := fun tail => good.divided_tail live divided tail k
  have allSame := good.divide_keys (k := k) live divided keys
  have blind (x : Ptr) (inside : x ∈ cells (splitRow sep a (some (k, s.fresh)))) : Blind s' x ↔
      ¬ leaf.node.Plain := by
    rcases (by simpa [splitRow, cells] using inside : x = a ∨ x = s.fresh) with rfl | rfl
    · rw [blind_iff divided.left, plainSmall]
    · rw [blind_iff divided.right, plainLarge]
  constructor
  · intro above
    refine ⟨by rwa [row], by rwa [row], by rwa [row], by simp [splitRow, cells],
      ⟨before ++ [(sep, a)], k, after, ?_⟩,
      divided.right, fun x inside => ?_, blind⟩
    · exact ⟨by simp [row], WithBot.coe_lt_coe.mpr above, routes.above⟩
    · rw [keys]
      exact List.mem_append_right _ inside
  · intro below
    refine ⟨by rwa [row], by rwa [row], by rwa [row], by simp [splitRow, cells],
      ⟨before, sep, (↑k, s.fresh) :: after, row, routes.below, fun e inside => ?_⟩, divided.left,
      fun x inside => ?_, blind⟩
    · rcases List.mem_cons.mp inside with rfl | inside
      · exact WithBot.coe_le_coe.mpr (not_lt.mp below)
      · exact routes.above e inside
    · rw [keys]
      exact List.mem_append_left _ inside

theorem splitLeafNode_good (empty : HybridNode c.Key)
    (good : HybridGood mem known least s (before ++ (sep, a) :: after))
    (live : s.leaf a = some leaf)
    {halves : HybridNode c.Key → Option (HybridNode c.Key × HybridNode c.Key)}
    (parts : halves leaf.node = some (small, large)) :
    ∃ s', splitLeafNode empty halves (maxKey mem) s a leaf =
        some (s', maxKey mem small, s.fresh) ∧ Divided s a leaf small large s' := by
  refine splitLeafNode_divided empty (maxKey mem) parts (good.old a (by simp))
    (fun behind => (good.next_live live behind).2.1 rfl) fun b behind => ?_
  obtain ⟨_, _, old, right, live', _⟩ := good.next_live live behind
  exact ⟨old, right, live'⟩

section Btree

variable {slots : List (c.Key × Addr)} {h : Heap c} {parent : Parent c}

theorem sound_part (stored : ∀ e ∈ slots, mem e.2 = e.1 ∧ e.2 ∈ known) {part : List (c.Key × Addr)}
    (sub : ∀ e ∈ part, e ∈ slots) (enough : 2 ≤ part.length) (atMost : least ≤ 2)
    (room : part.length ≤ c.leafslotmax) {slotuse : Nat} (length : slotuse = part.length) :
    HybridSound mem known least slotuse (.btree part) :=
  ⟨length, by omega, by omega, by omega, fun e inside => stored e (sub e inside)⟩

-- The way of a plain leaf: the position is found before the split.
theorem splitBtree_spec (blank : SeqTreeBlindiNode) (fits : c.Fits) (atMost : least ≤ 2)
    (good : HybridGood mem known least s (before ++ (sep, a) :: after))
    (routes : Routes (before ++ (sep, a) :: after) (mem key) before sep a after)
    (live : s.leaf a = some leaf) (plain : leaf.node = .btree slots) :
    ∃ target half slots', splitBtree mem blank key s a leaf slots = some target ∧
      Room mem known least s before sep a leaf after key target.store a target.split
        target.leaf half ∧
      half.node = .btree slots' ∧ target.slot = findLower (slots'.map Prod.fst) (mem key) ∧
      half.slotuse < c.leafslotmax ∧
      (∀ k b, target.split = some (k, b) → target.leaf ≠ b → target.slot ≠ half.slotuse) ∧
      (leaf.slotuse < c.leafslotmax → target.split = none ∧ target.leaf = a ∧ half = leaf) := by
  have valid : HybridSound mem known least leaf.slotuse (.btree slots) := by
    obtain ⟨leaf', live', valid, _⟩ := good.leaf_at
    rw [live] at live'
    cases live'
    rwa [plain] at valid
  obtain ⟨length, _, _, room, stored⟩ := valid
  have size := fits.slots
  unfold splitBtree
  dsimp only
  by_cases full : leaf.slotuse = c.leafslotmax
  · rw [if_pos full]
    have parts : splitNode blank (leaf.slotuse / 2) leaf.node =
        some (.btree (slots.take (leaf.slotuse / 2)), .btree (slots.drop (leaf.slotuse / 2))) := by
      rw [plain]
      rfl
    obtain ⟨s', split, divided⟩ := splitLeafNode_good (.btree []) good live parts
    rw [split, Option.map_some]
    dsimp only
    have whole : slots.take (leaf.slotuse / 2) ++ slots.drop (leaf.slotuse / 2) = slots :=
      List.take_append_drop _ _
    have firstLength : (slots.take (leaf.slotuse / 2)).length = leaf.slotuse / 2 := by
      rw [List.length_take]; omega
    have secondLength : (slots.drop (leaf.slotuse / 2)).length =
      leaf.slotuse - leaf.slotuse / 2 := by rw [List.length_drop]; omega
    have firstSub (e : c.Key × Addr) (inside : e ∈ slots.take (leaf.slotuse / 2)) : e ∈ slots :=
      List.mem_of_mem_take inside
    have secondSub (e : c.Key × Addr) (inside : e ∈ slots.drop (leaf.slotuse / 2)) : e ∈ slots :=
      List.mem_of_mem_drop inside
    generalize slots.take (leaf.slotuse / 2) = first at split divided whole firstLength firstSub ⊢
    generalize slots.drop (leaf.slotuse / 2) =
      second at split divided whole secondLength secondSub ⊢
    obtain ⟨e, last⟩ : ∃ e, first.getLast? = some e := by
      cases top : first.getLast? with
      | some e => exact ⟨e, rfl⟩
      | none =>
        rw [List.getLast?_eq_none_iff] at top
        rw [top] at firstLength
        simp only [List.length_nil] at firstLength
        omega
    have top : maxKey mem (.btree first) = e.1 := by rw [maxKey, last]; rfl
    obtain ⟨above, below⟩ := room_divided good routes live divided
      (by rw [plain, HybridNode.keys, HybridNode.keys, HybridNode.keys, ← List.map_append, whole])
      (show (HybridNode.keys mem (.btree first)).getLast? = some e.1 by
        rw [HybridNode.keys, List.getLast?_map, last]; rfl)
      (fun none => by
        have := congrArg List.length none
        rw [HybridNode.keys, List.length_map, secondLength] at this
        simp only [List.length_nil] at this
        omega)
      (sound_part stored firstSub (by omega) atMost (by omega) firstLength.symm)
      (sound_part stored secondSub (by omega) atMost (by omega) secondLength.symm)
      (by rw [plain]; exact Iff.rfl) (by rw [plain]; exact Iff.rfl)
    have increasing := good.increasing (by simp) live
    rw [plain, HybridNode.keys, ← whole, List.map_append] at increasing
    have border : (first.map Prod.fst).length ≤ findLower (first.map Prod.fst) (mem key) ↔
        e.1 < mem key := by
      rw [findLower_full]
      have last' : (first.map Prod.fst).getLast? = some e.1 := by rw [List.getLast?_map, last]; rfl
      exact ⟨fun all => all _ (List.mem_of_getLast? last'),
        fun more x inside =>
        (le_getLast (List.pairwise_append.mp increasing).1 last' inside).trans_lt more⟩
    have cut := findLower_append (first.map Prod.fst) (second.map Prod.fst) (mem key)
    rw [← List.map_append, whole] at cut
    rw [List.length_map, firstLength] at border cut
    rw [top]
    by_cases more : e.1 < mem key
    · have past := border.mpr more
      rw [if_neg (by omega)] at cut
      rw [cut, if_pos (by omega)]
      refine ⟨_, _, second, rfl, above more, rfl, by dsimp only; omega, by dsimp only; omega,
        fun k b same ne => ?_, fun room => by omega⟩
      cases same
      exact absurd rfl ne
    · have before' : ¬ leaf.slotuse / 2 ≤ findLower (first.map Prod.fst) (mem key) :=
        fun le => more (border.mp le)
      rw [if_pos (by omega)] at cut
      rw [cut, if_neg before']
      refine ⟨_, _, first, rfl, below more, rfl, rfl, by dsimp only; omega, fun k b same ne => ?_,
        fun room => by omega⟩
      dsimp only
      omega
  · rw [if_neg full]
    exact ⟨_, leaf, slots, rfl, room_same good routes live, plain, rfl, by omega,
      fun k b same => (by cases same), fun _ => ⟨rfl, rfl, rfl⟩⟩

theorem insertBtree_spec (blank : SeqTreeBlindiNode) (fits : c.Fits) (atMost : least ≤ 2)
    (good : HybridGood mem known least h.store (before ++ (sep, a) :: after))
    (routes : Routes (before ++ (sep, a) :: after) (mem key) before sep a after)
    (live : h.store.leaf a = some leaf) (plain : leaf.node = .btree slots) (inserted : key ∈ known)
    (missing : mem key ∉ leaf.node.keys mem) (parent : Parent c) :
    ∃ out, insertBtree mem blank key h parent a leaf slots = some out ∧
    out.parent = parent.map Prod.fst ∧
      Done mem known least h.store before sep a leaf after key out.state.store a out.split ∧
      out.result.2 = true ∧
      out.state.store.keyOf (HybridNode.keys mem) out.result.1 = some (mem key) ∧
      (leaf.slotuse < c.leafslotmax → out.split = none ∧
        ∃ leaf', out.state.store.leaf a = some leaf' ∧ leaf'.slotuse = leaf.slotuse + 1) := by
  obtain ⟨target, half, slots', split, room, node, slot, size, border, kept⟩ :=
    splitBtree_spec blank fits atMost good routes live plain
  obtain ⟨before', sep', after', routes'⟩ := room.routes
  have valid : HybridSound mem known least half.slotuse half.node := by
    have good' := room.good
    rw [routes'.eq] at good'
    obtain ⟨leaf', live', valid, _⟩ := good'.leaf_at
    rw [room.live] at live'
    cases live'
    exact valid
  have increasing := HybridGood.increasing room.good (by rw [routes'.eq]; simp) room.live
  have missing' : mem key ∉ half.node.keys mem := fun inside => missing (room.sub _ inside)
  rw [node] at valid increasing missing'
  obtain ⟨length, some_, enough, _, stored⟩ := valid
  have le : target.slot ≤ slots'.length := by
    have := findLower_le (slots'.map Prod.fst) (mem key)
    rw [List.length_map] at this
    omega
  have keys : HybridNode.keys mem (.btree (slots'.insertIdx target.slot (mem key, key))) =
      (slots'.map Prod.fst).insertIdx target.slot (mem key) := List.map_insertIdx ..
  have done := room.write (.btree (slots'.insertIdx target.slot (mem key, key))) missing
    ⟨by rw [List.length_insertIdx, if_pos le, length], by omega, by omega, by omega,
        fun e inside => by
      rcases List.eq_or_mem_of_mem_insertIdx inside with rfl | inside
      · exact ⟨rfl, inserted⟩
      · exact stored e inside⟩
    (by rw [keys, slot]; exact insertIdx_findLower increasing missing')
    (fun x => by rw [keys, List.mem_insertIdx (by simpa using le), node]; rfl)
      (by rw [node]; exact Iff.rfl)
  have result : insertBtree mem blank key h parent a leaf slots = some {
      state :=
        { store := target.store.put target.leaf
            { half with node := .btree (slots'.insertIdx target.slot (mem key, key)),
                        slotuse := half.slotuse + 1 }
          btreeleaves := h.btreeleaves + if target.split.isSome then 1 else 0
          breathingSum := h.breathingSum + target.breathed }
      parent := parent.map Prod.fst
      split := target.split
      result := (⟨some target.leaf, target.slot⟩, true) } := by
    unfold insertBtree
    rw [split, Option.bind_some, room.live, Option.bind_some, node]
    dsimp only
    cases cut : target.split with
    | none => rfl
    | some entry =>
      have apart : ¬ (target.leaf ≠ entry.2 ∧ target.slot = half.slotuse) :=
        fun both => border _ _ cut both.1 both.2
      rw [Option.map_some, if_neg apart]
  refine ⟨_, result, rfl, done, rfl, ?_, fun room => ?_⟩
  · dsimp only [Store.keyOf]
    rw [Option.bind_some, put_self, Option.bind_some]
    dsimp only
    rw [keys, List.getElem?_insertIdx_self, List.length_map, if_pos le]
  · obtain ⟨none, rfl, rfl⟩ := kept room
    exact ⟨none, _, put_self, rfl⟩

end Btree

section Blindi

variable {type : BlindiLeafType} {n : SeqTreeBlindiNode} {h : Heap c}
  {inner : InnerNode c.Key Ptr} {slot : Nat}

theorem keys_maxKey (sound : Stocked (c := c.params type) mem n) :
    (HybridNode.keys mem (.blindi type n)).getLast? = some (maxKey mem (.blindi type n)) := by
  have several := sound.several
  have inside : n.validLen - 1 < n.validLen := by omega
  rw [HybridNode.keys, List.getLast?_map, List.getLast?_eq_getElem?, length_entries]
  simp [entries, maxKey, inside]

theorem blind_room (sound : HybridSound mem known least leaf.slotuse (.blindi type n)) :
    leaf.slotuse ≤ c.leafslotmax * type.size := by
  have fits := sound.2.1.wellFormed.fits
  have eq := slots_eq c.leafslotmax type
  have length := sound.1
  dsimp only at fits
  omega

-- A blindi leaf below a parent is extended when it is full, and split when it cannot be.
theorem makeRoom_spec (blank : SeqTreeBlindiNode) (fits : c.Fits)
    (good : HybridGood mem known 2 s (before ++ (sep, a) :: after))
    (routes : Routes (before ++ (sep, a) :: after) (mem key) before sep a after)
    (live : s.leaf a = some leaf) (blindi : leaf.node = .blindi type n)
    (child : inner.childid slot = a) :
    ∃ a' target half type' n', makeRoom mem blank key s (some (inner, slot)) a leaf type n =
        some (some (inner.setChild slot a', slot), target) ∧
      Room mem known 2 s before sep a leaf after key target.store a' target.split target.leaf half ∧
      target.slot = 0 ∧
      half.node = .blindi type' n' ∧ half.slotuse < c.leafslotmax * type'.size ∧
      half.node.keys mem = leaf.node.takingPart mem (mem key) := by
  have valid : HybridSound mem known 2 leaf.slotuse (.blindi type n) := by
    obtain ⟨leaf', live', valid, _⟩ := good.leaf_at
    rw [live] at live'
    cases live'
    rwa [blindi] at valid
  have length := valid.1
  have same : inner.setChild slot a = inner := by rw [← child, setChild_childid]
  have bounds := slots_bounds c.leafslotmax type
  have eq := slots_eq c.leafslotmax type
  have size := fits.slots
  have capacity := blind_room valid
  unfold makeRoom
  by_cases full : leaf.slotuse = c.leafslotmax * type.size
  · rw [if_pos full]
    cases extended : type.extended with
    | some wider =>
      dsimp only
      obtain ⟨sound, keys⟩ := widen_hybrid blank 2 fits extended valid.2 (by omega)
      have narrow : type ≠ .blindi8 := by
        rintro rfl
        cases extended
      rw [← blindi] at keys
      rw [← length] at sound
      obtain ⟨s', run, replaced⟩ := good.exists_replaced live
        (.blindi wider (transferBlindixtoblibdi2x (c.params type) n blank)) inner slot
      have row : before ++ splitRow sep s.fresh none ++ after =
        before ++ (sep, s.fresh) :: after := by simp [splitRow]
      have pages := good.replaced_pages live replaced keys
      have twice := extended_slots c.leafslotmax extended
      have eq' := slots_eq c.leafslotmax wider
      refine ⟨s.fresh, _, _, wider,
        transferBlindixtoblibdi2x (c.params type) n blank, by rw [run]; rfl,
        ⟨?_, fun tail => ?_, fun x => ?_, by simp [splitRow, cells], ⟨before, sep, after, ?_⟩,
        replaced.new, fun x inside => ?_,
          fun x inside => ?_⟩, rfl, rfl, by dsimp only; omega, ?_⟩
      · rw [row]
        exact good.replace live replaced keys sound
      · rw [row]
        exact tail.replaced good.distinct replaced
      · rw [row, pages]
      · rw [row]
        exact ⟨rfl, routes.below, routes.above⟩
      · rwa [← keys]
      · obtain rfl : x = s.fresh := by simpa [splitRow, cells] using inside
        rw [blind_iff replaced.new, blindi]
        exact Iff.rfl
      · rw [blindi, takingPart_small narrow, ← blindi]
        exact keys
    | none =>
      obtain rfl : type = .blindi8 := by
        cases type <;> first | rfl | cases extended
      dsimp only
      obtain ⟨⟨soundSmall, soundLarge⟩, keysSmall, keysLarge⟩ :=
        split_hybrid blank 2 fits valid.2 (by omega)
      have parts : splitNode blank 0 leaf.node =
        some (.blindi .blindi8 (splitBlindiNode (c.params .blindi8) n blank blank).1,
          .blindi .blindi8 (splitBlindiNode (c.params .blindi8) n blank blank).2) := by
        rw [blindi]
        rfl
      generalize splitBlindiNode (c.params .blindi8) n blank blank =
        r at soundSmall soundLarge keysSmall keysLarge parts
      obtain ⟨s', split, divided⟩ := splitLeafNode_good (.blindi .blindi8 blank) good live parts
      have lengthSmall := soundSmall.1
      have last : (HybridNode.keys mem (.blindi .blindi8 r.1)).getLast? =
          some (maxKey mem (.blindi .blindi8 r.1)) :=
        keys_maxKey soundSmall.2.1
      rw [split, Option.bind_some]
      dsimp only
      have more : HybridNode.keys mem (.blindi .blindi8 r.2) ≠ [] := fun none => by
        have := congrArg List.length none
        have several := soundLarge.2.1.several
        rw [HybridNode.keys, List.length_map, length_entries, List.length_nil] at this
        omega
      rw [← length] at soundSmall soundLarge keysSmall keysLarge
      obtain ⟨right, left⟩ := room_divided good routes live divided
        (by rw [blindi, keysSmall, keysLarge, List.take_append_drop]) last more
          soundSmall soundLarge
        (by rw [blindi]; exact Iff.rfl) (by rw [blindi]; exact Iff.rfl)
      have whole : (HybridNode.keys mem (.blindi .blindi8 n)).length =
          BlindiLeafType.blindi8.slots c.leafslotmax := by
        rw [HybridNode.keys, List.length_map, length_entries]
        omega
      have half : leaf.slotuse / 2 = BlindiLeafType.blindi8.slots c.leafslotmax /
        2 := by rw [full, ← eq]
      have border : (∀ x ∈ HybridNode.keys mem (.blindi .blindi8 r.1), x < mem key) ↔
          maxKey mem (.blindi .blindi8 r.1) < mem key :=
        ⟨fun all => all _ (List.mem_of_getLast? last),
          fun above x inside =>
          (le_getLast (increasing_keys soundSmall.2.1) last inside).trans_lt above⟩
      have part : leaf.node.takingPart mem (mem key) =
        if maxKey mem (.blindi .blindi8 r.1) < mem key then
          HybridNode.keys mem (.blindi .blindi8 r.2)
              else HybridNode.keys mem (.blindi .blindi8 r.1) := by
        rw [blindi, HybridNode.takingPart, ElasticIndex.Tree.takingPart, if_pos whole, ← half,
          ← keysSmall, ← keysLarge]
        simp only [border]
      have one : BlindiLeafType.size .blindi8 = 8 := rfl
      rw [part]
      split_ifs with above
      · exact ⟨a, _, _, .blindi8, r.2, by rw [same], right above, rfl, rfl,
          by dsimp only; omega, rfl⟩
      · have top : mem (r.1.keyPtr (BlindiLeafType.blindi8.size * c.leafslotmax / 2 - 1)) =
            maxKey mem (.blindi .blindi8 r.1) := by
          have position : BlindiLeafType.blindi8.size * c.leafslotmax / 2 = r.1.validLen := by
            rw [← lengthSmall, ← length, full, Nat.mul_comm]
          rw [maxKey, position]
        rw [divided.left, Option.bind_some]
        dsimp only
        rw [top, if_neg above]
        exact ⟨a, _, _, .blindi8, r.1, by rw [same], left above, rfl, rfl,
          by dsimp only; omega, rfl⟩
  · rw [if_neg full]
    refine ⟨a, _, leaf, type, n, by rw [same], room_same good routes live, rfl,
      blindi, by omega, ?_⟩
    rw [blindi]
    cases type with
    | blindi8 =>
      have short : (HybridNode.keys mem (.blindi .blindi8 n)).length ≠
          BlindiLeafType.blindi8.slots c.leafslotmax := by
        rw [HybridNode.keys, List.length_map, length_entries]
        omega
      rw [HybridNode.takingPart, ElasticIndex.Tree.takingPart, if_neg short]
    | _ => rfl

theorem insertBlindi_spec (blank : SeqTreeBlindiNode) (fits : c.Fits)
    (good : HybridGood mem known 2 h.store (before ++ (sep, a) :: after))
    (routes : Routes (before ++ (sep, a) :: after) (mem key) before sep a after)
    (live : h.store.leaf a = some leaf) (blindi : leaf.node = .blindi type n)
    (inserted : key ∈ known) (missing : mem key ∉ leaf.node.keys mem)
    (child : inner.childid slot = a) :
    ∃ a' out, insertBlindi mem blank key h (some (inner, slot)) a leaf type n = some out ∧
      out.parent = some (inner.setChild slot a') ∧
      Done mem known 2 h.store before sep a leaf after key out.state.store a' out.split ∧
      out.result.2 = true ∧
      (out.state.store.keyOf (HybridNode.keys mem) out.result.1 = some (mem key) ↔
        ∀ k ∈ leaf.node.takingPart mem (mem key), mem key < k) := by
  obtain ⟨a', target, half, type', n', make, room, zero, node, capacity, part⟩ :=
    makeRoom_spec blank fits good routes live blindi child
  obtain ⟨before', sep', after', routes'⟩ := room.routes
  have valid : HybridSound mem known 2 half.slotuse half.node := by
    have good' := room.good
    rw [routes'.eq] at good'
    obtain ⟨leaf', live', valid, _⟩ := good'.leaf_at
    rw [room.live] at live'
    cases live'
    exact valid
  have missing' : mem key ∉ half.node.keys mem := fun inside => missing (room.sub _ inside)
  rw [node] at valid missing'
  have length := valid.1
  obtain ⟨success, sound, p, le, keys⟩ := insert_hybrid 2 fits inserted valid.2 (by omega) missing'
  have whole : (HybridNode.keys mem (.blindi type' n')).length = n'.validLen := by
    rw [HybridNode.keys, List.length_map, length_entries]
  have increasing := increasing_keys sound.2.1
  have members (x : c.Key) : x ∈
    HybridNode.keys mem (.blindi type'
    (insert2BlindiNodeWithKey (c := c.params type') mem n' key).2) ↔
      x = mem key ∨ x ∈ HybridNode.keys mem (.blindi type' n') := by
    rw [keys, List.mem_insertIdx (by omega)]
  rw [← length] at sound
  have done := room.write _ missing sound
    increasing (by rw [node]; exact members) (by rw [node]; exact Iff.rfl)
  refine ⟨a', _, by
    unfold insertBlindi
    rw [make, Option.bind_some]
    dsimp only
    rw [room.live, Option.bind_some, node], rfl, ?_, decide_eq_true success, ?_⟩
  · dsimp only
    rwa [if_neg success]
  · rw [← part, node, ← first_iff increasing missing' members, zero]
    simp [Store.keyOf]

end Blindi

end ElasticIndex.Tree.Hybrid
