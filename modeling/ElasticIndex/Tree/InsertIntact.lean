import ElasticIndex.Tree.EraseOne

set_option autoImplicit false

namespace ElasticIndex.Tree

open Separators SequenceEdit LinkedRow Loop

variable {K C N : Type} [LinearOrder K] {level : Nat} {slots : Slots} {mem : Addr → K}
  {T : NodeType K N} {Valid : N → Prop} {s : Store N} {leaf : Leaf N} {t : BTree K N}
  {Q : Row K (List K) → Prop} {tight : Prop} {key : Addr}

section Leaf

variable {row before after : Row K Ptr} {sep : WithBot K} {a : Ptr}

/-- The key goes into the leaf it is routed to, which has room; slot 0 is its slot if it is the
first key there. -/
structure Written (T : NodeType K N) (slots : Slots) (mem : Addr → K) (Valid : N → Prop)
    (Q : Row K (List K) → Prop) (s : Store N) (row : Row K Ptr) (a : Ptr)
    (leaf : Leaf N) (key : Addr) (s' : Store N) : Prop where
  strung : Strung (LeafSound T slots Valid) s' (cells row)
  held : Q (s'.pages (T.keys mem) row)
  keys : ∀ k, k ∈ allKeys (s'.pages (T.keys mem) row) ↔
    k = mem key ∨ k ∈ allKeys (s.pages (T.keys mem) row)
  first : s'.keyOf (T.keys mem) ⟨some a, 0⟩ = some (mem key) ↔
    ∀ k ∈ T.keys mem leaf.node, mem key < k

theorem Strung.insert_key (lawful : T.Lawful mem slots.leaf Valid) (discipline : Discipline tight Q)
    (strung : Strung (LeafSound T slots Valid) s (cells row)) (held : Q (s.pages (T.keys mem) row))
    (routes : Routes row (mem key) before sep a after) (live : s.leaf a = some leaf)
    (missing : mem key ∉ T.keys mem leaf.node) (room : leaf.slotuse ≠ slots.leaf) :
    ∃ node, Returns (fun rounds => T.insert2BlindiNodeWithKey rounds mem leaf.node key)
      (.success, node) ∧
      Written T slots mem Valid Q s row a leaf key
        (s.put a { leaf with node, slotuse := leaf.slotuse + 1 }) := by
  have routes' : Routes (s.pages (T.keys mem) row) (mem key) (s.pages (T.keys mem) before) sep
    (T.keys mem leaf.node)
      (s.pages (T.keys mem) after) := Routes.pages routes live
  obtain rfl := routes.eq
  rw [cells_append, cells_cons] at strung
  obtain ⟨leaf', live', valid, _⟩ := strung.leaf_at
  rw [live] at live'
  cases live'
  have counted := valid.counted
  have fits := valid.fits
  obtain ⟨node, returns, kept, p, le, pointers⟩ := lawful.insert valid.valid (by omega) missing
  have length := validLen_of_pointers pointers
  have count : (T.pointers leaf.node).length = T.getValidLen leaf.node := by
    simp [NodeType.pointers]
  rw [List.length_insertIdx, count, if_pos le] at length
  have inside (k : K) : k ∈ T.keys mem node ↔ k = mem key ∨ k ∈ T.keys mem leaf.node := by
    rw [keys_of_pointers pointers]
    exact mem_insertIdx_keys (by omega) k
  have left (x : Ptr) (inside : x ∈ cells before) : x ≠ a :=
    fun same => strung.apart.1 (same ▸ inside)
  have right (x : Ptr) (inside : x ∈ cells after) : x ≠ a :=
    fun same => strung.apart.2 (same ▸ inside)
  have pages : (s.put a { leaf with node, slotuse := leaf.slotuse + 1 }).pages (T.keys mem)
    (before ++ (sep, a) :: after) =
      s.pages (T.keys mem) before ++ (sep, T.keys mem node) :: s.pages (T.keys mem) after := by
    rw [pages_append, pages_cons, keysAt_of_leaf put_self,
      pages_congr fun x mem => put_other (left x mem),
      pages_congr fun x mem => put_other (right x mem)]
  refine ⟨node, returns, ?_, ?_, fun k => ?_, ?_⟩
  · rw [cells_append, cells_cons]
    exact strung.write live rfl rfl ⟨kept, by dsimp only; omega, by dsimp only; omega⟩
  · rw [pages]
    exact discipline.insert held routes' missing (lawful.increasing kept) inside
  · rw [pages, routes'.eq, mem_allKeys_page, mem_allKeys_page, inside]
    tauto
  · rw [← first_iff (lawful.increasing kept) missing inside]
    simp [Store.keyOf]

omit [LinearOrder K] in
theorem Strung.divided_pages {content : N → List K} {small large : N} {s' : Store N}
    (strung : Strung (LeafSound T slots Valid) s (cells before ++ a :: cells after))
    (live : s.leaf a = some leaf) (divided : Divided s a leaf small large s') (k : K) :
    s'.pages content (before ++ (sep, a) :: (↑k, s.fresh) :: after) =
      s.pages content before ++ (sep, content small) :: (↑k, content large) ::
        s.pages content after := by
  have front : s'.pages content before = s.pages content before :=
      List.map_congr_left fun e inside => by
    have at_ := List.mem_map_of_mem (f := Prod.snd) inside
    rw [strung.divided_keysAt live divided (List.mem_append_left _ at_) fun same =>
      strung.apart.1 (same ▸ at_)]
  have back : s'.pages content after = s.pages content after :=
      List.map_congr_left fun e inside => by
    have at_ := List.mem_map_of_mem (f := Prod.snd) inside
    rw [strung.divided_keysAt live divided (List.mem_append_right _ (List.mem_cons_of_mem _ at_))
      fun same => strung.apart.2 (same ▸ at_)]
  rw [pages_append, pages_cons, pages_cons, front, back, keysAt_of_leaf divided.left,
    keysAt_of_leaf divided.right]

/-- A full leaf is split, and one of the halves takes the key. -/
structure Halved (T : NodeType K N) (slots : Slots) (mem : Addr → K) (Valid : N → Prop)
    (Q : Row K (List K) → Prop) (s : Store N) (before : Row K Ptr) (sep : WithBot K) (a : Ptr)
    (leaf : Leaf N) (after : Row K Ptr) (key : Addr) (s' : Store N) (target : Ptr)
    (split : Option (K × Ptr)) : Prop where
  strung : Strung (LeafSound T slots Valid) s' (cells (before ++ splitRow sep a split ++ after))
  held : Q (s'.pages (T.keys mem) (before ++ splitRow sep a split ++ after))
  keys : ∀ k, k ∈ allKeys (s'.pages (T.keys mem) (before ++ splitRow sep a split ++ after)) ↔
    k ∈ allKeys (s.pages (T.keys mem) (before ++ (sep, a) :: after))
  routes : ∃ before' sep' after',
    Routes (before ++ splitRow sep a split ++ after) (mem key) before' sep' target after'
  half : ∃ half, s'.leaf target = some half ∧ half.slotuse ≠ slots.leaf ∧
    T.keys mem half.node = takingPart slots.leaf (T.keys mem leaf.node) (mem key)

theorem splitForKey_halved (lawful : T.Lawful mem slots.leaf Valid) (several : 2 ≤ slots.leaf)
    (discipline : Discipline tight Q) (strung : Strung (LeafSound T slots Valid) s (cells row))
    (held : Q (s.pages (T.keys mem) row)) (routes : Routes row (mem key) before sep a after)
    (live : s.leaf a = some leaf) (full : leaf.slotuse = slots.leaf) :
    ∃ s' target split, Returns (fun rounds => splitForKey T slots mem rounds key s a leaf)
      (s', target, split) ∧
      Halved T slots mem Valid Q s before sep a leaf after key s' target split := by
  obtain rfl := routes.eq
  rw [cells_append, cells_cons] at strung
  rw [pages_append, pages_cons, keysAt_of_leaf live] at held
  obtain ⟨leaf', live', valid, _, _⟩ := strung.leaf_at
  rw [live] at live'
  cases live'
  have counted := valid.counted
  obtain ⟨small, large, ⟨bound, halves⟩, validSmall, validLarge, first, second⟩ :=
    lawful.split valid.valid (by omega)
  have count : (T.pointers leaf.node).length = T.getValidLen leaf.node := by
    simp [NodeType.pointers]
  have lenSmall : T.getValidLen small = slots.leaf / 2 := by
    rw [validLen_of_pointers first, List.length_take, count]
    omega
  have lenLarge : T.getValidLen large = slots.leaf - slots.leaf / 2 := by
    rw [validLen_of_pointers second, List.length_drop, count]
    omega
  have neighbour : ∀ b, leaf.nextleaf = some b → b < s.fresh ∧ ∃ right, s.leaf b = some right := by
    intro b behind
    obtain ⟨_, _, old, right, live', _⟩ := strung.next_live live behind
    exact ⟨old, right, live'⟩
  have apart : leaf.nextleaf ≠ some a := fun behind => (strung.next_live live behind).2.1 rfl
  let cut (_ : N) : Option (N × N) := some (small, large)
  obtain ⟨s', split, divided⟩ := splitLeafNode_divided T.blank (getMaxKeyInNode T mem)
    (show cut leaf.node = some (small, large) from rfl) (strung.old a (by simp)) apart neighbour
  have last : (T.keys mem small).getLast? = some (getMaxKeyInNode T mem small) :=
    keys_getLast (lawful.nonempty validSmall)
  have keysSmall : T.keys mem small = (T.keys mem leaf.node).take (slots.leaf / 2) := by
    rw [keys_of_pointers first, List.map_take]
    rfl
  have keysLarge : T.keys mem large = (T.keys mem leaf.node).drop (slots.leaf / 2) := by
    rw [keys_of_pointers second, List.map_drop]
    rfl
  have whole : T.keys mem leaf.node = T.keys mem small ++ T.keys mem large := by
    rw [keysSmall, keysLarge, List.take_append_drop]
  have more : T.keys mem large ≠ [] := by
    rw [ne_eq, ← List.length_eq_zero_iff, keys_length]
    omega
  generalize splitkey : getMaxKeyInNode T mem small = k at *
  have left : s'.leaf a =
    some { leaf with slotuse := leaf.slotuse / 2, nextleaf := some s.fresh, node := small } :=
    divided.left
  have listed : before ++ splitRow sep a (some (k, s.fresh)) ++ after =
    before ++ (sep, a) :: (↑k, s.fresh) :: after := by simp [splitRow]
  refine ⟨s', if k < mem key then s.fresh else a, some (k, s.fresh), ⟨bound, fun rounds le => ?_⟩,
    ?_, ?_, fun x => ?_, ?_, ?_⟩
  · unfold splitForKey
    dsimp only
    rw [splitLeafNode_congr cut (halves rounds le), split, Option.bind_some]
    dsimp only
    split_ifs with above
    · rfl
    · have half : mem (T.getKeyPtr small (slots.leaf / 2 - 1)) = k := by
        rw [← splitkey, getMaxKeyInNode, lenSmall]
      rw [left, Option.map_some]
      dsimp only
      rw [half, if_neg above]
  · rw [listed, cells_append, cells_cons, cells_cons]
    exact strung.divide live divided ⟨validSmall, by omega, by omega⟩ ⟨validLarge,
      by omega, by omega⟩
  · rw [listed, strung.divided_pages live divided]
    rw [whole] at held
    exact discipline.cut held last more
  · rw [listed, strung.divided_pages live divided, pages_append, pages_cons,
      keysAt_of_leaf live, whole]
    simp only [allKeys, List.flatMap_append, List.flatMap_cons, List.mem_append]
    tauto
  · rw [listed]
    split_ifs with above
    · exact ⟨before ++ [(sep, a)], k, after, by simp, WithBot.coe_lt_coe.mpr above, routes.above⟩
    · refine ⟨before, sep, (↑k, s.fresh) :: after, rfl, routes.below, fun e mem => ?_⟩
      rcases List.mem_cons.mp mem with rfl | mem
      · exact WithBot.coe_le_coe.mpr (not_lt.mp above)
      · exact routes.above e mem
  · have length : (T.keys mem leaf.node).length = slots.leaf := by rw [keys_length]; omega
    rw [takingPart, if_pos length, ← keysSmall, ← keysLarge]
    have border : (∀ x ∈ T.keys mem small, x < mem key) ↔ k < mem key :=
      ⟨fun all => all k (List.mem_of_getLast? last),
        fun above x inside =>
        (le_getLast (lawful.increasing validSmall) last inside).trans_lt above⟩
    simp only [border]
    split_ifs with above
    · exact ⟨_, divided.right, by dsimp only; omega, rfl⟩
    · exact ⟨_, left, by dsimp only; omega, rfl⟩

/-- What the leaf part has done when the key was not there. -/
structure LeafInserted (T : NodeType K N) (slots : Slots) (mem : Addr → K) (Valid : N → Prop)
    (Q : Row K (List K) → Prop) (s : Store N) (before : Row K Ptr) (sep : WithBot K) (a : Ptr)
    (leaf : Leaf N) (after : Row K Ptr) (key : Addr)
    (out : LeafOutcome (Store N) K Ptr (Iterator × Bool)) : Prop where
  parent : out.parent = none
  success : out.result.2 = true
  strung : Strung (LeafSound T slots Valid) out.state
    (cells (before ++ splitRow sep a out.split ++ after))
  held : Q (out.state.pages (T.keys mem) (before ++ splitRow sep a out.split ++ after))
  keys : ∀ k, k ∈ allKeys
    (out.state.pages (T.keys mem) (before ++ splitRow sep a out.split ++ after)) ↔
    k = mem key ∨ k ∈ allKeys (s.pages (T.keys mem) (before ++ (sep, a) :: after))
  iterator : out.state.keyOf (T.keys mem) out.result.1 = some (mem key) ↔
    ∀ k ∈ takingPart slots.leaf (T.keys mem leaf.node) (mem key), mem key < k

theorem insertLeaf_strung (lawful : T.Lawful mem slots.leaf Valid) (several : 2 ≤ slots.leaf)
    (discipline : Discipline tight Q) (strung : Strung (LeafSound T slots Valid) s (cells row))
    (held : Q (s.pages (T.keys mem) row)) (routes : Routes row (mem key) before sep a after)
    (live : s.leaf a = some leaf) (missing : mem key ∉ T.keys mem leaf.node) :
    ∃ out, (∃ bound, ∀ rounds, bound ≤ rounds → ∀ parent,
        insertLeaf T slots mem rounds key s parent a = some out) ∧
      LeafInserted T slots mem Valid Q s before sep a leaf after key out := by
  by_cases full : leaf.slotuse = slots.leaf
  · obtain ⟨s', target, split, ⟨bound, returns⟩, halved⟩ :=
      splitForKey_halved lawful several discipline strung held routes live full
    obtain ⟨before', sep', after', routes'⟩ := halved.routes
    obtain ⟨half, live', room, part⟩ := halved.half
    have missing' : mem key ∉ T.keys mem half.node := by
      rw [part]
      exact fun inside => missing (takingPart_sub inside)
    obtain ⟨node, ⟨bound', insert⟩, written⟩ :=
      halved.strung.insert_key lawful discipline halved.held routes' live' missing' room
    refine ⟨{ state := s'.put target { half with node, slotuse := half.slotuse + 1 }, parent := none
              split, result := (⟨some target, 0⟩, true) },
      ⟨max bound bound', fun rounds le parent => ?_⟩, rfl, rfl, written.strung, written.held,
      fun k => (written.keys k).trans (or_congr_right (halved.keys k)), ?_⟩
    · have split_eq : splitForKey T slots mem rounds key s a leaf = some (s', target, split) :=
        returns rounds (le_trans (le_max_left _ _) le)
      have insert_eq : T.insert2BlindiNodeWithKey rounds mem half.node key =
          some (.success, node) :=
        insert rounds (le_trans (le_max_right _ _) le)
      unfold insertLeaf
      rw [live, Option.bind_some, if_pos full, split_eq, Option.bind_some]
      dsimp only
      rw [live', Option.bind_some, insert_eq]
      rfl
    · rw [← part]
      exact written.first
  · obtain ⟨node, ⟨bound, insert⟩, written⟩ :=
      strung.insert_key lawful discipline held routes live missing full
    have sound : LeafSound T slots Valid leaf.slotuse leaf.node := by
      rw [routes.eq, cells_append, cells_cons] at strung
      obtain ⟨leaf', live', sound, _⟩ := strung.leaf_at
      rw [live] at live'
      cases live'
      exact sound
    have short : (T.keys mem leaf.node).length ≠ slots.leaf := by
      rw [keys_length, ← sound.counted]
      exact full
    have listed : before ++ splitRow sep a none ++ after = row := by simp [splitRow, routes.eq]
    refine ⟨{ state := s.put a { leaf with node, slotuse := leaf.slotuse + 1 }, parent := none
              split := none, result := (⟨some a, 0⟩, true) },
      ⟨bound, fun rounds le parent => ?_⟩, rfl, rfl, listed ▸ written.strung, listed ▸ written.held,
      fun k => ?_, ?_⟩
    · have insert_eq : T.insert2BlindiNodeWithKey rounds mem leaf.node key =
          some (.success, node) :=
        insert rounds le
      unfold insertLeaf
      rw [live, Option.bind_some, if_neg full, Option.bind_some]
      dsimp only
      rw [live, Option.bind_some, insert_eq]
      rfl
    · rw [listed, ← routes.eq]
      exact written.keys k
    · rw [takingPart, if_neg short]
      exact written.first

end Leaf

section Sizes

variable {S R L : Type} {inner : InnerNode K C} {l : InnerNode K C} {slot most : Nat}

-- Both parts of a full inner node are half full, wherever the new child goes.
omit [LinearOrder K] in
theorem addNewchild_sizes {newchild : Option (K × C)} {r : Option (K × InnerNode K C)}
    (fits : inner.slotuse ≤ most) (inside : slot ≤ inner.slotuse)
    (add : addNewchild most inner slot newchild = some (l, r)) :
    l.slotuse ≤ most ∧ (r = none → inner.slotuse ≤ l.slotuse) ∧
      ∀ e ∈ r, most / 2 ≤ l.slotuse ∧ most / 2 ≤ e.2.slotuse ∧ e.2.slotuse ≤ most := by
  cases newchild with
  | none =>
    obtain ⟨rfl, rfl⟩ : inner = l ∧ none = r := by simpa [addNewchild] using add
    exact ⟨fits, fun _ => le_rfl, fun e none => by cases none⟩
  | some entry =>
    obtain ⟨newkey, newchild⟩ := entry
    have placed (node : InnerNode K C) {i : Nat} (le : i ≤ node.slotuse) :
        (node.place i newkey newchild).slotuse = node.slotuse + 1 := by
      have le' : i ≤ node.rest.length := le
      simp [InnerNode.place, InnerNode.slotuse, List.length_insertIdx, le']
    unfold addNewchild at add
    dsimp only at add
    by_cases full : inner.slotuse = most
    case neg =>
      rw [if_neg full] at add
      obtain ⟨rfl, rfl⟩ : inner.place slot newkey newchild = l ∧ none = r := by simpa using add
      rw [placed inner inside]
      exact ⟨by omega, fun _ => by omega, fun e none => by cases none⟩
    case pos =>
      rw [if_pos full] at add
      obtain ⟨⟨small, splitkey, large⟩, split, add⟩ := Option.map_eq_some_iff.mp add
      obtain ⟨sizeSmall, sizeLarge⟩ : small.slotuse = splitMid inner.slotuse slot ∧
          large.slotuse + splitMid inner.slotuse slot + 1 = inner.slotuse := by
        unfold splitInnerNode at split
        dsimp only at split
        generalize splitMid inner.slotuse slot = mid at split ⊢
        cases cut : inner.rest.drop mid with
        | nil => rw [cut] at split; cases split
        | cons entry rest =>
          rw [cut] at split
          cases split
          have length := congrArg List.length cut
          simp only [List.length_drop, List.length_cons] at length
          simp only [InnerNode.slotuse, List.length_take]
          omega
      have mid : splitMid inner.slotuse slot = if slot ≤ most / 2 ∧ most - (most / 2 + 1) < most / 2
          then most / 2 - 1 else most / 2 := by
        rw [full]
        rfl
      dsimp only at add
      split_ifs at add with border past <;> simp only [Prod.mk.injEq] at add <;>
        obtain ⟨rfl, rfl⟩ := add
      · refine ⟨?_, (fun none => by cases none), fun e same => ?_⟩
        · simp only [InnerNode.slotuse, List.length_append, List.length_singleton] at *
          split_ifs at mid <;> omega
        · cases same
          simp only [InnerNode.slotuse, List.length_append, List.length_singleton] at *
          split_ifs at mid <;> omega
      · have grown := placed large (i := slot - (small.slotuse + 1)) (by split_ifs at mid <;> omega)
        refine ⟨by split_ifs at mid <;> omega, (fun none => by cases none), fun e same => ?_⟩
        cases same
        rw [grown]
        split_ifs at mid <;> omega
      · have grown := placed small (i := slot) (by omega)
        rw [grown]
        refine ⟨by split_ifs at mid <;> omega, (fun none => by cases none), fun e same => ?_⟩
        cases same
        dsimp only
        split_ifs at mid <;> omega

theorem findLower_slotuse (inner : InnerNode K C) (x : K) : findLower inner.slotkey x ≤
    inner.slotuse := by
  simpa [InnerNode.slotkey, InnerNode.slotuse] using findLower_le inner.slotkey x

/-- An inner node that an insertion has passed, and its new sibling. -/
structure Grown (most level : Nat) (node node' : InnerNode K (Node K L level))
    (newchild : Option (K × InnerNode K (Node K L level))) :
    Prop where
  fits : node'.slotuse ≤ most
  alone : newchild = none → node.slotuse ≤ node'.slotuse
  both : ∀ e ∈ newchild, most / 2 ≤ node'.slotuse ∧ most / 2 ≤ e.2.slotuse ∧ e.2.slotuse ≤ most
  all : node'.All (Filled (most / 2) most level)
  allNew : ∀ e ∈ newchild, e.2.All (Filled (most / 2) most level)

omit [LinearOrder K] in
theorem Grown.filled {level : Nat} {node node' : InnerNode K (Node K L level)}
    {newchild : Option (K × InnerNode K (Node K L level))}
    (grown : Grown most level node node' newchild)
    (least : newchild = none → most / 2 ≤ node.slotuse) (sep : WithBot K) :
    ∀ e ∈ splitRow sep node' newchild, Filled (most / 2) most (level + 1) e.2 := by
  intro e inside
  rcases List.mem_cons.mp inside with rfl | inside
  · refine ⟨?_, grown.fits, grown.all⟩
    cases newchild with
    | none => exact (least rfl).trans (grown.alone rfl)
    | some entry => exact (grown.both entry rfl).1
  · cases newchild with
    | none => cases inside
    | some entry =>
      obtain rfl : e = (↑entry.1, entry.2) := by simpa using inside
      exact ⟨(grown.both entry rfl).2.1, (grown.both entry rfl).2.2, grown.allNew entry rfl⟩

-- A new child among filled ones.
omit [LinearOrder K] in
theorem addNewchild_grown {level : Nat} (child' : Node K L level)
    (newchild : Option (K × Node K L level)) {node l : InnerNode K (Node K L level)}
    {r : Option (K × InnerNode K (Node K L level))} {child : Node K L level}
    {before after : Row K (Node K L level)} {low sep : WithBot K} (positive : 0 < most)
    (fits : node.slotuse ≤ most) (all : node.All (Filled (most / 2) most level))
    (eq : row low node = before ++ (sep, child) :: after)
    (filled : ∀ e ∈ splitRow sep child' newchild, Filled (most / 2) most level e.2)
    (add : addNewchild most (node.setChild before.length child') before.length newchild =
      some (l, r)) : Grown most level node l r := by
  have changed := row_setChild eq child'
  obtain ⟨l', r', add', rows, _⟩ := addNewchild_row positive changed newchild
  have same := add.symm.trans add'
  simp only [Option.some.injEq, Prod.mk.injEq] at same
  obtain ⟨rfl, rfl⟩ := same
  have sizes := addNewchild_sizes (by rwa [slotuse_setChild])
    (by rw [slotuse_setChild]; exact (childid_of_row eq).1) add
  rw [slotuse_setChild] at sizes
  have everyone : ∀ e ∈ (splitRow low l r).flatMap (fun e => row e.1 e.2),
      Filled (most / 2) most level e.2 := by
    have old := (all_iff_row low).mp all
    rw [rows]
    rw [eq] at old
    intro e inside
    simp only [List.mem_append] at inside
    rcases inside with (inside | inside) | inside
    · exact old e (List.mem_append_left _ inside)
    · exact filled e inside
    · exact old e (List.mem_append_right _ (List.mem_cons_of_mem _ inside))
  have each := all_children.mpr everyone
  exact ⟨sizes.1, sizes.2.1, sizes.2.2, each (low, l) List.mem_cons_self, fun e same => by
    cases same
    exact each (↑e.1, e.2) (by simp [splitRow])⟩

theorem insertDescend_grown
    {leafPart : S → Option (InnerNode K L × Nat) → L → Option (LeafOutcome S K L R)}
    {s s' : S} {x : K} {res : R} {out : LeafOutcome S K L R} (positive : 0 < most)
    (keeps : out.parent = none) (level : Nat) {node node' : Node K L (level + 1)}
    {newchild : Option (K × Node K L (level + 1))} (fits : InnerNode.slotuse node ≤ most)
    (all : InnerNode.All (Filled (most / 2) most level) node)
    (leafRun : ∀ parent, leafPart s parent (descend x (level + 1) node) = some out)
    (run : insertDescend most leafPart x (level + 1) s node = some (s', node', newchild, res)) :
    Grown most level node node' newchild := by
  have inside : findLower (InnerNode.slotkey node) x ≤ InnerNode.slotuse node :=
    findLower_slotuse node x
  induction level generalizing s' res with
  | zero =>
    obtain ⟨out', leaf, rest⟩ :=
      Option.bind_eq_some_iff.mp ((insertDescend_one most leafPart x s node).symm.trans run)
    obtain ⟨⟨l, split⟩, add, same⟩ := Option.map_eq_some_iff.mp rest
    obtain rfl : out = out' := Option.some.inj ((leafRun _).symm.trans leaf)
    simp only [Prod.mk.injEq] at same
    obtain ⟨-, rfl, rfl, -⟩ := same
    obtain ⟨before, sep, after, eq, length⟩ := row_child (K := K) (C := L) ⊥ inside
    rw [keeps, Option.getD_none] at add
    refine addNewchild_grown (InnerNode.childid node (findLower (InnerNode.slotkey node) x))
      out.split positive fits all eq
      (fun _ _ => trivial) ?_
    rw [length, setChild_childid]
    exact add
  | succ level ih =>
    obtain ⟨⟨s₁, child, added, r₁⟩, deeper, rest⟩ :=
      Option.bind_eq_some_iff.mp ((insertDescend_succ most level leafPart x s node).symm.trans run)
    obtain ⟨⟨l, split⟩, add, same⟩ := Option.map_eq_some_iff.mp rest
    simp only [Prod.mk.injEq] at same
    obtain ⟨-, rfl, rfl, -⟩ := same
    obtain ⟨before, sep, after, eq, length⟩ :=
      row_child (K := K) (C := Node K L (level + 1)) ⊥ inside
    have old := (all_iff_row ⊥).mp all
    rw [eq] at old
    have here := old (sep, InnerNode.childid node (findLower (InnerNode.slotkey node) x)) (by simp)
    have grown := ih here.2.1 here.2.2 leafRun deeper (findLower_slotuse _ x)
    refine addNewchild_grown child added positive fits all eq
      (grown.filled (fun _ => here.1) sep) ?_
    rw [length]
    exact add

end Sizes

omit [LinearOrder K] in
theorem filledRoot_growRoot {node : Node K Ptr level} {newchild : Option (K × Node K Ptr level)}
    (positive : 0 < slots.inner) (alone : newchild = none → FilledRoot slots ⟨level, node⟩)
    (both : newchild ≠ none → ∀ e ∈ splitRow ⊥ node newchild,
      Filled (slots.inner / 2) slots.inner level e.2) :
    FilledRoot slots (growRoot node newchild) := by
  cases newchild with
  | none => exact alone rfl
  | some entry =>
    have filled := both (Option.some_ne_none _)
    exact ⟨le_rfl, positive, filled (⊥, node) List.mem_cons_self, fun e inside => by
      obtain rfl := List.mem_singleton.mp inside
      exact filled (↑entry.1, entry.2) (by simp [splitRow])⟩

/-- A key goes into a tree that does not hold it. -/
structure Inserted (T : NodeType K N) (slots : Slots) (mem : Addr → K) (Valid : N → Prop)
    (Q : Row K (List K) → Prop) (t : BTree K N) (key : Addr) (t' : BTree K N)
    (r : Iterator × Bool) : Prop where
  returns : Returns (fun rounds => t.insert T slots mem rounds key) (t', r)
  success : r.2 = true
  intact : Intact T slots mem Valid Q t'
  content : ∀ k, k ∈ t'.content T mem ↔ k = mem key ∨ k ∈ t.content T mem
  iterator : t'.store.keyOf (T.keys mem) r.1 = some (mem key) ↔ ∀ root, t.root = some root →
    ∀ k ∈ takingPart slots.leaf (t.store.keysAt (T.keys mem) (descend (mem key) root.1 root.2))
    (mem key), mem key < k

theorem Intact.insert_first (lawful : T.Lawful mem slots.leaf Valid)
    (discipline : Discipline tight Q) (several : 2 ≤ slots.leaf)
    (intact : Intact T slots mem Valid Q t) (new : t.root = none) (key : Addr) :
    ∃ t' r, Inserted T slots mem Valid Q t key t' r := by
  obtain ⟨node, ⟨bound, first⟩, valid, pointers⟩ := lawful.first key
  have keys : T.keys mem node = [mem key] := by
    rw [keys_of_pointers pointers]
    rfl
  have length : T.getValidLen node = 1 := by
    rw [validLen_of_pointers pointers]
    rfl
  have row : t.leaves = [] := by rw [BTree.leaves, new]
  have strung := intact.strung
  rw [row] at strung
  obtain ⟨a, at_⟩ : ∃ a, t.store.fresh = a := ⟨_, rfl⟩
  let leaf : Leaf N := { slotuse := 0, prevleaf := none, nextleaf := none, node := T.blank }
  let s : Store N := { (t.store.allocateLeaf T.blank).2 with
    headleaf := some a, tailleaf := some a }
  have live : s.leaf a = some leaf := by simp [s, leaf, Store.allocateLeaf, at_]
  have pages : (s.put a { leaf with node, slotuse := 1 }).pages (T.keys mem)
      [((⊥ : WithBot K), a)] = [(⊥, [mem key])] := by
    rw [pages_cons, keysAt_of_leaf put_self, keys]
    rfl
  refine ⟨{ root := some ⟨0, a⟩, store := s.put a { leaf with node, slotuse := 1 } },
    (⟨some a, 0⟩, true), ⟨bound, fun rounds le => ?_⟩,
    rfl, ⟨⟨fun b inside => ?_, fun b some_ => ?_, List.nodup_singleton a, fun b inside => ?_, ?_,
    rfl, rfl⟩, ?_, fun root same => ?_⟩,
    fun k => ?_, ?_⟩
  · have insert_eq : T.insert2BlindiNodeWithKey rounds mem T.blank key =
      some (.success, node) := first rounds le
    have leaf_eq : insertLeaf T slots mem rounds key s none a =
        some { state := s.put a { leaf with node, slotuse := 1 }, parent := none, split := none,
               result := (⟨some a, 0⟩, true) } := by
      unfold insertLeaf
      have room : ¬ leaf.slotuse = slots.leaf := by
        change ¬ 0 = slots.leaf
        omega
      rw [live, Option.bind_some, if_neg room, Option.bind_some]
      dsimp only
      rw [live, Option.bind_some, insert_eq]
      rfl
    unfold BTree.insert
    rw [new]
    dsimp only [Store.allocateLeaf]
    rw [at_]
    change ((insertLeaf T slots mem rounds key _ none a).map _).map _ = _
    have same : ({ (t.store.allocateLeaf T.blank).2 with headleaf := some a, tailleaf := some a } :
      Store N) = s := rfl
    simp only [Store.allocateLeaf, at_] at same
    rw [same, leaf_eq]
    rfl
  · obtain rfl := List.mem_singleton.mp inside
    exact ⟨_, put_self, valid, by dsimp only; omega, by dsimp only; omega⟩
  · by_contra other
    have ne : b ≠ a := fun same => other (List.mem_singleton.mpr same)
    refine some_ ((put_other ne).trans ?_)
    have old : s.leaf b = t.store.leaf b := by
      simp [s, Store.allocateLeaf, at_, ne]
    rw [old]
    by_contra alive
    exact List.not_mem_nil (strung.only b alive)
  · obtain rfl := List.mem_singleton.mp inside
    change b < t.store.fresh + 1
    rw [at_]
    exact Nat.lt_succ_self b
  · exact ⟨links_put_self, trivial⟩
  · change Q ((s.put a { leaf with node, slotuse := 1 }).pages (T.keys mem) [((⊥ : WithBot K), a)])
    rw [pages]
    exact discipline.single _
  · cases same
    trivial
  · change k ∈ allKeys
      ((s.put a { leaf with node, slotuse := 1 }).pages (T.keys mem) [((⊥ : WithBot K), a)]) ↔ _
    rw [pages, BTree.content, row]
    simp [allKeys]
  · refine ⟨fun _ root same => ?_, fun _ => by simp [Store.keyOf, keys]⟩
    rw [new] at same
    cases same

theorem Intact.insert_next (lawful : T.Lawful mem slots.leaf Valid)
    (discipline : Discipline tight Q) (several : 2 ≤ slots.leaf) (positive : 0 < slots.inner)
    (intact : Intact T slots mem Valid Q t) (some_ : t.root ≠ none)
    (missing : mem key ∉ t.content T mem) :
    ∃ t' r, Inserted T slots mem Valid Q t key t' r := by
  obtain ⟨root, eq⟩ := Option.ne_none_iff_exists'.mp some_
  have row : t.leaves = leaves root.1 ⊥ root.2 := by rw [BTree.leaves, eq]
  have strung := intact.strung
  have held := intact.pages
  have filled := intact.filled root eq
  obtain ⟨leaf, live, _, iff⟩ := intact.at_ discipline eq (mem key)
  rw [row] at strung held
  have ascending : Ascending (leaves root.1 ⊥ root.2) := by
    have pages := (discipline.loose held).ascending
    rw [Ascending, Store.pages, List.pairwise_map] at pages
    exact pages
  obtain ⟨before, sep, after, routes, spec⟩ :=
    insertDescend_leaves (S := Store N) (R := Iterator × Bool) positive (mem key)
    root.1 root.2 ascending
  obtain ⟨out, ⟨bound, runs⟩, keeps, success, strung', held', keys, iterator⟩ :=
    insertLeaf_strung lawful several discipline strung held routes live (iff.not.mp missing)
  obtain ⟨node', newchild, rows, result⟩ := spec out keeps
  have done (rounds : Nat) (le : bound ≤ rounds) :=
    result (insertLeaf T slots mem rounds key) t.store (runs rounds le)
  rw [← rows] at strung' held' keys
  refine ⟨{ root := some (growRoot node' newchild), store := out.state }, out.result,
    ⟨bound, fun rounds le => ?_⟩, success,
    ⟨strung', held', fun root' same => ?_⟩, fun k => ?_, ?_⟩
  · unfold BTree.insert
    rw [eq]
    dsimp only
    rw [done rounds le]
    rfl
  · cases same
    obtain ⟨level, node⟩ := root
    cases level with
    | zero => exact filledRoot_growRoot positive (fun _ => trivial) fun _ _ _ => trivial
    | succ level =>
      have grown := insertDescend_grown positive keeps level filled.2.1 filled.2.2
        (runs bound le_rfl) (done bound le_rfl)
      exact filledRoot_growRoot positive
        (fun alone => ⟨filled.1.trans (grown.alone alone), grown.fits, grown.all⟩)
        fun both => grown.filled (fun alone => absurd alone both) ⊥
  · change k ∈ allKeys (out.state.pages (T.keys mem) (leaves _ ⊥ _)) ↔ _
    rw [keys, BTree.content, row, ← routes.eq]
  · have page : t.store.keysAt (T.keys mem) (descend (mem key) root.1 root.2) =
        T.keys mem leaf.node :=
      keysAt_of_leaf live
    rw [iterator, ← page]
    constructor
    · intro smaller root' same
      rw [eq] at same
      cases same
      exact smaller
    · exact fun smaller => smaller root eq

end ElasticIndex.Tree
