import ElasticIndex.Tree.EraseFrame

set_option autoImplicit false

namespace ElasticIndex.Tree

open Separators LinkedRow Loop

variable {K C N : Type} [LinearOrder K] {low sep sa sb : WithBot K} {slots : Slots} {mem : Addr → K}
  {T : EraseType K N} {Valid : N → Prop} {s s₁ : Store N} {x : K} {asserts : Bool}
  {before after : List Ptr} {a b curr : Ptr}
  {parent parent₁ : InnerNode K Ptr} {front back rows rows' rows₁ : Row K Ptr} {leaf L R : Leaf N}

omit [LinearOrder K] in
theorem leaves_one (inner : InnerNode K Ptr) : leaves 1 low inner = row low inner :=
  List.flatMap_singleton' _

omit [LinearOrder K] in
theorem resep_resep (k : K) (bound : Option K) (row : Row K C) :
    resep (some k) (resep bound row) = resep (some k) row := by
  cases bound <;> cases row <;> rfl

-- The last key that is left, when a leaf has lost its last one and is not empty.
def newLast (T : EraseType K N) (mem : Addr → K) (leaf : Leaf N) (slot : Nat) : Option K :=
  if slot = leaf.slotuse ∧ 1 ≤ leaf.slotuse then some (lastOf T mem leaf) else none

omit [LinearOrder K] in
theorem updateLast_row (T : EraseType K N) (mem : Addr → K) (asserts : Bool) (leaf : Leaf N)
    {slot : Nat} (eq : row low parent = front ++ (sep, curr) :: back)
    (passes : asserts = true → slot = leaf.slotuse → back = [] → 1 ≤ leaf.slotuse) :
    ∃ parent₁, updateLast T mem asserts leaf slot (some (parent, front.length)) =
        some (some parent₁, if back = [] then newLast T mem leaf slot else none) ∧
      row low parent₁ = front ++ (sep, curr) :: resep (newLast T mem leaf slot) back := by
  have total := slotuse_of_row eq
  unfold updateLast newLast
  by_cases last : slot = leaf.slotuse
  · by_cases more : 1 ≤ leaf.slotuse
    · cases back with
      | nil => exact ⟨parent, by simp [last, total, more], by rw [eq, resep_nil]⟩
      | cons e back =>
        exact ⟨parent.setKey front.length (lastOf T mem leaf),
          by simp [last, total, Nat.pos_of_ne_zero (by omega : leaf.slotuse ≠ 0)],
          by rw [if_pos ⟨last, more⟩]; exact row_setKey eq _⟩
    · cases back with
      | nil =>
        have off : asserts = false := by
          by_contra on
          exact more (passes (by simpa using on) last rfl)
        exact ⟨parent, by simp [last, total, more, off], by rw [eq, resep_nil]⟩
      | cons e back =>
        exact ⟨parent, by simp [last, total, Nat.eq_zero_of_not_pos more],
          by rw [eq, if_neg fun h => more h.2, resep_none]⟩
  · exact ⟨parent, by simp [last], by rw [eq, if_neg fun h => last h.1, resep_none]⟩

-- The sibling to merge with, if there is one.
omit [LinearOrder K] in
theorem joins_of_live (slots : Slots) (n : Nat) (here : Bool) {sibling : Option Ptr}
    (live : ∀ a ∈ sibling, s.leaf a ≠ none) :
    ∃ b, joins slots s n sibling here = some b ∧
      (b = true ↔ here = true ∧ ∃ a leaf, sibling = some a ∧ s.leaf a = some leaf ∧
        n + leaf.slotuse ≤ slots.leaf) := by
  unfold joins
  cases sibling with
  | none => exact ⟨false, rfl, by simp⟩
  | some a =>
    obtain ⟨leaf, eq⟩ := Option.ne_none_iff_exists'.mp (live a rfl)
    exact ⟨decide (n + leaf.slotuse ≤ slots.leaf) && here, by simp [eq], by simp [eq, and_comm]⟩

-- What a leaf with a parent becomes: it is kept, or it merges with the leaf on its left or on its
-- right.
omit [LinearOrder K] in
theorem underflowLeaf_cases (T : EraseType K N) (mem : Addr → K) {around : Around K 0}
    {front back : Row K (Node K Ptr 0)} (several : 2 ≤ slots.leaf) (above : around.parent ≠ none)
    (beside : Beside around front back) (some_ : front ≠ [] ∨ back ≠ [])
    (left : ∀ a ∈ around.left, s.leaf a ≠ none) (right : ∀ a ∈ around.right, s.leaf a ≠ none)
    (fits : ∀ e ∈ front ++ back, ∀ leaf, s.leaf e.2 = some leaf → leaf.slotuse ≤ slots.leaf)
    (parent : Option (InnerNode K Ptr)) (lastkey : Option K) (curr : Ptr) (n : Nat) :
    (1 ≤ n ∧ ∀ rounds, underflowLeaf T slots mem rounds s around parent lastkey curr n =
        some { store := s, parent, root := some ⟨0, curr⟩,
               result := { notFound := false, updateLastkey := lastkey, fixmerge := false } }) ∨
      ∃ a b, ((∃ rows sl leaf, curr = b ∧ front = rows ++ [(sl, a)] ∧ s.leaf a = some leaf ∧
      n + leaf.slotuse ≤ slots.leaf) ∨
          ∃ sr rows leaf, curr = a ∧ back = (sr, b) :: rows ∧ s.leaf b = some leaf ∧
          n + leaf.slotuse ≤ slots.leaf) ∧
        ∀ rounds, underflowLeaf T slots mem rounds s around parent lastkey curr n =
        (mergeLeaves T mem rounds s a b).map fun s =>
          { store := s, parent, root := some ⟨0, curr⟩,
            result := { notFound := false, updateLastkey := lastkey, fixmerge := true } } := by
  obtain ⟨up, above⟩ := Option.ne_none_iff_exists'.mp above
  obtain ⟨toLeft, joinsLeft, iffLeft⟩ :=
    joins_of_live slots n (decide (around.leftparent = some 1)) left
  obtain ⟨toRight, joinsRight, iffRight⟩ :=
    joins_of_live slots n (decide (around.rightparent = some 1)) right
  unfold underflowLeaf
  dsimp only
  by_cases enough : slots.leaf / 2 ≤ n
  · exact .inl ⟨by omega, fun rounds => if_pos enough⟩
  · simp only [if_neg enough, above, joinsLeft, joinsRight, Option.bind_some]
    cases toLeft with
    | true =>
      obtain ⟨here, a, leaf, sibling, live, room⟩ := iffLeft.mp rfl
      refine .inr ⟨a, curr, .inl ?_, fun rounds => by rw [if_pos rfl, sibling]; rfl⟩
      rcases List.eq_nil_or_concat' front with none | ⟨rows, e, rfl⟩
      · exact absurd (by simpa using here) (beside.farLeft none)
      · obtain ⟨same, _⟩ := beside.left e List.getLast?_concat
        rw [sibling] at same
        cases same
        exact ⟨rows, e.1, leaf, rfl, rfl, live, room⟩
    | false =>
      cases toRight with
      | true =>
        obtain ⟨here, b, leaf, sibling, live, room⟩ := iffRight.mp rfl
        refine .inr ⟨curr, b, .inr ?_, fun rounds => by
          rw [if_neg (by simp), if_pos rfl, sibling]; rfl⟩
        cases back with
        | nil => exact absurd (by simpa using here) (beside.farRight rfl)
        | cons e rows =>
          obtain ⟨same, _⟩ := beside.right e rfl
          rw [sibling] at same
          cases same
          exact ⟨e.1, rows, leaf, rfl, rfl, live, room⟩
      | false =>
        refine .inl ⟨?_, fun rounds => by simp⟩
        -- An empty leaf would fit beside either sibling.
        by_contra none
        obtain rfl : n = 0 := by omega
        rcases some_ with ne | ne
        · obtain ⟨rows, e, rfl⟩ := (List.eq_nil_or_concat' front).resolve_left ne
          obtain ⟨sibling, here⟩ := beside.left e List.getLast?_concat
          obtain ⟨leaf, live⟩ := Option.ne_none_iff_exists'.mp (left e.2 sibling)
          have room := fits e (by simp) leaf live
          exact absurd (iffLeft.mpr ⟨by simpa using here, e.2, leaf, sibling, live,
            by omega⟩) (by simp)
        · obtain ⟨e, rows, rfl⟩ := List.exists_cons_of_ne_nil ne
          obtain ⟨sibling, here⟩ := beside.right e rfl
          obtain ⟨leaf, live⟩ := Option.ne_none_iff_exists'.mp (right e.2 sibling)
          have room := fits e (by simp) leaf live
          exact absurd (iffRight.mpr ⟨by simpa using here, e.2, leaf, sibling, live,
            by omega⟩) (by simp)

-- The parent lets go of the leaf that a merge has emptied.
omit [LinearOrder K] in
theorem fixMerge_row (T : EraseType K N) (mem : Addr → K) {inner : InnerNode K Ptr} {slot : Nat}
    (eq : row low inner = rows ++ (sa, a) :: (sb, b) :: rows')
    (at_ : slot = rows.length ∨ slot = rows.length + 1) (left : s.leaf a = some L)
    (some_ : L.slotuse ≠ 0) (right : s.leaf b = some R) (gone : R.slotuse = 0) :
    ∃ inner', fixMerge T mem 0 s inner slot = some (s.free b, inner') ∧
      row low inner' = rows ++ (sa, a) :: resep
        (some (getMaxKeyInNode T.toNodeType mem L.node)) rows' := by
  obtain ⟨inner', remove, row'⟩ := row_removeChild eq
  have here := (childid_of_row eq).2
  have next : row low inner = (rows ++ [(sa, a)]) ++ (sb, b) :: rows' := by
    rw [eq, List.append_assoc]; rfl
  have there := (childid_of_row next).2
  rw [List.length_append, List.length_singleton] at there
  have kept := (childid_of_row row').2
  have ne : a ≠ b := by
    rintro rfl
    rw [left] at right
    cases right
    exact some_ gone
  have live : (s.free b).leaf a = some L := (Function.update_of_ne ne ..).trans left
  refine ⟨inner'.setKey rows.length (getMaxKeyInNode T.toNodeType mem L.node), ?_,
    row_setKey row' _⟩
  rcases at_ with rfl | rfl
  · simp only [fixMerge, here, left, Option.bind_some, if_pos some_, there, remove,
      Nat.add_sub_cancel, kept, live, Option.map_some]
  · simp only [fixMerge, there, right, Option.bind_some, gone, ne_eq, not_true_eq_false, if_false,
      remove, Nat.add_sub_cancel, kept, live, Option.map_some]

/-- The leaf after the removal, before anything is done about an underflow. -/
structure Removed (T : EraseType K N) (slots : Slots) (mem : Addr → K) (Valid : N → Prop) (x : K)
    (leaf leaf' : Leaf N) (slot : Nat) :
    Prop where
  slotuse : leaf'.slotuse + 1 = leaf.slotuse
  counted : leaf'.slotuse = T.getValidLen leaf'.node
  valid : 1 ≤ leaf'.slotuse → Valid leaf'.node
  fits : leaf'.slotuse ≤ slots.leaf
  keys : T.keys mem leaf'.node = (T.keys mem leaf.node).erase x
  prev : leaf'.prevleaf = leaf.prevleaf
  next : leaf'.nextleaf = leaf.nextleaf
  last : ∀ k ∈ newLast T mem leaf' slot, (T.keys mem leaf'.node).getLast? = some k
  same : newLast T mem leaf' slot = none → T.keys mem leaf.node = [x] ∨
    (T.keys mem leaf'.node).getLast? = (T.keys mem leaf.node).getLast?
  alone : slot = leaf'.slotuse → ¬ 1 ≤ leaf'.slotuse → T.keys mem leaf.node = [x]

/-- What merge_leaves and the free_node after it make of two neighbours. -/
structure Joined (T : EraseType K N) (slots : Slots) (mem : Addr → K) (Valid : N → Prop)
    (s₁ : Store N) (before after : List Ptr) (a b : Ptr) (L R merged : Leaf N)
    (s₂ : Store N) : Prop where
  returns : Returns (fun rounds => mergeLeaves T mem rounds s₁ a b) s₂
  left : s₂.leaf a = some merged
  sound : LeafSound T.toNodeType slots Valid merged.slotuse merged.node
  keys : T.keys mem merged.node = T.keys mem L.node ++ T.keys mem R.node
  right : s₂.leaf b = some { R with slotuse := 0 }
  here : (s₂.free b).leaf a = some merged
  others : ∀ y, y ≠ a → y ≠ b → (s₂.free b).body y = s₁.body y
  strung : Strung (fun _ _ => True) (s₂.free b) (before ++ a :: after)

theorem mergeLeaves_joined {removable : N → K → Prop}
    (lawful : T.Lawful mem slots.leaf Valid removable)
    (strung : Strung (fun _ _ => True) s₁ (before ++ a :: b :: after)) (left : s₁.leaf a = some L)
    (right : s₁.leaf b = some R) (countL : L.slotuse = T.getValidLen L.node)
    (countR : R.slotuse = T.getValidLen R.node) (validL : Valid L.node ∨ L.slotuse = 0)
    (validR : Valid R.node ∨ R.slotuse = 0) (one : Valid L.node ∨ Valid R.node)
    (room : L.slotuse + R.slotuse ≤ slots.leaf)
    (apart : ∀ k ∈ T.keys mem L.node, ∀ k' ∈ T.keys mem R.node, k < k') :
    ∃ merged s₂, Joined T slots mem Valid s₁ before after a b L R merged s₂ := by
  obtain ⟨node, ⟨rounds, merges⟩, valid, keys⟩ :=
    lawful.merge (validL.imp_right fun zero => countL ▸ zero)
    (validR.imp_right fun zero => countR ▸ zero) one apart (by omega)
  have length : T.getValidLen node = L.slotuse + R.slotuse := by
    have size : (T.keys mem node).length = T.getValidLen node := keys_length node
    rw [← size, keys, List.length_append, keys_length, keys_length, countL, countR]
  obtain ⟨s₂, runs, bodyA, leafB, bodies, strung₂⟩ := strung.merge (K := K) left right node
  obtain ⟨merged, leafA, same⟩ := Option.map_eq_some_iff.mp bodyA
  obtain ⟨size, rfl⟩ : merged.slotuse = L.slotuse + R.slotuse ∧ merged.node = node :=
    ⟨congrArg Prod.fst same, congrArg Prod.snd same⟩
  have ne : a ≠ b := fun same =>
    (List.nodup_cons.mp (List.nodup_append.mp strung.distinct).2.1).1 (same ▸ List.mem_cons_self)
  refine ⟨merged, s₂, ⟨rounds, fun n le => runs T mem n (merges n le)⟩, leafA,
    ⟨valid, by omega, by omega⟩, keys, leafB,
    (Function.update_of_ne ne ..).trans leafA, fun y neA neB => ?_, strung₂⟩
  rw [← bodies y neA neB, Store.body, Store.body]
  exact congrArg _ (Function.update_of_ne neB ..)

-- A merge of two leaves of one parent, one of which has just lost the key.
theorem erases_pair {removable : N → K → Prop}
    (lawful : T.Lawful mem slots.leaf Valid removable) {slot : Nat} {around : Around K 0}
    {parent : InnerNode K (Node K Ptr 0)} {pending : Option K}
    (eq : row low parent = rows ++ (sa, a) :: (sb, b) :: rows')
    (eq₁ : row low parent₁ = rows ++ (sa, a) :: (sep, b) :: rows₁)
    (same : ∀ k : K, resep (some k) rows₁ = resep (some k) rows')
    (at_ : slot = rows.length ∨ slot = rows.length + 1)
    (strung : Strung (LeafSound T.toNodeType slots Valid) s
      (before ++ cells (row low parent) ++ after))
    (strung₁ : Strung (fun _ _ => True) s₁ (before ++ cells (row low parent) ++ after))
    (bodies : ∀ y, y ≠ a → y ≠ b → s₁.body y = s.body y) (left : s₁.leaf a = some L)
    (right : s₁.leaf b = some R) (countL : L.slotuse = T.getValidLen L.node)
    (countR : R.slotuse = T.getValidLen R.node) (validL : Valid L.node ∨ L.slotuse = 0)
    (validR : Valid R.node ∨ R.slotuse = 0) (one : Valid L.node ∨ Valid R.node)
    (room : L.slotuse + R.slotuse ≤ slots.leaf)
    (inside : x ∈ s.keysAt (T.keys mem) a ++ s.keysAt (T.keys mem) b)
    (keys : T.keys mem L.node ++ T.keys mem R.node =
      (s.keysAt (T.keys mem) a ++ s.keysAt (T.keys mem) b).erase x)
    (sorted : (s.keysAt (T.keys mem) a ++ s.keysAt (T.keys mem) b).Pairwise (· < ·))
    (noMore : rows' ≠ [] → pending = none)
    (pendingLast : ∀ k ∈ pending, (T.keys mem L.node ++ T.keys mem R.node).getLast? = some k)
    (pendingSame : ¬ LastAlone (T.keys mem) s x 0 parent → rows' = [] → pending = none →
      (T.keys mem L.node ++ T.keys mem R.node).getLast? =
      (s.keysAt (T.keys mem) a ++ s.keysAt (T.keys mem) b).getLast?)
    {enough : Nat} (run : ∀ rounds, enough ≤ rounds →
      eraseLeaf T slots mem asserts rounds x s around curr =
      (mergeLeaves T mem rounds s₁ a b).map fun s =>
      { store := s, parent := some parent₁, root := some ⟨0, curr⟩,
        result := { notFound := false, updateLastkey := pending, fixmerge := true } }) :
    ∃ out s' parent' edit,
    Returns (fun rounds => eraseLeaf T slots mem asserts rounds x s around curr) out ∧
      Erases T slots mem Valid s parent low slot before after x edit out s' parent' := by
  have cells_ : before ++ cells (row low parent) ++ after =
      (before ++ cells rows) ++ a :: b :: (cells rows' ++ after) := by
    rw [eq]
    simp
  rw [cells_] at strung strung₁
  have ordered := sorted.sublist (keys ▸ List.erase_sublist :
    (T.keys mem L.node ++ T.keys mem R.node).Sublist
    (s.keysAt (T.keys mem) a ++ s.keysAt (T.keys mem) b))
  obtain ⟨merged, s₂, joined⟩ :=
    mergeLeaves_joined lawful strung₁ left right countL countR validL validR one room
    (List.pairwise_append.mp ordered).2.2
  have some_ := lawful.nonempty joined.sound.valid
  have last : (T.keys mem merged.node).getLast? =
    some (getMaxKeyInNode T.toNodeType mem merged.node) := keys_getLast some_
  have counted := joined.sound.counted
  obtain ⟨parent', fixed, row'⟩ :=
    fixMerge_row T mem eq₁ at_ joined.left (by omega) joined.right rfl
  rw [same] at row'
  generalize getMaxKeyInNode T.toNodeType mem merged.node = k at last row'
  rw [joined.keys] at last
  have keysA : (s₂.free b).keysAt (T.keys mem) a = T.keys mem L.node ++ T.keys mem R.node := by
    rw [keysAt_of_leaf joined.here, joined.keys]
  have others (y : Ptr) (neA : y ≠ a) (neB : y ≠ b) : (s₂.free b).body y = s.body y :=
    (joined.others y neA neB).trans (bodies y neA neB)
  have pages : allKeys (s.pages (T.keys mem) [(sa, a), (sb, b)]) =
      s.keysAt (T.keys mem) a ++ s.keysAt (T.keys mem) b := by
    simp [allKeys, Store.pages]
  have sizes : parent.slotuse = parent'.slotuse + 1 := by
    have size := slotuse_of_row eq
    have size' := slotuse_of_row row'
    have same_ : (resep (some k) rows').length = rows'.length := by
      rw [← List.length_map (f := Prod.snd), map_snd_resep, List.length_map]
    rw [List.length_cons] at size
    omega
  refine ⟨_, s₂.free b, parent',
    { middle := [(sa, a), (sb, b)], low := sa, cell := a,
      bound := if rows' = [] then pending else some k },
    .of_eventually run (joined.returns.map _), rfl, (if_pos rfl).trans fixed,
    ⟨rows, rows', by rw [leaves_one, eq]; simp, ?_, ?_⟩,
    ⟨⟨a, [(sb, b)], rfl⟩, by rwa [pages], by rw [pages, ← keys]; exact keysA, fun y out => ?_,
    fun k' mem' => ?_, fun alone none => ?_⟩,
    ?_, fun _ _ => trivial, sizes.le, by omega⟩
  · rw [leaves_one, row']
    by_cases none : rows' = []
    · rw [none, resep_nil, resep_nil]
    · rw [if_neg none]
  · by_cases none : rows' = []
    · simp [none]
    · rw [if_neg none]
      exact noMore none
  · simp only [cells, List.map_cons, List.map_nil, List.mem_cons, List.not_mem_nil,
      or_false, not_or] at out
    exact others y out.1 out.2
  · rw [keysA]
    by_cases none : rows' = []
    · rw [if_pos none] at mem'
      exact pendingLast k' mem'
    · rw [if_neg none] at mem'
      cases mem'
      exact last
  · rw [keysA, pages]
    by_cases more : rows' = []
    · rw [if_pos more] at none
      exact pendingSame alone more none
    · rw [if_neg more] at none
      cases none
  · have list : before ++ cells (leaves 1 low parent') ++ after =
        (before ++ cells rows) ++ a :: (cells rows' ++ after) := by
      rw [leaves_one, row', cells_append, cells_cons, cells, cells, map_snd_resep]
      simp [cells]
    rw [list]
    refine strung.restore (a := a) joined.strung (fun y mem' => ?_) fun leaf live => ?_
    · by_cases hereA : y = a
      · exact .inl hereA
      · have old := ((List.Sublist.refl (before ++ cells rows)).append
          ((List.sublist_cons_self b (cells rows' ++ after)).cons_cons a)).subset mem'
        refine .inr ⟨old, others y hereA ?_⟩
        rintro rfl
        exact joined.strung.alive mem' (Function.update_self ..)
    · rw [joined.here] at live
      cases live
      exact joined.sound

theorem getLast_erase {keys : List K} {p : Nat} (increasing : keys.Pairwise (· < ·))
    (here : keys[p]? = some x) (inner : p + 1 ≠ keys.length) :
    (keys.erase x).getLast? = keys.getLast? := by
  obtain ⟨lt, same⟩ := List.getElem?_eq_some_iff.mp here
  have split : keys = keys.take p ++ x :: keys.drop (p + 1) := by
    rw [← same, ← List.drop_eq_getElem_cons, List.take_append_drop]
  have more : keys.drop (p + 1) ≠ [] := by
    rw [ne_eq, List.drop_eq_nil_iff]
    omega
  have missing : x ∉ keys.take p := fun inside => by
    rw [split] at increasing
    exact lt_irrefl x ((List.pairwise_append.mp increasing).2.2 x inside x List.mem_cons_self)
  rw [split] at increasing ⊢
  rw [List.erase_append_right _ missing, List.erase_cons_head,
    List.getLast?_append_of_ne_nil _ more, List.getLast?_append_of_ne_nil _ (List.cons_ne_nil _ _),
    List.getLast?_cons_of_ne_nil more]

theorem remove_removed {removable : N → K → Prop} (lawful : T.Lawful mem slots.leaf Valid removable)
    (sound : LeafSound T.toNodeType slots Valid leaf.slotuse leaf.node)
    (stored : x ∈ T.keys mem leaf.node) (removes : removable leaf.node x) :
    ∃ r leaf', Returns (fun rounds => T.searchBlindiNode rounds mem leaf.node x .point) r ∧
    r.hit = true ∧
      Returns (fun rounds => (T.removeFromBlindiNodeWithKey rounds mem leaf.node x).map fun node =>
        { leaf with slotuse := leaf.slotuse - 1, node }) leaf' ∧
        Removed T slots mem Valid x leaf leaf' r.position := by
  obtain ⟨r, search, hit, found⟩ := lawful.point sound.valid x
  obtain ⟨node, remove, valid, keys⟩ := lawful.remove sound.valid stored removes
  have hit := hit.mpr stored
  have here := found hit
  have counted := sound.counted
  have fits := sound.fits
  have count : (T.keys mem leaf.node).length = T.getValidLen leaf.node := keys_length leaf.node
  have size : (T.keys mem node).length = T.getValidLen node := keys_length node
  have length : T.getValidLen node + 1 = leaf.slotuse := by
    rw [← size, keys, List.length_erase_of_mem stored, count, counted]
    have some_ := lawful.nonempty sound.valid
    omega
  have single : T.getValidLen node = 0 → T.keys mem leaf.node = [x] := fun zero => by
    obtain ⟨k, eq⟩ := List.length_eq_one_iff.mp (count.trans (by omega))
    rw [eq] at stored ⊢
    rw [List.mem_singleton.mp stored]
  refine ⟨r, { leaf with slotuse := leaf.slotuse - 1, node }, search, hit, remove.map _, ?_⟩
  refine ⟨by dsimp only; omega, by dsimp only; omega,
    fun some_ => valid (by dsimp only at some_; omega), by dsimp only; omega, keys, rfl, rfl,
    fun k mem' => ?_, fun none => ?_, fun _ none => single (by dsimp only at none; omega)⟩
  · unfold newLast at mem'
    split_ifs at mem' with last
    · cases mem'
      have max : (T.keys mem node).getLast? = some (getMaxKeyInNode T.toNodeType mem node) :=
        keys_getLast (by have := last.2; dsimp only at this; omega)
      rw [max, lastOf, getMaxKeyInNode]
      dsimp only
      rw [show leaf.slotuse - 1 = T.getValidLen node by omega]
    · cases mem'
  · unfold newLast at none
    by_cases last : r.position = leaf.slotuse - 1 ∧ 1 ≤ leaf.slotuse - 1
    · rw [if_pos last] at none
      cases none
    · by_cases zero : T.getValidLen node = 0
      · exact .inl (single zero)
      · refine .inr ?_
        dsimp only
        rw [keys]
        refine getLast_erase (lawful.increasing sound.valid) here fun end_ => last ⟨?_, by omega⟩
        omega

-- The call down to the treatment of an underflow.
omit [LinearOrder K] in
theorem eraseLeaf_underflow (slots : Slots) (asserts : Bool) (around : Around K 0)
    {parent₁ : Option (InnerNode K Ptr)} {lastkey : Option K} {r : Found}
    (live : s.leaf curr = some leaf)
    (search : Returns (fun rounds => T.searchBlindiNode rounds mem leaf.node x .point) r)
    (hit : r.hit = true)
    (remove : Returns (fun rounds =>
      (T.removeFromBlindiNodeWithKey rounds mem leaf.node x).map fun node =>
      { leaf with slotuse := leaf.slotuse - 1, node }) L)
    (update : updateLast T mem asserts L r.position around.parent = some (parent₁, lastkey)) :
    ∃ enough, ∀ rounds, enough ≤ rounds → eraseLeaf T slots mem asserts rounds x s around curr =
      underflowLeaf T slots mem rounds (s.put curr L) around parent₁ lastkey curr L.slotuse := by
  obtain ⟨m, search⟩ := search
  obtain ⟨n, remove⟩ := remove
  refine ⟨max m n, fun rounds le => ?_⟩
  have found : T.searchBlindiNode rounds mem leaf.node x .point = some r :=
    search rounds (le_trans (le_max_left m n) le)
  obtain ⟨node, removed, rfl⟩ :=
    Option.map_eq_some_iff.mp (remove rounds (le_trans (le_max_right m n) le))
  unfold eraseLeaf
  rw [live, Option.bind_some, found, Option.bind_some, if_neg (by simp [hit]),
    removed, Option.bind_some]
  dsimp only
  rw [update]
  rfl

/-- A leaf of a parent with its key removed, and the parent told. -/
structure Cleared (T : EraseType K N) (slots : Slots) (mem : Addr → K) (Valid : N → Prop)
    (s : Store N) (parent : InnerNode K (Node K Ptr 0)) (low : WithBot K) (front : Row K Ptr)
    (sep : WithBot K) (curr : Ptr) (back : Row K Ptr) (before after : List Ptr) (x : K)
    (leaf leaf' : Leaf N) (slot : Nat) (parent₁ : InnerNode K (Node K Ptr 0)) : Prop where
  eq : row low parent = front ++ (sep, curr) :: back
  eq₁ : row low parent₁ = front ++ (sep, curr) :: resep (newLast T mem leaf' slot) back
  live : s.leaf curr = some leaf
  stored : x ∈ T.keys mem leaf.node
  removed : Removed T slots mem Valid x leaf leaf' slot
  strung : Strung (LeafSound T.toNodeType slots Valid) s (before ++ cells (row low parent) ++ after)
  strung₁ : Strung (fun _ _ => True) (s.put curr leaf') (before ++ cells (row low parent) ++ after)
  loose : Loose (s.pages (T.keys mem) (row low parent))
  alone : back = [] → T.keys mem leaf.node = [x] → LastAlone (T.keys mem) s x 0 parent

section Cleared

variable {parent parent₁ : InnerNode K (Node K Ptr 0)} {leaf' : Leaf N} {slot enough : Nat}
  {around : Around K 0} {removable : N → K → Prop} {sl sr : WithBot K}

theorem Cleared.cells_eq
    (cleared : Cleared T slots mem Valid s parent low front sep curr back before after x leaf
      leaf' slot parent₁) :
    before ++ cells (row low parent) ++ after = (before ++ cells front) ++ curr ::
      (cells back ++ after) := by
  rw [cleared.eq]
  simp

-- The other leaves of the parent.
theorem Cleared.other
    (cleared : Cleared T slots mem Valid s parent low front sep curr back before after x leaf
      leaf' slot parent₁)
    {e : WithBot K × Ptr} (inside : e ∈ front ++ back) : e.2 ≠ curr ∧
    (s.put curr leaf').leaf e.2 = s.leaf e.2 ∧
      ∀ leaf₁, s.leaf e.2 = some leaf₁ →
      LeafSound T.toNodeType slots Valid leaf₁.slotuse leaf₁.node := by
  have strung := cleared.cells_eq ▸ cleared.strung
  have inside := List.mem_map_of_mem (f := Prod.snd) inside
  rw [List.map_append] at inside
  have ne : e.2 ≠ curr := by
    rintro same
    rw [same] at inside
    rcases List.mem_append.mp inside with h | h
    · exact strung.apart.1 (List.mem_append_right _ h)
    · exact strung.apart.2 (List.mem_append_left _ h)
  refine ⟨ne, put_other ne, fun leaf₁ at_ => ?_⟩
  have listed : e.2 ∈ (before ++ cells front) ++ curr :: (cells back ++ after) := by
    rcases List.mem_append.mp inside with h | h <;> simp [cells, h]
  obtain ⟨leaf₂, live₂, sound⟩ := strung.live e.2 listed
  rw [at_] at live₂
  cases live₂
  exact sound

theorem Cleared.kept
    (cleared : Cleared T slots mem Valid s parent low front sep curr back before after x leaf
      leaf' slot parent₁)
    (some_ : 1 ≤ leaf'.slotuse)
    (run : ∀ rounds, enough ≤ rounds → eraseLeaf T slots mem asserts rounds x s around curr =
      some { store := s.put curr leaf', parent := some parent₁, root := some ⟨0, curr⟩
             result := { notFound := false,
                         updateLastkey := if back = [] then newLast T mem leaf' slot else none,
                         fixmerge := false } }) :
    ∃ out s' parent' edit,
    Returns (fun rounds => eraseLeaf T slots mem asserts rounds x s around curr) out ∧
      Erases T slots mem Valid s parent low front.length before after x edit out s' parent' := by
  have removed := cleared.removed
  have here : s.keysAt (T.keys mem) curr = T.keys mem leaf.node := keysAt_of_leaf cleared.live
  have now : (s.put curr leaf').keysAt (T.keys mem) curr = T.keys mem leaf'.node :=
    keysAt_of_leaf put_self
  have page : allKeys (s.pages (T.keys mem) [(sep, curr)]) = T.keys mem leaf.node := by
    simp [allKeys, Store.pages, here]
  have size := slotuse_of_row cleared.eq
  have size₁ := slotuse_of_row cleared.eq₁
  have same : (resep (newLast T mem leaf' slot) back).length = back.length := by
    rw [← List.length_map (f := Prod.snd), map_snd_resep, List.length_map]
  refine ⟨_, s.put curr leaf', parent₁,
    { middle := [(sep, curr)], low := sep, cell := curr, bound := newLast T mem leaf' slot },
    .of_eventually run (.pure _), rfl, rfl,
    ⟨front, back, by rw [leaves_one, cleared.eq]; simp, by rw [leaves_one, cleared.eq₁], rfl⟩,
    ⟨⟨curr, [], rfl⟩, by rw [page]; exact cleared.stored, by rw [now, page, removed.keys],
    fun y out => ?_, fun k mem' => ?_, fun alone none => ?_⟩,
    ?_, fun _ _ => trivial, by omega, by omega⟩
  · exact body_put_other fun same => out (by simp [cells, same])
  · rw [now]
    exact removed.last k mem'
  · rw [now, page]
    refine (removed.same none).resolve_left fun single => ?_
    have length : (T.keys mem leaf'.node).length = T.getValidLen leaf'.node :=
      keys_length leaf'.node
    rw [removed.keys, single, List.erase_cons_head, List.length_nil, ← removed.counted] at length
    omega
  · have listed : before ++ cells (leaves 1 low parent₁) ++ after =
        before ++ cells (row low parent) ++ after := by
      rw [leaves_one, cleared.eq₁, cleared.eq]
      simp [cells, map_snd_resep]
    rw [listed]
    refine cleared.strung.restore (a := curr) cleared.strung₁ (fun y mem' => ?_) fun leaf₁ live =>
      ?_
    · by_cases at_ : y = curr
      · exact .inl at_
      · exact .inr ⟨mem', body_put_other at_⟩
    · rw [put_self] at live
      cases live
      exact ⟨removed.valid some_, removed.counted, removed.fits⟩

theorem Cleared.mergeLeft (lawful : T.Lawful mem slots.leaf Valid removable)
    (cleared : Cleared T slots mem Valid s parent low (rows ++ [(sl, a)]) sep curr back before after
      x leaf leaf' slot parent₁)
    (live : (s.put curr leaf').leaf a = some L) (room : leaf'.slotuse + L.slotuse ≤ slots.leaf)
    (run : ∀ rounds, enough ≤ rounds → eraseLeaf T slots mem asserts rounds x s around curr =
      (mergeLeaves T mem rounds (s.put curr leaf') a curr).map fun s =>
        { store := s, parent := some parent₁, root := some ⟨0, curr⟩
          result := { notFound := false,
                      updateLastkey := if back = [] then newLast T mem leaf' slot else none,
                      fixmerge := true } }) :
    ∃ out s' parent' edit,
    Returns (fun rounds => eraseLeaf T slots mem asserts rounds x s around curr) out ∧
      Erases T slots mem Valid s parent low (rows ++ [(sl, a)]).length before after x edit
      out s' parent' := by
  have removed := cleared.removed
  obtain ⟨ne, same, sound⟩ := cleared.other (e := (sl, a)) (by simp)
  have old : s.leaf a = some L := same ▸ live
  have sound := sound L old
  have there : s.keysAt (T.keys mem) a = T.keys mem L.node := keysAt_of_leaf old
  have here : s.keysAt (T.keys mem) curr = T.keys mem leaf.node := keysAt_of_leaf cleared.live
  have eq : row low parent = rows ++ (sl, a) :: (sep, curr) :: back := by rw [cleared.eq]; simp
  have eq₁ : row low parent₁ = rows ++ (sl, a) :: (sep, curr) ::
    resep (newLast T mem leaf' slot) back := by rw [cleared.eq₁]; simp
  have sorted : (s.keysAt (T.keys mem) a ++ s.keysAt (T.keys mem) curr).Pairwise (· < ·) := by
    have loose := cleared.loose
    rw [eq, pages_append] at loose
    have both := loose.of_append.2.sorted
    rw [pages_cons, pages_cons] at both
    simp only [allKeys, List.flatMap_cons, ← List.append_assoc] at both
    exact (List.pairwise_append.mp both).1
  have missing : x ∉ T.keys mem L.node := fun inside => by
    rw [there, here] at sorted
    exact lt_irrefl x ((List.pairwise_append.mp sorted).2.2 x inside x cleared.stored)
  have last (some_ : leaf'.slotuse ≠ 0) : T.keys mem leaf'.node ≠ [] := by
    rw [ne_eq, ← List.length_eq_zero_iff, keys_length, ← removed.counted]
    exact some_
  refine erases_pair lawful eq eq₁ (fun k => resep_resep k _ back) (.inr (by simp))
    cleared.strung cleared.strung₁
    (fun y _ neB => body_put_other neB) live put_self sound.counted removed.counted
      (.inl sound.valid) ?_ (.inl sound.valid) (by omega) ?_ ?_
    sorted (fun more => if_neg more) (fun k mem' => ?_) (fun alone none pending => ?_) run
  · by_cases zero : leaf'.slotuse = 0
    · exact .inr zero
    · exact .inl (removed.valid (by omega))
  · rw [here]
    exact List.mem_append_right _ cleared.stored
  · rw [there, here, removed.keys, List.erase_append_right _ missing]
  · by_cases none : back = []
    · rw [if_pos none] at mem'
      have end_ := removed.last k mem'
      rw [List.getLast?_append, end_]
      rfl
    · rw [if_neg none] at mem'
      cases mem'
  · rw [if_pos none] at pending
    rw [there, here, List.getLast?_append, List.getLast?_append]
    rcases removed.same pending with single | same
    · exact absurd (cleared.alone none single) alone
    · rw [same]

theorem Cleared.mergeRight (lawful : T.Lawful mem slots.leaf Valid removable)
    (cleared : Cleared T slots mem Valid s parent low front sep curr ((sr, b) :: rows) before after
      x leaf leaf' slot parent₁)
    (live : (s.put curr leaf').leaf b = some R) (room : leaf'.slotuse + R.slotuse ≤ slots.leaf)
    (run : ∀ rounds, enough ≤ rounds → eraseLeaf T slots mem asserts rounds x s around curr =
      (mergeLeaves T mem rounds (s.put curr leaf') curr b).map fun s =>
        { store := s, parent := some parent₁, root := some ⟨0, curr⟩
          result := { notFound := false, updateLastkey := none, fixmerge := true } }) :
    ∃ out s' parent' edit,
    Returns (fun rounds => eraseLeaf T slots mem asserts rounds x s around curr) out ∧
      Erases T slots mem Valid s parent low front.length before after x edit out s' parent' := by
  have removed := cleared.removed
  obtain ⟨ne, same, sound⟩ := cleared.other (e := (sr, b)) (by simp)
  have old : s.leaf b = some R := same ▸ live
  have sound := sound R old
  have there : s.keysAt (T.keys mem) b = T.keys mem R.node := keysAt_of_leaf old
  have here : s.keysAt (T.keys mem) curr = T.keys mem leaf.node := keysAt_of_leaf cleared.live
  obtain ⟨sep', eq₁⟩ : ∃ sep', row low parent₁ = front ++ (sep, curr) :: (sep', b) :: rows := by
    rw [cleared.eq₁]
    cases newLast T mem leaf' slot with
    | none => exact ⟨sr, rfl⟩
    | some k => exact ⟨↑k, rfl⟩
  have sorted : (s.keysAt (T.keys mem) curr ++ s.keysAt (T.keys mem) b).Pairwise (· < ·) := by
    have loose := cleared.loose
    rw [cleared.eq, pages_append] at loose
    have both := loose.of_append.2.sorted
    rw [pages_cons, pages_cons] at both
    simp only [allKeys, List.flatMap_cons, ← List.append_assoc] at both
    exact (List.pairwise_append.mp both).1
  have some_ : T.keys mem R.node ≠ [] := by
    rw [ne_eq, ← List.length_eq_zero_iff, keys_length]
    have := lawful.nonempty sound.valid
    omega
  refine erases_pair lawful cleared.eq eq₁ (fun k => rfl) (.inl rfl) cleared.strung cleared.strung₁
    (fun y neA _ => body_put_other neA) put_self live removed.counted sound.counted ?_
      (.inl sound.valid) (.inr sound.valid) room ?_ ?_
    sorted (fun _ => rfl) (fun k mem' => ?_) (fun _ _ _ => ?_) run
  · by_cases zero : leaf'.slotuse = 0
    · exact .inr zero
    · exact .inl (removed.valid (by omega))
  · rw [here]
    exact List.mem_append_left _ cleared.stored
  · rw [there, here, removed.keys, List.erase_append_left _ cleared.stored]
  · cases mem'
  · rw [there, here, List.getLast?_append_of_ne_nil _ some_, List.getLast?_append_of_ne_nil _ some_]

end Cleared

theorem eraseLeaf_erases {removable : N → K → Prop}
    (lawful : T.Lawful mem slots.leaf Valid removable) (several : 2 ≤ slots.leaf)
    {around : Around K 0} {parent : InnerNode K (Node K Ptr 0)} {front back : Row K (Node K Ptr 0)}
    {curr : Node K Ptr 0}
    (frame : Frame T slots mem Valid s around parent low front sep curr back before after x)
    (live : s.leaf curr = some leaf) (stored : x ∈ T.keys mem leaf.node)
    (removes : removable leaf.node x)
    (passes : asserts = true → ¬ LastAlone (T.keys mem) s x 0 parent) :
    ∃ out s' parent' edit, Returns
      (fun rounds => eraseLeaf T slots mem asserts rounds x s around curr) out ∧
      Erases T slots mem Valid s parent low front.length before after x edit out s' parent' := by
  have strung := frame.strung
  have loose := frame.loose
  have eq := frame.eq
  rw [leaves_one] at strung loose
  have cells_ : before ++ cells (row low parent) ++ after =
      (before ++ cells front) ++ curr :: (cells back ++ after) := by
    rw [eq]
    simp
  obtain ⟨leaf', live', sound, _, _⟩ := (cells_ ▸ strung).leaf_at
  rw [live] at live'
  cases live'
  obtain ⟨r, leaf', search, hit, remove, removed⟩ := remove_removed lawful sound stored removes
  have strung₁ : Strung (fun _ _ => True) (s.put curr leaf')
      (before ++ cells (row low parent) ++ after) := by
    rw [cells_] at strung ⊢
    exact strung.relax.write live removed.prev removed.next trivial
  have alone : back = [] → T.keys mem leaf.node = [x] → LastAlone (T.keys mem) s x 0 parent := by
    rintro rfl single
    have child : descend x 1 parent = curr := by
      change InnerNode.childid parent (findLower (InnerNode.slotkey parent) x) = curr
      rw [frame.slot]
      exact (childid_of_row eq).2
    refine ⟨?_, by rw [child, keysAt_of_leaf live, single]⟩
    change findLower (InnerNode.slotkey parent) x = _
    rw [frame.slot]
    exact (slotuse_of_row eq).symm
  obtain ⟨parent₁, update, eq₁⟩ := updateLast_row T mem asserts leaf' eq fun on last none => by
    by_contra few
    exact passes on (alone none (removed.alone last few))
  have cleared : Cleared T slots mem Valid s parent low front sep curr back before after x leaf
      leaf' r.position parent₁ :=
    ⟨eq, eq₁, live, stored, removed, strung, strung₁, loose, alone⟩
  have spread (l : Row K (Node K Ptr 0)) : l.flatMap (fun e => leaves 0 e.1 e.2) = l :=
    List.flatMap_singleton' _
  have leftAlive (a : Ptr) (sibling : around.left = some a) : (s.put curr leaf').leaf a ≠ none := by
    have inside := frame.left a sibling a (by simp [leaves, cells])
    rw [spread] at inside
    rw [cells_] at strung₁
    exact strung₁.alive (List.mem_append_left _ inside)
  have rightAlive (a : Ptr) (sibling : around.right = some a) :
      (s.put curr leaf').leaf a ≠ none := by
    have inside := frame.right a sibling a (by simp [leaves, cells])
    rw [spread] at inside
    rw [cells_] at strung₁
    exact strung₁.alive (List.mem_append_right _ (List.mem_cons_of_mem _ inside))
  have fits : ∀ e ∈ front ++ back, ∀ leaf₁, (s.put curr leaf').leaf e.2 = some leaf₁ →
      leaf₁.slotuse ≤ slots.leaf := by
    intro e inside leaf₁ at_
    obtain ⟨_, same, sound⟩ := cleared.other inside
    exact (sound leaf₁ (same ▸ at_)).fits
  obtain ⟨enough, run⟩ :=
    eraseLeaf_underflow slots asserts around live search hit remove (frame.above ▸ update)
  rcases underflowLeaf_cases T mem several (by rw [frame.above]; simp) frame.beside frame.some_
    leftAlive rightAlive fits (some parent₁)
    (if back = [] then newLast T mem leaf' r.position else none) curr leaf'.slotuse with
    ⟨some_, kept⟩ | ⟨a, b,
      ⟨rows, sl, L, rfl, rfl, left, room⟩ | ⟨sr, rows, R, rfl, rfl, right, room⟩, merge⟩
  · exact cleared.kept some_ fun rounds le => (run rounds le).trans (kept rounds)
  · exact cleared.mergeLeft lawful left room fun rounds le => (run rounds le).trans (merge rounds)
  · exact cleared.mergeRight lawful right room fun rounds le => (run rounds le).trans (merge rounds)

end ElasticIndex.Tree
