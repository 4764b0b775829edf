import ElasticIndex.Tree.EraseDescend

set_option autoImplicit false

namespace ElasticIndex.Tree

open Separators LinkedRow Loop

variable {K N : Type} [LinearOrder K] {level : Nat} {slots : Slots} {mem : Addr → K}
  {T : EraseType K N} {Valid : N → Prop} {s : Store N} {x : K} {asserts : Bool} {leaf : Leaf N}
  {t t' : BTree K N} {Q : Row K (List K) → Prop} {tight : Prop}
  {removable : N → K → Prop}

-- The root may have fewer children than the other inner nodes.
def FilledRoot (slots : Slots) : ((level : Nat) × Node K Ptr level) → Prop
  | ⟨0, _⟩ => True
  | ⟨level + 1, (inner : InnerNode K (Node K Ptr level))⟩ =>
    1 ≤ inner.slotuse ∧ inner.slotuse ≤ slots.inner ∧
      inner.All (Filled (slots.inner / 2) slots.inner level)

def BTree.LastAlone (content : N → List K) (t : BTree K N) (x : K) : Prop :=
  match t.root with
  | some ⟨level + 1, node⟩ => Tree.LastAlone content t.store x level node
  | _ => False

-- The keys of the leaves from left to right.
def BTree.content (T : NodeType K N) (mem : Addr → K) (t : BTree K N) : List K :=
  allKeys (t.store.pages (T.keys mem) t.leaves)

/-- What insertions and erasures keep; Q is about the separators. -/
structure Intact (T : NodeType K N) (slots : Slots) (mem : Addr → K) (Valid : N → Prop)
    (Q : Row K (List K) → Prop) (t : BTree K N) :
    Prop where
  strung : Strung (LeafSound T slots Valid) t.store (cells t.leaves)
  pages : Q (t.store.pages (T.keys mem) t.leaves)
  filled : ∀ root ∈ t.root, FilledRoot slots root

theorem intact_empty {T : NodeType K N} (discipline : Discipline tight Q) :
    Intact T slots mem Valid Q .empty :=
  ⟨strung_empty, discipline.none, fun _ none => by cases none⟩

-- A key that is nowhere in its leaf.
theorem eraseOneDescend_miss (asserts : Bool) (lawful : T.Lawful mem slots.leaf Valid removable)
    (valid : Valid leaf.node) (missing : x ∉ T.keys mem leaf.node) (level : Nat)
    (around : Around K level) (node : Node K Ptr level)
    (live : s.leaf (descend x level node) = some leaf) :
    Returns (fun rounds => eraseOneDescend T slots mem asserts rounds x level s around node)
      { store := s, parent := around.parent.map Prod.fst, root := some ⟨level, node⟩
        result := { notFound := true, updateLastkey := none, fixmerge := false } } := by
  induction level with
  | zero =>
    obtain ⟨r, ⟨bound, search⟩, hit, _⟩ := lawful.point valid x
    refine ⟨bound, fun rounds le => ?_⟩
    have found : T.searchBlindiNode rounds mem leaf.node x .point = some r := search rounds le
    have miss : r.hit = false := by simpa using hit.not.mpr missing
    change eraseLeaf T slots mem asserts rounds x s around node = _
    unfold eraseLeaf
    rw [show s.leaf node = some leaf from live, Option.bind_some, found,
      Option.bind_some, if_pos miss]
  | succ level ih =>
    obtain ⟨bound, called⟩ := ih (around.below node (findLower (InnerNode.slotkey node) x))
      (InnerNode.childid node (findLower (InnerNode.slotkey node) x)) live
    refine ⟨bound, fun rounds le => (eraseOneDescend_succ rounds around node).trans ?_⟩
    rw [show eraseOneDescend T slots mem asserts rounds x level s _ _ = _ from called rounds le]
    rfl

-- The leaf in which a key would be.
theorem Intact.at_ {T : NodeType K N} (discipline : Discipline tight Q)
    (intact : Intact T slots mem Valid Q t) {root : (level : Nat) × Node K Ptr level}
    (eq : t.root = some root) (x : K) :
    ∃ leaf, t.store.leaf (descend x root.1 root.2) = some leaf ∧
    LeafSound T slots Valid leaf.slotuse leaf.node ∧
      (x ∈ t.content T mem ↔ x ∈ T.keys mem leaf.node) := by
  have row : t.leaves = leaves root.1 ⊥ root.2 := by rw [BTree.leaves, eq]
  have loose := discipline.loose intact.pages
  have ascending : Ascending (leaves root.1 ⊥ root.2) := by
    have pages := loose.ascending
    rw [Ascending, Store.pages, List.pairwise_map, row] at pages
    exact pages
  obtain ⟨before, sep, after, routes⟩ :=
    descend_routes root.1 root.2 (WithBot.bot_lt_coe x) ascending
  have strung := intact.strung
  rw [row, routes.eq, cells_append, cells_cons] at strung
  obtain ⟨leaf, live, sound, _, _⟩ := strung.leaf_at
  refine ⟨leaf, live, sound, ?_⟩
  have routes' : Routes (t.store.pages (T.keys mem) t.leaves) x (t.store.pages (T.keys mem) before)
    sep (T.keys mem leaf.node)
      (t.store.pages (T.keys mem) after) := by
    refine ⟨by rw [row, routes.eq, pages_append, pages_cons, keysAt_of_leaf live], routes.below,
      fun e inside => ?_⟩
    obtain ⟨e', inside', rfl⟩ := List.mem_map.mp inside
    exact routes.above e' inside'
  exact routes'.mem_iff loose.holds loose.ascending

theorem Intact.rootSlotuse {T : NodeType K N} (lawful : T.Lawful mem slots.leaf Valid)
    (intact : Intact T slots mem Valid Q t) {root : (level : Nat) × Node K Ptr level}
    (eq : t.root = some root) :
    ∃ n, rootSlotuse t.store root = some n ∧ n ≠ 0 := by
  obtain ⟨level, node⟩ := root
  cases level with
  | zero =>
    have row : t.leaves = [(⊥, node)] := by rw [BTree.leaves, eq]; rfl
    have strung := intact.strung
    rw [row] at strung
    obtain ⟨leaf, live, sound⟩ := strung.live node (by simp [cells])
    have some_ := lawful.nonempty sound.valid
    have counted := sound.counted
    exact ⟨leaf.slotuse, by rw [Tree.rootSlotuse, live]; rfl, by omega⟩
  | succ level =>
    have filled := (intact.filled _ eq).1
    exact ⟨_, rfl, by omega⟩

/-- What erase_one makes of a stored key. -/
structure Erased (T : EraseType K N) (slots : Slots) (mem : Addr → K) (Valid : N → Prop)
    (Q : Row K (List K) → Prop) (asserts : Bool) (t : BTree K N) (x : K)
    (t' : BTree K N) : Prop where
  returns : Returns (fun rounds => (t.eraseOne T slots mem asserts rounds x)) (t', true)
  intact : Intact T.toNodeType slots mem Valid Q t'
  content : t'.content T.toNodeType mem = (t.content T.toNodeType mem).erase x

theorem eraseOne_returns (lawful : T.Lawful mem slots.leaf Valid removable)
    (intact : Intact T.toNodeType slots mem Valid Q t) {root : (level : Nat) × Node K Ptr level}
    (eq : t.root = some root) {out : EraseOutcome K N root.1}
    (run : Returns (fun rounds =>
      eraseOneDescend T slots mem asserts rounds x root.1 t.store .root root.2) out) :
    Returns (fun rounds => t.eraseOne T slots mem asserts rounds x)
      ({ root := out.root, store := out.store }, !out.result.notFound) := by
  obtain ⟨n, slotuse, some_⟩ := intact.rootSlotuse lawful.toLawful eq
  refine (run.map fun out : EraseOutcome K N root.1 =>
    (({ root := out.root, store := out.store } : BTree K N), !out.result.notFound)).congr
      fun rounds => ?_
  unfold BTree.eraseOne
  rw [eq]
  dsimp only
  rw [slotuse, Option.bind_some, if_neg some_]

omit [LinearOrder K] in
theorem underflowLeaf_root (T : EraseType K N) (mem : Addr → K) (several : 2 ≤ slots.leaf)
    (lastkey : Option K) (curr : Ptr) (n rounds : Nat) :
    underflowLeaf T slots mem rounds s .root none lastkey curr n = some (if n = 0 then
        { store := { s.free curr with headleaf := none, tailleaf := none },
          parent := none, root := none
          result := { notFound := false, updateLastkey := none, fixmerge := false } }
      else { store := s, parent := none, root := some ⟨0, curr⟩
             result := { notFound := false, updateLastkey := lastkey, fixmerge := false } }) := by
  unfold underflowLeaf Around.root
  by_cases emptied : n = 0
  · simp [emptied, show ¬ slots.leaf / 2 = 0 by omega]
  · simp [emptied]

-- The root is the only leaf.
theorem eraseOne_leaf (lawful : T.Lawful mem slots.leaf Valid removable)
    (discipline : Discipline tight Q) (several : 2 ≤ slots.leaf)
    (intact : Intact T.toNodeType slots mem Valid Q t) {curr : Ptr} (eq : t.root = some ⟨0, curr⟩)
    (live : t.store.leaf curr = some leaf) (stored : x ∈ T.keys mem leaf.node)
    (removes : removable leaf.node x) :
    ∃ t', Erased T slots mem Valid Q asserts t x t' := by
  have row : t.leaves = [(⊥, curr)] := by rw [BTree.leaves, eq]; rfl
  have strung := intact.strung
  have pages := intact.pages
  rw [row] at strung pages
  obtain ⟨leaf', live', sound⟩ := strung.live curr (by simp [cells])
  rw [live] at live'
  cases live'
  obtain ⟨r, leaf', search, hit, remove, removed⟩ := remove_removed lawful sound stored removes
  obtain ⟨enough, run⟩ := eraseLeaf_underflow slots asserts .root live search hit remove rfl
  have content : t.content T.toNodeType mem = T.keys mem leaf.node := by
    rw [BTree.content, row, pages_cons, keysAt_of_leaf live]
    simp [allKeys]
  have now : T.keys mem leaf'.node = (T.keys mem leaf.node).erase x := removed.keys
  have under := underflowLeaf_root T mem (s := t.store.put curr leaf') several
    (newLast T mem leaf' r.position) curr leaf'.slotuse
  by_cases emptied : leaf'.slotuse = 0
  · -- The tree is empty again.
    rw [if_pos emptied] at under
    have out := eraseOne_returns lawful intact eq
      (.of_eventually run ((Returns.pure _).congr under))
    have freed (a : Ptr) : ((t.store.put curr leaf').free curr).leaf a = none := by
      by_cases here : a = curr
      · subst here
        exact Function.update_self ..
      · refine (Function.update_of_ne here ..).trans ((put_other here).trans ?_)
        by_contra some_
        exact here (by simpa [cells] using strung.only a some_)
    refine ⟨_, out, ⟨⟨fun a inside => absurd inside List.not_mem_nil,
      fun a some_ => absurd (freed a) some_, .nil,
      fun a inside => absurd inside List.not_mem_nil, trivial, rfl, rfl⟩, discipline.none,
      fun root some_ => by cases some_⟩, ?_⟩
    rw [content, ← removed.keys]
    refine (List.eq_nil_of_length_eq_zero ?_).symm
    rw [keys_length, ← removed.counted, emptied]
  · rw [if_neg emptied] at under
    have out := eraseOne_returns lawful intact eq
      (.of_eventually run ((Returns.pure _).congr under))
    have now : (t.store.put curr leaf').pages (T.keys mem) [(⊥, curr)] =
        [(⊥, (T.keys mem leaf.node).erase x)] := by
      rw [pages_cons, keysAt_of_leaf put_self, removed.keys, pages_nil]
    refine ⟨_, out, ⟨?_, ?_, fun root some_ => ?_⟩, ?_⟩
    · have alone : Strung (LeafSound T.toNodeType slots Valid) t.store ([] ++ curr :: []) := strung
      exact alone.write live removed.prev removed.next
        ⟨removed.valid (by omega), removed.counted, removed.fits⟩
    · change Q ((t.store.put curr leaf').pages (T.keys mem) [(⊥, curr)])
      rw [pages_cons, keysAt_of_leaf live, pages_nil] at pages
      rw [now]
      have held : Q ([] ++ ((⊥, T.keys mem leaf.node) :: []) ++ []) := pages
      change Q ([] ++ (⊥, (T.keys mem leaf.node).erase x) :: resep none [])
      refine discipline.collapse held ?_ (fun _ none => by cases none) fun _ _ more =>
        absurd rfl more
      rw [allKeys, List.flatMap_singleton]
      exact List.erase_sublist
    · cases some_
      trivial
    · rw [content]
      change allKeys ((t.store.put curr leaf').pages (T.keys mem) [(⊥, curr)]) = _
      rw [now, allKeys, List.flatMap_singleton]

theorem Edit.pages {content : N → List K} {edit : Edit K} {R R' : Row K Ptr} {pending : Option K}
    {alone : Prop} {s s' : Store N} (discipline : Discipline tight Q) (at_ : edit.At R R' pending)
    (done : edit.Done content s x alone s') (held : Q (s.pages content R))
    (distinct : (cells R).Nodup) (kept : tight → ¬ alone) :
    Q (s'.pages content R') ∧ allKeys (s'.pages content R') =
      (allKeys (s.pages content R)).erase x := by
  obtain ⟨front, back, rfl, rfl, -⟩ := at_
  obtain ⟨a, rest, first⟩ := done.first
  have keys := done.keys
  have inside := done.inside
  have last := done.bound
  have same := done.same
  have loose := discipline.loose held
  rw [cells_append, cells_append] at distinct
  have outer := List.nodup_append.mp distinct
  have inner := List.nodup_append.mp outer.1
  have frontPages : s'.pages content front = s.pages content front :=
      List.map_congr_left fun e mem => by
    have at_ := List.mem_map_of_mem (f := Prod.snd) mem
    rw [keysAt_of_body (done.others e.2 fun mem' => inner.2.2 e.2 at_ e.2 mem' rfl)]
  have backPages : s'.pages content back = s.pages content back :=
      List.map_congr_left fun e mem => by
    have at_ := List.mem_map_of_mem (f := Prod.snd) mem
    rw [keysAt_of_body (done.others e.2 fun mem' =>
      outer.2.2 e.2 (List.mem_append_right _ mem') e.2 at_ rfl)]
  have middle : s.pages content edit.middle = (edit.low, s.keysAt content a) ::
    s.pages content rest := by rw [first, pages_cons]
  have resepPages : s'.pages content (resep edit.bound back) =
      resep edit.bound (s.pages content back) := by
    rw [← backPages]
    exact resep_map _ back
  have whole : s'.pages content (front ++ (edit.low, edit.cell) :: resep edit.bound back) =
      s.pages content front ++ (edit.low, (allKeys (s.pages content edit.middle)).erase x) ::
      resep edit.bound (s.pages content back) := by
    rw [pages_append, pages_cons, frontPages, resepPages, keys]
  rw [keys] at last same
  rw [pages_append, pages_append] at held loose
  refine ⟨?_, ?_⟩
  · rw [whole]
    rw [middle] at held last same ⊢
    exact discipline.collapse held List.erase_sublist last fun on none _ => same (kept on) none
  · rw [whole, pages_append, pages_append, allKeys_append, allKeys_append, allKeys_append]
    have missing : x ∉ allKeys (s.pages content front) := fun early => by
      have sorted := loose.of_append.1.sorted
      rw [allKeys_append] at sorted
      exact lt_irrefl x ((List.pairwise_append.mp sorted).2.2 x early x inside)
    have tail : allKeys ((edit.low, (allKeys (s.pages content edit.middle)).erase x) ::
      resep edit.bound (s.pages content back)) =
        (allKeys (s.pages content edit.middle)).erase x ++ allKeys (s.pages content back) := by
      have same : allKeys (resep edit.bound (s.pages content back)) =
        allKeys (s.pages content back) := allKeys_resep
      rw [← same]
      rfl
    rw [tail, List.append_assoc, List.erase_append_right _ missing, List.erase_append_left _ inside]

omit [LinearOrder K] in
theorem underflowInner_root (severalInner : 2 ≤ slots.inner) (lastkey : Option K)
    (inner : InnerNode K (Node K Ptr level)) :
    underflowInner slots s .root none lastkey inner = some (if 1 ≤ inner.slotuse then
        { store := s, parent := none, root := some ⟨level + 1, inner⟩
          result := { notFound := false, updateLastkey := lastkey, fixmerge := false } }
      else
        { store := s, parent := none, root := some ⟨level, inner.first⟩
          result := { notFound := false, updateLastkey := none, fixmerge := false } }) := by
  unfold underflowInner Around.root
  dsimp only
  by_cases one : 1 ≤ inner.slotuse
  · rw [if_neg fun h => h.2 one, if_pos one]
  · have under : inner.slotuse < slots.inner / 2 := by omega
    rw [if_pos ⟨under, one⟩, if_neg one]

theorem eraseOne_inner (lawful : T.Lawful mem slots.leaf Valid removable)
    (discipline : Discipline tight Q) (several : 2 ≤ slots.leaf) (severalInner : 2 ≤ slots.inner)
    (intact : Intact T.toNodeType slots mem Valid Q t) {node : Node K Ptr (level + 1)}
    (eq : t.root = some ⟨level + 1, node⟩)
    (live : t.store.leaf (descend x (level + 1) node) = some leaf)
    (stored : x ∈ T.keys mem leaf.node) (removes : removable leaf.node x)
    (passes : asserts = true ∨ tight → ¬ LastAlone (T.keys mem) t.store x level node) :
    ∃ t', Erased T slots mem Valid Q asserts t x t' := by
  have row : t.leaves = leaves (level + 1) ⊥ node := by rw [BTree.leaves, eq]
  have strung := intact.strung
  have pages := intact.pages
  rw [row] at strung pages
  obtain ⟨some_, most, filled⟩ := intact.filled _ eq
  obtain ⟨front, sep, back, frame⟩ := frame_root node strung (discipline.loose pages) filled some_ x
  obtain ⟨out, s', inner', edit, ⟨bound, returns⟩, erases⟩ :=
    eraseOneDescend_erases lawful several severalInner level frame live stored removes
    fun on => passes (.inl on)
  obtain ⟨held, content⟩ :=
    edit.pages discipline erases.edits erases.done pages strung.distinct fun on => passes (.inr on)
  have strung' := erases.strung
  rw [List.nil_append, List.append_nil] at strung'
  have least := erases.least
  have most' := erases.most
  have run (rounds : Nat) (le : bound ≤ rounds) :
    eraseOneDescend T slots mem asserts rounds x (level + 1) t.store .root node =
      some (if 1 ≤ inner'.slotuse then
          { store := s', parent := none, root := some ⟨level + 1, inner'⟩
            result := { notFound := false, updateLastkey := out.result.updateLastkey,
                        fixmerge := false } }
        else
          { store := s', parent := none, root := some ⟨level, inner'.first⟩
            result := { notFound := false, updateLastkey := none, fixmerge := false } }) := by
    have found : ¬ out.result.notFound = true := by rw [erases.found]; simp
    refine (eraseOneDescend_succ rounds .root node).trans ?_
    rw [show eraseOneDescend T slots mem asserts rounds x level t.store _ _ =
      some out from returns rounds le, Option.bind_some, if_neg found, frame.slot,
      erases.fixed, Option.bind_some]
    exact underflowInner_root severalInner _ _
  have called := eraseOne_returns lawful intact eq ⟨bound, run⟩
  by_cases one : 1 ≤ inner'.slotuse
  · rw [if_pos one] at called
    refine ⟨_, called, ⟨strung', held, fun root same => ?_⟩, ?_⟩
    · cases same
      exact ⟨one, by omega, (all_iff_row ⊥).mpr erases.filled⟩
    · rw [BTree.content, BTree.content, row]
      exact content
  · rw [if_neg one] at called
    have single : leaves (level + 1) ⊥ inner' = leaves level ⊥ inner'.first := by
      have rest : inner'.rest = [] :=
        List.eq_nil_of_length_eq_zero (by simpa [InnerNode.slotuse] using one)
      change (Tree.row ⊥ inner').flatMap (fun e => leaves level e.1 e.2) = _
      simp [Tree.row, rest]
    rw [single] at strung' held content
    refine ⟨_, called, ⟨strung', held, fun root same => ?_⟩, ?_⟩
    · cases same
      have first := erases.filled (⊥, inner'.first) List.mem_cons_self
      cases level with
      | zero => trivial
      | succ level => exact ⟨le_trans (by omega) first.1, first.2.1, first.2.2⟩
    · rw [BTree.content, BTree.content, row]
      exact content

-- What a removal of the key needs of its leaf.
def BTree.Removable (T : NodeType K N) (mem : Addr → K) (removable : N → K → Prop)
    (t : BTree K N) (x : K) : Prop :=
  ∀ root ∈ t.root, ∀ leaf, t.store.leaf (descend x root.1 root.2) = some leaf →
    x ∈ T.keys mem leaf.node → removable leaf.node x

theorem Intact.eraseOne (lawful : T.Lawful mem slots.leaf Valid removable)
    (discipline : Discipline tight Q) (several : 2 ≤ slots.leaf) (severalInner : 2 ≤ slots.inner)
    (intact : Intact T.toNodeType slots mem Valid Q t)
    (removes : t.Removable T.toNodeType mem removable x)
    (passes : asserts = true ∨ tight → ¬ t.LastAlone (T.keys mem) x) :
    ∃ t', Returns (fun rounds => t.eraseOne T slots mem asserts rounds x)
      (t', decide (x ∈ t.content T.toNodeType mem)) ∧
      Intact T.toNodeType slots mem Valid Q t' ∧ t'.content T.toNodeType mem =
        (t.content T.toNodeType mem).erase x := by
  cases eq : t.root with
  | none =>
    have row : t.leaves = [] := by rw [BTree.leaves, eq]
    have content : t.content T.toNodeType mem = [] := by rw [BTree.content, row]; rfl
    refine ⟨t, ?_, intact, by rw [content]; rfl⟩
    rw [content]
    exact (Returns.pure _).congr fun rounds => by rw [BTree.eraseOne, eq]; rfl
  | some root =>
    obtain ⟨leaf, live, sound, iff⟩ := intact.at_ discipline eq x
    by_cases stored : x ∈ T.keys mem leaf.node
    · have there := iff.mpr stored
      have guard := removes root eq leaf live stored
      obtain ⟨t', erased⟩ : ∃ t', Erased T slots mem Valid Q asserts t x t' := by
        obtain ⟨level, node⟩ := root
        cases level with
        | zero => exact eraseOne_leaf lawful discipline several intact eq live stored guard
        | succ level =>
          refine eraseOne_inner lawful discipline several severalInner intact eq live stored guard
            fun on alone => passes on ?_
          rw [BTree.LastAlone, eq]
          exact alone
      exact ⟨t', by rw [decide_eq_true there]; exact erased.returns, erased.intact, erased.content⟩
    · have absent : x ∉ t.content T.toNodeType mem := iff.not.mpr stored
      refine ⟨t, ?_, intact, (List.erase_of_not_mem absent).symm⟩
      rw [decide_eq_false absent]
      obtain ⟨level, node⟩ := root
      have out := eraseOne_returns lawful intact eq
        (eraseOneDescend_miss asserts lawful sound.valid stored level .root node live)
      have same : ({ root := some ⟨level, node⟩, store := t.store } : BTree K N) = t := by rw [← eq]
      exact same ▸ out

-- With the assertion compiled in, the call that it catches does not return.
theorem eraseOneDescend_alone (lawful : T.Lawful mem slots.leaf Valid removable)
    (sound : LeafSound T.toNodeType slots Valid leaf.slotuse leaf.node)
    (removes : removable leaf.node x) (level : Nat) (around : Around K (level + 1))
    (node : Node K Ptr (level + 1)) (live : s.leaf (descend x (level + 1) node) = some leaf)
    (alone : LastAlone (T.keys mem) s x level node) :
    ∃ bound, ∀ rounds, bound ≤ rounds → eraseOneDescend T slots mem true rounds x
      (level + 1) s around node = none := by
  induction level with
  | zero =>
    have single : T.keys mem leaf.node = [x] := (keysAt_of_leaf live).symm.trans alone.2
    obtain ⟨r, leaf', search, hit, remove, removed⟩ :=
      remove_removed lawful sound (by simp [single]) removes
    have emptied : leaf'.slotuse = 0 := by
      have size : (T.keys mem leaf'.node).length = T.getValidLen leaf'.node :=
        keys_length leaf'.node
      rw [removed.counted, ← size, removed.keys, single]
      simp
    have first : r.position = leaf'.slotuse := by
      obtain ⟨r', search', _, found⟩ := lawful.point sound.valid x
      obtain rfl := search.unique search'
      have here := found hit
      rw [single] at here
      have lt : r.position < 1 := by simpa using (List.getElem?_eq_some_iff.mp here).1
      omega
    obtain ⟨m, search⟩ := search
    obtain ⟨n, remove⟩ := remove
    refine ⟨max m n, fun rounds le => (eraseOneDescend_succ rounds around node).trans ?_⟩
    have found : T.searchBlindiNode rounds mem leaf.node x .point = some r :=
      search rounds (le_trans (le_max_left m n) le)
    obtain ⟨node', erased, rfl⟩ :=
      Option.map_eq_some_iff.mp (remove rounds (le_trans (le_max_right m n) le))
    have none_ : eraseLeaf T slots mem true rounds x s
      (around.below node (findLower (InnerNode.slotkey node) x))
        (InnerNode.childid node (findLower (InnerNode.slotkey node) x)) = none := by
      have live' : s.leaf (InnerNode.childid node (findLower (InnerNode.slotkey node) x)) =
        some leaf := live
      have last : findLower (InnerNode.slotkey node) x = InnerNode.slotuse node := alone.1
      dsimp only at emptied first
      unfold eraseLeaf
      rw [live', Option.bind_some, found, Option.bind_some, if_neg (by simp [hit]),
        erased, Option.bind_some]
      dsimp only
      simp [updateLast, Around.below, first, emptied, last]
    rw [show eraseOneDescend T slots mem true rounds x 0 s _ _ = none from none_]
    rfl
  | succ level ih =>
    obtain ⟨bound, none_⟩ := ih (around.below node (findLower (InnerNode.slotkey node) x))
      (InnerNode.childid node (findLower (InnerNode.slotkey node) x)) live alone
    refine ⟨bound, fun rounds le => (eraseOneDescend_succ rounds around node).trans ?_⟩
    rw [none_ rounds le]
    rfl

theorem Intact.eraseOne_alone (lawful : T.Lawful mem slots.leaf Valid removable)
    (discipline : Discipline tight Q) (intact : Intact T.toNodeType slots mem Valid Q t)
    (removes : t.Removable T.toNodeType mem removable x) (alone : t.LastAlone (T.keys mem) x) :
    ∃ bound, ∀ rounds, bound ≤ rounds → t.eraseOne T slots mem true rounds x = none := by
  unfold BTree.LastAlone at alone
  cases eq : t.root with
  | none => simp [eq] at alone
  | some root =>
    obtain ⟨level, node⟩ := root
    cases level with
    | zero => simp [eq] at alone
    | succ level =>
      simp only [eq] at alone
      obtain ⟨leaf, live, sound, _⟩ := intact.at_ discipline eq x
      have stored : x ∈ T.keys mem leaf.node := by
        have single : T.keys mem leaf.node = [x] := (keysAt_of_leaf live).symm.trans alone.2
        rw [single]
        exact List.mem_singleton_self x
      obtain ⟨bound, none_⟩ :=
        eraseOneDescend_alone lawful sound (removes _ eq leaf live stored) level
        .root node live alone
      obtain ⟨n, slotuse, some_⟩ := intact.rootSlotuse lawful.toLawful eq
      refine ⟨bound, fun rounds le => ?_⟩
      unfold BTree.eraseOne
      rw [eq]
      dsimp only
      rw [slotuse, Option.bind_some, if_neg some_, none_ rounds le]
      rfl

end ElasticIndex.Tree
