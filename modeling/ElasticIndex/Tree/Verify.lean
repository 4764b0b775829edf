import ElasticIndex.Tree.Bounds
import ElasticIndex.Tree.SortedMap

set_option autoImplicit false

namespace ElasticIndex.Tree

open Separators LinkedRow Loop

variable {K N : Type} [LinearOrder K] {level : Nat}

/-- The outputs *minkey, *maxkey and the items of vstats. -/
structure Verified (K : Type) where
  minkey : K
  maxkey : K
  itemcount : Nat
  deriving DecidableEq

section Model

variable (T : NodeType K N) (slots : Slots) (mem : Addr → K) (s : Store N)

def getMinKeyInNode (node : N) : K := mem (T.getKeyPtr node 0)

-- Whether the next leaf goes on with larger keys.
def nextOrdered (leaf : Leaf N) : Option Bool :=
  match leaf.nextleaf with
  | none => some true
  | some b => (s.leaf b).map fun (next : Leaf N) => decide (¬ getMinKeyInNode T mem next.node <
    getMaxKeyInNode T mem leaf.node)

-- verify_node of a leaf; nothing is returned where the program exits.
def verifyLeaf (root : Bool) (a : Ptr) : Option (Verified K) :=
  (s.leaf a).bind fun leaf =>
  if root = false ∧ leaf.slotuse = 0 then none
  else if ∃ slot, slot < leaf.slotuse - 1 ∧ mem (T.getKeyPtr leaf.node (slot + 1)) <
    mem (T.getKeyPtr leaf.node slot) then none
  else
    (nextOrdered T mem s leaf).bind fun ordered =>
    if ordered then
      some { minkey := getMinKeyInNode T mem leaf.node, maxkey := getMaxKeyInNode T mem leaf.node,
             itemcount := leaf.slotuse }
    else none

-- Neighbouring leaves below one inner node are linked; the check between inner nodes only prints.
def linksFit : (level : Nat) → Node K Ptr level → Node K Ptr level → Bool
  | 0, a, b =>
    (s.leaf a).any (fun leaf => leaf.nextleaf = some b) && (s.leaf b).any fun leaf =>
      leaf.prevleaf = some a
  | _ + 1, _, _ => true

-- The loop over the children, with slotkey[slot - 1] and what is left from childid[slot] on.
def verifyChildren {C : Type} (verifyNode : C → Option (Verified K)) (linked : C → C → Bool) :
    Option K → C → List (K × C) → Option (Verified K)
  | low, child, [] =>
    (verifyNode child).bind fun sub => if low.all fun key => key ≤ sub.minkey
      then some sub else none
  | low, child, (slotkey, next) :: rest =>
    (verifyNode child).bind fun sub =>
    if (low.all fun key => key ≤ sub.minkey) ∧ slotkey = sub.maxkey ∧ linked child next then
      (verifyChildren verifyNode linked (some slotkey) next rest).map fun last =>
        { minkey := sub.minkey, maxkey := last.maxkey, itemcount := sub.itemcount + last.itemcount }
    else none

def verifyNode : (level : Nat) → Bool → Node K Ptr level → Option (Verified K)
  | 0, root, a => verifyLeaf T mem s root a
  | level + 1, root, (inner : InnerNode K (Node K Ptr level)) =>
    if root = false ∧ slots.underflow inner then none
    else if inner.slotuse = 0 then none
    else if (inner.slotkey.zip inner.slotkey.tail).any fun keys => keys.2 < keys.1 then none
    else verifyChildren (verifyNode level false) (linksFit s level) none inner.first inner.rest

-- verify_node of the root and the comparison of vstats.itemcount. verify() also compares the
-- numbers of leaves and inner nodes and then calls verify_leaflinks.
def CountedTree.verifyRoot (m : CountedTree K N) : Bool :=
  match m.tree.root with
  | none => true
  | some root =>
    (verifyNode T slots mem m.tree.store root.1 true root.2).any fun vstats =>
      vstats.itemcount = m.itemcount

end Model

-- The least and the largest of increasing keys, and how many there are.
def span (keys : List K) : Option (Verified K) :=
  keys.head?.bind fun minkey => keys.getLast?.map fun maxkey =>
    { minkey, maxkey, itemcount := keys.length }

variable {T : NodeType K N} {slots : Slots} {mem : Addr → K} {s : Store N} {Valid : N → Prop}
  {Q : Row K (List K) → Prop} {tight : Prop} {t : BTree K N} {m : CountedTree K N} {S : Finset K}
  {pages front back : Row K (List K)} {v w : Verified K} {keys keys' : List K}
  {content : N → List K}

omit [LinearOrder K] in
theorem span_append (first : span keys = some v) (second : span keys' = some w) :
    span (keys ++ keys') = some
      { minkey := v.minkey, maxkey := w.maxkey, itemcount := v.itemcount + w.itemcount } := by
  obtain ⟨a, head, rest⟩ := Option.bind_eq_some_iff.mp first
  obtain ⟨b, last, rfl⟩ := Option.map_eq_some_iff.mp rest
  obtain ⟨a', head', rest'⟩ := Option.bind_eq_some_iff.mp second
  obtain ⟨b', last', rfl⟩ := Option.map_eq_some_iff.mp rest'
  simp [span, head, last', List.head?_append, List.getLast?_append]

omit [LinearOrder K] in
theorem span_some (some_ : keys ≠ []) : ∃ v, span keys = some v ∧ keys.head? = some v.minkey ∧
    keys.getLast? = some v.maxkey ∧
    v.itemcount = keys.length := by
  refine ⟨{ minkey := keys.head some_, maxkey := keys.getLast some_, itemcount := keys.length }, ?_,
    List.head?_eq_some_head some_,
    List.getLast?_eq_some_getLast some_, rfl⟩
  simp [span, List.head?_eq_some_head some_, List.getLast?_eq_some_getLast some_]

/-- What is known of the leaves before their separators are looked at. -/
structure LeavesFit (T : NodeType K N) (slots : Slots) (mem : Addr → K) (Valid : N → Prop)
    (s : Store N) (l : List Ptr) : Prop where
  lawful : T.Lawful mem slots.leaf Valid
  strung : Strung (LeafSound T slots Valid) s l
  sorted : (l.flatMap (s.keysAt (T.keys mem))).Pairwise (· < ·)

theorem verifyLeaf_span {l before after : List Ptr} {a : Ptr}
    (fit : LeavesFit T slots mem Valid s l) (place : l = before ++ a :: after) (root : Bool) :
    verifyLeaf T mem s root a = span (s.keysAt (T.keys mem) a) := by
  subst place
  obtain ⟨leaf, live, sound, _, next⟩ := fit.strung.leaf_at
  have nonempty := fit.lawful.nonempty sound.valid
  have counted := sound.counted
  have increasing := fit.lawful.increasing sound.valid
  have at_ {i : Nat} (lt : i < T.getValidLen leaf.node) : (T.keys mem leaf.node)[i]? =
      some (mem (T.getKeyPtr leaf.node i)) :=
    keys_getElem leaf.node lt
  have length : (T.keys mem leaf.node).length = T.getValidLen leaf.node := keys_length leaf.node
  have first : (T.keys mem leaf.node).head? = some (getMinKeyInNode T mem leaf.node) := by
    rw [List.head?_eq_getElem?]
    exact at_ nonempty
  have last : (T.keys mem leaf.node).getLast? = some (getMaxKeyInNode T mem leaf.node) := by
    rw [List.getLast?_eq_getElem?, length]
    exact at_ (by omega)
  have ordered : ¬ ∃ slot, slot < leaf.slotuse - 1 ∧ mem (T.getKeyPtr leaf.node (slot + 1)) <
      mem (T.getKeyPtr leaf.node slot) := by
    rintro ⟨slot, lt, more⟩
    have here := at_ (show slot < T.getValidLen leaf.node by omega)
    have there := at_ (show slot + 1 < T.getValidLen leaf.node by omega)
    obtain ⟨h, here⟩ := List.getElem?_eq_some_iff.mp here
    obtain ⟨h', there⟩ := List.getElem?_eq_some_iff.mp there
    have less := List.pairwise_iff_getElem.mp increasing slot (slot + 1) h h' (by omega)
    rw [here, there] at less
    exact less.asymm more
  have behind : nextOrdered T mem s leaf = some true := by
    unfold nextOrdered
    rw [next]
    cases after with
    | nil => rfl
    | cons b after =>
      obtain ⟨leaf', live', sound'⟩ := fit.strung.live b (by simp)
      have sorted := fit.sorted
      rw [List.flatMap_append, List.flatMap_cons, List.flatMap_cons, keysAt_of_leaf live,
        keysAt_of_leaf live'] at sorted
      have cross := (List.pairwise_append.mp (List.pairwise_append.mp sorted).2.1).2.2
        _ (List.mem_of_getLast? last)
        (getMinKeyInNode T mem leaf'.node) (List.mem_append_left _ (List.mem_of_mem_head? (by
          rw [List.head?_eq_getElem?]
          exact keys_getElem leaf'.node (fit.lawful.nonempty sound'.valid))))
      simp [live', cross.le]
  unfold verifyLeaf
  rw [keysAt_of_leaf live, live, Option.bind_some, if_neg (by omega), if_neg ordered]
  rw [behind, Option.bind_some, if_pos rfl, span, first, last, length, counted]
  rfl

theorem linksFit_leaves {l : List Ptr} (before after : List Ptr) {a b : Ptr}
    (fit : LeavesFit T slots mem Valid s l) (place : l = before ++ a :: b :: after) :
    linksFit (K := K) s 0 a b = true := by
  subst place
  obtain ⟨leaf, live, _, _, next⟩ := fit.strung.leaf_at
  have strung := fit.strung
  rw [List.append_cons] at strung
  obtain ⟨leaf', live', _, prev, _⟩ := strung.leaf_at
  simp [linksFit, live, live', next, prev]

-- A verified node begins above its separator.
theorem span_above {sep : WithBot K} {page : List K} {rest : Row K (List K)}
    (loose : Loose ((sep, page) :: rest))
    (spanned : span (allKeys ((sep, page) :: rest)) = some v) : sep < (v.minkey : WithBot K) := by
  have some_ : allKeys ((sep, page) :: rest) ≠ [] := fun none => by simp [span, none] at spanned
  obtain ⟨v', spanned', first, _⟩ := span_some some_
  rw [spanned] at spanned'
  cases spanned'
  exact loose.above_first (List.mem_of_mem_head? first)

theorem low_fits {C : Type} {spread : WithBot K × C → Row K Ptr} (starts : Starts spread)
    {low : Option K} {sep : WithBot K} {child : C}
    (loose : Loose (s.pages content (spread (sep, child))))
    (under : ∀ k ∈ low, (k : WithBot K) ≤ sep)
    (spanned : span (allKeys (s.pages content (spread (sep, child)))) = some v) :
    (low.all fun key => key ≤ v.minkey) = true := by
  obtain ⟨d, tail, eq⟩ := starts (sep, child)
  rw [eq] at loose spanned
  have lt := span_above loose spanned
  cases low with
  | none => rfl
  | some key => exact decide_eq_true (WithBot.coe_le_coe.mp ((under key rfl).trans lt.le))

omit [LinearOrder K] in
theorem spread_keys {C : Type} {spread : WithBot K × C → Row K Ptr} (starts : Starts spread)
    {e : WithBot K × C} {row rest : Row K Ptr} (eq : row = spread e ++ rest)
    (full : ∀ page ∈ s.pages content row, page.2 ≠ []) :
    ∃ page pages, s.pages content row = (e.1, page) :: pages ∧ allKeys
      (s.pages content row) ≠ [] := by
  obtain ⟨d, tail, first⟩ := starts e
  have shape : s.pages content row = (e.1, s.keysAt content d) ::
      s.pages content (tail ++ rest) := by
    rw [eq, first]
    rfl
  have page := full (e.1, s.keysAt content d) (by rw [shape]; exact List.mem_cons_self)
  refine ⟨_, _, shape, ?_⟩
  rw [shape]
  exact fun none => page (List.append_eq_nil_iff.mp none).1

-- The children of an inner node, from one of them on.
theorem verifyChildren_iff {C : Type} {verifyNode : C → Option (Verified K)} {linked : C → C → Bool}
    {spread : WithBot K × C → Row K Ptr} (starts : Starts spread) (rest : List (K × C))
    (low : Option K) (sep : WithBot K) (child : C)
    (loose : Loose (s.pages content
      (((sep, child) :: rest.map fun e => ((e.1 : WithBot K), e.2)).flatMap spread)))
    (full : ∀ e ∈ s.pages content
      (((sep, child) :: rest.map fun e => ((e.1 : WithBot K), e.2)).flatMap spread), e.2 ≠ [])
    (under : ∀ k ∈ low, (k : WithBot K) ≤ sep)
    (verified : ∀ e ∈ (sep, child) :: rest.map (fun e => ((e.1 : WithBot K), e.2)), ∀ v,
      verifyNode e.2 = some v ↔
      Exact (s.pages content (spread e)) ∧ span (allKeys (s.pages content (spread e))) = some v)
    (links : (child :: rest.map Prod.snd).IsChain fun a b => linked a b = true) (v : Verified K) :
    verifyChildren verifyNode linked low child rest = some v ↔
      Exact (s.pages content
        (((sep, child) :: rest.map fun e => ((e.1 : WithBot K), e.2)).flatMap spread)) ∧
        span (allKeys (s.pages content
          (((sep, child) :: rest.map fun e => ((e.1 : WithBot K), e.2)).flatMap spread))) =
          some v := by
  have here := verified (sep, child) List.mem_cons_self
  induction rest generalizing low sep child v with
  | nil =>
    simp only [List.map_nil, List.flatMap_cons, List.flatMap_nil, List.append_nil] at loose ⊢
    rw [← here v, verifyChildren, Option.bind_eq_some_iff]
    constructor
    · rintro ⟨sub, node, pass⟩
      rw [if_pos (low_fits starts loose under ((here sub).mp node).2), Option.some.injEq] at pass
      rwa [← pass]
    · exact fun node => ⟨v, node, if_pos (low_fits starts loose under ((here v).mp node).2)⟩
  | cons entry rest ih =>
    obtain ⟨key, next⟩ := entry
    rw [List.map_cons, List.flatMap_cons, pages_append] at loose full ⊢
    obtain ⟨first, second⟩ := loose.of_append
    obtain ⟨linked', links'⟩ := List.isChain_cons_cons.mp links
    have verified' := fun e mem => verified e (List.mem_cons_of_mem (sep, child) mem)
    have full1 : ∀ e ∈ s.pages content (spread (sep, child)), e.2 ≠ [] :=
      fun e mem => full e (List.mem_append_left _ mem)
    have full2 : ∀ e ∈ s.pages content
        ((((key : WithBot K), next) :: rest.map fun e => ((e.1 : WithBot K), e.2)).flatMap spread),
        e.2 ≠ [] :=
      fun e mem => full e (List.mem_append_right _ mem)
    have after := fun v =>
      ih (some key) (key : WithBot K) next second full2 (fun k same => by cases same; exact le_rfl)
        verified' links' v
      (verified' _ List.mem_cons_self)
    obtain ⟨page1, pages1, shape1, keys1⟩ := spread_keys starts (List.append_nil _).symm full1
    obtain ⟨page2, pages2, shape2, keys2⟩ := spread_keys starts List.flatMap_cons full2
    have junction := exact_append ((key : WithBot K), page2) pages2
      full1 (by rw [shape1]; exact List.cons_ne_nil _ _)
    rw [← shape2] at junction
    obtain ⟨v1, spanned1, _, last1, _⟩ := span_some keys1
    obtain ⟨v2, spanned2, _⟩ := span_some keys2
    rw [junction, allKeys_append, span_append spanned1 spanned2, last1, verifyChildren,
      Option.bind_eq_some_iff]
    have fits := low_fits starts first under spanned1
    constructor
    · rintro ⟨sub, node, pass⟩
      obtain ⟨exact1, spanned⟩ := (here sub).mp node
      rw [spanned1, Option.some.injEq] at spanned
      subst spanned
      by_cases checks : (low.all fun key => key ≤ v1.minkey) ∧ key = v1.maxkey ∧
        linked child next = true
      · rw [if_pos checks] at pass
        obtain ⟨last, run, rfl⟩ := Option.map_eq_some_iff.mp pass
        obtain ⟨exact2, spanned⟩ := (after last).mp run
        rw [spanned2, Option.some.injEq] at spanned
        subst spanned
        refine ⟨⟨exact1, exact2, fun k same => ?_⟩, rfl⟩
        rw [← Option.some.inj same, checks.2.1]
      · rw [if_neg checks] at pass
        cases pass
    · rintro ⟨⟨exact1, exact2, sep_⟩, same⟩
      have equal : key = v1.maxkey := WithBot.coe_injective (sep_ _ rfl)
      refine ⟨v1, (here v1).mpr ⟨exact1, spanned1⟩, ?_⟩
      rw [if_pos ⟨fits, equal, linked'⟩, (after v2).mpr ⟨exact2, spanned2⟩]
      exact same

-- What verify_node needs of the sizes.
def NodeFits (slots : Slots) (root : Bool) (level : Nat) (node : Node K Ptr level) : Prop :=
  if root then FilledRoot slots ⟨level, node⟩ else Filled (slots.inner / 2) slots.inner level node

omit [LinearOrder K] in
theorem NodeFits.inner {root : Bool} {node : InnerNode K (Node K Ptr level)}
    (severalInner : 2 ≤ slots.inner) (fits : NodeFits slots root (level + 1) node) :
    ¬ (root = false ∧ slots.underflow node) ∧ node.slotuse ≠ 0 ∧
      node.All (NodeFits slots false level) := by
  have all (h : node.All (Filled (slots.inner / 2) slots.inner level)) :
    node.All (NodeFits slots false level) := h
  cases root with
  | true =>
    obtain ⟨some_, _, below⟩ := fits
    exact ⟨fun both => absurd both.1 (by decide), by omega, all below⟩
  | false =>
    obtain ⟨least, _, below⟩ := fits
    exact ⟨fun both => absurd both.2 (not_lt.mpr least), by omega, all below⟩

theorem slotkeys_ordered {l : List K} (increasing : l.Pairwise (· < ·)) :
    ((l.zip l.tail).any fun keys => keys.2 < keys.1) = false := by
  rw [List.any_eq_false]
  intro keys mem
  obtain ⟨i, lt, rfl⟩ := List.mem_iff_getElem.mp mem
  simp only [List.length_zip, List.length_tail] at lt
  have less := List.pairwise_iff_getElem.mp increasing i (i + 1) (by omega) (by omega) (by omega)
  simpa using less.le

theorem verifyNode_iff {l : List Ptr} (severalInner : 2 ≤ slots.inner)
    (fit : LeavesFit T slots mem Valid s l) (level : Nat) (low : WithBot K)
    (node : Node K Ptr level) (root : Bool) (before after : List Ptr)
    (place : l = before ++ cells (leaves level low node) ++ after)
    (loose : Loose (s.pages (T.keys mem) (leaves level low node)))
    (fits : NodeFits slots root level node) (v : Verified K) :
    verifyNode T slots mem s level root node = some v ↔
      Exact (s.pages (T.keys mem) (leaves level low node)) ∧ span
        (allKeys (s.pages (T.keys mem) (leaves level low node))) = some v := by
  induction level generalizing low root before after v with
  | zero =>
    have here := verifyLeaf_span fit (place.trans (List.append_assoc _ _ _)) root
    change verifyLeaf T mem s root node = some v ↔ _
    rw [here]
    change _ ↔ Exact [(low, s.keysAt (T.keys mem) node)] ∧
      span (allKeys [(low, s.keysAt (T.keys mem) node)]) = some v
    rw [show allKeys [(low, s.keysAt (T.keys mem) node)] =
      s.keysAt (T.keys mem) node from List.append_nil _]
    exact ⟨fun same => ⟨.singleton _, same⟩, fun both => both.2⟩
  | succ level ih =>
    obtain ⟨enough, some_, all⟩ := fits.inner severalInner
    have all := (all_iff_row low).mp all
    have full : ∀ e ∈ s.pages (T.keys mem) (leaves (level + 1) low node), e.2 ≠ [] := by
      intro e inside
      obtain ⟨e', inside', rfl⟩ := List.mem_map.mp inside
      obtain ⟨leaf, live, sound⟩ := fit.strung.live e'.2 (by
        rw [place]
        exact List.mem_append_left _ (List.mem_append_right _ (List.mem_map_of_mem inside')))
      rw [keysAt_of_leaf live]
      exact (counted_leaves fit.lawful).nonempty sound
    have children : ∀ e ∈ row low node, ∀ v, verifyNode T slots mem s level false e.2 = some v ↔
        Exact (s.pages (T.keys mem) (leaves level e.1 e.2)) ∧
        span (allKeys (s.pages (T.keys mem) (leaves level e.1 e.2))) = some v := by
      intro e inside v
      obtain ⟨front, back, eq⟩ := List.append_of_mem inside
      have split : leaves (level + 1) low node = front.flatMap (fun e => leaves level e.1 e.2) ++
        leaves level e.1 e.2 ++
          back.flatMap fun e => leaves level e.1 e.2 := cells_row eq
      refine ih e.1 e.2 false (before ++ cells (front.flatMap fun e => leaves level e.1 e.2))
        (cells (back.flatMap fun e => leaves level e.1 e.2) ++ after) ?_ ?_ (all e inside) v
      · rw [place, split, cells_append, cells_append]
        simp only [List.append_assoc]
      · rw [split, pages_append, pages_append] at loose
        exact loose.of_append.1.of_append.2
    have ascending : Ascending (row low node) := by
      have rows : Ascending (leaves (level + 1) low node) := by
        have pages := loose.ascending
        rwa [Ascending, Store.pages, List.pairwise_map] at pages
      exact rows.outer (starts_leaves level)
    have ordered := slotkeys_ordered (l := InnerNode.slotkey node) (by
      have rest := (List.pairwise_cons.mp ascending).2
      rw [List.pairwise_map] at rest
      rw [InnerNode.slotkey, List.pairwise_map]
      exact rest.imp fun h => WithBot.coe_lt_coe.mp h)
    have links : (InnerNode.first node :: (InnerNode.rest node).map Prod.snd).IsChain fun a b =>
        linksFit s level a b = true := by
      cases level with
      | succ level => exact (List.pairwise_of_forall fun _ _ => rfl).isChain
      | zero =>
        have same : cells (leaves 1 low node) = InnerNode.first node ::
            (InnerNode.rest node).map Prod.snd := by
          change cells ((row low node).flatMap fun e => [(e.1, e.2)]) = _
          simp [cells, row, List.flatMap_singleton']
        rw [← same]
        refine List.isChain_iff_forall_rel_of_append_cons_cons.mpr fun a b front back eq => ?_
        refine linksFit_leaves (before ++ front) (back ++ after) fit ?_
        rw [place, eq]
        simp only [List.append_assoc, List.cons_append]
    have unfolded : verifyNode T slots mem s (level + 1) root node =
      verifyChildren (verifyNode T slots mem s level false)
        (linksFit s level) none (InnerNode.first node) (InnerNode.rest node) := by
      rw [verifyNode, if_neg enough, if_neg some_, if_neg (by rw [ordered]; decide)]
    rw [unfolded]
    exact verifyChildren_iff (starts_leaves level) (InnerNode.rest node) none low
      (InnerNode.first node) loose full (fun k none => by cases none)
      children links v

theorem Intact.leavesFit (lawful : T.Lawful mem slots.leaf Valid) (discipline : Discipline tight Q)
    (intact : Intact T slots mem Valid Q t) :
    LeavesFit T slots mem Valid t.store (cells t.leaves) := by
  refine ⟨lawful, intact.strung, ?_⟩
  have sorted := intact.sorted discipline
  rwa [BTree.content, allKeys, Store.pages, List.flatMap_map,
    ← List.flatMap_map (f := Prod.snd) (g := t.store.keysAt (T.keys mem))] at sorted

-- verify_node asks for exact separators; all else it looks at holds in every state.
theorem Abstracts.verify_iff (lawful : T.Lawful mem slots.leaf Valid)
    (discipline : Discipline tight Q) (severalInner : 2 ≤ slots.inner)
    (abstracts : Abstracts T slots mem Valid Q m S) :
    m.verifyRoot T slots mem = true ↔ Tight (m.tree.store.pages (T.keys mem) m.tree.leaves) := by
  have intact := abstracts.intact
  have loose := discipline.loose intact.pages
  have fit := intact.leavesFit lawful discipline
  rw [loose.tight_iff]
  unfold CountedTree.verifyRoot
  cases eq : m.tree.root with
  | none =>
    have leaves : m.tree.leaves = [] := by rw [BTree.leaves, eq]
    rw [leaves]
    exact ⟨fun _ => .nil, fun _ => rfl⟩
  | some root =>
    obtain ⟨level, node⟩ := root
    have row : m.tree.leaves = leaves level ⊥ node := by rw [BTree.leaves, eq]
    have content := abstracts.content
    rw [BTree.content, row] at content
    rw [row] at loose fit
    rw [row]
    have checked := verifyNode_iff severalInner fit level ⊥ node true [] [] (by simp)
      loose (by simpa [NodeFits] using intact.filled _ eq)
    simp only [Option.any_eq_true, decide_eq_true_eq]
    constructor
    · rintro ⟨v, run, _⟩
      exact ((checked v).mp run).1
    · intro exact_
      have some_ : allKeys (m.tree.store.pages (T.keys mem) (leaves level ⊥ node)) ≠ [] := by
        obtain ⟨a, rest, first⟩ := leaves_low level node
        obtain ⟨leaf, live, sound⟩ := fit.strung.live a (by rw [first]; exact List.mem_cons_self)
        rw [first, pages_cons, keysAt_of_leaf live]
        exact fun none => (counted_leaves lawful).nonempty sound (List.append_eq_nil_iff.mp none).1
      obtain ⟨v, spanned, _, _, count⟩ := span_some some_
      refine ⟨v, (checked v).mpr ⟨exact_, spanned⟩, ?_⟩
      rw [count, content, Finset.length_sort, abstracts.itemcount]

end ElasticIndex.Tree
