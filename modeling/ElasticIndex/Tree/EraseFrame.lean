import ElasticIndex.Tree.EraseInner

set_option autoImplicit false

namespace ElasticIndex.Tree

open Separators LinkedRow Loop

variable {K C L N : Type} [LinearOrder K] {low low' sep : WithBot K} {level : Nat} {slots : Slots}
  {mem : Addr → K} {T : EraseType K N} {Valid : N → Prop} {s s' : Store N} {x : K}
  {bound : Option K}

section Leaves

-- Only the first separator of a node's leaves depends on what stands below it.
omit [LinearOrder K] in
theorem leaves_low (level : Nat) (node : Node K L level) : ∃ a rest, ∀ low, leaves level low node =
    (low, a) :: rest := by
  induction level with
  | zero => exact ⟨node, [], fun _ => rfl⟩
  | succ level ih =>
    obtain ⟨a, rest, first⟩ := ih (InnerNode.first node)
    refine ⟨a, rest ++ ((InnerNode.rest node).map fun entry =>
      ((entry.1 : WithBot K), entry.2)).flatMap fun e => leaves level e.1 e.2,
      fun low => ?_⟩
    change leaves level low (InnerNode.first node) ++ _ = _
    rw [first]
    rfl

omit [LinearOrder K] in
theorem leaves_ne_nil (node : Node K L level) : leaves level low node ≠ [] := by
  obtain ⟨a, rest, eq⟩ := leaves_low level node
  rw [eq]
  exact List.cons_ne_nil _ _

omit [LinearOrder K] in
theorem leaves_resep (rows : Row K (Node K L level)) :
    (resep bound rows).flatMap (fun e => leaves level e.1 e.2) = resep bound
    (rows.flatMap fun e => leaves level e.1 e.2) := by
  cases bound with
  | none => rfl
  | some k =>
    cases rows with
    | nil => rfl
    | cons e rows =>
      obtain ⟨a, rest, eq⟩ := leaves_low level e.2
      simp only [resep_some, List.flatMap_cons, eq, List.cons_append]

omit [LinearOrder K] in
theorem flatMap_leaves_eq_nil {rows : Row K (Node K L level)} :
    rows.flatMap (fun e => leaves level e.1 e.2) = [] ↔ rows = [] := by
  refine ⟨fun none => ?_, fun none => by rw [none]; rfl⟩
  by_contra some_
  obtain ⟨e, rest, rfl⟩ := List.exists_cons_of_ne_nil some_
  rw [List.flatMap_cons, List.append_eq_nil_iff] at none
  exact leaves_ne_nil e.2 none.1

omit [LinearOrder K] in
theorem cells_leaves (low low' : WithBot K) (node : Node K Ptr level) :
    cells (leaves level low node) = cells (leaves level low' node) := by
  obtain ⟨a, rest, eq⟩ := leaves_low level node
  rw [eq, eq]
  rfl

omit [LinearOrder K] in
theorem cells_row {inner : InnerNode K (Node K Ptr level)} {front back : Row K (Node K Ptr level)}
    {child : Node K Ptr level} (eq : row low inner = front ++ (sep, child) :: back) :
    leaves (level + 1) low inner =
      front.flatMap (fun e => leaves level e.1 e.2) ++ leaves level sep child ++
        back.flatMap fun e => leaves level e.1 e.2 := by
  change (row low inner).flatMap (fun e => leaves level e.1 e.2) = _
  rw [eq, List.flatMap_append, List.flatMap_cons, List.append_assoc]

omit [LinearOrder K] in
theorem cells_childid {inner : InnerNode K (Node K Ptr level)} {i : Nat}
    (inside : i ≤ inner.slotuse) {a : Ptr} (mem : a ∈ cells (leaves level ⊥ (inner.childid i))) :
    a ∈ cells (leaves (level + 1) low inner) := by
  obtain ⟨front, sep, back, eq, _⟩ := row_child low inside
  rw [cells_row eq, cells_append, cells_append, cells_leaves _ ⊥ (inner.childid i)]
  simp [mem]

end Leaves

/-- A stretch of leaves that becomes one leaf, with the separator behind it. -/
structure Edit (K : Type) where
  middle : Row K Ptr
  low : WithBot K
  cell : Ptr
  bound : Option K

-- pending is the last key that no parent has taken so far.
def Edit.At (edit : Edit K) (row row' : Row K Ptr) (pending : Option K) : Prop :=
  ∃ front back, row = front ++ edit.middle ++ back ∧
    row' = front ++ (edit.low, edit.cell) :: resep edit.bound back ∧
    pending = if back = [] then edit.bound else none

-- The leaf of the key is alone with it and the last one of its parent.
def LastAlone (content : N → List K) (s : Store N) (x : K) (level : Nat)
    (node : Node K Ptr (level + 1)) : Prop :=
  findLower (descendParent x level node).slotkey x = (descendParent x level node).slotuse ∧
    s.keysAt content (descend x (level + 1) node) = [x]

/-- The key is gone from the leaves of the stretch, and no other leaf has changed. -/
structure Edit.Done (edit : Edit K) (content : N → List K) (s : Store N) (x : K) (alone : Prop)
    (s' : Store N) : Prop where
  first : ∃ a rest, edit.middle = (edit.low, a) :: rest
  inside : x ∈ allKeys (s.pages content edit.middle)
  keys : s'.keysAt content edit.cell = (allKeys (s.pages content edit.middle)).erase x
  others : ∀ a, a ∉ cells edit.middle → s'.body a = s.body a
  bound : ∀ k ∈ edit.bound, (s'.keysAt content edit.cell).getLast? = some k
  same : ¬ alone → edit.bound = none → (s'.keysAt content edit.cell).getLast? =
    (allKeys (s.pages content edit.middle)).getLast?

/-- A call of erase_one_descend below a parent, with the leaves of the parent among those of the
tree. -/
structure Frame (T : EraseType K N) (slots : Slots) (mem : Addr → K) (Valid : N → Prop)
    (s : Store N) (around : Around K level) (parent : InnerNode K (Node K Ptr level))
    (low : WithBot K) (front : Row K (Node K Ptr level)) (sep : WithBot K) (curr : Node K Ptr level)
    (back : Row K (Node K Ptr level)) (before after : List Ptr) (x : K) : Prop where
  above : around.parent = some (parent, front.length)
  eq : row low parent = front ++ (sep, curr) :: back
  slot : findLower parent.slotkey x = front.length
  beside : Beside around front back
  leftparent : ∀ n ∈ around.leftparent, level + 1 ≤ n
  rightparent : ∀ n ∈ around.rightparent, level + 1 ≤ n
  left : ∀ l ∈ around.left, ∀ a ∈ cells (leaves level ⊥ l), a ∈
    before ++ cells (front.flatMap fun e => leaves level e.1 e.2)
  right : ∀ r ∈ around.right, ∀ a ∈ cells (leaves level ⊥ r), a ∈
    cells (back.flatMap fun e => leaves level e.1 e.2) ++ after
  strung : Strung (LeafSound T.toNodeType slots Valid) s
    (before ++ cells (leaves (level + 1) low parent) ++ after)
  loose : Loose (s.pages (T.keys mem) (leaves (level + 1) low parent))
  filled : ∀ e ∈ row low parent, Filled (slots.inner / 2) slots.inner level e.2
  some_ : front ≠ [] ∨ back ≠ []

variable {before after : List Ptr}

theorem frame_below {around : Around K (level + 1)} (inner : InnerNode K (Node K Ptr level))
    (before after : List Ptr) (leftparent : ∀ n ∈ around.leftparent, level + 2 ≤ n)
    (rightparent : ∀ n ∈ around.rightparent, level + 2 ≤ n)
    (left : ∀ l ∈ around.left, ∀ a ∈ cells (leaves (level + 1) ⊥ l), a ∈ before)
    (right : ∀ r ∈ around.right, ∀ a ∈ cells (leaves (level + 1) ⊥ r), a ∈ after)
    (strung : Strung (LeafSound T.toNodeType slots Valid) s
      (before ++ cells (leaves (level + 1) low inner) ++ after))
    (loose : Loose (s.pages (T.keys mem) (leaves (level + 1) low inner)))
    (filled : inner.All (Filled (slots.inner / 2) slots.inner level))
    (some_ : 1 ≤ inner.slotuse) (x : K) :
    ∃ front sep back, Frame T slots mem Valid s
      (around.below inner (findLower inner.slotkey x)) inner low front sep
      (inner.childid (findLower inner.slotkey x)) back before after x := by
  have inside : findLower inner.slotkey x ≤ inner.slotuse := by
    simpa [InnerNode.slotkey, InnerNode.slotuse] using findLower_le inner.slotkey x
  obtain ⟨front, sep, back, eq, length⟩ := row_child low inside
  have total := slotuse_of_row eq
  have beforeChild {l : Row K (Node K Ptr level)} {e : WithBot K × Node K Ptr level}
    (split : front = l ++ [e]) :
      inner.childid (front.length - 1) = e.2 ∧ front.length ≠ 0 := by
    subst split
    rw [List.append_assoc, List.singleton_append] at eq
    simpa using (childid_of_row eq).2
  have afterChild {r : Row K (Node K Ptr level)} {e : WithBot K × Node K Ptr level}
    (split : back = e :: r) :
      inner.childid (front.length + 1) = e.2 ∧ front.length ≠ inner.slotuse := by
    subst split
    have next : row low inner = (front ++ [(sep, inner.childid (findLower inner.slotkey x))]) ++
        (e.1, e.2) :: r := by
      rw [eq, List.append_assoc]
      rfl
    have at_ := (childid_of_row next).2
    rw [List.length_append, List.length_singleton] at at_
    refine ⟨at_, ?_⟩
    rw [total, List.length_cons]
    omega
  have first : front = [] ↔ front.length = 0 := List.length_eq_zero_iff.symm
  have last : back = [] ↔ front.length = inner.slotuse := by
    rw [total, ← List.length_eq_zero_iff]
    omega
  rw [← length]
  refine ⟨front, sep, back, rfl, by rw [length, eq], length.symm,
    ⟨fun e mem => ?_, fun e mem => ?_, fun none => ?_, fun none => ?_⟩,
    fun n mem => ?_, fun n mem => ?_, fun l mem a inside => ?_, fun r mem a inside => ?_,
    strung, loose, ?_, ?_⟩
  · obtain ⟨l, split⟩ : ∃ l, front = l ++ [e] := by
      rcases List.eq_nil_or_concat' front with rfl | ⟨l, e', rfl⟩
      · cases mem
      · rw [List.getLast?_concat] at mem
        cases mem
        exact ⟨l, rfl⟩
    obtain ⟨here, ne⟩ := beforeChild split
    exact ⟨(if_neg ne).trans (congrArg some here), if_neg ne⟩
  · obtain ⟨r, split⟩ : ∃ r, back = e :: r := by
      cases back with
      | nil => cases mem
      | cons e' r =>
        cases mem
        exact ⟨r, rfl⟩
    obtain ⟨here, ne⟩ := afterChild split
    exact ⟨(if_neg ne).trans (congrArg some here), if_neg ne⟩
  · have far : (around.below inner front.length).leftparent = around.leftparent :=
      if_pos (first.mp none)
    rw [far]
    intro same
    have above := leftparent _ same
    omega
  · have far : (around.below inner front.length).rightparent = around.rightparent :=
      if_pos (last.mp none)
    rw [far]
    intro same
    have above := rightparent _ same
    omega
  · by_cases zero : front.length = 0
    · have above := leftparent n
        ((if_pos zero : (around.below inner front.length).leftparent = around.leftparent) ▸ mem)
      omega
    · have here : (around.below inner front.length).leftparent = some (level + 1) := if_neg zero
      rw [here] at mem
      exact (Option.some.inj mem).le
  · by_cases whole : front.length = inner.slotuse
    · have above := rightparent n
        ((if_pos whole : (around.below inner front.length).rightparent = around.rightparent) ▸ mem)
      omega
    · have here : (around.below inner front.length).rightparent = some (level + 1) := if_neg whole
      rw [here] at mem
      exact (Option.some.inj mem).le
  · by_cases zero : front.length = 0
    · have far : (around.below inner front.length).left = around.left.map fun left =>
          InnerNode.childid left (InnerNode.slotuse left - 1) :=
        if_pos zero
      rw [far] at mem
      obtain ⟨node, above, rfl⟩ := Option.map_eq_some_iff.mp mem
      exact List.mem_append_left _ (left node above a (cells_childid (Nat.sub_le _ _) inside))
    · have here : (around.below inner front.length).left =
        some (inner.childid (front.length - 1)) := if_neg zero
      rw [here] at mem
      cases mem
      rcases List.eq_nil_or_concat' front with rfl | ⟨l, e, rfl⟩
      · exact absurd rfl zero
      · rw [(beforeChild rfl).1, cells_leaves _ e.1] at inside
        refine List.mem_append_right _ ?_
        rw [List.flatMap_append, cells_append, List.flatMap_singleton]
        exact List.mem_append_right _ inside
  · by_cases whole : front.length = inner.slotuse
    · have far : (around.below inner front.length).right = around.right.map fun right =>
        InnerNode.childid right 0 := if_pos whole
      rw [far] at mem
      obtain ⟨node, above, rfl⟩ := Option.map_eq_some_iff.mp mem
      exact List.mem_append_right _ (right node above a (cells_childid (Nat.zero_le _) inside))
    · have here : (around.below inner front.length).right =
        some (inner.childid (front.length + 1)) := if_neg whole
      rw [here] at mem
      cases mem
      cases back with
      | nil => exact absurd (last.mp rfl) whole
      | cons e r =>
        rw [(afterChild rfl).1, cells_leaves _ e.1] at inside
        refine List.mem_append_left _ ?_
        rw [List.flatMap_cons, cells_append]
        exact List.mem_append_left _ inside
  · exact (all_iff_row low).mp filled
  · by_contra none
    push Not at none
    rw [none.1, none.2] at total
    simp at total
    omega

-- The call for the root itself has no node on either side of it.
theorem frame_root (inner : InnerNode K (Node K Ptr level))
    (strung : Strung (LeafSound T.toNodeType slots Valid) s (cells (leaves (level + 1) ⊥ inner)))
    (loose : Loose (s.pages (T.keys mem) (leaves (level + 1) ⊥ inner)))
    (filled : inner.All (Filled (slots.inner / 2) slots.inner level))
    (some_ : 1 ≤ inner.slotuse) (x : K) :
    ∃ front sep back, Frame T slots mem Valid s
      (Around.root.below inner (findLower inner.slotkey x)) inner ⊥ front sep
      (inner.childid (findLower inner.slotkey x)) back [] [] x := by
  refine frame_below inner [] [] ?_ ?_ ?_ ?_ (by simpa using strung) loose filled some_ x
  · intro n none
    cases none
  · intro n none
    cases none
  · intro l none
    cases none
  · intro r none
    cases none

/-- What a call leaves behind once the parent has let go of an emptied child. -/
structure Erases (T : EraseType K N) (slots : Slots) (mem : Addr → K)
    (Valid : N → Prop) (s : Store N) (parent : InnerNode K (Node K Ptr level)) (low : WithBot K)
    (slot : Nat) (before after : List Ptr) (x : K) (edit : Edit K) (out : EraseOutcome K N level)
    (s' : Store N) (parent' : InnerNode K (Node K Ptr level)) : Prop where
  found : out.result.notFound = false
  fixed : (if out.result.fixmerge then fixMerge T mem level out.store (out.parent.getD parent) slot
    else some (out.store, out.parent.getD parent)) = some (s', parent')
  edits : edit.At (leaves (level + 1) low parent) (leaves (level + 1) low parent')
    out.result.updateLastkey
  done : edit.Done (T.keys mem) s x (LastAlone (T.keys mem) s x level parent) s'
  strung : Strung (LeafSound T.toNodeType slots Valid) s'
    (before ++ cells (leaves (level + 1) low parent') ++ after)
  filled : ∀ e ∈ row low parent', Filled (slots.inner / 2) slots.inner level e.2
  least : parent.slotuse ≤ parent'.slotuse + 1
  most : parent'.slotuse ≤ parent.slotuse

omit [LinearOrder K] in
theorem forwardLast_row {parent : InnerNode K C} {front back : Row K C} {curr : C}
    (eq : row low parent = front ++ (sep, curr) :: back) (pending : Option K) :
    ∃ parent', forwardLast (some (parent, front.length)) pending =
      (some parent', if back = [] then pending else none) ∧
      row low parent' = front ++ (sep, curr) :: resep pending back ∧
      parent'.slotuse = parent.slotuse := by
  have total := slotuse_of_row eq
  cases pending with
  | none => exact ⟨parent, by simp [forwardLast], eq, rfl⟩
  | some k =>
    cases back with
    | nil => exact ⟨parent, by simp [forwardLast, total], by rw [eq, resep_nil], rfl⟩
    | cons e back =>
      exact ⟨parent.setKey front.length k, by simp [forwardLast, total], row_setKey eq k,
        slotkey_setKey_length k _⟩

omit [LinearOrder K] in
theorem Beside.resep {around : Around K level} {front back : Row K (Node K Ptr level)}
    (beside : Beside around front back) :
    Beside around front (Separators.resep bound back) := by
  refine ⟨beside.left, fun e mem => ?_, beside.farLeft,
    fun none => beside.farRight (resep_eq_nil.mp none)⟩
  cases bound with
  | none => exact beside.right e mem
  | some k =>
    cases back with
    | nil => exact beside.right e mem
    | cons e' back =>
      cases mem
      exact beside.right e' rfl

omit [LinearOrder K] in
theorem mem_resep {row : Row K C} {e : WithBot K × C} (mem : e ∈ Separators.resep bound row) :
    ∃ e' ∈ row, e'.2 = e.2 := by
  have inside : e.2 ∈ (Separators.resep bound row).map Prod.snd := List.mem_map_of_mem mem
  rw [map_snd_resep] at inside
  exact List.mem_map.mp inside

omit [LinearOrder K] in
theorem leaves_children (upper : InnerNode K (InnerNode K (Node K Ptr level))) :
    leaves (level + 2) low upper =
    (children (row low upper)).flatMap fun e => leaves level e.1 e.2 := by
  change (row low upper).flatMap (fun e => (row e.1 e.2).flatMap fun e => leaves level e.1 e.2) = _
  rw [children, List.flatMap_assoc]

omit [LinearOrder K] in
theorem all_children {P : C → Prop} {rows : Row K (InnerNode K C)} : (∀ e ∈ rows, e.2.All P) ↔
    ∀ e ∈ children rows, P e.2 := by
  refine ⟨fun all e mem => ?_, fun all e mem => (all_iff_row e.1).mpr fun e' inside =>
    all e' (List.mem_flatMap.mpr ⟨e, mem, inside⟩)⟩
  obtain ⟨e', mem', inside⟩ := List.mem_flatMap.mp mem
  exact (all_iff_row e'.1).mp (all e' mem') e inside

-- The node of an inner call goes back to its parent.
omit [LinearOrder K] in
theorem underflowInner_row (T : EraseType K N) (mem : Addr → K) {around : Around K (level + 1)}
    {parent : InnerNode K (InnerNode K (Node K Ptr level))}
    {front back : Row K (InnerNode K (Node K Ptr level))}
    {curr inner : InnerNode K (Node K Ptr level)} (pending : Option K)
    (above : around.parent = some (parent, front.length))
    (eq : row low parent = front ++ (sep, curr) :: back) (beside : Beside around front back)
    (some_ : front ≠ [] ∨ back ≠ [])
    (filled : ∀ e ∈ row low parent, Filled (slots.inner / 2) slots.inner (level + 1) e.2)
    (least : slots.inner / 2 ≤ inner.slotuse + 1) (most : inner.slotuse ≤ slots.inner)
    (below : inner.All (Filled (slots.inner / 2) slots.inner level)) (s : Store N) :
    ∃ out parent', underflowInner slots s around (forwardLast around.parent pending).1
      (forwardLast around.parent pending).2 inner = some out ∧
      out.result.notFound = false ∧ out.result.updateLastkey =
        (if back = [] then pending else none) ∧
      (if out.result.fixmerge
        then fixMerge T mem (level + 1) out.store (out.parent.getD parent) front.length
        else some (out.store, out.parent.getD parent)) = some (s, parent') ∧
      children (row low parent') = children (front ++ (sep, inner) :: resep pending back) ∧
      (∀ e ∈ row low parent', Filled (slots.inner / 2) slots.inner (level + 1) e.2) ∧
      parent.slotuse ≤ parent'.slotuse + 1 ∧ parent'.slotuse ≤ parent.slotuse := by
  obtain ⟨parent₁, forward, row₁, same⟩ := forwardLast_row eq pending
  have row₂ := row_setChild row₁ inner
  have size : (parent₁.setChild front.length inner).slotuse = parent.slotuse :=
    slotuse_setChild.trans same
  have others : ∀ e ∈ front ++ resep pending back,
      Filled (slots.inner / 2) slots.inner (level + 1) e.2 := by
    intro e mem
    rcases List.mem_append.mp mem with mem | mem
    · exact filled e (by rw [eq]; exact List.mem_append_left _ mem)
    · obtain ⟨e', inside, same⟩ := mem_resep mem
      rw [← same]
      exact filled e' (by rw [eq]; exact List.mem_append_right _ (List.mem_cons_of_mem _ inside))
  have everyone : ∀ e ∈ children (front ++ (sep, inner) :: resep pending back),
      Filled (slots.inner / 2) slots.inner level e.2 := by
    refine all_children.mp fun e mem => ?_
    rcases List.mem_append.mp mem with mem | mem
    · exact (others e (List.mem_append_left _ mem)).2.2
    · rcases List.mem_cons.mp mem with rfl | mem
      · exact below
      · exact (others e (List.mem_append_right _ mem)).2.2
  rw [above, forward]
  unfold underflowInner
  rw [above]
  dsimp only
  by_cases under : slots.underflow inner
  · obtain ⟨u, fixmerge, parent', run, fixed, done⟩ := rebalance_row T mem beside.resep
      (some_.imp_right fun ne none => ne (resep_eq_nil.mp none)) row₂ under least
        (fun e mem => ⟨(others e mem).1, (others e mem).2.1⟩) s
    rw [if_pos under, run]
    refine ⟨_, parent', rfl, rfl, rfl, fixed, done.children.trans (by rw [row₂]), fun e mem => ?_,
      size ▸ done.least, size ▸ done.most⟩
    have all := all_children.mpr fun e mem => everyone e (row₂ ▸ done.children ▸ mem)
    exact ⟨(done.filled e mem).1, (done.filled e mem).2, all e mem⟩
  · have enough : ¬ inner.slotuse < slots.inner / 2 := under
    rw [if_neg under]
    refine ⟨_, parent₁.setChild front.length inner, rfl, rfl, rfl, rfl, by rw [row₂],
      fun e mem => ?_, by omega, by omega⟩
    rw [row₂] at mem
    rcases List.mem_append.mp mem with mem | mem
    · exact others e (List.mem_append_left _ mem)
    · rcases List.mem_cons.mp mem with rfl | mem
      · exact ⟨not_lt.mp enough, most, below⟩
      · exact others e (List.mem_append_right _ mem)

-- The edit of a node's leaves is one of its parent's, whose next separator takes the pending key.
omit [LinearOrder K] in
theorem Edit.At.outer {edit : Edit K} {R R' B : Row K Ptr} {pending : Option K} {last : Prop}
    [Decidable last] (at_ : edit.At R R' pending) (F : Row K Ptr) (ends : last ↔ B = []) :
    edit.At (F ++ R ++ B) (F ++ R' ++ resep pending B) (if last then pending else none) := by
  obtain ⟨front, back, rfl, rfl, rfl⟩ := at_
  by_cases inner : back = []
  · subst inner
    exact ⟨F ++ front, B, by simp, by simp, by simp [ends]⟩
  · refine ⟨F ++ front, back ++ B, by simp, ?_, by simp [inner]⟩
    rw [if_neg inner, resep_none, resep_append inner]
    simp

variable {asserts : Bool}

/-- What an erasing tree relies on: besides the laws of the insertions, a hit of a point search, a
removal, which removable guards, and a merge, also of an emptied node. -/
structure EraseType.Lawful (T : EraseType K N) (mem : Addr → K) (slots : Nat) (Valid : N → Prop)
    (removable : N → K → Prop) :
    Prop extends T.toNodeType.Lawful mem slots Valid where
  point : ∀ {node}, Valid node →
    ∀ x, ∃ r, Returns (fun rounds => T.searchBlindiNode rounds mem node x .point) r ∧
    (r.hit = true ↔ x ∈ T.keys mem node) ∧ (r.hit = true → (T.keys mem node)[r.position]? = some x)
  remove : ∀ {node x}, Valid node → x ∈ T.keys mem node → removable node x →
    ∃ node', Returns (fun rounds => T.removeFromBlindiNodeWithKey rounds mem node x) node' ∧
      (1 ≤ T.getValidLen node' → Valid node') ∧ T.keys mem node' = (T.keys mem node).erase x
  merge : ∀ {small large}, Valid small ∨ T.getValidLen small = 0 → Valid large ∨
    T.getValidLen large = 0 → Valid small ∨ Valid large →
    (∀ k ∈ T.keys mem small, ∀ k' ∈ T.keys mem large, k < k') →
    T.getValidLen small + T.getValidLen large ≤ slots →
      ∃ node, Returns (fun rounds => T.mergeBlindiNodes rounds mem small large) node ∧ Valid node ∧
        T.keys mem node = T.keys mem small ++ T.keys mem large

end ElasticIndex.Tree
