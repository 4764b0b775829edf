import ElasticIndex.Tree.Strung

set_option autoImplicit false

namespace ElasticIndex.Tree

open Separators

variable {K C L N : Type} [LinearOrder K] {low sep sl sr : WithBot K} {inner parent : InnerNode K C}
  {before after : Row K C} {child l r : C} {least most level : Nat} {slots : Slots} {mem : Addr → K}
  {T : EraseType K N}

section Rows

theorem modify_next {A : Type} (g : A → A) (l r : List A) (x : A) :
    (l ++ x :: r).modify (l.length + 1) g = l ++ x :: r.modify 0 g := by
  induction l with
  | nil => rfl
  | cons y l ih => simpa using ih

omit [LinearOrder K] in
theorem map_modify_zero (key : K) (rest : List (K × C)) :
    (rest.modify 0 fun entry => (key, entry.2)).map
    (fun entry => ((entry.1 : WithBot K), entry.2)) =
      resep (some key) (rest.map fun entry => ((entry.1 : WithBot K), entry.2)) := by
  cases rest <;> rfl

omit [LinearOrder K] in
theorem row_setKey (eq : row low inner = before ++ (sep, child) :: after) (key : K) :
    row low (inner.setKey before.length key) = before ++ (sep, child) :: resep
      (some key) after := by
  cases before with
  | nil =>
    simp only [row, List.nil_append, List.cons.injEq] at eq ⊢
    exact ⟨eq.1, (map_modify_zero key inner.rest).trans (congrArg _ eq.2)⟩
  | cons e before =>
    simp only [row, List.cons_append, List.cons.injEq] at eq
    obtain ⟨rfl, eq⟩ := eq
    obtain ⟨l, tail, rest, rfl, last⟩ := List.map_eq_append_iff.mp eq
    obtain ⟨x, r, rfl, here, rfl⟩ := List.map_eq_cons_iff.mp last
    simp only [row, InnerNode.setKey, List.length_cons, List.length_map, rest, modify_next,
      List.map_append, List.map_cons, List.cons_append, map_modify_zero, here]

omit [LinearOrder K] in
theorem row_removeChild (eq : row low inner = before ++ (sl, l) :: (sr, r) :: after) :
    ∃ inner', inner.removeChild (before.length + 1) = some inner' ∧
    row low inner' = before ++ (sl, l) :: after := by
  refine ⟨_, rfl, ?_⟩
  have moved : row low { inner with rest := inner.rest.eraseIdx before.length } =
      (row low inner).eraseIdx (before.length + 1) := by
    rw [row, row, List.eraseIdx_cons_succ, List.eraseIdx_map]
  rw [moved, eq, List.append_cons, List.eraseIdx_append_of_length_le (by simp)]
  simp

omit [LinearOrder K] in
theorem slotkey_of_row (eq : row low inner = before ++ (sl, l) :: (sr, r) :: after) :
    ∃ key, inner.slotkey[before.length]? = some key ∧ sr = ↑key := by
  have length := row_length low inner
  rw [eq, List.length_append, List.length_cons, List.length_cons] at length
  obtain ⟨sep', here, side⟩ :=
    row_getElem low inner (show before.length + 1 ≤ inner.slotuse by omega)
  rw [eq, List.append_cons, List.getElem?_append_right (by simp)] at here
  simp only [List.length_append, List.length_cons, List.length_nil, zero_add, Nat.sub_self,
    List.getElem?_cons_zero, Option.some.injEq, Prod.mk.injEq] at here
  rcases side with ⟨zero, _⟩ | ⟨i, k, slot, at_, rfl⟩
  · omega
  · obtain rfl : before.length = i := by omega
    exact ⟨k, at_, here.1⟩

omit [LinearOrder K] in
theorem slotuse_of_row (eq : row low inner = before ++ (sep, child) :: after) :
    inner.slotuse = before.length + after.length := by
  have length := row_length low inner
  rw [eq, List.length_append, List.length_cons] at length
  omega

omit [LinearOrder K] in
theorem slotkey_setKey_length (key : K) (slot : Nat) : (inner.setKey slot key).slotuse =
    inner.slotuse := by
  simp [InnerNode.slotuse, InnerNode.setKey]

variable {key key' : K} {left right left' right' : InnerNode K C}
  {rows rows' : Row K (InnerNode K C)} {upper : InnerNode K (InnerNode K C)}
  {by_ : InnerNode K C → K → InnerNode K C → Option (InnerNode K C × K × InnerNode K C)}

omit [LinearOrder K] in
theorem balance_row (eq : row low upper = rows ++ (sl, left) :: (↑key, right) :: rows')
    (done : by_ left key right = some (left', key', right')) :
    ∃ upper', upper.balance rows.length by_ = some upper' ∧ row low upper' =
      rows ++ (sl, left') :: (↑key', right') :: rows' := by
  obtain ⟨k, at_, same⟩ := slotkey_of_row eq
  obtain rfl := WithBot.coe_injective same
  have next : row low upper = (rows ++ [(sl, left)]) ++ (↑key, right) :: rows' := by
    rw [eq, List.append_assoc]; rfl
  have length : (rows ++ [(sl, left)]).length = rows.length + 1 := by simp
  have here := (childid_of_row eq).2
  have there := (childid_of_row next).2
  rw [length] at there
  refine ⟨((upper.setChild rows.length left').setKey rows.length key').setChild
    (rows.length + 1) right', ?_, ?_⟩
  · rw [InnerNode.balance, at_, here, there, Option.bind_some, done]
    rfl
  · have first := row_setKey (row_setChild eq left') key'
    rw [resep_some, List.append_cons] at first
    have second := row_setChild first right'
    rw [List.length_append, List.length_singleton] at second
    rw [second, List.append_assoc]
    rfl

omit [LinearOrder K] in
theorem mergeInner_row (sl : WithBot K) (left : InnerNode K C) (key : K) (right : InnerNode K C) :
    ∃ left' right', mergeInner left key right = some (left', key, right') ∧
    row sl left' = row sl left ++ row ↑key right ∧
      left'.slotuse = left.slotuse + right.slotuse + 1 ∧ right'.slotuse = 0 :=
  ⟨_, _, rfl, by simp [row], by simp [InnerNode.slotuse]; omega, rfl⟩

theorem cut_at {A B : Type} {l : List (A × B)} {i : Nat} (bound : i < l.length) :
    ∃ front a b rest, l.take i = front ∧
    l.drop i = (a, b) :: rest ∧ l = front ++ (a, b) :: rest ∧ front.length = i := by
  refine ⟨l.take i, l[i].1, l[i].2, l.drop (i + 1), rfl, List.drop_eq_getElem_cons bound,
    ?_, by simp; omega⟩
  rw [← List.drop_eq_getElem_cons bound, List.take_append_drop]

omit [LinearOrder K] in
theorem shiftLeftInner_row (sl : WithBot K) (key : K) (more : left.slotuse + 2 ≤ right.slotuse) :
    ∃ left' key' right', shiftLeftInner left key right = some (left', key', right') ∧
      row sl left' ++ row ↑key' right' = row sl left ++ row ↑key right ∧
      left'.slotuse = left.slotuse + (right.slotuse - left.slotuse) / 2 ∧
      right'.slotuse = right.slotuse - (right.slotuse - left.slotuse) / 2 := by
  obtain ⟨n, shiftnum⟩ : ∃ n, (right.slotuse - left.slotuse) / 2 = n := ⟨_, rfl⟩
  have bound : n - 1 < right.rest.length := by
    have : right.rest.length = right.slotuse := rfl
    omega
  unfold shiftLeftInner
  simp only [shiftnum]
  rw [if_neg (by omega)]
  obtain ⟨front, newkey, child, rest, taken, dropped, whole, length⟩ := cut_at bound
  rw [taken, dropped]
  have total : right.slotuse = front.length + (rest.length + 1) := by
    rw [InnerNode.slotuse, whole, List.length_append, List.length_cons]
  refine ⟨_, _, _, rfl, by simp [row, whole], ?_, ?_⟩
  · simp only [InnerNode.slotuse, List.length_append, List.length_cons] at more shiftnum ⊢
    omega
  · change rest.length = _
    omega

omit [LinearOrder K] in
theorem shiftRightInner_row (sl : WithBot K) (key : K) (more : right.slotuse + 2 ≤ left.slotuse) :
    ∃ left' key' right', shiftRightInner left key right = some (left', key', right') ∧
      row sl left' ++ row ↑key' right' = row sl left ++ row ↑key right ∧
      left'.slotuse = left.slotuse - (left.slotuse - right.slotuse) / 2 ∧
      right'.slotuse = right.slotuse + (left.slotuse - right.slotuse) / 2 := by
  obtain ⟨n, shiftnum⟩ : ∃ n, (left.slotuse - right.slotuse) / 2 = n := ⟨_, rfl⟩
  have bound : left.slotuse - n < left.rest.length := by
    have : left.rest.length = left.slotuse := rfl
    omega
  unfold shiftRightInner
  simp only [shiftnum]
  obtain ⟨front, newkey, child, rest, taken, dropped, whole, length⟩ := cut_at bound
  rw [taken, dropped]
  have total : left.slotuse = front.length + (rest.length + 1) := by
    rw [InnerNode.slotuse, whole, List.length_append, List.length_cons]
  refine ⟨_, _, _, rfl, by simp [row, whole], ?_, ?_⟩
  · change front.length = _
    omega
  · simp only [InnerNode.slotuse, List.length_append, List.length_cons]
      at more shiftnum total length ⊢
    omega

-- Every child.
def InnerNode.All (P : C → Prop) (inner : InnerNode K C) : Prop :=
  P inner.first ∧ ∀ entry ∈ inner.rest, P entry.2

omit [LinearOrder K] in
theorem all_iff_row {P : C → Prop} (low : WithBot K) : inner.All P ↔
    ∀ e ∈ row low inner, P e.2 := by
  constructor
  · rintro ⟨first, rest⟩ e mem
    rcases List.mem_cons.mp mem with rfl | mem
    · exact first
    · obtain ⟨entry, inside, rfl⟩ := List.mem_map.mp mem
      exact rest entry inside
  · intro all
    exact ⟨all (low, inner.first) List.mem_cons_self,
      fun entry inside => all (↑entry.1, entry.2)
      (List.mem_cons_of_mem _ (List.mem_map_of_mem inside))⟩

-- The inner nodes have as many keys as they have to, and no more than fit.
def Filled (least most : Nat) : (level : Nat) → Node K L level → Prop
  | 0, _ => True
  | level + 1, (inner : InnerNode K (Node K L level)) =>
    least ≤ inner.slotuse ∧ inner.slotuse ≤ most ∧ inner.All (Filled least most level)

end Rows

section Rebalance

variable {around : Around K level} {front back : Row K (Node K Ptr level)}

/-- A node between its siblings below one parent; the others of left and right have a parent higher
up. -/
structure Beside (around : Around K level) (front back : Row K (Node K Ptr level)) : Prop where
  left : ∀ e ∈ front.getLast?, around.left = some e.2 ∧ around.leftparent = some (level + 1)
  right : ∀ e ∈ back.head?, around.right = some e.2 ∧ around.rightparent = some (level + 1)
  farLeft : front = [] → around.leftparent ≠ some (level + 1)
  farRight : back = [] → around.rightparent ≠ some (level + 1)

variable {around : Around K (level + 1)}
  {front back rows rows' : Row K (InnerNode K (Node K Ptr level))}
  {inner left right : InnerNode K (Node K Ptr level)}
  {upper : InnerNode K (InnerNode K (Node K Ptr level))} {s : Store N}

-- What is done with the node depends on the sibling taken.
omit [LinearOrder K] in
theorem rebalance_cases (slots : Slots) (beside : Beside around front back)
    (some_ : front ≠ [] ∨ back ≠ [])
    (upper : InnerNode K (InnerNode K (Node K Ptr level))) (slot : Nat) :
    (∃ rows sl left, front = rows ++ [(sl, left)] ∧
      (slots.few left ∧ rebalance slots around upper slot =
        (upper.balance (slot - 1) mergeInner).map (fun upper => (upper, true)) ∨
        ¬ slots.few left ∧ rebalance slots around upper slot =
          (upper.balance (slot - 1) shiftRightInner).map fun upper => (upper, false))) ∨
    (∃ sr right rows, back = (sr, right) :: rows ∧
      (slots.few right ∧ rebalance slots around upper slot =
        (upper.balance slot mergeInner).map (fun upper => (upper, true)) ∨
        ¬ slots.few right ∧ rebalance slots around upper slot =
          (upper.balance slot shiftLeftInner).map fun upper => (upper, false))) := by
  unfold rebalance
  rcases List.eq_nil_or_concat' front with rfl | ⟨rows, ⟨sl, left⟩, rfl⟩
  · obtain ⟨⟨sr, right⟩, rows, rfl⟩ :=
      List.exists_cons_of_ne_nil (some_.resolve_left fun ne => ne rfl)
    obtain ⟨right_, here⟩ : around.right = some right ∧ around.rightparent = some (level + 2) :=
      beside.right (sr, right) rfl
    have other : around.leftparent ≠ some (level + 2) := beside.farLeft rfl
    refine .inr ⟨sr, right, rows, rfl, ?_⟩
    rw [right_]
    cases around.left with
    | none => by_cases few : slots.few right <;> simp [few, other, here]
    | some left =>
      by_cases fewLeft : slots.few left <;> by_cases few : slots.few right <;>
        simp [fewLeft, few, other, here]
  · obtain ⟨left_, here⟩ : around.left = some left ∧ around.leftparent = some (level + 2) :=
      beside.left (sl, left) List.getLast?_concat
    rw [left_]
    cases back with
    | nil =>
      have other : around.rightparent ≠ some (level + 2) := beside.farRight rfl
      refine .inl ⟨rows, sl, left, rfl, ?_⟩
      cases around.right with
      | none => by_cases few : slots.few left <;> simp [few, other.symm, here]
      | some right =>
        by_cases fewRight : slots.few right <;> by_cases few : slots.few left <;>
          simp [fewRight, few, other, other.symm, here]
    | cons e back =>
      obtain ⟨sr, right⟩ := e
      obtain ⟨right_, there⟩ : around.right = some right ∧ around.rightparent = some (level + 2) :=
        beside.right (sr, right) rfl
      rw [right_]
      by_cases fewLeft : slots.few left
      · by_cases fewRight : slots.few right
        · exact .inl ⟨rows, sl, left, rfl, .inl ⟨fewLeft, by simp [fewLeft, fewRight, here]⟩⟩
        · exact .inr ⟨sr, right, back, rfl, .inr ⟨fewRight, by simp [fewLeft, fewRight, there]⟩⟩
      · by_cases fewRight : slots.few right
        · exact .inl ⟨rows, sl, left, rfl, .inr ⟨fewLeft, by simp [fewLeft, fewRight, here]⟩⟩
        · by_cases le : InnerNode.slotuse left ≤ InnerNode.slotuse right
          · exact .inr ⟨sr, right, back, rfl,
              .inr ⟨fewRight, by simp [fewLeft, fewRight, here, there, le]⟩⟩
          · exact .inl ⟨rows, sl, left, rfl,
              .inr ⟨fewLeft, by simp [fewLeft, fewRight, here, there, le]⟩⟩

/-- The outcome in the parent, after it has let go of an emptied child. -/
structure Rebalanced (slots : Slots) (low : WithBot K)
    (upper upper' : InnerNode K (InnerNode K C)) : Prop where
  children : children (row low upper') = children (row low upper)
  least : upper.slotuse ≤ upper'.slotuse + 1
  most : upper'.slotuse ≤ upper.slotuse
  filled : ∀ e ∈ row low upper', slots.inner / 2 ≤ e.2.slotuse ∧ e.2.slotuse ≤ slots.inner

omit [LinearOrder K] in
theorem Rebalanced.of_pair {upper upper' : InnerNode K (InnerNode K C)}
    {front back : Row K (InnerNode K C)} (middle : Row K (InnerNode K C))
    {left right : InnerNode K C} (eq : row low upper = front ++ (sl, left) :: (sr, right) :: back)
    (eq' : row low upper' = front ++ middle ++ back)
    (same : ElasticIndex.Tree.children middle = row sl left ++ row sr right)
    (one : middle.length = 1 ∨ middle.length = 2)
    (filled : ∀ e ∈ middle, slots.inner / 2 ≤ e.2.slotuse ∧ e.2.slotuse ≤ slots.inner)
    (others : ∀ e ∈ front ++ back, slots.inner / 2 ≤ e.2.slotuse ∧ e.2.slotuse ≤ slots.inner) :
    Rebalanced slots low upper upper' := by
  have length := row_length low upper
  have length' := row_length low upper'
  rw [eq] at length
  rw [eq'] at length'
  simp only [List.length_append, List.length_cons] at length length'
  refine ⟨?_, by omega, by omega, fun e mem => ?_⟩
  · rw [eq, eq']
    simp only [ElasticIndex.Tree.children, List.flatMap_append, List.flatMap_cons] at same ⊢
    rw [same]
    simp
  · rw [eq'] at mem
    simp only [List.mem_append] at mem others
    rcases mem with (mem | mem) | mem
    · exact others e (.inl mem)
    · exact filled e mem
    · exact others e (.inr mem)

-- A merge below a parent that lets go of the emptied node.
omit [LinearOrder K] in
theorem merge_pair (T : EraseType K N) (mem : Addr → K)
    {left right : InnerNode K (Node K Ptr level)} {key : K} {slot : Nat}
    (eq : row low upper = rows ++ (sl, left) :: (↑key, right) :: rows')
    (at_ : slot = rows.length ∨ slot = rows.length + 1)
    (fits : left.slotuse + right.slotuse + 1 ≤ slots.inner)
    (enough : slots.inner / 2 ≤ left.slotuse + right.slotuse + 1)
    (others : ∀ e ∈ rows ++ rows', slots.inner / 2 ≤ e.2.slotuse ∧ e.2.slotuse ≤ slots.inner)
    (s : Store N) :
    ∃ u upper', upper.balance rows.length mergeInner = some u ∧ fixMerge T mem
      (level + 1) s u slot = some (s, upper') ∧
      Rebalanced slots low upper upper' := by
  obtain ⟨left', right', merge, whole, size, gone⟩ := mergeInner_row sl left key right
  obtain ⟨u, balance, eq'⟩ := balance_row eq merge
  obtain ⟨upper', remove, row'⟩ := row_removeChild eq'
  have here := (childid_of_row eq').2
  have next : row low u = (rows ++ [(sl, left')]) ++ (↑key, right') :: rows' := by
    rw [eq', List.append_assoc]; rfl
  have there := (childid_of_row next).2
  rw [List.length_append, List.length_singleton] at there
  refine ⟨u, upper', balance, ?_,
    .of_pair [(sl, left')] eq (by rw [row', List.append_assoc]; rfl) ?_ (.inl rfl) ?_ others⟩
  · have emptied : (if (u.childid slot).slotuse ≠ 0 then slot + 1 else slot) = rows.length + 1 := by
      rcases at_ with rfl | rfl
      · rw [here, if_pos (by omega)]
      · rw [there, if_neg (by omega)]
    change ((u.removeChild (if (u.childid slot).slotuse ≠ 0 then slot + 1 else slot)).map
      fun inner => (s, inner)) = _
    rw [emptied, remove]
    rfl
  · simpa [ElasticIndex.Tree.children] using whole
  · intro e mem
    obtain rfl := List.mem_singleton.mp mem
    dsimp only
    omega

omit [LinearOrder K] in
theorem shift_pair {left right : InnerNode K (Node K Ptr level)} {key : K}
    {by_ : InnerNode K (Node K Ptr level) → K → InnerNode K (Node K Ptr level) →
      Option (InnerNode K (Node K Ptr level) × K × InnerNode K (Node K Ptr level))}
    {left' right' : InnerNode K (Node K Ptr level)} {key' : K}
    (eq : row low upper = rows ++ (sl, left) :: (↑key, right) :: rows')
    (shift : by_ left key right = some (left', key', right'))
    (whole : row sl left' ++ row ↑key' right' = row sl left ++ row ↑key right)
    (sizes : (slots.inner / 2 ≤ left'.slotuse ∧ left'.slotuse ≤ slots.inner) ∧
      slots.inner / 2 ≤ right'.slotuse ∧ right'.slotuse ≤ slots.inner)
    (others : ∀ e ∈ rows ++ rows', slots.inner / 2 ≤ e.2.slotuse ∧ e.2.slotuse ≤ slots.inner) :
    ∃ upper', upper.balance rows.length by_ = some upper' ∧ Rebalanced slots low upper upper' := by
  obtain ⟨upper', balance, eq'⟩ := balance_row eq shift
  refine ⟨upper', balance,
    .of_pair [(sl, left'), (↑key', right')] eq (by rw [eq', List.append_assoc]; rfl) ?_
    (.inr rfl) ?_ others⟩
  · simpa [ElasticIndex.Tree.children] using whole
  · intro e mem
    simp only [List.mem_cons, List.not_mem_nil, or_false] at mem
    rcases mem with rfl | rfl
    · exact sizes.1
    · exact sizes.2

omit [LinearOrder K] in
theorem rebalance_row (T : EraseType K N) (mem : Addr → K) (beside : Beside around front back)
    (some_ : front ≠ [] ∨ back ≠ []) (eq : row low upper = front ++ (sep, inner) :: back)
    (under : slots.underflow inner) (least : slots.inner / 2 ≤ inner.slotuse + 1)
    (others : ∀ e ∈ front ++ back, slots.inner / 2 ≤ e.2.slotuse ∧ e.2.slotuse ≤ slots.inner)
    (s : Store N) :
    ∃ u fixmerge upper', rebalance slots around upper front.length = some (u, fixmerge) ∧
      (if fixmerge then fixMerge T mem (level + 1) s u front.length else some (s, u)) =
      some (s, upper') ∧
        Rebalanced slots low upper upper' := by
  have under' : inner.slotuse < slots.inner / 2 := under
  rcases rebalance_cases slots beside some_ upper front.length with
    ⟨rows, sl, left, rfl, run⟩ | ⟨sr, right, rows, rfl, run⟩
  · rw [List.append_assoc, List.singleton_append] at eq
    obtain ⟨key, -, rfl⟩ := slotkey_of_row eq
    have sizes := others (sl, left) (by simp)
    dsimp only at sizes
    have others' : ∀ e ∈ rows ++ back, slots.inner / 2 ≤ e.2.slotuse ∧
        e.2.slotuse ≤ slots.inner := fun e mem =>
      others e (by
        simp only [List.mem_append, List.mem_singleton] at mem ⊢
        tauto)
    have length : (rows ++ [(sl, left)]).length = rows.length + 1 := by simp
    rw [length, Nat.add_sub_cancel] at run
    rw [length]
    rcases run with ⟨few, run⟩ | ⟨many, run⟩
    · have few' : left.slotuse ≤ slots.inner / 2 := few
      obtain ⟨u, upper', balance, fix, done⟩ :=
        merge_pair T mem eq (.inr rfl) (by omega) (by omega) others' s
      exact ⟨u, true, upper', by rw [run, balance]; rfl, fix, done⟩
    · have many' : ¬ left.slotuse ≤ slots.inner / 2 := many
      obtain ⟨left', key', right', shift, whole, sizeLeft, sizeRight⟩ :=
        shiftRightInner_row sl key (show inner.slotuse + 2 ≤ left.slotuse by omega)
      obtain ⟨upper', balance, done⟩ := shift_pair eq shift whole (by omega) others'
      exact ⟨upper', false, upper', by rw [run, balance]; rfl, rfl, done⟩
  · obtain ⟨key, -, rfl⟩ := slotkey_of_row eq
    have sizes := others (↑key, right) (by simp)
    dsimp only at sizes
    have others' : ∀ e ∈ front ++ rows, slots.inner / 2 ≤ e.2.slotuse ∧
        e.2.slotuse ≤ slots.inner := fun e mem =>
      others e (by
        simp only [List.mem_append, List.mem_cons] at mem ⊢
        tauto)
    rcases run with ⟨few, run⟩ | ⟨many, run⟩
    · have few' : right.slotuse ≤ slots.inner / 2 := few
      obtain ⟨u, upper', balance, fix, done⟩ :=
        merge_pair T mem eq (.inl rfl) (by omega) (by omega) others' s
      exact ⟨u, true, upper', by rw [run, balance]; rfl, fix, done⟩
    · have many' : ¬ right.slotuse ≤ slots.inner / 2 := many
      obtain ⟨left', key', right', shift, whole, sizeLeft, sizeRight⟩ :=
        shiftLeftInner_row sep key (show inner.slotuse + 2 ≤ right.slotuse by omega)
      obtain ⟨upper', balance, done⟩ := shift_pair eq shift whole (by omega) others'
      exact ⟨upper', false, upper', by rw [run, balance]; rfl, rfl, done⟩

end Rebalance

end ElasticIndex.Tree
