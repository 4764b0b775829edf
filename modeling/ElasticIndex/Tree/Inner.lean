import ElasticIndex.Shared.Separators

set_option autoImplicit false

namespace ElasticIndex.Tree

open Separators

variable {K C L S R : Type} [LinearOrder K]

/-- slotkey[i] stands beside childid[i + 1], childid[0] alone; slotuse is the length of the list.
The flag is the one of the hybrid tree, the other trees never look at it. -/
structure InnerNode (K C : Type) where
  first : C
  rest : List (K × C)
  alreadycomprerss : Bool

abbrev Node (K L : Type) : Nat → Type
  | 0 => L
  | level + 1 => InnerNode K (Node K L level)

namespace InnerNode

def slotuse (inner : InnerNode K C) : Nat := inner.rest.length

def slotkey (inner : InnerNode K C) : List K := inner.rest.map Prod.fst

def childid (inner : InnerNode K C) : Nat → C
  | 0 => inner.first
  | i + 1 => (inner.rest[i]?.map Prod.snd).getD inner.first

def setChild (inner : InnerNode K C) (slot : Nat) (child : C) : InnerNode K C :=
  match slot with
  | 0 => { inner with first := child }
  | i + 1 => { inner with rest := inner.rest.modify i fun entry => (entry.1, child) }

-- slotkey[slot] = newkey and childid[slot + 1] = newchild, after both arrays have moved up.
def place (inner : InnerNode K C) (slot : Nat) (newkey : K) (newchild : C) : InnerNode K C :=
  { inner with rest := inner.rest.insertIdx slot (newkey, newchild) }

end InnerNode

-- The linear search; the binary one is compiled out.
def findLower : List K → K → Nat
  | [], _ => 0
  | slotkey :: rest, key => if slotkey < key then findLower rest key + 1 else 0

def splitMid (slotuse addslot : Nat) : Nat :=
  let mid := slotuse / 2
  if addslot ≤ mid ∧ slotuse - (mid + 1) < mid then mid - 1 else mid

-- The node, *newkey and *newinner.
def splitInnerNode (inner : InnerNode K C) (addslot : Nat) :
    Option (InnerNode K C × K × InnerNode K C) :=
  let mid := splitMid inner.slotuse addslot
  match inner.rest.drop mid with
  | [] => none
  | (newkey, child) :: rest =>
    some ({ inner with rest := inner.rest.take mid }, newkey,
      { first := child, rest, alreadycomprerss := false })

-- The block of insert_descend that takes a new child into an inner node.
def addNewchild (innerslotmax : Nat) (inner : InnerNode K C) (slot : Nat) :
    Option (K × C) → Option (InnerNode K C × Option (K × InnerNode K C))
  | none => some (inner, none)
  | some (newkey, newchild) =>
    if inner.slotuse = innerslotmax then
      (splitInnerNode inner slot).map fun (inner, splitkey, splitinner) =>
        if slot = inner.slotuse + 1 ∧ inner.slotuse < splitinner.slotuse then
          ({ inner with rest := inner.rest ++ [(splitkey, splitinner.first)] },
            some (newkey, { splitinner with first := newchild }))
        else if inner.slotuse + 1 ≤ slot then
          (inner, some (splitkey, splitinner.place (slot - (inner.slotuse + 1)) newkey newchild))
        else (inner.place slot newkey newchild, some (splitkey, splitinner))
    else some (inner.place slot newkey newchild, none)

def descend (key : K) : (level : Nat) → Node K L level → L
  | 0, leaf => leaf
  | level + 1, inner =>
    descend key level (InnerNode.childid inner (findLower (InnerNode.slotkey inner) key))

-- The inner node above the leaf in which the descent ends.
def descendParent (key : K) : (level : Nat) → Node K L (level + 1) → InnerNode K L
  | 0, inner => inner
  | level + 1, inner =>
    descendParent key level (InnerNode.childid inner (findLower (InnerNode.slotkey inner) key))

/-- What the leaf part leaves behind: the parent it was given unless it is at the root, and
*splitkey and *splitnode. -/
structure LeafOutcome (S K L R : Type) where
  state : S
  parent : Option (InnerNode K L)
  split : Option (K × L)
  result : R

-- The leaf part gets parent_n and parentslot; at the root parent_n is the leaf itself.
def insertDescend (innerslotmax : Nat)
    (leafPart : S → Option (InnerNode K L × Nat) → L → Option (LeafOutcome S K L R)) (key : K) :
    (level : Nat) → S → Node K L level →
      Option (S × Node K L level × Option (K × Node K L level) × R)
  | 0, s, leaf => (leafPart s none leaf).map fun out => (out.state, leaf, out.split, out.result)
  | 1, s, (inner : InnerNode K L) =>
    let slot := findLower inner.slotkey key
    (leafPart s (some (inner, slot)) (inner.childid slot)).bind fun out =>
      (addNewchild innerslotmax (out.parent.getD inner) slot out.split).map fun (inner, split) =>
        (out.state, inner, split, out.result)
  | level + 2, s, (inner : InnerNode K (Node K L (level + 1))) =>
    let slot := findLower inner.slotkey key
    (insertDescend innerslotmax leafPart key (level + 1) s (inner.childid slot)).bind
        fun (s, child, newchild, r) =>
      (addNewchild innerslotmax (inner.setChild slot child) slot newchild).map fun (inner, split) =>
        (s, inner, split, r)

-- The root is split like any other node, under a new one.
def growRoot {level : Nat} (node : Node K L level) : Option (K × Node K L level) →
    (level : Nat) × Node K L level
  | none => ⟨level, node⟩
  | some (newkey, newchild) =>
    ⟨level + 1, { first := node, rest := [(newkey, newchild)], alreadycomprerss := false }⟩

def row (low : WithBot K) (inner : InnerNode K C) : Row K C :=
  (low, inner.first) :: inner.rest.map fun entry => (↑entry.1, entry.2)

-- A node together with its new sibling.
def splitRow (low : WithBot K) (node : C) (split : Option (K × C)) : Row K C :=
  (low, node) :: (split.map fun entry => ((entry.1 : WithBot K), entry.2)).toList

-- The nodes of the lowest level of inner nodes.
def parents : (level : Nat) → WithBot K → Node K L (level + 1) → Row K (InnerNode K L)
  | 0, low, inner => [(low, inner)]
  | level + 1, low, (inner : InnerNode K (Node K L (level + 1))) =>
    (row low inner).flatMap fun entry => parents level entry.1 entry.2

def leaves : (level : Nat) → WithBot K → Node K L level → Row K L
  | 0, low, leaf => [(low, leaf)]
  | level + 1, low, (inner : InnerNode K (Node K L level)) =>
    (row low inner).flatMap fun entry => leaves level entry.1 entry.2

section Rows

variable {low sep : WithBot K} {inner : InnerNode K C} {before after : Row K C} {old child : C}

omit [LinearOrder K] in
theorem row_length (low : WithBot K) (inner : InnerNode K C) :
    (row low inner).length = inner.slotuse + 1 := by
  simp [row, InnerNode.slotuse]

omit [LinearOrder K] in
theorem row_getElem (low : WithBot K) (inner : InnerNode K C) {slot : Nat}
    (inside : slot ≤ inner.slotuse) :
    ∃ sep, (row low inner)[slot]? = some (sep, inner.childid slot) ∧
      (slot = 0 ∧ sep = low ∨ ∃ i k, slot = i + 1 ∧ inner.slotkey[i]? = some k ∧ sep = k) := by
  cases slot with
  | zero => exact ⟨low, rfl, .inl ⟨rfl, rfl⟩⟩
  | succ i =>
    have lt : i < inner.rest.length := inside
    refine ⟨(inner.rest[i].1 : WithBot K), ?_, .inr ⟨i, inner.rest[i].1, rfl, ?_, rfl⟩⟩
    · simp [row, InnerNode.childid, lt]
    · simp [InnerNode.slotkey, lt]

theorem findLower_le (keys : List K) (key : K) : findLower keys key ≤ keys.length := by
  induction keys with
  | nil => exact le_rfl
  | cons k keys ih =>
    unfold findLower
    split_ifs <;> simp only [List.length_cons] <;> omega

theorem findLower_lt {keys : List K} {key k : K} {i : Nat} (lt : i < findLower keys key)
    (at_ : keys[i]? = some k) :
    k < key := by
  induction keys generalizing i with
  | nil => simp at at_
  | cons k' keys ih =>
    unfold findLower at lt
    split_ifs at lt with less
    · cases i with
      | zero =>
        simp only [List.getElem?_cons_zero, Option.some.injEq] at at_
        exact at_ ▸ less
      | succ i =>
        have next : i < findLower keys key := by omega
        exact ih next (by simpa using at_)
    · omega

theorem findLower_stop {keys : List K} {key k : K}
    (at_ : keys[findLower keys key]? = some k) : key ≤ k := by
  induction keys with
  | nil => simp at at_
  | cons k' keys ih =>
    unfold findLower at at_
    split_ifs at at_ with less
    · exact ih (by simpa using at_)
    · simp only [List.getElem?_cons_zero, Option.some.injEq] at at_
      exact at_ ▸ not_lt.mp less

theorem findLower_full {keys : List K} {key : K} : keys.length ≤ findLower keys key ↔
    ∀ k ∈ keys, k < key := by
  induction keys with
  | nil => simp [findLower]
  | cons k keys ih =>
    unfold findLower
    split_ifs with less
    · simpa [less] using ih
    · simp [less]

theorem findLower_of_mem {keys : List K} {x : K} (increasing : keys.Pairwise (· < ·))
    (inside : x ∈ keys) :
    keys[findLower keys x]? = some x := by
  obtain ⟨i, lt, rfl⟩ := List.mem_iff_getElem.mp inside
  have le : findLower keys keys[i] ≤ i := by
    by_contra past
    exact lt_irrefl _ (findLower_lt (not_le.mp past) (List.getElem?_eq_getElem lt))
  have here := List.getElem?_eq_getElem (lt_of_le_of_lt le lt)
  rw [here]
  rcases le.lt_or_eq with before | same
  · have less := List.pairwise_iff_getElem.mp increasing _ _ (lt_of_le_of_lt le lt) lt before
    exact absurd (findLower_stop here) (not_le.mpr less)
  · simp only [same]

theorem findLower_append (l r : List K) (key : K) :
    findLower (l ++ r) key = if findLower l key < l.length then findLower l key
      else l.length + findLower r key := by
  induction l with
  | nil => simp [findLower]
  | cons k l ih =>
    rw [List.cons_append, findLower, findLower, ih]
    by_cases less : k < key
    · simp only [if_pos less, List.length_cons, Nat.add_lt_add_iff_right]
      split_ifs <;> omega
    · simp [less]

-- find_lower stands where the key has to be inserted.
theorem insertIdx_findLower {keys : List K} {key : K} (increasing : keys.Pairwise (· < ·))
    (missing : key ∉ keys) :
    (keys.insertIdx (findLower keys key) key).Pairwise (· < ·) := by
  induction keys with
  | nil => simp [findLower]
  | cons k keys ih =>
    obtain ⟨above, rest⟩ := List.pairwise_cons.mp increasing
    have ne : key ≠ k := fun same => missing (same ▸ List.mem_cons_self)
    unfold findLower
    split_ifs with less
    · rw [List.insertIdx_succ_cons]
      refine List.pairwise_cons.mpr ⟨fun k' mem => ?_,
        ih rest fun mem => missing (List.mem_cons_of_mem _ mem)⟩
      rcases List.eq_or_mem_of_mem_insertIdx mem with rfl | mem
      · exact less
      · exact above k' mem
    · have more : key < k := lt_of_le_of_ne (not_lt.mp less) ne
      rw [List.insertIdx_zero]
      refine List.pairwise_cons.mpr ⟨fun k' mem => ?_, increasing⟩
      rcases List.mem_cons.mp mem with rfl | mem
      · exact more
      · exact more.trans (above k' mem)

theorem split_at_getElem {A : Type} {l : List A} {i : Nat} {x : A} (at_ : l[i]? = some x) :
    l = l.take i ++ x :: l.drop (i + 1) ∧ (l.take i).length = i := by
  obtain ⟨lt, rfl⟩ := List.getElem?_eq_some_iff.mp at_
  exact ⟨by simp, by simp; omega⟩

-- Where find_lower sends the descent in one inner node.
theorem row_findLower (inner : InnerNode K C) {key : K} (below : low < key) :
    ∃ (before : Row K C) (sep : WithBot K) (after : Row K C),
      row low inner = before ++ (sep, inner.childid (findLower inner.slotkey key)) :: after ∧
      before.length = findLower inner.slotkey key ∧ sep < key ∧
      ∀ e, after.head? = some e → (key : WithBot K) ≤ e.1 := by
  have inside : findLower inner.slotkey key ≤ inner.slotuse := by
    simpa [InnerNode.slotkey, InnerNode.slotuse] using findLower_le inner.slotkey key
  obtain ⟨sep, here, side⟩ := row_getElem low inner inside
  obtain ⟨eq, length⟩ := split_at_getElem here
  refine ⟨_, sep, _, eq, length, ?_, fun e first => ?_⟩
  · rcases side with ⟨_, rfl⟩ | ⟨i, k, slot, at_, rfl⟩
    · exact below
    · exact WithBot.coe_lt_coe.mpr (findLower_lt (by omega) at_)
  · rw [List.head?_drop] at first
    obtain ⟨lt, _⟩ := List.getElem?_eq_some_iff.mp first
    rw [row_length] at lt
    obtain ⟨sep', here', side'⟩ :=
      row_getElem low inner (show findLower inner.slotkey key + 1 ≤ inner.slotuse by omega)
    rw [first] at here'
    cases here'
    rcases side' with ⟨zero, _⟩ | ⟨i, k, slot, at_, rfl⟩
    · omega
    · obtain rfl : i = findLower inner.slotkey key := by omega
      exact WithBot.coe_le_coe.mpr (findLower_stop at_)

theorem modify_length {A : Type} (g : A → A) (l r : List A) (x : A) :
    (l ++ x :: r).modify l.length g = l ++ g x :: r := by
  induction l with
  | nil => rfl
  | cons y l ih => simpa using ih

theorem insertIdx_length {A : Type} (l r : List A) (x : A) :
    (l ++ r).insertIdx l.length x = l ++ x :: r := by
  induction l with
  | nil => rfl
  | cons y l ih => simpa using ih

omit [LinearOrder K] in
theorem row_setChild (eq : row low inner = before ++ (sep, old) :: after) (child : C) :
    row low (inner.setChild before.length child) = before ++ (sep, child) :: after := by
  cases before with
  | nil =>
    simp only [row, List.nil_append, List.cons.injEq, Prod.mk.injEq] at eq ⊢
    exact ⟨⟨eq.1.1, rfl⟩, eq.2⟩
  | cons e before =>
    simp only [row, List.cons_append, List.cons.injEq] at eq
    obtain ⟨rfl, eq⟩ := eq
    obtain ⟨l, tail, rest, rfl, last⟩ := List.map_eq_append_iff.mp eq
    obtain ⟨x, r, rfl, here, rfl⟩ := List.map_eq_cons_iff.mp last
    simp only [Prod.mk.injEq] at here
    simp only [row, InnerNode.setChild, List.length_cons, List.length_map, rest,
      modify_length, List.map_append, List.map_cons, List.cons_append, here.1]

omit [LinearOrder K] in
theorem row_place (eq : row low inner = before ++ (sep, child) :: after)
    (newkey : K) (newchild : C) :
    row low (inner.place before.length newkey newchild) =
      before ++ (sep, child) :: (↑newkey, newchild) :: after := by
  have moved : row low (inner.place before.length newkey newchild) =
      (row low inner).insertIdx (before.length + 1) (↑newkey, newchild) := by
    simp [row, InnerNode.place, List.map_insertIdx]
  have length : before.length + 1 = (before ++ [(sep, child)]).length := by simp
  rw [moved, eq, length, List.append_cons, insertIdx_length]
  simp

omit [LinearOrder K] in
theorem splitInnerNode_spec (low : WithBot K) (some_ : 0 < inner.slotuse) (addslot : Nat) :
    ∃ small splitkey large, splitInnerNode inner addslot = some (small, splitkey, large) ∧
      row low inner = row low small ++ row ↑splitkey large := by
  have inside : splitMid inner.slotuse addslot < inner.rest.length := by
    change _ < inner.slotuse
    unfold splitMid
    dsimp only
    split_ifs <;> omega
  unfold splitInnerNode
  dsimp only
  generalize splitMid inner.slotuse addslot = mid at inside
  have split := List.take_append_drop mid inner.rest
  cases cut : inner.rest.drop mid with
  | nil =>
    rw [List.drop_eq_nil_iff] at cut
    omega
  | cons entry rest =>
    refine ⟨_, _, _, rfl, ?_⟩
    rw [cut] at split
    simp only [row, List.cons_append]
    rw [← List.map_cons (f := fun entry : K × C => ((entry.1 : WithBot K), entry.2)),
      ← List.map_append, split]

omit [LinearOrder K] in
theorem splitInnerNode_flags {small large : InnerNode K C} {splitkey : K} {addslot : Nat}
    (eq : splitInnerNode inner addslot = some (small, splitkey, large)) :
    small.alreadycomprerss = inner.alreadycomprerss ∧ large.alreadycomprerss = false := by
  unfold splitInnerNode at eq
  dsimp only at eq
  split at eq
  · cases eq
  · cases eq
    exact ⟨rfl, rfl⟩

-- However a full node is divided, the children stand in order again, the new one after the one it
-- was split from.
omit [LinearOrder K] in
theorem addNewchild_row {innerslotmax : Nat} (positive : 0 < innerslotmax)
    (eq : row low inner = before ++ (sep, child) :: after) (newchild : Option (K × C)) :
    ∃ l r, addNewchild innerslotmax inner before.length newchild = some (l, r) ∧
      (splitRow low l r).flatMap (fun e => row e.1 e.2) =
      before ++ splitRow sep child newchild ++ after ∧
      l.alreadycomprerss = inner.alreadycomprerss ∧ ∀ e ∈ r, e.2.alreadycomprerss = false := by
  cases newchild with
  | none => exact ⟨inner, none, rfl, by simp [splitRow, eq], rfl, by simp⟩
  | some entry =>
    obtain ⟨newkey, newchild⟩ := entry
    by_cases full : inner.slotuse = innerslotmax
    case neg =>
      refine ⟨inner.place before.length newkey newchild, none, ?_, ?_, rfl, by simp⟩
      · unfold addNewchild
        simp [full]
      · simp [splitRow, row_place eq]
    case pos =>
      obtain ⟨small, splitkey, large, split, parts⟩ :=
        splitInnerNode_spec low (show 0 < inner.slotuse by omega) before.length
      obtain ⟨flag, fresh⟩ := splitInnerNode_flags split
      have length := row_length low small
      unfold addNewchild
      simp only [full, if_true, split, Option.map_some]
      rw [parts] at eq
      by_cases border : before.length = small.slotuse + 1 ∧ small.slotuse < large.slotuse
      · -- the split falls between the child and its new sibling
        rw [if_pos border]
        obtain ⟨rfl, same⟩ := List.append_inj eq (by omega)
        refine ⟨_, _, rfl, ?_, flag, by simp [fresh]⟩
        simp only [row, List.cons.injEq, Prod.mk.injEq] at same
        simp [splitRow, row, ← same.1.1, ← same.1.2, ← same.2]
      · rw [if_neg border]
        by_cases past : small.slotuse + 1 ≤ before.length
        · rw [if_pos past]
          obtain ⟨before', rfl⟩ : ∃ before', before = row low small ++ before' := by
            have front := congrArg (List.take (small.slotuse + 1)) eq
            rw [← length, List.take_left, List.take_append_of_le_length (by omega)] at front
            exact ⟨_, by rw [front, List.take_append_drop]⟩
          rw [List.append_assoc, List.append_cancel_left_eq] at eq
          have offset : (row low small ++ before').length - (small.slotuse + 1) =
              before'.length := by
            rw [List.length_append, length, Nat.add_sub_cancel_left]
          rw [offset]
          refine ⟨_, _, rfl, ?_, flag, by simpa [InnerNode.place] using fresh⟩
          simp [splitRow, row_place eq]
        · rw [if_neg past]
          refine ⟨_, _, rfl, ?_, flag, by simp [fresh]⟩
          obtain ⟨after', rest, rfl⟩ : ∃ after', row low small = before ++ (sep, child) :: after' ∧
              after = after' ++ row ↑splitkey large := by
            have front := congrArg (List.take before.length) eq
            rw [List.take_left, List.take_append_of_le_length (by omega)] at front
            have back := congrArg (List.drop before.length) eq
            rw [List.drop_left, List.drop_append_of_le_length (by omega)] at back
            cases tail : (row low small).drop before.length with
            | nil =>
              rw [List.drop_eq_nil_iff] at tail
              omega
            | cons e after' =>
              rw [tail, List.cons_append, List.cons.injEq] at back
              refine ⟨after', ?_, back.2.symm⟩
              have whole := List.take_append_drop before.length (row low small)
              rw [front, tail, back.1] at whole
              exact whole.symm
          simp [splitRow, row_place rest]

variable {i j : Nat}

omit [LinearOrder K] in
@[simp] theorem slotkey_setChild : (inner.setChild i child).slotkey = inner.slotkey := by
  cases i with
  | zero => rfl
  | succ i =>
    refine List.ext_getElem (by simp [InnerNode.slotkey, InnerNode.setChild]) fun n left right => ?_
    simp only [InnerNode.slotkey, InnerNode.setChild, List.getElem_map, List.getElem_modify]
    split_ifs <;> rfl

omit [LinearOrder K] in
@[simp] theorem slotuse_setChild : (inner.setChild i child).slotuse = inner.slotuse := by
  have keys : (inner.setChild i child).slotkey = inner.slotkey := slotkey_setChild
  have same := congrArg List.length keys
  simpa [InnerNode.slotkey, InnerNode.slotuse] using same

omit [LinearOrder K] in
@[simp] theorem flag_setChild : (inner.setChild i child).alreadycomprerss =
    inner.alreadycomprerss := by
  cases i <;> rfl

omit [LinearOrder K] in
theorem setChild_childid (inner : InnerNode K C) (i : Nat) :
    inner.setChild i (inner.childid i) = inner := by
  cases i with
  | zero => rfl
  | succ i =>
    have same : inner.rest.modify i (fun entry => (entry.1, inner.childid (i + 1))) =
        inner.rest := by
      refine List.ext_getElem (by simp) fun n left right => ?_
      rw [List.getElem_modify]
      split_ifs with here
      · subst here
        simp [InnerNode.childid, right]
      · rfl
    rw [InnerNode.setChild, same]

omit [LinearOrder K] in
theorem childid_setChild_self (inside : i ≤ inner.slotuse) :
    (inner.setChild i child).childid i = child := by
  cases i with
  | zero => rfl
  | succ i =>
    have lt : i < inner.rest.length := inside
    simp [InnerNode.childid, InnerNode.setChild, lt]

omit [LinearOrder K] in
theorem childid_setChild_other (inside : j ≤ inner.slotuse) (ne : j ≠ i) :
    (inner.setChild i child).childid j = inner.childid j := by
  cases i with
  | zero =>
    cases j with
    | zero => exact absurd rfl ne
    | succ j =>
      have lt : j < inner.rest.length := inside
      simp [InnerNode.childid, InnerNode.setChild, lt]
  | succ i =>
    cases j with
    | zero => rfl
    | succ j =>
      have lt : j < inner.rest.length := inside
      have apart : i ≠ j := fun same => ne (by rw [same])
      simp [InnerNode.childid, InnerNode.setChild, lt, apart]

omit [LinearOrder K] in
theorem row_child (low : WithBot K) (inside : i ≤ inner.slotuse) :
    ∃ (before : Row K C) (sep : WithBot K) (after : Row K C),
    row low inner = before ++ (sep, inner.childid i) :: after ∧ before.length = i := by
  obtain ⟨sep, here, _⟩ := row_getElem low inner inside
  obtain ⟨eq, length⟩ := split_at_getElem here
  exact ⟨_, sep, _, eq, length⟩

omit [LinearOrder K] in
theorem childid_of_row (eq : row low inner = before ++ (sep, child) :: after) :
    before.length ≤ inner.slotuse ∧ inner.childid before.length = child := by
  have length := row_length low inner
  rw [eq, List.length_append, List.length_cons] at length
  have inside : before.length ≤ inner.slotuse := by omega
  obtain ⟨sep', here, _⟩ := row_getElem low inner inside
  rw [eq, List.getElem?_append_right le_rfl, Nat.sub_self, List.getElem?_cons_zero] at here
  simp only [Option.some.injEq, Prod.mk.injEq] at here
  exact ⟨inside, here.2.symm⟩

end Rows

section Descent

omit [LinearOrder K] in
theorem starts_row : Starts fun e : WithBot K × InnerNode K C => row e.1 e.2 :=
  fun _ => ⟨_, _, rfl⟩

omit [LinearOrder K] in
theorem starts_parents (level : Nat) : Starts fun e : WithBot K × Node K L (level + 1) =>
    parents level e.1 e.2 := by
  induction level with
  | zero => exact fun e => ⟨e.2, [], rfl⟩
  | succ level ih =>
    rintro ⟨low, inner⟩
    obtain ⟨d, rest, eq⟩ := ih (low, InnerNode.first inner)
    exact ⟨d, _, congrArg (fun l => l ++ _) eq⟩

omit [LinearOrder K] in
theorem leaves_eq (level : Nat) (low : WithBot K) (node : Node K L (level + 1)) :
    leaves (level + 1) low node = (parents level low node).flatMap fun e => row e.1 e.2 := by
  induction level generalizing low with
  | zero =>
    simp only [leaves, parents, List.flatMap_cons, List.flatMap_nil, List.append_nil]
    simp
  | succ level ih =>
    have under : (fun e : WithBot K × Node K L (level + 1) => leaves (level + 1) e.1 e.2) =
        fun e => (parents level e.1 e.2).flatMap fun e => row e.1 e.2 := funext fun e => ih e.1 e.2
    change List.flatMap (fun e => leaves (level + 1) e.1 e.2) (row low node) =
      List.flatMap _ (List.flatMap (fun e => parents level e.1 e.2) (row low node))
    rw [under, List.flatMap_assoc]

omit [LinearOrder K] in
theorem starts_leaves (level : Nat) : Starts fun e : WithBot K × Node K L level =>
    leaves level e.1 e.2 := by
  cases level with
  | zero => exact fun e => ⟨e.2, [], rfl⟩
  | succ level =>
    rintro ⟨low, node⟩
    obtain ⟨d, rest, eq⟩ := starts_parents level (low, node)
    dsimp only at eq ⊢
    rw [leaves_eq, eq]
    exact ⟨_, _, rfl⟩

-- The descent ends in the leaf whose separators enclose the key.
theorem descend_routes {key : K} (level : Nat) {low : WithBot K} (node : Node K L level)
    (below : low < key) (ascending : Ascending (leaves level low node)) :
    ∃ before sep after, Routes (leaves level low node) key before sep
      (descend key level node) after := by
  induction level generalizing low with
  | zero => exact ⟨[], low, [], rfl, below, by simp⟩
  | succ level ih =>
    obtain ⟨before, sep, after, eq, _, less, next⟩ :=
      row_findLower (K := K) (C := Node K L level) node below
    obtain ⟨before', sep', after', inner⟩ :=
      ih _ less (ascending.nested (fun e => leaves level e.1 e.2) eq)
    exact ⟨_, _, _, Routes.nest (starts_leaves level) eq next ascending inner⟩

theorem descend_descendParent (key : K) (level : Nat) (node : Node K L (level + 1)) :
    descend key (level + 1) node =
      (descendParent key level node).childid
      (findLower (descendParent key level node).slotkey key) := by
  induction level with
  | zero => rfl
  | succ level ih => exact ih _

theorem insertDescend_one (innerslotmax : Nat)
    (leafPart : S → Option (InnerNode K L × Nat) → L → Option (LeafOutcome S K L R)) (key : K)
    (s : S) (inner : InnerNode K L) : insertDescend innerslotmax leafPart key 1 s inner =
      (leafPart s (some (inner, findLower inner.slotkey key))
        (inner.childid (findLower inner.slotkey key))).bind fun out =>
        (addNewchild innerslotmax (out.parent.getD inner) (findLower inner.slotkey key)
          out.split).map fun (inner, split) =>
          (out.state, inner, split, out.result) := rfl

theorem insertDescend_succ (innerslotmax level : Nat)
    (leafPart : S → Option (InnerNode K L × Nat) → L → Option (LeafOutcome S K L R)) (key : K)
    (s : S) (inner : InnerNode K (Node K L (level + 1))) :
    insertDescend innerslotmax leafPart key (level + 2) s inner =
      (insertDescend innerslotmax leafPart key (level + 1) s
        (inner.childid (findLower inner.slotkey key))).bind
        fun (s, child, newchild, r) =>
          (addNewchild innerslotmax (inner.setChild (findLower inner.slotkey key) child)
            (findLower inner.slotkey key)
            newchild).map fun (inner, split) => (s, inner, split, r) := rfl

omit [LinearOrder K] in
theorem parents_succ {level : Nat} (rows : Row K (Node K L (level + 2))) :
    rows.flatMap (fun e => parents (level + 1) e.1 e.2) =
      (rows.flatMap fun e : WithBot K × InnerNode K (Node K L (level + 1)) => row e.1 e.2).flatMap
        fun e => parents level e.1 e.2 := by
  rw [List.flatMap_assoc]
  rfl

-- An insertion replaces one node of the lowest inner level by itself and possibly a new sibling, as
-- its leaf part says.
theorem insertDescend_spec {innerslotmax : Nat} (positive : 0 < innerslotmax) {key : K}
    (level : Nat) {low : WithBot K} (node : Node K L (level + 1)) (below : low < key)
    (ascending : Ascending (leaves (level + 1) low node)) :
    ∃ before sep after, Routes (parents level low node) key before sep
      (descendParent key level node) after ∧
      let inner := descendParent key level node
      let slot := findLower inner.slotkey key
      ∀ (out : LeafOutcome S K L R) l r,
        addNewchild innerslotmax (out.parent.getD inner) slot out.split = some (l, r) →
        ∃ node' newchild, (splitRow low node' newchild).flatMap (fun e => parents level e.1 e.2) =
            before ++ splitRow sep l r ++ after ∧
          ∀ leafPart s, leafPart s (some (inner, slot)) (inner.childid slot) = some out →
            insertDescend innerslotmax leafPart key (level + 1) s node =
            some (out.state, node', newchild, out.result) := by
  induction level generalizing low with
  | zero =>
    refine ⟨[], low, [], ⟨rfl, below, by simp⟩, fun out l r add => ?_⟩
    refine ⟨l, r, by simp [parents],
      fun leafPart s run => (insertDescend_one innerslotmax leafPart key s node).trans ?_⟩
    rw [descendParent] at run add
    rw [run, Option.bind_some, add]
    rfl
  | succ level ih =>
    obtain ⟨before, sep, after, eq, length, less, next⟩ :=
      row_findLower (K := K) (C := Node K L (level + 1)) node below
    have under := ascending.nested (fun e => leaves (level + 1) e.1 e.2) eq
    obtain ⟨before', sep', after', routes, runs⟩ := ih _ less under
    have outer : Ascending (parents (level + 1) low node) := by
      rw [leaves_eq] at ascending
      exact ascending.outer starts_row
    refine ⟨_, _, _, Routes.nest (starts_parents level) eq next outer routes, fun out l r add => ?_⟩
    obtain ⟨child, newchild, child_row, child_eq⟩ := runs out l r add
    have changed := row_setChild eq child
    obtain ⟨l', r', add', rows, _⟩ := addNewchild_row positive changed newchild
    refine ⟨l', r', ?_, fun leafPart s run =>
      (insertDescend_succ innerslotmax level leafPart key s node).trans ?_⟩
    · refine (parents_succ _).trans ?_
      rw [rows, List.flatMap_append, List.flatMap_append, child_row]
      simp
    · rw [child_eq leafPart s run, Option.bind_some]
      dsimp only
      rw [← length, add']
      rfl

-- The same of an insertion that has been made, in whatever order the keys are.
theorem insertDescend_row {innerslotmax : Nat} (positive : 0 < innerslotmax) {key : K}
    (level : Nat) (low : WithBot K) {node node' : Node K L (level + 1)}
    {leafPart : S → Option (InnerNode K L × Nat) → L → Option (LeafOutcome S K L R)} {s s' : S}
    {newchild : Option (K × Node K L (level + 1))} {r : R}
    (run : insertDescend innerslotmax leafPart key (level + 1) s node =
      some (s', node', newchild, r)) :
    ∃ before sep inner after out l split, parents level low node = before ++ (sep, inner) :: after ∧
      inner = descendParent key level node ∧
      leafPart s (some (inner, findLower inner.slotkey key))
        (inner.childid (findLower inner.slotkey key)) = some out ∧
      out.state = s' ∧ addNewchild innerslotmax (out.parent.getD inner)
        (findLower inner.slotkey key) out.split = some (l, split) ∧
      (splitRow low node' newchild).flatMap (fun e => parents level e.1 e.2) =
      before ++ splitRow sep l split ++ after := by
  induction level generalizing low s' r with
  | zero =>
    obtain ⟨out, leaf, rest⟩ :=
      Option.bind_eq_some_iff.mp
      ((insertDescend_one innerslotmax leafPart key s node).symm.trans run)
    obtain ⟨⟨l, split⟩, add, same⟩ := Option.map_eq_some_iff.mp rest
    simp only [Prod.mk.injEq] at same
    obtain ⟨state, rfl, rfl, -⟩ := same
    exact ⟨[], low, node, [], out, l, split, rfl, rfl, leaf, state, add, by simp [parents]⟩
  | succ level ih =>
    obtain ⟨⟨s₁, child, added, r₁⟩, inside, rest⟩ :=
      Option.bind_eq_some_iff.mp
        ((insertDescend_succ innerslotmax level leafPart key s node).symm.trans run)
    obtain ⟨⟨l', split'⟩, add, same⟩ := Option.map_eq_some_iff.mp rest
    simp only [Prod.mk.injEq] at same
    obtain ⟨rfl, rfl, rfl, -⟩ := same
    have le : findLower (InnerNode.slotkey node) key ≤ InnerNode.slotuse node := by
      simpa [InnerNode.slotkey, InnerNode.slotuse] using findLower_le (InnerNode.slotkey node) key
    obtain ⟨front, sep, back, eq, length⟩ := row_child (K := K) (C := Node K L (level + 1)) low le
    obtain ⟨before, sep', inner, after, out, l, split, whole, parent, leaf, state, add', rows⟩ :=
      ih sep inside
    have changed := row_setChild eq child
    rw [← length] at add
    obtain ⟨l₁, r₁, add₁, rows₁, _⟩ := addNewchild_row positive changed added
    have same := add.symm.trans add₁
    simp only [Option.some.injEq, Prod.mk.injEq] at same
    obtain ⟨rfl, rfl⟩ := same
    refine ⟨front.flatMap (fun e => parents level e.1 e.2) ++ before, sep', inner,
      after ++ back.flatMap (fun e => parents level e.1 e.2), out, l, split, ?_, parent,
      leaf, state, add', ?_⟩
    · change (row low node).flatMap (fun e => parents level e.1 e.2) = _
      rw [eq, List.flatMap_append, List.flatMap_cons, whole]
      simp
    · refine (parents_succ _).trans ?_
      rw [rows₁, List.flatMap_append, List.flatMap_append, rows]
      simp

omit [LinearOrder K] in
theorem leaves_growRoot {level : Nat} (node : Node K L level)
    (newchild : Option (K × Node K L level)) :
    leaves (growRoot node newchild).1 ⊥ (growRoot node newchild).2 =
      (splitRow ⊥ node newchild).flatMap fun e => leaves level e.1 e.2 := by
  cases newchild with
  | none => simp [growRoot, splitRow]
  | some entry => rfl

def children (rows : Row K (InnerNode K C)) : Row K C := rows.flatMap fun e => row e.1 e.2

omit [LinearOrder K] in
theorem children_middle (before after : Row K (InnerNode K C)) (sep : WithBot K)
    (inner : InnerNode K C) :
    children (before ++ (sep, inner) :: after) = children before ++ row sep inner ++
      children after := by
  simp [children]

-- Where the search goes below the inner node it has reached.
theorem Routes.child {rows before after : Row K (InnerNode K C)} {sep : WithBot K}
    {inner : InnerNode K C} {key : K} (routes : Routes rows key before sep inner after)
    (ascending : Ascending (children rows)) :
    ∃ front low back, row sep inner =
      front ++ (low, inner.childid (findLower inner.slotkey key)) :: back ∧
      front.length = findLower inner.slotkey key ∧
      Routes (children rows) key (children before ++ front) low
        (inner.childid (findLower inner.slotkey key)) (back ++ children after) := by
  obtain ⟨front, low, back, eq, length, less, next⟩ := row_findLower inner routes.below
  have under : Ascending (row sep inner) := ascending.nested (fun e => row e.1 e.2) routes.eq
  rw [eq] at under
  have here : Routes (row sep inner) key front low
      (inner.childid (findLower inner.slotkey key)) back :=
    ⟨eq, less, Ascending.above under.of_append.2.of_cons next⟩
  exact ⟨front, low, back, eq, length, Routes.nest starts_row
    routes.eq (fun e head => routes.above e (List.mem_of_head? head)) ascending here⟩

-- An insertion whose leaf part keeps the parent puts the new leaf behind the one the key was routed
-- to.
theorem insertDescend_leaves {innerslotmax : Nat} (positive : 0 < innerslotmax)
    (key : K) (level : Nat) (node : Node K L level) (ascending : Ascending (leaves level ⊥ node)) :
    ∃ before sep after, Routes (leaves level ⊥ node) key before sep (descend key level node) after ∧
      ∀ (out : LeafOutcome S K L R), out.parent = none →
        ∃ node' newchild, leaves (growRoot node' newchild).1 ⊥ (growRoot node' newchild).2 =
            before ++ splitRow sep (descend key level node) out.split ++ after ∧
          ∀ leafPart s, (∀ parent, leafPart s parent (descend key level node) = some out) →
            insertDescend innerslotmax leafPart key level s node = some
              (out.state, node', newchild, out.result) := by
  cases level with
  | zero =>
    refine ⟨[], ⊥, [], ⟨rfl, WithBot.bot_lt_coe _, by simp⟩,
      fun out keeps => ⟨node, out.split, ?_, fun leafPart s run => ?_⟩⟩
    · rw [leaves_growRoot]
      simp [leaves, descend]
    · change (leafPart s none node).map _ = _
      rw [show leafPart s none node = some out from run none]
      rfl
  | succ level =>
    obtain ⟨before, sep, after, routes, spec⟩ :=
      insertDescend_spec (S := S) (R := R) positive level node (WithBot.bot_lt_coe key) ascending
    have spread : leaves (level + 1) ⊥ node = (parents level ⊥ node).flatMap fun e => row e.1 e.2 :=
      leaves_eq level ⊥ node
    have nested := ascending
    rw [spread] at nested
    obtain ⟨before', sep', after', eq, length, whole⟩ := Routes.child routes nested
    rw [children, ← spread] at whole
    obtain ⟨_, _, _, reached⟩ := descend_routes (level + 1) node (WithBot.bot_lt_coe key) ascending
    obtain ⟨_, _, same, _⟩ := whole.unique reached ascending
    rw [← same]
    refine ⟨_, _, _, whole, fun out keeps => ?_⟩
    obtain ⟨l, r, add, rows, _⟩ := addNewchild_row positive eq out.split
    rw [length] at add
    obtain ⟨node', newchild, rows', result⟩ := spec out l r (by rwa [keeps])
    refine ⟨node', newchild, ?_, fun leafPart s run => result leafPart s (run _)⟩
    have grown : (fun e : WithBot K × Node K L (level + 1) => leaves (level + 1) e.1 e.2) =
        fun e => (parents level e.1 e.2).flatMap fun e => row e.1 e.2 :=
        funext fun e => leaves_eq level e.1 e.2
    rw [leaves_growRoot, grown, ← List.flatMap_assoc, rows', List.flatMap_append,
      List.flatMap_append, rows]
    simp [children]

end Descent

end ElasticIndex.Tree
