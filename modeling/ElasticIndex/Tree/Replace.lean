import ElasticIndex.Tree.Cursor

set_option autoImplicit false

namespace ElasticIndex.Tree

open Separators LinkedRow

variable {K N : Type} [LinearOrder K] {content : N → List K} {ok : Nat → N → Prop} {s : Store N}
  {row before after : Row K Ptr} {sep : WithBot K} {a x : Ptr} {leaf : Leaf N} {node : N}

def Store.nodeAt (s : Store N) (a : Ptr) : Option N := (s.leaf a).map Leaf.node

-- The pointers of the neighbours to a new leaf.
def connectNewleaf (s : Store N) (leaf : Leaf N) (new : Ptr) : Option (Store N) :=
  (match leaf.prevleaf with
    | none => some s
    | some p => (s.leaf p).map fun (left : Leaf N) => s.put p { left with
        nextleaf := some new }).bind fun s =>
  match leaf.nextleaf with
  | none => some s
  | some q => (s.leaf q).map fun (right : Leaf N) => s.put q { right with prevleaf := some new }

-- A new leaf with another node takes over the metadata of leaf a, which is freed. Below a parent it
-- also takes its place in the tree and in the list; at the root nothing learns of it.
def replaceLeaf (s : Store N) (parent : Option (InnerNode K Ptr × Nat)) (a : Ptr)
    (leaf : Leaf N) (node : N) :
    Option (Store N × Option (InnerNode K Ptr × Nat) × Ptr) :=
  let (new, s) := s.allocateLeaf node
  let s := s.put new { leaf with node }
  match parent with
  | none => some (s.free a, none, new)
  | some (inner, slot) =>
    (connectNewleaf s leaf new).map fun s => (s.free a, some (inner.setChild slot new, slot), new)

/-- What is left of the store when a new leaf stands in the place of a. -/
structure Replaced (s : Store N) (a : Ptr) (leaf : Leaf N) (node : N) (s' : Store N) : Prop where
  fresh : s'.fresh = s.fresh + 1
  tail : s'.tailleaf = s.tailleaf
  gone : s'.leaf a = none
  new : s'.leaf s.fresh = some { leaf with node }
  prev : ∀ (b : Ptr) (left : Leaf N), leaf.prevleaf = some b → s.leaf b = some left →
    s'.leaf b = some { left with nextleaf := some s.fresh }
  next : ∀ (b : Ptr) (right : Leaf N), leaf.nextleaf = some b → s.leaf b = some right →
    s'.leaf b = some { right with prevleaf := some s.fresh }
  others : ∀ x, x ≠ a → x ≠ s.fresh → leaf.prevleaf ≠ some x → leaf.nextleaf ≠ some x →
    s'.leaf x = s.leaf x

-- The two neighbours point to the new leaf, and nothing else changes.
theorem connectNewleaf_spec (s : Store N) (leaf : Leaf N) (new : Ptr)
    (prev : ∀ b, leaf.prevleaf = some b → ∃ left, s.leaf b = some left)
    (next : ∀ b, leaf.nextleaf = some b → leaf.prevleaf ≠ some b ∧ ∃ right, s.leaf b = some right) :
    ∃ s', connectNewleaf s leaf new = some s' ∧ s'.fresh = s.fresh ∧ s'.tailleaf = s.tailleaf ∧
      (∀ (b : Ptr) (left : Leaf N), leaf.prevleaf = some b → s.leaf b = some left →
        s'.leaf b = some { left with nextleaf := some new }) ∧
      (∀ (b : Ptr) (right : Leaf N), leaf.nextleaf = some b → s.leaf b = some right →
        s'.leaf b = some { right with prevleaf := some new }) ∧
      ∀ x, leaf.prevleaf ≠ some x → leaf.nextleaf ≠ some x → s'.leaf x = s.leaf x := by
  have second (s₁ : Store N) (live : ∀ b, leaf.nextleaf = some b → s₁.leaf b = s.leaf b) : ∃ s₂,
      (match leaf.nextleaf with
      | none => some s₁
      | some q => (s₁.leaf q).map fun (right : Leaf N) => s₁.put q { right with
        prevleaf := some new }) = some s₂ ∧
        s₂.fresh = s₁.fresh ∧ s₂.tailleaf = s₁.tailleaf ∧
        (∀ (b : Ptr) (right : Leaf N), leaf.nextleaf = some b → s.leaf b = some right →
          s₂.leaf b = some { right with prevleaf := some new }) ∧
        ∀ x, leaf.nextleaf ≠ some x → s₂.leaf x = s₁.leaf x := by
    cases behind : leaf.nextleaf with
    | none => exact ⟨s₁, rfl, rfl, rfl, fun b right none => (by cases none), fun x _ => rfl⟩
    | some q =>
      obtain ⟨_, right, live'⟩ := next q behind
      have here := (live q behind).trans live'
      refine ⟨s₁.put q { right with prevleaf := some new }, ?_, rfl, rfl,
        fun b right' same there => ?_, fun x ne => ?_⟩
      · dsimp only
        rw [here]
        rfl
      · cases same
        rw [live'] at there
        cases there
        exact put_self
      · exact put_other fun same => ne (by rw [same])
  unfold connectNewleaf
  cases before : leaf.prevleaf with
  | none =>
    obtain ⟨s₂, run, fresh, tail, right, others⟩ := second s fun b _ => rfl
    exact ⟨s₂, run, fresh, tail, fun b left none => (by cases none), right,
      fun x _ ne => others x ne⟩
  | some p =>
    obtain ⟨left, live⟩ := prev p before
    have apart (b : Ptr) (behind : leaf.nextleaf = some b) : b ≠ p :=
      fun same => (next b behind).1 (same ▸ before)
    obtain ⟨s₂, run, fresh, tail, right, others⟩ :=
        second (s.put p { left with nextleaf := some new }) fun b behind =>
      put_other (apart b behind)
    dsimp only
    rw [live]
    refine ⟨s₂, run, fresh, tail, fun b left' same there => ?_, right, fun x ne ne' => ?_⟩
    · cases same
      rw [live] at there
      cases there
      rw [others p fun behind => apart p behind rfl]
      exact put_self
    · rw [others x ne']
      exact put_other fun same => ne (by rw [same])

omit [LinearOrder K] in
theorem replaceLeaf_replaced {inner : InnerNode K Ptr} {slot : Nat} (old : a < s.fresh)
    (prev : ∀ b, leaf.prevleaf = some b → b < s.fresh ∧ b ≠ a ∧ ∃ left, s.leaf b = some left)
    (next : ∀ b, leaf.nextleaf = some b → b < s.fresh ∧ b ≠ a ∧ leaf.prevleaf ≠ some b ∧
      ∃ right, s.leaf b = some right) :
    ∃ s', replaceLeaf s (some (inner, slot)) a leaf node = some
      (s', some (inner.setChild slot s.fresh, slot), s.fresh) ∧
      Replaced s a leaf node s' := by
  let s₁ := (s.allocateLeaf node).2.put s.fresh { leaf with node }
  have kept (x : Ptr) (ne : x ≠ s.fresh) : s₁.leaf x = s.leaf x := by
    rw [put_other ne]
    simp [Store.allocateLeaf, ne]
  obtain ⟨s₂, run, fresh, tail, left, right, others⟩ := connectNewleaf_spec s₁ leaf s.fresh
    (fun b before => by
      obtain ⟨lt, _, left, live⟩ := prev b before
      exact ⟨left, (kept b lt.ne).trans live⟩)
    fun b behind => by
      obtain ⟨lt, _, apart, right, live⟩ := next b behind
      exact ⟨apart, right, (kept b lt.ne).trans live⟩
  have unchanged (x : Ptr) (ne : x ≠ a) : (s₂.free a).leaf x = s₂.leaf x := by simp [Store.free, ne]
  refine ⟨s₂.free a, ?_, fresh, tail, by simp [Store.free], ?_, fun b l before live => ?_,
    fun b r behind live => ?_,
    fun x neA neNew neP neN => ?_⟩
  · unfold replaceLeaf
    change (connectNewleaf s₁ leaf s.fresh).map _ = _
    rw [run]
    rfl
  · rw [unchanged _ old.ne', others s.fresh (fun before => ?_) fun behind => ?_]
    · exact put_self
    · exact (prev _ before).1.ne rfl
    · exact (next _ behind).1.ne rfl
  · obtain ⟨lt, ne, _⟩ := prev b before
    rw [unchanged b ne]
    exact left b l before ((kept b lt.ne).trans live)
  · obtain ⟨lt, ne, _⟩ := next b behind
    rw [unchanged b ne]
    exact right b r behind ((kept b lt.ne).trans live)
  · rw [unchanged x neA, others x neP neN]
    exact kept x neNew

section Replace

variable {s' : Store N}

omit [LinearOrder K] in
theorem keysAt_eq (s : Store N) (a : Ptr) : s.keysAt content a =
    ((s.nodeAt a).map content).getD [] := by
  simp [Store.keysAt, Store.nodeAt, Option.map_map, Function.comp_def]

theorem Sound.prev_live (sound : Sound content ok s (before ++ (sep, a) :: after))
    (live : s.leaf a = some leaf) {b : Ptr} (prev : leaf.prevleaf = some b) :
    b ∈ cells before ∧ b ≠ a ∧ b < s.fresh ∧
      ∃ left, s.leaf b = some left ∧ ok left.slotuse left.node := by
  obtain ⟨leaf', live', _, last, _⟩ := sound.leaf_at
  rw [live] at live'
  cases live'
  rw [last] at prev
  have mem := List.mem_of_getLast? prev
  have inside : b ∈ cells (before ++ (sep, a) :: after) := by simp [mem]
  exact ⟨mem, sound.apart.1 b mem, sound.old b inside, sound.live b inside⟩

theorem Sound.across (sound : Sound content ok s (before ++ (sep, a) :: after)) {x y : Ptr}
    (left : x ∈ cells before) (right : y ∈ cells after) : x ≠ y := by
  have distinct := sound.distinct
  rw [cells_append, cells_cons] at distinct
  exact (List.nodup_append.mp distinct).2.2 x left y (List.mem_cons_of_mem _ right)

theorem Sound.exists_replaced (sound : Sound content ok s (before ++ (sep, a) :: after))
    (live : s.leaf a = some leaf) (node : N) (inner : InnerNode K Ptr) (slot : Nat) : ∃ s',
      replaceLeaf s (some (inner, slot)) a leaf node = some
        (s', some (inner.setChild slot s.fresh, slot), s.fresh) ∧
      Replaced s a leaf node s' := by
  refine replaceLeaf_replaced (sound.old a (by simp)) (fun b prev => ?_) fun b next => ?_
  · obtain ⟨_, ne, lt, left, live', _⟩ := sound.prev_live live prev
    exact ⟨lt, ne, left, live'⟩
  · obtain ⟨mem, ne, lt, right, live', _⟩ := sound.next_live live next
    exact ⟨lt, ne, fun prev => sound.across (sound.prev_live live prev).1 mem rfl, right, live'⟩

theorem Sound.replaced_leaf (sound : Sound content ok s (before ++ (sep, a) :: after))
    (replaced : Replaced s a leaf node s') (mem : x ∈ cells before ∨ x ∈ cells after) :
    ∃ old new, s.leaf x = some old ∧ s'.leaf x = some new ∧ ok new.slotuse new.node ∧
    new.node = old.node := by
  have inside : x ∈ cells (before ++ (sep, a) :: after) := by
    rw [cells_append, cells_cons]
    rcases mem with mem | mem <;> simp [mem]
  have ne : x ≠ a := mem.elim (sound.apart.1 x) (sound.apart.2 x)
  obtain ⟨old, live', valid⟩ := sound.live x inside
  by_cases prev : leaf.prevleaf = some x
  · exact ⟨old, _, live', replaced.prev x old prev live', valid, rfl⟩
  · by_cases next : leaf.nextleaf = some x
    · exact ⟨old, _, live', replaced.next x old next live', valid, rfl⟩
    · exact ⟨old, old, live',
        (replaced.others x ne (sound.old x inside).ne prev next).trans live', valid, rfl⟩

theorem Sound.replaced_nodeAt (sound : Sound content ok s (before ++ (sep, a) :: after))
    (replaced : Replaced s a leaf node s') (mem : x ∈ cells before ∨ x ∈ cells after) :
    s'.nodeAt x = s.nodeAt x := by
  obtain ⟨old, new, here, there, _, same⟩ := sound.replaced_leaf replaced mem
  rw [Store.nodeAt, Store.nodeAt, here, there, Option.map_some, Option.map_some, same]

-- A node over the same keys takes the place of another.
theorem Sound.replaced_pages (sound : Sound content ok s (before ++ (sep, a) :: after))
    (live : s.leaf a = some leaf) (replaced : Replaced s a leaf node s')
    (same : content node = content leaf.node) :
    s'.pages content (before ++ (sep, s.fresh) :: after) = s.pages content
      (before ++ (sep, a) :: after) := by
  have kept (part : Row K Ptr) (inside : ∀ x ∈ cells part, x ∈ cells before ∨ x ∈ cells after) :
      s'.pages content part = s.pages content part :=
    List.map_congr_left fun e mem => by
      rw [keysAt_eq, keysAt_eq,
        sound.replaced_nodeAt replaced (inside e.2 (List.mem_map_of_mem mem))]
  rw [pages_append, pages_append, pages_cons, pages_cons, kept before fun x mem => .inl mem,
    kept after fun x mem => .inr mem, keysAt_of_leaf live, keysAt_of_leaf replaced.new, same]

theorem Sound.replace (sound : Sound content ok s (before ++ (sep, a) :: after))
    (live : s.leaf a = some leaf) (replaced : Replaced s a leaf node s')
    (same : content node = content leaf.node) (valid : ok leaf.slotuse node) :
    Sound content ok s' (before ++ (sep, s.fresh) :: after) := by
  obtain ⟨leaf', live', _, prev, next⟩ := sound.leaf_at
  rw [live] at live'
  cases live'
  have distinct := sound.distinct
  have linked := sound.linked
  rw [cells_append, cells_cons] at distinct linked
  have parts := List.nodup_append.mp distinct
  have older (x : Ptr) (mem : x ∈ cells before ∨ x ∈ cells after) : x < s.fresh :=
    sound.old x (by rw [cells_append, cells_cons]; rcases mem with mem | mem <;> simp [mem])
  have cases_ (x : Ptr) (mem : x ∈ cells (before ++ (sep, s.fresh) :: after)) :
      x = s.fresh ∨ x ∈ cells before ∨ x ∈ cells after := by
    simp only [cells_append, cells_cons, List.mem_append, List.mem_cons] at mem
    tauto
  refine ⟨fun x mem => ?_, ?_, fun x mem => ?_, ?_, ?_⟩
  · rcases cases_ x mem with rfl | mem
    · exact ⟨_, replaced.new, valid⟩
    · obtain ⟨old, new, _, there, valid', _⟩ := sound.replaced_leaf replaced mem
      exact ⟨new, there, valid'⟩
  · rw [cells_append, cells_cons]
    refine List.nodup_append.mpr ⟨parts.1,
      List.nodup_cons.mpr ⟨fun mem => ?_, (List.nodup_cons.mp parts.2.1).2⟩,
      fun x mem y mem' => ?_⟩
    · exact (older _ (.inr mem)).ne rfl
    · rcases List.mem_cons.mp mem' with rfl | mem'
      · exact (older x (.inl mem)).ne
      · exact sound.across mem mem'
  · rw [replaced.fresh]
    rcases cases_ x mem with rfl | mem
    · exact Nat.lt_succ_self _
    · exact Nat.lt_succ_of_lt (older x mem)
  · rw [cells_append, cells_cons]
    refine linked.replace distinct ?_ (fun l last p q link => ?_) (fun h head p q link => ?_)
      fun x mem ne ne' => ?_
    · rw [Store.links, Store.links, replaced.new, live]
      rfl
    · rw [← prev] at last
      obtain ⟨_, _, _, left, live', _⟩ := sound.prev_live live last
      rw [Store.links, live'] at link
      rw [Store.links, replaced.prev l left last live']
      simp only [Option.map_some, Option.some.injEq, Prod.mk.injEq] at link ⊢
      exact ⟨link.1, trivial⟩
    · rw [← next] at head
      obtain ⟨_, _, _, right, live', _⟩ := sound.next_live live head
      rw [Store.links, live'] at link
      rw [Store.links, replaced.next h right head live']
      simp only [Option.map_some, Option.some.injEq, Prod.mk.injEq] at link ⊢
      exact ⟨trivial, link.2⟩
    · have mem' := List.mem_append.mp mem
      have apart : x ≠ a := mem'.elim (sound.apart.1 x) (sound.apart.2 x)
      rw [Store.links, Store.links,
        replaced.others x apart (older x mem').ne (by rwa [prev]) (by rwa [next])]
  · rw [sound.replaced_pages live replaced same]
    exact sound.tight

-- m_tailleaf is the last leaf, or one that is gone.
def TailSafe (s : Store N) (row : Row K Ptr) : Prop :=
  ∀ t, s.tailleaf = some t → t < s.fresh ∧ (t ∈ cells row → (cells row).getLast? = some t)

omit [LinearOrder K] in
theorem TailSafe.replaced (tail : TailSafe s (before ++ (sep, a) :: after))
    (distinct : (cells (before ++ (sep, a) :: after)).Nodup)
    (replaced : Replaced s a leaf node s') :
    TailSafe s' (before ++ (sep, s.fresh) :: after) := by
  intro t last
  rw [replaced.tail] at last
  obtain ⟨lt, final⟩ := tail t last
  rw [cells_append, cells_cons] at final distinct ⊢
  refine ⟨by rw [replaced.fresh]; exact Nat.lt_succ_of_lt lt, fun mem => ?_⟩
  have inside : t ∈ cells before ∨ t ∈ cells after := by
    rcases List.mem_append.mp mem with mem | mem
    · exact .inl mem
    · exact .inr ((List.mem_cons.mp mem).resolve_left lt.ne)
  have parts := List.nodup_append.mp distinct
  have apart : t ≠ a := by
    rintro rfl
    rcases inside with inside | inside
    · exact parts.2.2 t inside t List.mem_cons_self rfl
    · exact (List.nodup_cons.mp parts.2.1).1 inside
  have final := final (List.mem_append.mpr (inside.imp_right (List.mem_cons_of_mem a)))
  by_cases none : cells after = []
  · rw [none, List.getLast?_append_of_ne_nil _ (List.cons_ne_nil _ _),
      List.getLast?_singleton] at final
    exact absurd (Option.some.inj final).symm apart
  · rw [List.getLast?_append_of_ne_nil _ (List.cons_ne_nil _ _), List.getLast?_cons_of_ne_nil none]
      at final ⊢
    exact final

theorem Sound.divided_tail {small large : N}
    (sound : Sound content ok s (before ++ (sep, a) :: after)) (live : s.leaf a = some leaf)
    (divided : Divided s a leaf small large s') (tail : TailSafe s (before ++ (sep, a) :: after))
    (k : K) : TailSafe s' (before ++ (sep, a) :: (↑k, s.fresh) :: after) := by
  obtain ⟨leaf', live', _, _, next⟩ := sound.leaf_at
  rw [live] at live'
  cases live'
  intro t last
  rw [divided.tail, next] at last
  rw [divided.fresh, cells_append, cells_cons, cells_cons]
  cases after with
  | nil =>
    obtain rfl : s.fresh = t := by simpa [cells] using last
    exact ⟨Nat.lt_succ_self _, fun _ => by simp [cells]⟩
  | cons e after =>
    obtain ⟨sep', b⟩ := e
    obtain ⟨lt, final⟩ := tail t (by simpa [cells] using last)
    rw [cells_append, cells_cons, cells_cons] at final
    rw [cells_cons]
    refine ⟨Nat.lt_succ_of_lt lt, fun mem => ?_⟩
    have inside : t ∈ cells before ++ a :: b :: cells after := by
      simp only [List.mem_append, List.mem_cons] at mem ⊢
      have ne := lt.ne
      tauto
    have final := final inside
    rw [List.getLast?_append_of_ne_nil _ (List.cons_ne_nil _ _),
      List.getLast?_cons_of_ne_nil (List.cons_ne_nil _ _)] at final
    rw [List.getLast?_append_of_ne_nil _ (List.cons_ne_nil _ _),
      List.getLast?_cons_of_ne_nil (List.cons_ne_nil _ _),
      List.getLast?_cons_of_ne_nil (List.cons_ne_nil _ _)]
    exact final

end Replace

section ReplaceChild

variable {inner : InnerNode K Ptr} {low : WithBot K} {i : Nat}

omit [LinearOrder K] in
theorem mem_cells_row : x ∈ cells (Tree.row low inner) ↔ ∃ i, i ≤ inner.slotuse ∧
    inner.childid i = x := by
  constructor
  · intro mem
    obtain ⟨⟨sep, y⟩, inside, rfl⟩ := List.mem_map.mp mem
    obtain ⟨before, after, eq⟩ := List.append_of_mem inside
    obtain ⟨le, child⟩ := childid_of_row eq
    exact ⟨_, le, child⟩
  · rintro ⟨i, le, rfl⟩
    obtain ⟨before, sep, after, eq, _⟩ := row_child low le
    rw [eq]
    simp

/-- A row of leaves in which one child of an inner node has been replaced. -/
structure ChildReplaced (content : N → List K) (ok : Nat → N → Prop) (s : Store N)
    (before : Row K Ptr) (sep : WithBot K) (inner : InnerNode K Ptr) (after : Row K Ptr) (i : Nat)
    (s' : Store N) : Prop where
  sound : Sound content ok s' (before ++ Tree.row sep (inner.setChild i s.fresh) ++ after)
  pages : s'.pages content (before ++ Tree.row sep (inner.setChild i s.fresh) ++ after) =
    s.pages content (before ++ Tree.row sep inner ++ after)
  siblings : ∀ j, j ≤ inner.slotuse → j ≠ i → s'.nodeAt (inner.childid j) =
    s.nodeAt (inner.childid j)

theorem Sound.replace_child (sound : Sound content ok s (before ++ Tree.row sep inner ++ after))
    (inside : i ≤ inner.slotuse) (live : s.leaf (inner.childid i) = some leaf)
    (same : content node = content leaf.node) (valid : ok leaf.slotuse node) :
    ∃ s', replaceLeaf s (some (inner, i)) (inner.childid i) leaf node =
        some (s', some (inner.setChild i s.fresh, i), s.fresh) ∧
      Replaced s (inner.childid i) leaf node s' ∧
      ChildReplaced content ok s before sep inner after i s' := by
  obtain ⟨front, low, back, eq, length⟩ := row_child sep inside
  have changed := row_setChild eq s.fresh
  rw [length] at changed
  have whole : before ++ Tree.row sep inner ++ after =
      (before ++ front) ++ (low, inner.childid i) :: (back ++ after) := by
    rw [eq]
    simp
  have whole' : before ++ Tree.row sep (inner.setChild i s.fresh) ++ after =
      (before ++ front) ++ (low, s.fresh) :: (back ++ after) := by
    rw [changed]
    simp
  rw [whole] at sound
  obtain ⟨s', run, replaced⟩ := sound.exists_replaced live node inner i
  refine ⟨s', run, replaced, ?_, ?_, fun j le ne => ?_⟩
  · rw [whole']
    exact sound.replace live replaced same valid
  · rw [whole, whole']
    exact sound.replaced_pages live replaced same
  · obtain ⟨front', low', back', eq', length'⟩ := row_child sep le
    have here : (Tree.row sep inner)[j]? = some (low', inner.childid j) := by
      rw [eq', ← length']
      simp
    refine sound.replaced_nodeAt replaced ?_
    rw [cells_append, cells_append]
    rw [eq] at here
    rcases lt_or_gt_of_ne ne with lt | gt
    · rw [List.getElem?_append_left (by omega)] at here
      exact .inl (List.mem_append_right _ (List.mem_map_of_mem (List.mem_of_getElem? here)))
    · rw [List.getElem?_append_right (by omega)] at here
      obtain ⟨d, step⟩ : ∃ d, j - front.length = d + 1 := ⟨j - front.length - 1, by omega⟩
      rw [step, List.getElem?_cons_succ] at here
      exact .inr (List.mem_append_left _ (List.mem_map_of_mem (List.mem_of_getElem? here)))

end ReplaceChild

end ElasticIndex.Tree
