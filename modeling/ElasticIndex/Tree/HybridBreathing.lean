import ElasticIndex.Shared.Ledger
import ElasticIndex.Tree.HybridReached

set_option autoImplicit false

namespace ElasticIndex.Tree.Hybrid

open Separators SeqTree Ledger

/-- The smallest leaves and inner nodes that can be split, and slotuse is an unsigned short. -/
structure Config.Splits (c : Config) : Prop where
  leaf : 2 ≤ c.leafslotmax
  inner : 0 < c.innerslotmax
  short : 8 * c.leafslotmax < 65536

variable {c : Config} {mem : Addr → c.Key} {blank : SeqTreeBlindiNode}
  {s s' : Store (HybridNode c.Key)} {leaf leaf' : Leaf (HybridNode c.Key)} {node : HybridNode c.Key}
  {slots : List (c.Key × Addr)} {type : BlindiLeafType}
  {n : SeqTreeBlindiNode} {parent parent' : Parent c} {a b new : Ptr} {used rest : List Ptr}
  {sum : Int} {key : Addr}

-- slotuse and node of a live leaf.
def contents (s : Store (HybridNode c.Key)) (a : Ptr) : Option (Nat × HybridNode c.Key) :=
  (s.leaf a).map fun leaf => (leaf.slotuse, leaf.node)

-- A repeated key leaves more keys in a blindi node than slotuse counts.
def Sized : Nat × HybridNode c.Key → Prop
  | (slotuse, .btree slots) => slots.length = slotuse ∧ 1 ≤ slotuse ∧ slotuse ≤ c.leafslotmax
  | (slotuse, .blindi type node) =>
    slotuse ≤ node.validLen ∧ 1 ≤ slotuse ∧ Breathes (c.params type) node

def breath : Nat × HybridNode c.Key → Int
  | (_, .btree _) => 0
  | (_, .blindi _ node) => node.currentMaxSlot

-- The leaves in use, and breathing_sum.
abbrev Breathing (s : Store (HybridNode c.Key)) (used : List Ptr) (sum : Int) : Prop :=
  Accounts Sized breath (contents s) used s.fresh sum

theorem contents_of_leaf (live : s.leaf a = some leaf) : contents s a =
    some (leaf.slotuse, leaf.node) := by
  rw [contents, live]
  rfl

theorem blind_contents : Blind s a ↔ ∃ slotuse type n, contents s a =
    some (slotuse, .blindi type n) := by
  unfold Blind Store.nodeAt contents
  cases s.leaf a with
  | none => simp
  | some leaf => simp

theorem contents_put : contents (s.put a leaf) =
    Function.update (contents s) a (some (leaf.slotuse, leaf.node)) := by
  funext x
  by_cases same : x = a
  · rw [same, Function.update_self]
    exact contents_of_leaf put_self
  · rw [Function.update_of_ne same, contents, put_other same]
    rfl

theorem contents_free : contents (s.free a) = Function.update (contents s) a none := by
  funext x
  by_cases same : x = a
  · rw [same, Function.update_self]
    simp [contents, Store.free]
  · rw [Function.update_of_ne same]
    simp [contents, Store.free, same]

theorem contents_allocate : contents (s.allocateLeaf node).2 =
    Function.update (contents s) s.fresh (some (0, node)) := by
  funext x
  by_cases same : x = s.fresh
  · rw [same, Function.update_self]
    simp [contents, Store.allocateLeaf]
  · rw [Function.update_of_ne same]
    simp [contents, Store.allocateLeaf, same]

-- A link of a leaf is no part of what it holds.
theorem contents_relink (live : s.leaf a = some leaf) (slotuse : leaf'.slotuse = leaf.slotuse)
    (node : leaf'.node = leaf.node) :
    contents (s.put a leaf') = contents s := by
  rw [contents_put, slotuse, node, ← contents_of_leaf live, Function.update_eq_self]

theorem connectNewleaf_contents (run : connectNewleaf s leaf new = some s') :
    contents s' = contents s ∧ s'.fresh = s.fresh := by
  unfold connectNewleaf at run
  obtain ⟨s₁, first, second⟩ := Option.bind_eq_some_iff.mp run
  have before : contents s₁ = contents s ∧ s₁.fresh = s.fresh := by
    cases prev : leaf.prevleaf with
    | none =>
      rw [prev] at first
      cases first
      exact ⟨rfl, rfl⟩
    | some p =>
      rw [prev] at first
      obtain ⟨left, live, rfl⟩ := Option.map_eq_some_iff.mp first
      exact ⟨contents_relink live rfl rfl, rfl⟩
  cases next : leaf.nextleaf with
  | none =>
    rw [next] at second
    cases second
    exact before
  | some q =>
    rw [next] at second
    obtain ⟨right, live, rfl⟩ := Option.map_eq_some_iff.mp second
    refine ⟨Eq.trans ?_ before.1, before.2⟩
    exact contents_relink live rfl rfl

theorem replaceLeaf_contents (run : replaceLeaf s parent a leaf node = some (s', parent', new)) :
    contents s' = Function.update
      (Function.update (contents s) s.fresh (some (leaf.slotuse, node))) a none ∧
      s'.fresh = s.fresh + 1 ∧ new = s.fresh ∧ parent' = parent.map fun p =>
        (p.1.setChild p.2 new, p.2) := by
  let s₁ := (s.allocateLeaf node).2.put s.fresh { leaf with node }
  have copied : contents s₁ = Function.update (contents s) s.fresh (some (leaf.slotuse, node)) := by
    rw [contents_put, contents_allocate, Function.update_idem]
  cases parent with
  | none =>
    obtain ⟨rfl, rfl, rfl⟩ : s₁.free a = s' ∧ none = parent' ∧ s.fresh = new := by
      have same := Option.some.inj run
      simp only [Prod.mk.injEq] at same
      exact same
    exact ⟨contents_free.trans (by rw [copied]), rfl, rfl, rfl⟩
  | some p =>
    obtain ⟨inner, slot⟩ := p
    obtain ⟨s₂, connect, same⟩ := Option.map_eq_some_iff.mp run
    simp only [Prod.mk.injEq] at same
    obtain ⟨rfl, rfl, rfl⟩ := same
    obtain ⟨kept, fresh⟩ := connectNewleaf_contents connect
    exact ⟨contents_free.trans (by rw [kept]; exact congrArg (Function.update · a none) copied),
      fresh, rfl, rfl⟩

theorem splitLeafNode_contents {empty : HybridNode c.Key}
    {split : HybridNode c.Key → Option (HybridNode c.Key × HybridNode c.Key)}
    {maxKey : HybridNode c.Key → c.Key} {splitkey : c.Key} (old : a < s.fresh)
    (run : splitLeafNode empty split maxKey s a leaf = some (s', splitkey, new)) :
    ∃ small large, split leaf.node = some (small, large) ∧ s'.fresh = s.fresh + 1 ∧ new = s.fresh ∧
      contents s' = Function.update
        (Function.update (contents s) a (some (leaf.slotuse / 2, small))) s.fresh
        (some (leaf.slotuse - leaf.slotuse / 2, large)) := by
  unfold splitLeafNode at run
  dsimp only at run
  obtain ⟨s₁, link, divide⟩ := Option.bind_eq_some_iff.mp run
  obtain ⟨⟨small, large⟩, halves, same⟩ := Option.map_eq_some_iff.mp divide
  simp only [Prod.mk.injEq] at same
  obtain ⟨rfl, -, rfl⟩ := same
  have linked : contents s₁ = Function.update (contents s) s.fresh (some (0, empty)) ∧
      s₁.fresh = s.fresh + 1 := by
    cases next : leaf.nextleaf with
    | none =>
      rw [next] at link
      cases link
      exact ⟨contents_allocate, rfl⟩
    | some q =>
      rw [next] at link
      obtain ⟨right, live, rfl⟩ := Option.map_eq_some_iff.mp link
      refine ⟨Eq.trans ?_ contents_allocate, rfl⟩
      exact contents_relink live rfl rfl
  refine ⟨small, large, halves, linked.2, rfl, ?_⟩
  have fresh : (s.allocateLeaf empty).1 = s.fresh := rfl
  rw [contents_put, contents_put, linked.1, fresh, Function.update_comm old.ne',
    Function.update_idem]

-- The leaves below the parent of leaf a.
def held (parent : Parent c) (a : Ptr) : List Ptr :=
  match parent with
  | none => [a]
  | some (inner, _) => cells (row ⊥ inner)

def Seat (parent : Parent c) (a : Ptr) : Prop := ∀ p ∈ parent, p.2 ≤ p.1.slotuse ∧
    p.1.childid p.2 = a

def reseat (parent : Parent c) (new : Ptr) : Parent c :=
  parent.map fun p => (p.1.setChild p.2 new, p.2)

theorem Seat.reseat (seat : Seat parent a) (new : Ptr) : Seat (reseat parent new) new := by
  intro p here
  obtain ⟨old, at_, rfl⟩ := Option.map_eq_some_iff.mp here
  exact ⟨by rw [slotuse_setChild]; exact (seat old at_).1, childid_setChild_self (seat old at_).1⟩

theorem Seat.others (seat : Seat parent a) : ∃ others, (held parent a).Perm (a :: others) ∧
    ∀ new, (held (Hybrid.reseat parent new) new).Perm (new :: others) := by
  cases parent with
  | none => exact ⟨[], .refl _, fun new => .refl _⟩
  | some p =>
    obtain ⟨inner, slot⟩ := p
    obtain ⟨inside, here⟩ := seat _ rfl
    dsimp only at inside here
    obtain ⟨before, sep, after, eq, rfl⟩ := row_child ⊥ inside
    rw [here] at eq
    refine ⟨cells before ++ cells after, ?_, fun new => ?_⟩
    · change (cells (row ⊥ inner)).Perm _
      rw [eq, cells_append, cells_cons]
      exact List.perm_middle
    · change (cells (row ⊥ (inner.setChild before.length new))).Perm _
      rw [row_setChild eq, cells_append, cells_cons]
      exact List.perm_middle

theorem Seat.held (seat : Seat parent a) : a ∈ held parent a := by
  obtain ⟨others, before, _⟩ := seat.others
  exact before.symm.subset List.mem_cons_self

/-- A leaf that is gone stays so. -/
structure Dead (s s' : Store (HybridNode c.Key)) : Prop where
  fresh : s.fresh ≤ s'.fresh
  gone : ∀ x, x < s.fresh → contents s x = none → contents s' x = none

theorem Dead.refl (s : Store (HybridNode c.Key)) : Dead s s := ⟨le_rfl, fun _ _ none => none⟩

theorem Dead.trans {s'' : Store (HybridNode c.Key)} (first : Dead s s')
    (second : Dead s' s'') : Dead s s'' :=
  ⟨first.fresh.trans second.fresh,
    fun x lt none => second.gone x (lt.trans_le first.fresh) (first.gone x lt none)⟩

theorem Dead.put {old : Nat × HybridNode c.Key} (here : contents s a = some old) :
    Dead s (s.put a leaf) := by
  refine ⟨le_rfl, fun x _ none => ?_⟩
  rw [contents_put, Function.update_of_ne fun same => ?_]
  · exact none
  · rw [same, here] at none
    cases none

/-- What has become of the place of leaf a: leaf a' stands there, added are its new siblings, and
where all leaves were blind all are. At the root nothing learns of another leaf. -/
structure Reseated (s : Store (HybridNode c.Key)) (parent : Parent c) (a : Ptr)
    (s' : Store (HybridNode c.Key)) (parent' : Parent c) (a' : Ptr) (added rest : List Ptr)
    (sum : Int) : Prop where
  seat : Seat parent' a'
  slot : parent'.map Prod.snd = parent.map Prod.snd
  accounts : Breathing s' (held parent' a' ++ (added ++ rest)) sum
  others : ∀ x ∈ rest, contents s' x = contents s x
  blind : (∀ x ∈ held parent a, Blind s x) → ∀ x ∈ held parent' a' ++ added, Blind s' x
  dead : Dead s s'
  root : a' = a ∨ contents s' a = none ∧ added = []

theorem reseated_refl (accounts : Breathing s (held parent a ++ rest) sum) (seat : Seat parent a) :
    Reseated s parent a s parent a [] rest sum :=
  ⟨seat, rfl, accounts, fun _ _ => rfl, fun all => by rwa [List.append_nil], .refl s, .inl rfl⟩

theorem blind_congr {x : Ptr} (same : contents s' x = contents s x) : Blind s' x ↔ Blind s x := by
  rw [blind_contents, blind_contents, same]

theorem replaceLeaf_reseated (accounts : Breathing s (held parent a ++ rest) sum)
    (seat : Seat parent a) (live : s.leaf a = some leaf)
    (valid : Sized (c := c) (leaf.slotuse, .blindi type n))
    (run : replaceLeaf s parent a leaf (.blindi type n) = some (s', parent', new)) :
    Reseated s parent a s' parent' new [] rest
    (sum - breath (leaf.slotuse, leaf.node) + n.currentMaxSlot) ∧
      parent' = reseat parent new ∧ contents s' new = some (leaf.slotuse, .blindi type n) := by
  obtain ⟨same, fresh, rfl, rfl⟩ := replaceLeaf_contents run
  obtain ⟨others, before, after⟩ := seat.others
  have here := contents_of_leaf live
  have old (x : Ptr) (inside : x ∈ a :: others ++ rest) : x < s.fresh :=
    accounts.below x ((before.append_right rest).symm.subset inside)
  have apart : a ≠ s.fresh := (old a (by simp)).ne
  have accounts := accounts.perm (before.append_right rest)
  have accounts' := accounts.replace here valid
  have fresh_ : contents s' s.fresh = some (leaf.slotuse, .blindi type n) := by
    rw [same, Function.update_of_ne apart.symm, Function.update_self]
  have absent := (List.nodup_cons.mp accounts.distinct).1
  have others_ (x : Ptr) (inside : x ∈ others ++ rest) : contents s' x = contents s x := by
    have ne : x ≠ a := fun eq => absent (eq ▸ inside)
    rw [same, Function.update_of_ne ne,
      Function.update_of_ne (old x (List.mem_cons_of_mem _ inside)).ne]
  rw [← same, ← fresh] at accounts'
  refine ⟨⟨seat.reseat _, ?_, accounts'.perm ((after _).append_right rest).symm,
    fun x inside => others_ x (List.mem_append_right _ inside), fun all x inside => ?_,
    ⟨fresh ▸ Nat.le_succ _, fun x lt none => ?_⟩, .inr ⟨?_, rfl⟩⟩, rfl, fresh_⟩
  · cases parent <;> rfl
  · rw [List.append_nil] at inside
    rcases List.mem_cons.mp ((after _).subset inside) with rfl | inside
    · exact blind_contents.mpr ⟨_, _, _, fresh_⟩
    · rw [blind_congr (others_ x (List.mem_append_left _ inside))]
      exact all x (before.symm.subset (List.mem_cons_of_mem _ inside))
  · rw [same]
    by_cases eq : x = a
    · rw [eq, Function.update_self]
    · rw [Function.update_of_ne eq, Function.update_of_ne lt.ne]
      exact none
  · rw [same, Function.update_self]

theorem splitLeafNode_reseated {empty : HybridNode c.Key}
    {split : HybridNode c.Key → Option (HybridNode c.Key × HybridNode c.Key)}
    {maxKey : HybridNode c.Key → c.Key} {splitkey : c.Key}
    (accounts : Breathing s (held parent a ++ rest) sum) (seat : Seat parent a)
    (live : s.leaf a = some leaf)
    (run : splitLeafNode empty split maxKey s a leaf = some (s', splitkey, new))
    (halves : ∀ small large, split leaf.node = some (small, large) →
      Sized (leaf.slotuse / 2, small) ∧
      Sized (leaf.slotuse - leaf.slotuse / 2, large))
    (kinds : ∀ small large, split leaf.node = some (small, large) → ¬ leaf.node.Plain →
      ¬ small.Plain ∧ ¬ large.Plain) :
    ∃ small large, split leaf.node = some (small, large) ∧ new ≠ a ∧ contents s' a = some
      (leaf.slotuse / 2, small) ∧
      contents s' new = some (leaf.slotuse - leaf.slotuse / 2, large) ∧
      Reseated s parent a s' parent a [new] rest
        (sum - breath (leaf.slotuse, leaf.node) + breath (leaf.slotuse / 2, small) +
        breath (leaf.slotuse - leaf.slotuse / 2, large)) := by
  have here := contents_of_leaf live
  have old : a < s.fresh := accounts.below a ((accounts.listed a).mpr ⟨_, here⟩)
  obtain ⟨small, large, split, fresh, rfl, same⟩ := splitLeafNode_contents old run
  obtain ⟨validSmall, validLarge⟩ := halves small large split
  have atA : contents s' a = some (leaf.slotuse / 2, small) := by
    rw [same, Function.update_of_ne old.ne, Function.update_self]
  have atNew : contents s' s.fresh = some (leaf.slotuse - leaf.slotuse / 2, large) := by
    rw [same, Function.update_self]
  have others (x : Ptr) (inside : x ∈ held parent a ++ rest) (ne : x ≠ a) : contents s' x =
      contents s x := by
    rw [same, Function.update_of_ne (accounts.below x inside).ne, Function.update_of_ne ne]
  have absent := List.nodup_append.mp accounts.distinct
  have accounts' := (accounts.update here validSmall).allocate validLarge
  rw [← same, ← fresh] at accounts'
  refine ⟨small, large, split, old.ne', atA, atNew, seat, rfl, accounts'.perm List.perm_middle.symm,
    fun x inside => ?_,
    fun all x inside => ?_, ⟨fresh ▸ Nat.le_succ _, fun x lt none => ?_⟩, .inl rfl⟩
  · exact others x (List.mem_append_right _ inside) fun eq =>
      absent.2.2 a seat.held x inside eq.symm
  · obtain ⟨blindSmall, blindLarge⟩ :=
      kinds small large split ((blind_iff live).mp (all a seat.held))
    rcases List.mem_append.mp inside with inside | inside
    · by_cases eq : x = a
      · rw [eq, blind_contents, atA]
        cases small with
        | btree slots => exact absurd trivial blindSmall
        | blindi type n => exact ⟨_, _, _, rfl⟩
      · rw [blind_congr (others x (List.mem_append_left _ inside) eq)]
        exact all x inside
    · rw [List.mem_singleton.mp inside, blind_contents, atNew]
      cases large with
      | btree slots => exact absurd trivial blindLarge
      | blindi type n => exact ⟨_, _, _, rfl⟩
  · rw [same, Function.update_of_ne lt.ne, Function.update_of_ne fun eq => ?_]
    · exact none
    · rw [eq, here] at none
      cases none

section LeafPart

variable {h h' : Heap c} {inner inner' : InnerNode c.Key Ptr} {a' : Ptr} {status : HybridStatus}

theorem Config.Splits.numSlots (splits : c.Splits) (type : BlindiLeafType) :
    c.leafslotmax ≤ (c.params type).numSlots ∧ (c.params type).numSlots < 65536 := by
  have bounds := slots_bounds c.leafslotmax type
  exact ⟨bounds.1, bounds.2.trans_lt splits.short⟩

theorem transferBtreeNode_reseated (splits : c.Splits)
    (accounts : Breathing h.store (held parent a ++ rest) h.breathingSum) (seat : Seat parent a)
    (live : h.store.leaf a = some leaf) (plain : leaf.node = .btree slots)
    (run : transferBtreeNode blank type h parent a leaf slots = some (h', parent', new)) :
    Reseated h.store parent a h'.store parent' new [] rest h'.breathingSum ∧
    parent' = reseat parent new ∧
      ∃ slotuse n, contents h'.store new = some (slotuse, .blindi type n) := by
  obtain ⟨⟨s, parent₁, new₁⟩, replace, same⟩ := Option.map_eq_some_iff.mp run
  simp only [Prod.mk.injEq] at same
  obtain ⟨rfl, rfl, rfl⟩ := same
  have valid := accounts.each a _ (contents_of_leaf live)
  rw [plain] at valid
  obtain ⟨-, some_, most⟩ := valid
  have bounds := splits.numSlots type
  obtain ⟨length, breathes, size⟩ :=
    transferBtree2blindi_breathes (c := c.params type) bounds.2 (most.trans bounds.1)
    (fun i => (slots[i]?.map Prod.fst).getD (.replicate _ 0))
      (fun i => (slots[i]?.map Prod.snd).getD 0) blank
  have valid' : Sized (leaf.slotuse, transferSlots blank type leaf.slotuse slots) :=
    ⟨length.ge, some_, breathes⟩
  obtain ⟨reseated, moved, here⟩ := replaceLeaf_reseated accounts seat live valid' replace
  rw [plain, size] at reseated
  simp only [breath, Int.sub_zero] at reseated
  exact ⟨reseated, moved, _, _, here⟩

theorem firstBtree_found {count i j : Nat}
    (run : firstBtree s inner count i = some (some (j, leaf, slots))) :
    j < i + count ∧ s.leaf (inner.childid j) = some leaf ∧ leaf.node = .btree slots := by
  induction count generalizing i with
  | zero => cases run
  | succ count ih =>
    obtain ⟨leaf₁, live, found⟩ := Option.bind_eq_some_iff.mp run
    cases node : leaf₁.node with
    | btree slots₁ =>
      rw [node] at found
      simp only [Option.some.injEq, Prod.mk.injEq] at found
      obtain ⟨rfl, rfl, rfl⟩ := found
      exact ⟨by omega, live, node⟩
    | blindi type n =>
      rw [node] at found
      obtain ⟨lt, rest⟩ := ih found
      exact ⟨by omega, rest⟩

theorem firstBtree_blind {count i : Nat}
    {r : Option (Nat × Leaf (HybridNode c.Key) × List (c.Key × Addr))}
    (run : firstBtree s inner count i = some r) : ∀ j, i ≤ j → j < i + count →
    (∀ found ∈ r, j < found.1) →
      Blind s (inner.childid j) := by
  induction count generalizing i with
  | zero => exact fun j le lt => by omega
  | succ count ih =>
    obtain ⟨leaf₁, live, found⟩ := Option.bind_eq_some_iff.mp run
    intro j le lt before
    cases node : leaf₁.node with
    | btree slots₁ =>
      rw [node] at found
      cases found
      have := before _ rfl
      dsimp only at this
      omega
    | blindi type n =>
      rw [node] at found
      rcases Nat.eq_or_lt_of_le le with rfl | past
      · exact ⟨type, n, by rw [Store.nodeAt, live, ← node]; rfl⟩
      · exact ih found j past (by omega) before

-- The sweep converts another child than the one the descent has come to.
theorem sweep_reseated (splits : c.Splits) {slot : Nat}
    (accounts : Breathing h.store (held (some (inner, slot)) a ++ rest) h.breathingSum)
    (seat : Seat (some (inner, slot)) a) (live : h.store.leaf a = some leaf)
    (blind : leaf.node = .blindi type n) (run : sweep blank h inner = some (h', inner')) :
    Reseated h.store (some (inner, slot)) a h'.store (some (inner', slot)) a
      [] rest h'.breathingSum := by
  obtain ⟨inside, here⟩ := seat _ rfl
  dsimp only at inside here
  obtain ⟨found, first, sweeps⟩ := Option.bind_eq_some_iff.mp run
  cases found with
  | none =>
    simp only [Option.some.injEq, Prod.mk.injEq] at sweeps
    obtain ⟨rfl, rfl⟩ := sweeps
    exact ⟨fun p at_ => by cases at_; exact ⟨inside, here⟩, rfl, accounts, fun _ _ => rfl,
      fun all => by rwa [List.append_nil],
      .refl _, .inl rfl⟩
  | some entry =>
    obtain ⟨i, leaf₁, slots⟩ := entry
    obtain ⟨lt, live₁, plain⟩ := firstBtree_found first
    obtain ⟨⟨h₁, parent₁, new⟩, transfer, same⟩ := Option.map_eq_some_iff.mp sweeps
    simp only [Prod.mk.injEq] at same
    obtain ⟨rfl, rfl⟩ := same
    have apart : slot ≠ i := by
      rintro rfl
      rw [here, live] at live₁
      cases live₁
      rw [blind] at plain
      cases plain
    have seat₁ : Seat (some (inner, i)) (inner.childid i) := fun p at_ => by
      cases at_
      exact ⟨by dsimp only; omega, rfl⟩
    have accounts₁ : Breathing h.store (held (some (inner, i)) (inner.childid i) ++ rest)
      h.breathingSum := accounts
    obtain ⟨reseated, rfl, _⟩ :=
      transferBtreeNode_reseated splits accounts₁ seat₁ live₁ plain transfer
    refine ⟨fun p at_ => ?_, rfl, reseated.accounts, reseated.others, reseated.blind,
      reseated.dead, .inl rfl⟩
    cases at_
    exact ⟨inside.trans_eq slotuse_setChild.symm, (childid_setChild_other inside apart).trans here⟩

theorem compress_reseated (splits : c.Splits)
    (accounts : Breathing h.store (held parent a ++ rest) h.breathingSum) (seat : Seat parent a)
    (run : compress blank status h parent a = some (h', parent', a')) :
    Reseated h.store parent a h'.store parent' a' [] rest h'.breathingSum ∧
      (a' = a ∨ ∃ slotuse type n, contents h'.store a' = some (slotuse, .blindi type n) ∧
        type.extended ≠ none) := by
  obtain ⟨leaf, live, next⟩ := Option.bind_eq_some_iff.mp run
  have stays (same : some (h, parent, a) = some (h', parent', a')) :
      Reseated h.store parent a h'.store parent' a' [] rest h'.breathingSum ∧ a' = a := by
    cases same
    exact ⟨reseated_refl accounts seat, rfl⟩
  cases node : leaf.node with
  | btree slots =>
    rw [node] at next
    dsimp only at next
    split_ifs at next
    · obtain ⟨reseated, _, slotuse, n, here⟩ :=
        transferBtreeNode_reseated splits accounts seat live node next
      exact ⟨reseated, .inr ⟨slotuse, _, n, here, by simp [BlindiLeafType.extended]⟩⟩
    · obtain ⟨reseated, _, slotuse, n, here⟩ :=
        transferBtreeNode_reseated splits accounts seat live node next
      exact ⟨reseated, .inr ⟨slotuse, _, n, here, by simp [BlindiLeafType.extended]⟩⟩
    · exact (stays next).imp_right .inl
  | blindi type n =>
    rw [node] at next
    dsimp only at next
    split_ifs at next with must
    · obtain ⟨⟨inner, slot⟩, rfl, next⟩ := Option.bind_eq_some_iff.mp next
      dsimp only at next
      split_ifs at next
      · exact (stays next).imp_right .inl
      · obtain ⟨⟨h₁, inner'⟩, sweeps, same⟩ := Option.map_eq_some_iff.mp next
        simp only [Prod.mk.injEq] at same
        obtain ⟨rfl, rfl, rfl⟩ := same
        exact ⟨sweep_reseated splits accounts seat live node sweeps, .inl rfl⟩
    · exact (stays next).imp_right .inl

theorem Reseated.write {added : List Ptr}
    (reseated : Reseated s parent a s' parent' a' added rest sum) (live : s'.leaf b = some leaf)
    (inside : b ∈ held parent' a' ++ added) (leaf' : Leaf (HybridNode c.Key))
    (valid : Sized (leaf'.slotuse, leaf'.node)) (kind : leaf'.node.Plain → leaf.node.Plain) :
    Reseated s parent a (s'.put b leaf') parent' a' added rest
      (sum - breath (leaf.slotuse, leaf.node) + breath (leaf'.slotuse, leaf'.node)) := by
  have here := contents_of_leaf live
  have accounts := reseated.accounts.update here valid
  have apart := (List.nodup_append.mp (List.append_assoc _ _ _ ▸ reseated.accounts.distinct)).2.2
  rw [← contents_put] at accounts
  refine ⟨reseated.seat, reseated.slot, accounts, fun x there => ?_, fun all x there => ?_,
    reseated.dead.trans (.put here),
    reseated.root.imp_right fun gone => ⟨?_, gone.2⟩⟩
  · rw [contents_put, Function.update_of_ne fun same => apart b inside x there same.symm]
    exact reseated.others x there
  · have blind := reseated.blind all x there
    by_cases same : x = b
    · subst same
      rw [blind_iff live] at blind
      rw [blind_iff put_self]
      exact fun plain => blind (kind plain)
    · rwa [blind_congr (show contents (s'.put b leaf') x = contents s' x by
        rw [contents_put, Function.update_of_ne same])]
  · rw [contents_put, Function.update_of_ne fun same => ?_]
    · exact gone.1
    · rw [← same, gone.1] at here
      cases here

theorem Reseated.trans {s'' : Store (HybridNode c.Key)} {parent'' : Parent c} {a'' : Ptr}
    {added : List Ptr} {sum' : Int} (first : Reseated s parent a s' parent' a' [] rest sum)
    (second : Reseated s' parent' a' s'' parent'' a'' added rest sum')
    (root : a'' = a ∨ contents s'' a = none ∧ added = []) :
    Reseated s parent a s'' parent'' a'' added rest sum' :=
  ⟨second.seat, second.slot.trans first.slot, second.accounts,
    fun x inside => (second.others x inside).trans (first.others x inside),
    fun all => second.blind fun x inside => first.blind all x (List.mem_append_left _ inside),
    first.dead.trans second.dead, root⟩

theorem splitBtree_reseated {target : Target c} (splits : c.Splits)
    (accounts : Breathing s (held parent a ++ rest) sum) (seat : Seat parent a)
    (live : s.leaf a = some leaf) (plain : leaf.node = .btree slots)
    (run : splitBtree mem blank key s a leaf slots = some target) :
    target.breathed = 0 ∧ Reseated s parent a target.store parent a
      (target.split.map Prod.snd).toList rest sum ∧
      target.leaf ∈ held parent a ++ (target.split.map Prod.snd).toList ∧
      ∃ slots', contents target.store target.leaf = some (slots'.length, .btree slots') ∧
      slots'.length < c.leafslotmax ∧
        target.slot ≤ slots'.length := by
  have here := contents_of_leaf live
  have valid := accounts.each a _ here
  rw [plain] at here valid
  obtain ⟨length, some_, most⟩ := valid
  have two := splits.leaf
  have even := c.even
  have low := findLower_le (slots.map Prod.fst) (mem key)
  rw [List.length_map] at low
  unfold splitBtree at run
  dsimp only at run
  by_cases full : leaf.slotuse = c.leafslotmax
  · rw [if_pos full] at run
    obtain ⟨⟨s₁, splitkey, newleaf⟩, divide, same⟩ := Option.map_eq_some_iff.mp run
    have halves (small large : HybridNode c.Key)
      (split : splitNode blank (leaf.slotuse / 2) leaf.node = some (small, large)) :
        small = .btree (slots.take (leaf.slotuse / 2)) ∧ large =
        .btree (slots.drop (leaf.slotuse / 2)) := by
      rw [plain] at split
      cases split
      exact ⟨rfl, rfl⟩
    have left : (slots.take (leaf.slotuse / 2)).length = leaf.slotuse / 2 := by
      rw [List.length_take]
      omega
    have right : (slots.drop (leaf.slotuse / 2)).length = leaf.slotuse - leaf.slotuse / 2 := by
      rw [List.length_drop]
      omega
    obtain ⟨small, large, split, _, atA, atNew, reseated⟩ :=
      splitLeafNode_reseated accounts seat live divide
      (fun small large split => by
        obtain ⟨rfl, rfl⟩ := halves small large split
        exact ⟨⟨left, by omega, by omega⟩, ⟨right, by omega, by omega⟩⟩)
      fun small large split blind => absurd (plain ▸ trivial) blind
    obtain ⟨rfl, rfl⟩ := halves small large split
    rw [plain] at reseated
    simp only [breath, Int.sub_zero, Int.add_zero] at reseated
    dsimp only at same
    split_ifs at same with high
    · subst same
      exact ⟨rfl, reseated, by simp, _, by rw [right]; exact atNew, by omega, by dsimp only; omega⟩
    · subst same
      exact ⟨rfl, reseated, by simp [seat.held], _, by rw [left]; exact atA, by omega,
        by dsimp only; omega⟩
  · rw [if_neg full] at run
    cases run
    exact ⟨rfl, reseated_refl accounts seat, by simp [seat.held], slots,
      by rw [length]; exact here, by omega, low⟩

theorem insertBtree_reseated {out : LeafOutcome (Heap c) c.Key Ptr (Iterator × Bool)}
    (splits : c.Splits) (accounts : Breathing h.store (held parent a ++ rest) h.breathingSum)
    (seat : Seat parent a) (live : h.store.leaf a = some leaf) (plain : leaf.node = .btree slots)
    (run : insertBtree mem blank key h parent a leaf slots = some out) :
    out.parent = parent.map Prod.fst ∧
      Reseated h.store parent a out.state.store parent a
        (out.split.map Prod.snd).toList rest out.state.breathingSum := by
  obtain ⟨target, split, next⟩ := Option.bind_eq_some_iff.mp run
  obtain ⟨leaf₁, live₁, write⟩ := Option.bind_eq_some_iff.mp next
  obtain ⟨none, reseated, place, slots', here, room, inside⟩ :=
    splitBtree_reseated splits accounts seat live plain split
  have same := (contents_of_leaf live₁).symm.trans here
  simp only [Option.some.injEq, Prod.mk.injEq] at same
  rw [same.2] at write
  simp only [Option.some.injEq] at write
  subst write
  refine ⟨rfl, ?_⟩
  have length : (slots'.insertIdx target.slot (mem key, key)).length = leaf₁.slotuse + 1 := by
    rw [List.length_insertIdx_of_le_length inside, same.1]
  have written := reseated.write live₁ place
    { leaf₁ with node := .btree (slots'.insertIdx target.slot (mem key, key)),
                 slotuse := leaf₁.slotuse + 1 }
    ⟨length, by dsimp only; omega, by dsimp only; omega⟩ fun _ => by rw [same.2]; trivial
  rw [same.2] at written
  simp only [breath, Int.sub_zero, Int.add_zero] at written
  dsimp only
  rw [none, Int.add_zero, Option.map_map]
  exact written

theorem widened_reseated {wider : BlindiLeafType} (splits : c.Splits)
    (accounts : Breathing s (held parent a ++ rest) sum) (seat : Seat parent a)
    (live : s.leaf a = some leaf) (blind : leaf.node = .blindi type n)
    (full : leaf.slotuse = (c.params type).numSlots) (extended : type.extended = some wider)
    (run : replaceLeaf s parent a leaf
      (.blindi wider (transferBlindixtoblibdi2x (c.params type) n blank)) = some
      (s', parent', new)) :
    Reseated s parent a s' parent' new [] rest (sum + transferNodeBreathing (c.params wider)) ∧
      contents s' new = some
        (leaf.slotuse, .blindi wider (transferBlindixtoblibdi2x (c.params type) n blank)) := by
  have valid := accounts.each a _ (contents_of_leaf live)
  rw [blind] at valid
  obtain ⟨length, some_, breathes⟩ := valid
  have twice := extended_slots c.leafslotmax extended
  have bounds := splits.numSlots wider
  have short : 2 * (c.params type).numSlots < 65536 := twice.1 ▸ bounds.2
  obtain ⟨length', breathes', size⟩ :=
    transferBlindixtoblibdi2x_breathes short breathes (breathes.whole (full.ge.trans length)) blank
  have same : (c.params type).widened = c.params wider := by cases type <;> cases extended <;> rfl
  rw [same] at breathes' size
  obtain ⟨reseated, -, here⟩ := replaceLeaf_reseated accounts seat live
    (show Sized (leaf.slotuse, .blindi wider (transferBlindixtoblibdi2x (c.params type) n blank))
      from
      ⟨length.trans length'.ge, some_, breathes'⟩) run
  rw [blind] at reseated
  simp only [breath] at reseated
  rw [size, ← Int.add_assoc, Int.sub_add_cancel] at reseated
  exact ⟨reseated, here⟩

theorem divided_reseated {splitkey : c.Key} (splits : c.Splits)
    (accounts : Breathing s (held parent a ++ rest) sum) (seat : Seat parent a)
    (live : s.leaf a = some leaf) (blind : leaf.node = .blindi type n)
    (full : leaf.slotuse = (c.params type).numSlots)
    (run : splitLeafNode (.blindi type blank) (splitNode blank 0) (maxKey mem) s a leaf =
      some (s', splitkey, new)) :
    Reseated s parent a s' parent a [new] rest (sum + splitBlindiNodeBreathing (c.params type)) ∧
      ∀ b, b = a ∨ b = new → ∃ slotuse n', contents s' b = some (slotuse, .blindi type n') ∧
      slotuse < (c.params type).numSlots := by
  have valid := accounts.each a _ (contents_of_leaf live)
  rw [blind] at valid
  obtain ⟨length, some_, breathes⟩ := valid
  have bounds := splits.numSlots type
  have even := (c.params type).even
  have two := splits.leaf
  obtain ⟨first, second, small, large, size⟩ :=
    splitBlindiNode_breathes bounds.2 breathes (breathes.whole (full.ge.trans length)) blank blank
  have halves (l r : HybridNode c.Key) (split : splitNode blank 0 leaf.node = some (l, r)) :
      l = .blindi type (splitBlindiNode (c.params type) n blank blank).1 ∧
        r = .blindi type (splitBlindiNode (c.params type) n blank blank).2 := by
    rw [blind] at split
    cases split
    exact ⟨rfl, rfl⟩
  have half : leaf.slotuse - leaf.slotuse / 2 = (c.params type).numSlots / 2 := by omega
  obtain ⟨l, r, split, _, atA, atNew, reseated⟩ := splitLeafNode_reseated accounts seat live run
    (fun l r split => by
      obtain ⟨rfl, rfl⟩ := halves l r split
      exact ⟨⟨(first.trans (by rw [full])).ge, by omega, small⟩,
        ⟨(second.trans half.symm).ge, by omega, large⟩⟩)
    fun l r split _ => by
      obtain ⟨rfl, rfl⟩ := halves l r split
      exact ⟨id, id⟩
  obtain ⟨rfl, rfl⟩ := halves l r split
  rw [blind] at reseated
  simp only [breath] at reseated
  rw [Int.add_assoc, size, ← Int.add_assoc, Int.sub_add_cancel] at reseated
  refine ⟨reseated, fun b same => ?_⟩
  rcases same with rfl | rfl
  · exact ⟨_, _, atA, by omega⟩
  · exact ⟨_, _, atNew, by omega⟩

theorem makeRoom_reseated {target : Target c} (splits : c.Splits)
    (accounts : Breathing s (held parent a ++ rest) sum) (seat : Seat parent a)
    (live : s.leaf a = some leaf) (blind : leaf.node = .blindi type n)
    (run : makeRoom mem blank key s parent a leaf type n = some (parent', target)) :
    ∃ a', Reseated s parent a target.store parent' a' (target.split.map Prod.snd).toList rest
      (sum + target.breathed) ∧
      (type.extended ≠ none → target.split = none) ∧ target.leaf ∈
      held parent' a' ++ (target.split.map Prod.snd).toList ∧
      ∃ slotuse type' n',
        contents target.store target.leaf = some (slotuse, .blindi type' n') ∧
        slotuse < (c.params type').numSlots := by
  have here := contents_of_leaf live
  have valid := accounts.each a _ here
  rw [blind] at here valid
  obtain ⟨length, some_, breathes⟩ := valid
  have size := slots_eq c.leafslotmax type
  unfold makeRoom at run
  by_cases full : leaf.slotuse = c.leafslotmax * type.size
  · rw [if_pos full] at run
    rw [← size] at full
    cases extended : type.extended with
    | some wider =>
      rw [extended] at run
      obtain ⟨⟨s₁, parent₁, new⟩, replace, same⟩ := Option.map_eq_some_iff.mp run
      simp only [Prod.mk.injEq] at same
      obtain ⟨rfl, rfl⟩ := same
      obtain ⟨reseated, at_⟩ :=
        widened_reseated splits accounts seat live blind full extended replace
      have twice := (extended_slots c.leafslotmax extended).1
      have two := splits.leaf
      have least := (splits.numSlots type).1
      exact ⟨new, reseated, fun _ => rfl, by simp [reseated.seat.held], _, _, _, at_,
        by dsimp only at least ⊢; omega⟩
    | none =>
      rw [extended] at run
      obtain ⟨⟨s₁, splitkey, newleaf⟩, divide, next⟩ := Option.bind_eq_some_iff.mp run
      obtain ⟨reseated, room⟩ := divided_reseated splits accounts seat live blind full divide
      dsimp only at next
      split_ifs at next with high
      · simp only [Option.some.injEq, Prod.mk.injEq] at next
        obtain ⟨rfl, rfl⟩ := next
        obtain ⟨slotuse, n', at_, lt⟩ := room newleaf (.inr rfl)
        exact ⟨a, reseated, fun some_ => absurd rfl some_, by simp, slotuse, type, n', at_, lt⟩
      · obtain ⟨left, live₁, next⟩ := Option.bind_eq_some_iff.mp next
        obtain ⟨slotuse, n', at_, lt⟩ := room a (.inl rfl)
        have same := (contents_of_leaf live₁).symm.trans at_
        simp only [Option.some.injEq, Prod.mk.injEq] at same
        rw [same.2] at next
        simp only [Option.some.injEq, Prod.mk.injEq] at next
        obtain ⟨rfl, rfl⟩ := next
        exact ⟨a, reseated, fun some_ => absurd rfl some_, by simp [seat.held], slotuse,
          type, n', at_, lt⟩
  · rw [if_neg full] at run
    cases run
    have least := breathes.room.trans breathes.most
    refine ⟨a, ?_, fun _ => rfl, by simp [seat.held], leaf.slotuse, type, n, here, ?_⟩
    · simpa using reseated_refl accounts seat
    · dsimp only at least ⊢
      omega

theorem insertBlindi_reseated {out : LeafOutcome (Heap c) c.Key Ptr (Iterator × Bool)}
    (splits : c.Splits) (accounts : Breathing h.store (held parent a ++ rest) h.breathingSum)
    (seat : Seat parent a) (live : h.store.leaf a = some leaf) (blind : leaf.node = .blindi type n)
    (run : insertBlindi mem blank key h parent a leaf type n = some out) :
    ∃ parent' a', out.parent = parent'.map Prod.fst ∧
      Reseated h.store parent a out.state.store parent' a'
        (out.split.map Prod.snd).toList rest out.state.breathingSum ∧
      (type.extended ≠ none → out.split = none) := by
  obtain ⟨⟨parent', target⟩, room, next⟩ := Option.bind_eq_some_iff.mp run
  obtain ⟨leaf₁, live₁, write⟩ := Option.bind_eq_some_iff.mp next
  obtain ⟨a', reseated, short, place, slotuse, type', n', here, lt⟩ :=
    makeRoom_reseated splits accounts seat live blind room
  have same := (contents_of_leaf live₁).symm.trans here
  simp only [Option.some.injEq, Prod.mk.injEq] at same
  rw [same.2] at write
  simp only [Option.some.injEq] at write
  subst write
  obtain ⟨length, some_, breathes⟩ := reseated.accounts.each _ _ here
  have bounds := splits.numSlots type'
  obtain ⟨length', breathes', size⟩ :=
    insert2BlindiNodeWithKey_breathes (c := c.params type') mem bounds.2 breathes (by omega) key
  generalize insert2BlindiNodeWithKey (c := c.params type') mem n' key =
    r at length' breathes' size ⊢
  have counted : leaf₁.slotuse ≤
    (if r.1 = .duplicatedKey then leaf₁.slotuse else leaf₁.slotuse + 1) ∧
      (if r.1 = .duplicatedKey then leaf₁.slotuse else leaf₁.slotuse + 1) ≤ leaf₁.slotuse + 1 := by
    split_ifs <;> omega
  generalize (if r.1 = .duplicatedKey then leaf₁.slotuse else leaf₁.slotuse + 1) =
    slotuse' at counted ⊢
  have written := reseated.write live₁ place
    { leaf₁ with node := .blindi type' r.2, slotuse := slotuse' }
    ⟨by dsimp only; omega, by dsimp only; omega, breathes'⟩ False.elim
  rw [same.2] at written
  simp only [breath] at written
  rw [size, ← Int.add_assoc, Int.sub_add_cancel] at written
  exact ⟨parent', a', rfl, written, short⟩

-- The leaf part leaves every blindi node of the heap accounted for.
theorem leafPart_reseated {out : LeafOutcome (Heap c) c.Key Ptr (Iterator × Bool)}
    (splits : c.Splits) (accounts : Breathing h.store (held parent a ++ rest) h.breathingSum)
    (seat : Seat parent a) (run : leafPart mem blank status key h parent a = some out) :
    ∃ parent' a', out.parent = parent'.map Prod.fst ∧
      Reseated h.store parent a out.state.store parent' a'
        (out.split.map Prod.snd).toList rest out.state.breathingSum := by
  obtain ⟨⟨h₁, parent₁, a₁⟩, compress, next⟩ := Option.bind_eq_some_iff.mp run
  obtain ⟨leaf, live, insert⟩ := Option.bind_eq_some_iff.mp next
  obtain ⟨first, kind⟩ := compress_reseated splits accounts seat compress
  obtain ⟨old, live₀, _⟩ := Option.bind_eq_some_iff.mp compress
  have lt : a < h.store.fresh :=
    accounts.below a ((accounts.listed a).mpr ⟨_, contents_of_leaf live₀⟩)
  cases node : leaf.node with
  | btree slots =>
    rw [node] at insert
    obtain ⟨parent, second⟩ :=
      insertBtree_reseated splits first.accounts first.seat live node insert
    obtain rfl : a₁ = a := by
      rcases kind with same | ⟨slotuse, type, n, here, _⟩
      · exact same
      · rw [contents_of_leaf live, node] at here
        cases here
    exact ⟨parent₁, a₁, parent, first.trans second (.inl rfl)⟩
  | blindi type n =>
    rw [node] at insert
    obtain ⟨parent', a', parent, second, short⟩ :=
      insertBlindi_reseated splits first.accounts first.seat live node insert
    refine ⟨parent', a', parent, first.trans second ?_⟩
    rcases first.root with rfl | gone
    · exact second.root
    · refine .inr ⟨second.dead.gone a (lt.trans_le first.dead.fresh) gone.1, ?_⟩
      rcases kind with rfl | ⟨slotuse, type', n', here, wide⟩
      · rw [contents_of_leaf live] at gone
        cases gone.1
      · rw [contents_of_leaf live, node] at here
        cases here
        rw [short wide]
        rfl

end LeafPart

section Run

variable {h h' : Heap c} {status : HybridStatus} {t t' : HybridTree c} {stored : List c.Key}
  {r : Iterator × Bool}

-- The leaf part of an insertion below an inner node of level 1, and the inner nodes that come of
-- it.
theorem insertDescend_reseated {level : Nat} {node node' : Node c.Key Ptr (level + 1)}
    {newchild : Option (c.Key × Node c.Key Ptr (level + 1))} (splits : c.Splits)
    (accounts : Breathing h.store (cells (leaves (level + 1) ⊥ node)) h.breathingSum)
    (run : insertDescend c.innerslotmax (leafPart mem blank status key) (mem key) (level + 1) h
      node = some (h', node', newchild, r)) :
    ∃ before sep inner after slot out inner' front low a' back l split, parents level ⊥ node =
      before ++ (sep, inner) :: after ∧
      inner = descendParent (mem key) level node ∧ slot = findLower inner.slotkey (mem key) ∧
      leafPart mem blank status key h (some (inner, slot)) (inner.childid slot) = some out ∧
      out.parent = some inner' ∧
      Reseated h.store (some (inner, slot)) (inner.childid slot) h'.store (some (inner', slot)) a'
        (out.split.map Prod.snd).toList
        (cells (children before) ++ cells (children after)) h'.breathingSum ∧
      row sep inner' = front ++ (low, a') :: back ∧
      (splitRow ⊥ node' newchild).flatMap (fun e => parents level e.1 e.2) =
      before ++ splitRow sep l split ++ after ∧
      (splitRow sep l split).flatMap (fun e => row e.1 e.2) =
      front ++ splitRow low a' out.split ++ back ∧
      l.alreadycomprerss = inner'.alreadycomprerss ∧ ∀ e ∈ split, e.2.alreadycomprerss = false := by
  obtain ⟨before, sep, inner, after, out, l, split, whole, descends, leaf, rfl, add, rows⟩ :=
    insertDescend_row splits.inner level ⊥ run
  have old : leaves (level + 1) ⊥ node = children before ++ row sep inner ++ children after := by
    rw [leaves_eq, whole]
    exact children_middle before after sep inner
  have inside : findLower inner.slotkey (mem key) ≤ inner.slotuse := by
    simpa [InnerNode.slotkey, InnerNode.slotuse] using findLower_le inner.slotkey (mem key)
  generalize position : findLower inner.slotkey (mem key) = slot at leaf add inside
  have seat : Seat (some (inner, slot)) (inner.childid slot) := fun p at_ => by
    cases at_
    exact ⟨inside, rfl⟩
  have below : Breathing h.store (held (some (inner, slot)) (inner.childid slot) ++
    (cells (children before) ++ cells (children after)))
      h.breathingSum := by
    refine accounts.perm ?_
    rw [old, cells_append, cells_append]
    change (cells (children before) ++ cells (row ⊥ inner) ++ _).Perm (cells (row ⊥ inner) ++ _)
    rw [← List.append_assoc]
    exact List.perm_append_comm.append_right _
  obtain ⟨parent', a', parent, reseated⟩ := leafPart_reseated splits below seat leaf
  obtain ⟨⟨inner', slot'⟩, rfl, same⟩ := Option.map_eq_some_iff.mp reseated.slot
  obtain rfl : slot' = slot := same
  obtain ⟨inside', here⟩ := reseated.seat _ rfl
  dsimp only at inside' here
  obtain ⟨front, low, back, eq, length⟩ := row_child sep inside'
  obtain ⟨l₁, r₁, add₁, rows₁, flag, fresh⟩ := addNewchild_row splits.inner eq out.split
  rw [parent, ← length] at add
  have same := add.symm.trans add₁
  simp only [Option.some.injEq, Prod.mk.injEq] at same
  obtain ⟨rfl, rfl⟩ := same
  rw [here] at eq rows₁
  exact ⟨before, sep, inner, after, slot', out, inner', front, low, a', back, l, split, whole,
    descends, position.symm, leaf, parent,
    reseated, eq, rows, rows₁, flag, fresh⟩

theorem insertDescend_accounts {level : Nat} {node node' : Node c.Key Ptr (level + 1)}
    {newchild : Option (c.Key × Node c.Key Ptr (level + 1))} (splits : c.Splits)
    (accounts : Breathing h.store (cells (leaves (level + 1) ⊥ node)) h.breathingSum)
    (run : insertDescend c.innerslotmax (leafPart mem blank status key) (mem key) (level + 1) h
      node = some (h', node', newchild, r)) :
    Breathing h'.store (cells ((splitRow ⊥ node' newchild).flatMap fun e =>
      leaves (level + 1) e.1 e.2)) h'.breathingSum := by
  obtain ⟨before, sep, inner, after, slot, out, inner', front, low, a', back, l, split, -, -, -, -,
      -, reseated, eq, rows, rows', -⟩ :=
    insertDescend_reseated splits accounts run
  have spread : (fun e : WithBot c.Key × Node c.Key Ptr (level + 1) => leaves (level + 1) e.1 e.2) =
      fun e => (parents level e.1 e.2).flatMap fun e => row e.1 e.2 :=
      funext fun e => leaves_eq level e.1 e.2
  rw [spread, ← List.flatMap_assoc, rows, List.flatMap_append, List.flatMap_append, rows']
  refine reseated.accounts.perm ?_
  have divided : cells (splitRow low a' out.split) = a' :: (out.split.map Prod.snd).toList := by
    cases out.split <;> rfl
  have under : held (some (inner', slot)) a' = cells front ++ a' :: cells back := by
    rw [← cells_cons, ← cells_append, ← eq]
    rfl
  rw [under, cells_append, cells_append, cells_append, cells_append, divided]
  refine List.perm_iff_count.mpr fun x => ?_
  simp only [children, List.count_append, List.count_cons]
  omega

-- Every live leaf hangs in the tree, unless the root is gone.
def Accounted (t : HybridTree c) : Prop :=
  ∃ used, Breathing t.store used t.stats.breathingSum ∧ (Dangling t ∨ used.Perm (cells t.leaves))

theorem accounts_empty : Breathing (Store.empty : Store (HybridNode c.Key)) [] 0 := .nil _ _ _

theorem empty_accounted (splits : c.Splits)
    (run : (HybridTree.empty c).insert mem blank key = some (t', r)) : Accounted t' := by
  have two := splits.leaf
  obtain ⟨stats, _, _, zero, first⟩ := empty_insert mem blank (show 0 < c.leafslotmax by omega) key
  have same := first.symm.trans run
  simp only [Option.some.injEq, Prod.mk.injEq] at same
  obtain ⟨rfl, -⟩ := same
  have only : contents ((oneLeaf c).put 1 (firstLeaf mem key)) =
      Function.update (contents Store.empty) 1 (some (1, .btree [(mem key, key)])) := by
    have allocated : contents (oneLeaf c) =
      Function.update (contents Store.empty) 1 (some (0, .btree [])) := contents_allocate
    rw [contents_put, allocated, Function.update_idem]
    rfl
  have accounts := accounts_empty.allocate
    (show Sized (1, HybridNode.btree [(mem key, key)]) from ⟨rfl, le_rfl, by omega⟩)
  refine ⟨[1], ?_, .inr (.refl _)⟩
  dsimp only
  rw [Breathing, only, zero]
  exact accounts

theorem HybridTree.insert_run {root : (level : Nat) × Node c.Key Ptr level}
    (eq : t.root = some root) (run : t.insert mem blank key = some (t', r)) : ∃ h' node newchild,
      insertDescend c.innerslotmax (leafPart mem blank t.stats.hybridstatus key) (mem key) root.1
        { store := t.store, btreeleaves := t.stats.btreeleaves,
          breathingSum := t.stats.breathingSum } root.2 =
          some (h', node, newchild, r) ∧
      t'.root = some (growRoot node newchild) ∧ t'.store = h'.store ∧
      t'.stats.breathingSum = h'.breathingSum := by
  unfold HybridTree.insert at run
  rw [eq] at run
  obtain ⟨⟨h', node, newchild, r'⟩, descends, same⟩ := Option.map_eq_some_iff.mp run
  simp only [Prod.mk.injEq] at same
  obtain ⟨rfl, rfl⟩ := same
  exact ⟨h', node, newchild, descends, rfl, rfl, next_breathingSum⟩

theorem Accounted.insert (splits : c.Splits) (accounted : Accounted t) (some_ : t.root ≠ none)
    (run : t.insert mem blank key = some (t', r)) : Accounted t' := by
  obtain ⟨used, accounts, place⟩ := accounted
  have perm : used.Perm (cells t.leaves) := place.resolve_left fun dangling => by
    rw [dangling.stuck] at run
    cases run
  obtain ⟨⟨level, node⟩, eq⟩ := Option.ne_none_iff_exists'.mp some_
  obtain ⟨h', node', newchild, descends, root, store, sum⟩ := HybridTree.insert_run eq run
  have leaves : t.leaves = Tree.leaves level ⊥ node := by rw [HybridTree.leaves, eq]
  have leaves' : t'.leaves = (splitRow ⊥ node' newchild).flatMap fun e =>
      Tree.leaves level e.1 e.2 := by
    rw [HybridTree.leaves, root]
    exact leaves_growRoot node' newchild
  have accounts := accounts.perm perm
  rw [leaves] at accounts
  unfold Accounted
  rw [store, sum, leaves']
  cases level with
  | succ level => exact ⟨_, insertDescend_accounts splits accounts descends, .inr (.refl _)⟩
  | zero =>
    obtain ⟨out, leaf, same⟩ := Option.map_eq_some_iff.mp descends
    simp only [Prod.mk.injEq] at same
    obtain ⟨rfl, rfl, rfl, -⟩ := same
    have seat : Seat (c := c) none node := fun p none => (by cases none)
    have accounts : Breathing t.store (held (c := c) none node ++ []) t.stats.breathingSum :=
      accounts
    obtain ⟨parent', a', parent, reseated⟩ := leafPart_reseated splits accounts seat leaf
    obtain rfl : parent' = none := by simpa using reseated.slot
    refine ⟨_, reseated.accounts, ?_⟩
    rcases reseated.root with rfl | ⟨gone, alone⟩
    · right
      cases out.split <;> exact .refl _
    · left
      have none : out.split = none := by simpa using alone
      refine ⟨node, by rw [root, none]; rfl, ?_⟩
      rw [store]
      exact Option.map_eq_none_iff.mp gone

/-- The trees that insertions of any keys build. -/
inductive Built (mem : Addr → c.Key) (blank : SeqTreeBlindiNode) : HybridTree c → Prop where
  | empty : Built mem blank (.empty c)
  | insert {t t' : HybridTree c} {key : Addr} {r : Iterator × Bool} : Built mem blank t →
    t.insert mem blank key = some (t', r) →
    Built mem blank t'

theorem Reached.built (reached : Reached mem blank t stored) : Built mem blank t := by
  induction reached with
  | empty => exact .empty
  | insert _ _ run ih => exact ih.insert run

theorem Built.accounted (splits : c.Splits) (built : Built mem blank t) :
    Accounted t ∧ (t.root = none → t = .empty c) := by
  induction built with
  | empty => exact ⟨⟨[], accounts_empty, .inr (.refl _)⟩, fun _ => rfl⟩
  | @insert t t' key r _ run ih =>
    obtain ⟨accounted, new⟩ := ih
    by_cases none : t.root = none
    · rw [new none] at run
      refine ⟨empty_accounted splits run, fun none' => ?_⟩
      have two := splits.leaf
      obtain ⟨stats, _, _, _, first⟩ := empty_insert mem blank (show 0 < c.leafslotmax by omega) key
      have same := first.symm.trans run
      simp only [Option.some.injEq, Prod.mk.injEq] at same
      rw [← same.1] at none'
      cases none'
    · refine ⟨accounted.insert splits none run, fun none' => ?_⟩
      obtain ⟨root, eq⟩ := Option.ne_none_iff_exists'.mp none
      obtain ⟨_, _, _, _, root', _⟩ := HybridTree.insert_run eq run
      rw [root'] at none'
      cases none'

-- currentmaxslot of the blindi node of a leaf.
def currentmaxslot (s : Store (HybridNode c.Key)) (a : Ptr) : Int :=
  match s.nodeAt a with
  | some (.blindi _ node) => node.currentMaxSlot
  | _ => 0

theorem entry_contents : entry breath (contents s a) = currentmaxslot s a := by
  unfold entry contents currentmaxslot Store.nodeAt
  cases s.leaf a with
  | none => rfl
  | some leaf => cases node : leaf.node <;> simp [node, breath]

-- The live blindi leaves are those that hang in the tree, as long as the root is there.
theorem breathing_accounts (splits : c.Splits) (reached : Reached mem blank t stored) :
    ∃ live : Finset Ptr, (∀ a, a ∈ live ↔ Blind t.store a) ∧ t.stats.breathingSum = ∑ a ∈ live,
      currentmaxslot t.store a ∧
      (¬ Dangling t → ∀ a ∈ live, a ∈ cells t.leaves) := by
  obtain ⟨⟨used, accounts, place⟩, _⟩ := reached.built.accounted splits
  refine ⟨used.toFinset.filter (Blind t.store), fun a => ?_, ?_, fun stands a inside => ?_⟩
  · rw [Finset.mem_filter, List.mem_toFinset, and_iff_right_iff_imp, accounts.listed]
    rintro ⟨type, node, here⟩
    obtain ⟨leaf, live, same⟩ := Option.map_eq_some_iff.mp here
    exact ⟨_, contents_of_leaf live⟩
  · rw [Finset.sum_filter_of_ne fun a _ some_ => ?_, accounts.total,
      List.sum_toFinset _ accounts.distinct]
    · simp only [entry_contents]
    · unfold currentmaxslot at some_
      split at some_
      · exact ⟨_, _, by assumption⟩
      · exact absurd rfl some_
  · rw [Finset.mem_filter, List.mem_toFinset] at inside
    exact (place.resolve_left stands).subset inside.1

-- The status changes after four keys already.
def breathingSample : Config := { sampleConfig with limit2ShouldCompress := 4 }

-- The seventh key finds a full leaf, whose node gets room for eight keys.
theorem breathing_accounts_sample :
    ∃ (t : HybridTree breathingSample) (stored : List breathingSample.Key),
    Reached (c := breathingSample) sampleMem SeqTree.sampleNode t stored ∧
    t.stats.breathingSum = 8 ∧
      ∃ live : Finset Ptr, (∀ a, a ∈ live ↔ Blind t.store a) ∧ t.stats.breathingSum = ∑ a ∈ live,
      currentmaxslot t.store a ∧
        (¬ Dangling t → ∀ a ∈ live, a ∈ cells t.leaves) := by
  have sum : (((HybridTree.empty breathingSample).insertAll (c := breathingSample) sampleMem
    SeqTree.sampleNode (fun _ _ => true)
      [8, 16, 24, 32, 40, 48, 56]).map fun t => t.stats.breathingSum) = some 8 := by decide
  obtain ⟨t, run, eight⟩ := Option.map_eq_some_iff.mp sum
  have reached := insertAll_run (c := breathingSample)
    (R := Reached (c := breathingSample) sampleMem SeqTree.sampleNode)
    (fun t t' stored key r start _ missing insert => start.insert missing insert)
      .empty (by decide) run
  exact ⟨t, _, reached, eight, breathing_accounts ⟨by decide, by decide, by decide⟩ reached⟩

end Run

end ElasticIndex.Tree.Hybrid
