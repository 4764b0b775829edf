import ElasticIndex.Tree.HybridBreathing

set_option autoImplicit false

namespace ElasticIndex.Tree.Hybrid

open Separators SeqTree

variable {c : Config} {mem : Addr → c.Key} {blank : SeqTreeBlindiNode}
  {s s' s'' : Store (HybridNode c.Key)} {leaf : Leaf (HybridNode c.Key)} {node : HybridNode c.Key}
  {slots : List (c.Key × Addr)} {type : BlindiLeafType}
  {n : SeqTreeBlindiNode} {parent parent' parent'' : Parent c} {a a' b x new : Ptr} {key : Addr}
  {F G : Ptr → Prop}
  {h h' : Heap c} {inner inner' : InnerNode c.Key Ptr} {status : HybridStatus}

/-- The leaves that are gone afterwards; m_headleaf is never written. -/
structure Moves (s s' : Store (HybridNode c.Key)) (F : Ptr → Prop) : Prop where
  fresh : s.fresh ≤ s'.fresh
  freed : ∀ x, x < s.fresh → (s'.leaf x = none ↔ s.leaf x = none ∨ F x)
  head : s'.headleaf = s.headleaf

theorem Moves.refl (s : Store (HybridNode c.Key)) : Moves s s fun _ => False :=
  ⟨le_rfl, fun x _ => by simp, rfl⟩

theorem Moves.trans (first : Moves s s' F) (second : Moves s' s'' G) :
    Moves s s'' fun x => F x ∨ G x :=
  ⟨first.fresh.trans second.fresh, fun x lt => by
    rw [second.freed x (lt.trans_le first.fresh), first.freed x lt, or_assoc],
      second.head.trans first.head⟩

theorem Moves.congr (moves : Moves s s' F) (same : ∀ x, x < s.fresh → (F x ↔ G x)) : Moves s s' G :=
  ⟨moves.fresh, fun x lt => (moves.freed x lt).trans (or_congr_right (same x lt)), moves.head⟩

theorem Moves.gone (moves : Moves s s' F) (lt : x < s.fresh) (gone : s.leaf x = none) :
    s'.leaf x = none :=
  (moves.freed x lt).mpr (.inl gone)

theorem put_moves (live : s.leaf a ≠ none) : Moves s (s.put a leaf) fun _ => False := by
  refine ⟨le_rfl, fun x _ => ?_, rfl⟩
  rw [or_false]
  by_cases same : x = a
  · subst same
    simp [live]
  · rw [put_other same]

theorem leaf_none : contents s x = none ↔ s.leaf x = none := Option.map_eq_none_iff

theorem connectNewleaf_ends (run : connectNewleaf s leaf new = some s') :
    s'.headleaf = s.headleaf ∧ s'.tailleaf = s.tailleaf := by
  unfold connectNewleaf at run
  obtain ⟨s₁, first, second⟩ := Option.bind_eq_some_iff.mp run
  have before : s₁.headleaf = s.headleaf ∧ s₁.tailleaf = s.tailleaf := by
    cases prev : leaf.prevleaf with
    | none =>
      rw [prev] at first
      cases first
      exact ⟨rfl, rfl⟩
    | some p =>
      rw [prev] at first
      obtain ⟨left, live, rfl⟩ := Option.map_eq_some_iff.mp first
      exact ⟨rfl, rfl⟩
  cases next : leaf.nextleaf with
  | none =>
    rw [next] at second
    cases second
    exact before
  | some q =>
    rw [next] at second
    obtain ⟨right, live, rfl⟩ := Option.map_eq_some_iff.mp second
    exact before

theorem replaceLeaf_ends (run : replaceLeaf s parent a leaf node = some (s', parent', new)) :
    s'.headleaf = s.headleaf ∧ s'.tailleaf = s.tailleaf := by
  cases parent with
  | none =>
    have same := Option.some.inj run
    simp only [Prod.mk.injEq] at same
    obtain ⟨rfl, -⟩ := same
    exact ⟨rfl, rfl⟩
  | some p =>
    obtain ⟨inner, slot⟩ := p
    obtain ⟨s₂, connect, same⟩ := Option.map_eq_some_iff.mp run
    simp only [Prod.mk.injEq] at same
    obtain ⟨rfl, -⟩ := same
    have ends := connectNewleaf_ends connect
    exact ends

theorem splitLeafNode_ends {empty : HybridNode c.Key}
    {split : HybridNode c.Key → Option (HybridNode c.Key × HybridNode c.Key)}
    {maxKey : HybridNode c.Key → c.Key} {splitkey : c.Key}
    (run : splitLeafNode empty split maxKey s a leaf = some (s', splitkey, new)) :
    s'.headleaf = s.headleaf ∧ (s'.tailleaf = s.tailleaf ∨ s'.tailleaf = some new) := by
  unfold splitLeafNode at run
  dsimp only at run
  obtain ⟨s₁, link, divide⟩ := Option.bind_eq_some_iff.mp run
  obtain ⟨⟨small, large⟩, -, same⟩ := Option.map_eq_some_iff.mp divide
  simp only [Prod.mk.injEq] at same
  obtain ⟨rfl, -, rfl⟩ := same
  cases next : leaf.nextleaf with
  | none =>
    rw [next] at link
    cases link
    exact ⟨rfl, .inr rfl⟩
  | some q =>
    rw [next] at link
    obtain ⟨right, live, rfl⟩ := Option.map_eq_some_iff.mp link
    exact ⟨rfl, .inl rfl⟩

def Bounded (parent : Parent c) (fresh : Ptr) : Prop := ∀ p ∈ parent, p.1.first < fresh

/-- A parent whose first child is the old one, unless that one is gone. -/
structure Reparents (parent : Parent c) (s : Store (HybridNode c.Key)) (parent' : Parent c)
    (s' : Store (HybridNode c.Key)) :
    Prop where
  shape : parent'.map (fun p => (p.1.slotuse, p.2)) = parent.map fun p => (p.1.slotuse, p.2)
  before : Bounded parent s.fresh
  bounded : Bounded parent' s'.fresh
  first : ∀ p ∈ parent, ∀ p' ∈ parent', p'.1.first = p.1.first ∨ s'.leaf p.1.first = none

theorem Bounded.reparents (bounded : Bounded parent s.fresh) (moves : Moves s s' F) :
    Reparents parent s parent s' :=
  ⟨rfl, bounded, fun p here => (bounded p here).trans_le moves.fresh, fun p here p' there => by
    rw [Option.mem_def] at here there
    rw [here] at there
    cases there
    exact .inl rfl⟩

theorem Reparents.trans (first : Reparents parent s parent' s')
    (second : Reparents parent' s' parent'' s'') (moves : Moves s s' F) (moves' : Moves s' s'' G) :
    Reparents parent s parent'' s'' := by
  refine ⟨second.shape.trans first.shape, first.before, second.bounded, fun p here p'' there => ?_⟩
  obtain ⟨p', here'⟩ : ∃ p', p' ∈ parent' := by
    have shape := first.shape
    rw [Option.mem_def] at here
    rw [here, Option.map_some] at shape
    obtain ⟨p', eq, -⟩ := Option.map_eq_some_iff.mp shape
    exact ⟨p', eq⟩
  rcases first.first p here p' here' with same | gone
  · rw [← same]
    exact second.first p' here' p'' there
  · exact .inr (moves'.gone ((first.before p here).trans_le moves.fresh) gone)

/-- A new leaf stands in the place of leaf a, which is freed. -/
structure Swapped (s : Store (HybridNode c.Key)) (parent : Parent c) (a : Ptr)
    (leaf : Leaf (HybridNode c.Key)) (node : HybridNode c.Key) (s' : Store (HybridNode c.Key))
    (parent' : Parent c) (new : Ptr) : Prop where
  moves : Moves s s' (· = a)
  reparents : Reparents parent s parent' s'
  reseated : parent' = reseat parent new
  tail : s'.tailleaf = s.tailleaf
  old : s.fresh ≤ new
  lt : new < s'.fresh
  here : contents s' new = some (leaf.slotuse, node)
  others : ∀ x, x < s.fresh → x ≠ a → contents s' x = contents s x

theorem replaceLeaf_swapped (old : a < s.fresh) (bounded : Bounded parent s.fresh)
    (seat : Seat parent a) (run : replaceLeaf s parent a leaf node = some (s', parent', new)) :
    Swapped s parent a leaf node s' parent' new := by
  obtain ⟨same, fresh, rfl, rfl⟩ := replaceLeaf_contents run
  obtain ⟨head, tail⟩ := replaceLeaf_ends run
  have gone : contents s' a = none := by rw [same, Function.update_self]
  have others (x : Ptr) (lt : x < s.fresh) (ne : x ≠ a) : contents s' x = contents s x := by
    rw [same, Function.update_of_ne ne, Function.update_of_ne lt.ne]
  have more : s.fresh < s'.fresh := fresh ▸ Nat.lt_succ_self _
  have first (p : InnerNode c.Key Ptr × Nat) (here : p ∈ parent) :
      (p.1.setChild p.2 s.fresh).first = p.1.first ∨ (p.1.setChild p.2 s.fresh).first = s.fresh ∧
      p.1.first = a := by
    obtain ⟨inner, slot⟩ := p
    have place := (seat _ here).2
    cases slot with
    | zero => exact .inr ⟨rfl, place⟩
    | succ i => exact .inl rfl
  refine ⟨⟨more.le, fun x lt => ?_, head⟩,
    ⟨?_, bounded, fun p' there => ?_, fun p here p' there => ?_⟩, rfl, tail, le_rfl,
    more, ?_, others⟩
  · rw [← leaf_none, ← leaf_none]
    by_cases eq : x = a
    · simp [eq, gone]
    · rw [others x lt eq]
      simp [eq]
  · cases parent with
    | none => rfl
    | some p => simp [slotuse_setChild]
  · obtain ⟨p, here, rfl⟩ := Option.map_eq_some_iff.mp there
    dsimp only
    rcases first p here with same | ⟨same, -⟩
    · rw [same]
      exact (bounded p here).trans more
    · rw [same]
      exact more
  · rw [Option.mem_def] at here
    rw [here] at there
    cases there
    rcases first p here with same | ⟨-, same⟩
    · exact .inl same
    · exact .inr (by rw [← leaf_none, same, gone])
  · rw [same, Function.update_of_ne old.ne', Function.update_self]

theorem splitLeafNode_moves {empty : HybridNode c.Key}
    {split : HybridNode c.Key → Option (HybridNode c.Key × HybridNode c.Key)}
    {maxKey : HybridNode c.Key → c.Key} {splitkey : c.Key} (old : a < s.fresh)
    (live : s.leaf a = some leaf)
    (run : splitLeafNode empty split maxKey s a leaf = some (s', splitkey, new)) :
    Moves s s' (fun _ => False) ∧ (s'.tailleaf = s.tailleaf ∨ s'.tailleaf = some new) ∧
    s'.leaf a ≠ none ∧ s'.leaf new ≠ none := by
  obtain ⟨small, large, -, fresh, rfl, same⟩ := splitLeafNode_contents old run
  obtain ⟨head, tail⟩ := splitLeafNode_ends run
  refine ⟨⟨fresh ▸ Nat.le_succ _, fun x lt => ?_, head⟩, tail, fun none => ?_, fun none => ?_⟩
  · rw [← leaf_none, ← leaf_none, same, Function.update_of_ne lt.ne, or_false]
    by_cases eq : x = a
    · rw [eq, Function.update_self, contents_of_leaf live]
      simp
    · rw [Function.update_of_ne eq]
  · rw [← leaf_none, same, Function.update_of_ne old.ne, Function.update_self] at none
    cases none
  · rw [← leaf_none, same, Function.update_self] at none
    cases none

-- The first plain leaf below an inner node, its last child left out.
def FirstPlain (s : Store (HybridNode c.Key)) (inner : InnerNode c.Key Ptr) (x : Ptr) : Prop :=
  ∃ i, i < inner.slotuse ∧ inner.childid i = x ∧ ¬ Blind s x ∧ ∀ j, j < i →
    Blind s (inner.childid j)

-- The leaf of the key when it is converted, and the leaf that the sweep converts.
def Compresses (status : HybridStatus) (s : Store (HybridNode c.Key)) (parent : Parent c)
    (a x : Ptr) : Prop :=
  (x = a ∧ ∃ leaf ∈ s.leaf a, leaf.node.Plain ∧ Converts status leaf) ∨
    status = .mustCompress ∧ Blind s a ∧ ∃ p ∈ parent, p.1.alreadycomprerss = false ∧
    FirstPlain s p.1 x

theorem transferBtreeNode_swapped (old : a < h.store.fresh) (bounded : Bounded parent h.store.fresh)
    (seat : Seat parent a)
    (run : transferBtreeNode blank type h parent a leaf slots = some (h', parent', new)) :
    Swapped h.store parent a leaf
      (transferSlots blank type leaf.slotuse slots) h'.store parent' new := by
  obtain ⟨⟨s, parent₁, new₁⟩, replace, same⟩ := Option.map_eq_some_iff.mp run
  simp only [Prod.mk.injEq] at same
  obtain ⟨rfl, rfl, rfl⟩ := same
  exact replaceLeaf_swapped old bounded seat replace

theorem FirstPlain.unique {y : Ptr} (first : FirstPlain s inner x)
    (second : FirstPlain s inner y) : x = y := by
  obtain ⟨i, _, rfl, plain, before⟩ := first
  obtain ⟨j, _, rfl, plain', before'⟩ := second
  rcases Nat.lt_trichotomy i j with lt | rfl | gt
  · exact absurd (before' i lt) plain
  · rfl
  · exact absurd (before j gt) plain'

theorem sweep_moves {slot : Nat} (below : ∀ x leaf, h.store.leaf x = some leaf → x < h.store.fresh)
    (bounded : Bounded (some (inner, slot)) h.store.fresh) (seat : Seat (some (inner, slot)) a)
    (blind : Blind h.store a) (run : sweep blank h inner = some (h', inner')) :
    Moves h.store h'.store (FirstPlain h.store inner) ∧
      Reparents (some (inner, slot)) h.store (some (inner', slot)) h'.store ∧ Seat
        (some (inner', slot)) a ∧
      h'.store.tailleaf = h.store.tailleaf ∧
      (a < h.store.fresh → contents h'.store a = contents h.store a) := by
  obtain ⟨found, first, sweeps⟩ := Option.bind_eq_some_iff.mp run
  have blinds := firstBtree_blind first
  obtain ⟨inside, place⟩ := seat _ rfl
  dsimp only at inside place
  cases found with
  | none =>
    simp only [Option.some.injEq, Prod.mk.injEq] at sweeps
    obtain ⟨rfl, rfl⟩ := sweeps
    have same : Reparents (some (inner, slot)) h.store
        (some ({ inner with alreadycomprerss := true }, slot)) h.store :=
      ⟨rfl, bounded, fun p' there => by cases there; exact bounded (inner, slot) rfl,
          fun p here p' there => by
        cases here
        cases there
        exact .inl rfl⟩
    refine ⟨(Moves.refl _).congr fun x _ => ⟨False.elim, ?_⟩, same, fun p there => ?_,
      rfl, fun _ => rfl⟩
    · rintro ⟨i, lt, rfl, plain, _⟩
      exact plain (blinds i (Nat.zero_le i) (by omega) (by simp))
    · cases there
      exact ⟨inside, place⟩
  | some entry =>
    obtain ⟨i, leaf₁, slots⟩ := entry
    obtain ⟨lt, live₁, plain⟩ := firstBtree_found first
    obtain ⟨⟨h₁, parent₁, new⟩, transfer, same⟩ := Option.map_eq_some_iff.mp sweeps
    simp only [Prod.mk.injEq] at same
    obtain ⟨rfl, rfl⟩ := same
    have seat₁ : Seat (some (inner, i)) (inner.childid i) := fun p at_ => by
      cases at_
      exact ⟨by dsimp only; omega, rfl⟩
    have here : FirstPlain h.store inner (inner.childid i) :=
      ⟨i, by omega, rfl, plain_of_btree live₁ plain,
          fun j lt' => blinds j (Nat.zero_le j) (by omega) fun found at_ => by
        cases at_
        exact lt'⟩
    have apart : a ≠ inner.childid i := by
      rintro rfl
      exact plain_of_btree live₁ plain blind
    have apart' : slot ≠ i := by
      rintro rfl
      exact apart place.symm
    have swapped := transferBtreeNode_swapped (below _ _ live₁)
      (fun p at_ => by cases at_; exact bounded (inner, slot) rfl) seat₁ transfer
    obtain ⟨moves, reparents, rfl, tail, -, -, -, others⟩ := swapped
    refine ⟨moves.congr fun x _ => ⟨fun same => same ▸ here, fun other => other.unique here⟩,
      ⟨?_, bounded, fun p' there => ?_,
      fun p at_ p' there => ?_⟩, fun p there => ?_, tail, fun lt' => others a lt' apart⟩
    · exact congrArg some (congrArg (·, slot) slotuse_setChild)
    · cases there
      exact reparents.bounded (inner.setChild i new, i) rfl
    · cases at_
      cases there
      exact reparents.first (inner, i) rfl (inner.setChild i new, i) rfl
    · cases there
      exact ⟨inside.trans_eq slotuse_setChild.symm,
        (childid_setChild_other inside apart').trans place⟩

/-- What the start of the leaf part leaves of leaf a: the leaf itself, or a new one that needs no
room. -/
structure Prepared (status : HybridStatus) (s : Store (HybridNode c.Key))
    (parent : Parent c) (a : Ptr) (s' : Store (HybridNode c.Key)) (parent' : Parent c)
    (a' : Ptr) : Prop where
  moves : Moves s s' (Compresses status s parent a)
  reparents : Reparents parent s parent' s'
  seat : Seat parent' a'
  tail : s'.tailleaf = s.tailleaf
  lt : a' < s'.fresh
  kind : a' = a ∧ contents s' a = contents s a ∨ s.fresh ≤ a' ∧ s.leaf a ≠ none ∧ ¬ Blind s a ∧
    ∃ slotuse type n, contents s' a' = some (slotuse, .blindi type n) ∧
    slotuse ≠ c.leafslotmax * type.size

theorem compress_prepared (splits : c.Splits)
    (below : ∀ x leaf, h.store.leaf x = some leaf → x < h.store.fresh)
    (bounded : Bounded parent h.store.fresh) (seat : Seat parent a)
    (run : compress blank status h parent a = some (h', parent', a')) :
    Prepared status h.store parent a h'.store parent' a' := by
  obtain ⟨leaf, live, next⟩ := Option.bind_eq_some_iff.mp run
  have old := below a leaf live
  have stays (nothing : ∀ x, ¬ Compresses status h.store parent a x)
    (same : some (h, parent, a) = some (h', parent', a')) :
      Prepared status h.store parent a h'.store parent' a' := by
    cases same
    exact ⟨(Moves.refl _).congr fun x _ => ⟨False.elim, nothing x⟩, bounded.reparents (.refl _),
      seat, rfl, old, .inl ⟨rfl, rfl⟩⟩
  cases node : leaf.node with
  | btree slots =>
    rw [node] at next
    dsimp only at next
    have plain := plain_of_btree live node
    by_cases converts : status = .mustCompress ∨ status = .shouldCompress ∧
      leaf.slotuse = c.leafslotmax
    · rw [if_pos converts] at next
      have room : leaf.slotuse ≠ c.leafslotmax *
          (if leaf.slotuse ≠ c.leafslotmax then BlindiLeafType.blindi1 else .blindi2).size := by
        have two := splits.leaf
        split_ifs with full
        · simpa [BlindiLeafType.size] using full
        · simp only [BlindiLeafType.size]
          omega
      have swapped := transferBtreeNode_swapped old bounded seat next
      have seat' := seat.reseat a'
      rw [← swapped.reseated] at seat'
      refine ⟨swapped.moves.congr fun x _ => ⟨?_, ?_⟩, swapped.reparents, seat',
        swapped.tail, swapped.lt,
        .inr ⟨swapped.old, by simp [live], plain, _, _, _, swapped.here, room⟩⟩
      · rintro rfl
        exact .inl ⟨rfl, leaf, live, by rw [node]; trivial, converts⟩
      · rintro (⟨same, -⟩ | ⟨-, blind, -⟩)
        · exact same
        · exact absurd blind plain
    · rw [if_neg converts] at next
      refine stays (fun x compresses => ?_) next
      rcases compresses with ⟨-, leaf', live', -, converts'⟩ | ⟨-, blind, -⟩
      · rw [Option.mem_def, live] at live'
        cases live'
        exact converts converts'
      · exact plain blind
  | blindi type n =>
    rw [node] at next
    dsimp only at next
    have notPlain : ¬ leaf.node.Plain := by rw [node]; exact id
    have blind : Blind h.store a := (blind_iff live).mpr notPlain
    have conversion (x : Ptr) (compresses : Compresses status h.store parent a x) :
      status = .mustCompress ∧
        ∃ p ∈ parent, p.1.alreadycomprerss = false ∧ FirstPlain h.store p.1 x := by
      rcases compresses with ⟨-, leaf', live', plain, -⟩ | ⟨must, -, sweeps⟩
      · rw [Option.mem_def, live] at live'
        cases live'
        exact absurd plain notPlain
      · exact ⟨must, sweeps⟩
    split_ifs at next with must
    · obtain ⟨⟨inner, slot⟩, rfl, next⟩ := Option.bind_eq_some_iff.mp next
      dsimp only at next
      split_ifs at next with flag
      · refine stays (fun x compresses => ?_) next
        obtain ⟨_, p, same, unset, _⟩ := conversion x compresses
        cases same
        rw [flag] at unset
        cases unset
      · obtain ⟨⟨h₁, inner'⟩, sweeps, same⟩ := Option.map_eq_some_iff.mp next
        simp only [Prod.mk.injEq] at same
        obtain ⟨rfl, rfl, rfl⟩ := same
        obtain ⟨moves, reparents, seat', tail, kept⟩ := sweep_moves below bounded seat blind sweeps
        refine ⟨moves.congr fun x _ => ⟨fun first => ?_, fun compresses => ?_⟩, reparents, seat',
          tail, old.trans_le moves.fresh,
          .inl ⟨rfl, kept old⟩⟩
        · exact .inr ⟨must, blind, _, rfl, by simpa using flag, first⟩
        · obtain ⟨_, p, same, _, first⟩ := conversion x compresses
          cases same
          exact first
    · refine stays (fun x compresses => ?_) next
      exact must (conversion x compresses).1

-- A full blindi leaf that can be extended.
def Extends (leaf : Leaf (HybridNode c.Key)) : Prop :=
  match leaf.node with
  | .btree _ => False
  | .blindi type _ => leaf.slotuse = c.leafslotmax * type.size ∧ type.extended ≠ none

/-- What the leaf part leaves of a leaf that has not been converted. -/
structure Settles (s : Store (HybridNode c.Key)) (parent : Parent c) (a : Ptr)
    (extends_ full : Prop) (s' : Store (HybridNode c.Key)) (parent' : Parent c) : Prop where
  moves : Moves s s' fun x => x = a ∧ extends_
  reparents : Reparents parent s parent' s'
  tail : s'.tailleaf = s.tailleaf ∨ full ∧ s'.leaf a ≠ none ∧ ∃ new, s'.tailleaf = some new ∧
    s'.leaf new ≠ none

theorem Settles.write {extends_ full : Prop} (settles : Settles s parent a extends_ full s' parent')
    (live : s'.leaf b ≠ none) :
    Settles s parent a extends_ full (s'.put b leaf) parent' := by
  have moves : Moves s' (s'.put b leaf) fun _ => False := put_moves live
  refine ⟨(settles.moves.trans moves).congr fun x _ => by simp,
    settles.reparents.trans (settles.reparents.bounded.reparents moves) settles.moves moves,
    settles.tail.imp_right ?_⟩
  have stays (x : Ptr) (here : s'.leaf x ≠ none) : (s'.put b leaf).leaf x ≠ none := by
    by_cases same : x = b
    · rw [same, put_self]
      simp
    · rwa [put_other same]
  rintro ⟨top, here, new, last, live'⟩
  exact ⟨top, stays a here, new, last, stays new live'⟩

theorem splitBtree_settles {target : Target c} (old : a < s.fresh)
    (bounded : Bounded parent s.fresh) (live : s.leaf a = some leaf)
    (run : splitBtree mem blank key s a leaf slots = some target) :
    Settles s parent a False True target.store parent := by
  unfold splitBtree at run
  dsimp only at run
  by_cases full : leaf.slotuse = c.leafslotmax
  · rw [if_pos full] at run
    obtain ⟨⟨s₁, splitkey, newleaf⟩, divide, eq⟩ := Option.map_eq_some_iff.mp run
    obtain ⟨moves, tail, here, new⟩ := splitLeafNode_moves old live divide
    have settles : Settles s parent a False True s₁ parent :=
      ⟨moves.congr fun x _ => by simp, bounded.reparents moves,
        tail.imp_right fun last => ⟨trivial, here, newleaf, last, new⟩⟩
    dsimp only at eq
    split_ifs at eq <;> exact eq ▸ settles
  · rw [if_neg full] at run
    cases run
    exact ⟨(Moves.refl _).congr fun x _ => by simp, bounded.reparents (.refl _), .inl rfl⟩

theorem insertBtree_settles {out : LeafOutcome (Heap c) c.Key Ptr (Iterator × Bool)}
    (old : a < h.store.fresh) (bounded : Bounded parent h.store.fresh)
    (live : h.store.leaf a = some leaf)
    (run : insertBtree mem blank key h parent a leaf slots = some out) :
    out.parent = parent.map Prod.fst ∧
    Settles h.store parent a False True out.state.store parent := by
  obtain ⟨target, split, next⟩ := Option.bind_eq_some_iff.mp run
  obtain ⟨leaf₁, live₁, write⟩ := Option.bind_eq_some_iff.mp next
  have settles := splitBtree_settles old bounded live split
  cases node : leaf₁.node with
  | btree slots =>
    rw [node] at write
    cases write
    exact ⟨rfl, settles.write (by simp [live₁])⟩
  | blindi type n =>
    rw [node] at write
    cases write

theorem makeRoom_settles {target : Target c} (old : a < s.fresh) (bounded : Bounded parent s.fresh)
    (seat : Seat parent a) (live : s.leaf a = some leaf) (blind : leaf.node = .blindi type n)
    (run : makeRoom mem blank key s parent a leaf type n = some (parent', target)) :
    Settles s parent a (Extends leaf)
      (leaf.slotuse = c.leafslotmax * type.size) target.store parent' := by
  have extends_ : Extends leaf ↔ leaf.slotuse = c.leafslotmax * type.size ∧
      type.extended ≠ none := by
    unfold Extends
    rw [blind]
  unfold makeRoom at run
  by_cases full : leaf.slotuse = c.leafslotmax * type.size
  · rw [if_pos full] at run
    cases extended : type.extended with
    | some wider =>
      rw [extended] at run
      obtain ⟨⟨s₁, parent₁, new⟩, replace, same⟩ := Option.map_eq_some_iff.mp run
      simp only [Prod.mk.injEq] at same
      obtain ⟨rfl, rfl⟩ := same
      have swapped := replaceLeaf_swapped old bounded seat replace
      exact ⟨swapped.moves.congr fun x _ => by simp [extends_, full, extended], swapped.reparents,
        .inl swapped.tail⟩
    | none =>
      rw [extended] at run
      obtain ⟨⟨s₁, splitkey, newleaf⟩, divide, next⟩ := Option.bind_eq_some_iff.mp run
      obtain ⟨moves, tail, here, new⟩ := splitLeafNode_moves old live divide
      have settles : Settles s parent a (Extends leaf) (leaf.slotuse =
          c.leafslotmax * type.size) s₁ parent :=
        ⟨moves.congr fun x _ => by simp [extends_, extended], bounded.reparents moves,
          tail.imp_right fun last => ⟨full, here, newleaf, last, new⟩⟩
      dsimp only at next
      split_ifs at next with high
      · cases next
        exact settles
      · obtain ⟨left, live₁, next⟩ := Option.bind_eq_some_iff.mp next
        cases node : left.node with
        | btree slots =>
          rw [node] at next
          cases next
        | blindi type' n' =>
          rw [node] at next
          cases next
          exact settles
  · rw [if_neg full] at run
    cases run
    exact ⟨(Moves.refl _).congr fun x _ => by simp [extends_, full],
      bounded.reparents (.refl _), .inl rfl⟩

theorem insertBlindi_settles {out : LeafOutcome (Heap c) c.Key Ptr (Iterator × Bool)}
    (old : a < h.store.fresh) (bounded : Bounded parent h.store.fresh) (seat : Seat parent a)
    (live : h.store.leaf a = some leaf) (blind : leaf.node = .blindi type n)
    (run : insertBlindi mem blank key h parent a leaf type n = some out) :
    ∃ parent', out.parent = parent'.map Prod.fst ∧
      Settles h.store parent a (Extends leaf)
        (leaf.slotuse = c.leafslotmax * type.size) out.state.store parent' := by
  obtain ⟨⟨parent', target⟩, room, next⟩ := Option.bind_eq_some_iff.mp run
  obtain ⟨leaf₁, live₁, write⟩ := Option.bind_eq_some_iff.mp next
  have settles := makeRoom_settles old bounded seat live blind room
  cases node : leaf₁.node with
  | btree slots =>
    rw [node] at write
    cases write
  | blindi type' n' =>
    rw [node] at write
    cases write
    exact ⟨parent', rfl, settles.write (by simp [live₁])⟩

-- The leaves that an insertion frees.
def FreesAt (status : HybridStatus) (s : Store (HybridNode c.Key)) (parent : Parent c)
    (a x : Ptr) : Prop :=
  Compresses status s parent a x ∨ x = a ∧ ∃ leaf ∈ s.leaf a, Extends leaf

theorem leafPart_moves {out : LeafOutcome (Heap c) c.Key Ptr (Iterator × Bool)} (splits : c.Splits)
    (below : ∀ x leaf, h.store.leaf x = some leaf → x < h.store.fresh)
    (bounded : Bounded parent h.store.fresh) (seat : Seat parent a)
    (run : leafPart mem blank status key h parent a = some out) :
    ∃ parent', out.parent = parent'.map Prod.fst ∧ Moves h.store out.state.store
      (FreesAt status h.store parent a) ∧
      Reparents parent h.store parent' out.state.store ∧
      (out.state.store.tailleaf = h.store.tailleaf ∨
        out.state.store.leaf a ≠ none ∧ ∃ new, out.state.store.tailleaf = some new ∧
        out.state.store.leaf new ≠ none) := by
  obtain ⟨⟨h₁, parent₁, a₁⟩, compress, next⟩ := Option.bind_eq_some_iff.mp run
  obtain ⟨leaf, live, insert⟩ := Option.bind_eq_some_iff.mp next
  obtain ⟨old₀, live₀, _⟩ := Option.bind_eq_some_iff.mp compress
  have prepared := compress_prepared splits below bounded seat compress
  have combine {extends_ full : Prop} {parent' : Parent c}
    (settles : Settles h₁.store parent₁ a₁ extends_ full out.state.store parent')
      (same : a₁ = a ∧ (extends_ ↔ Extends old₀) ∨ h.store.fresh ≤ a₁ ∧ ¬ full ∧ ¬ Extends old₀) :
      Moves h.store out.state.store (FreesAt status h.store parent a) ∧
      Reparents parent h.store parent' out.state.store ∧
      (out.state.store.tailleaf = h.store.tailleaf ∨
        out.state.store.leaf a ≠ none ∧ ∃ new, out.state.store.tailleaf = some new ∧
        out.state.store.leaf new ≠ none) := by
    refine ⟨(prepared.moves.trans settles.moves).congr fun x lt => or_congr_right ?_,
      prepared.reparents.trans settles.reparents prepared.moves settles.moves, ?_⟩
    · rw [live₀]
      rcases same with ⟨rfl, same⟩ | ⟨new, -, wide⟩
      · simp [same]
      · have ne : x ≠ a₁ := (lt.trans_le new).ne
        simp [ne, wide]
    · rcases settles.tail with tail | ⟨full_, here, last⟩
      · exact .inl (tail.trans prepared.tail)
      · rcases same with ⟨rfl, -⟩ | ⟨-, narrow, -⟩
        · exact .inr ⟨here, last⟩
        · exact absurd full_ narrow
  have here := contents_of_leaf live
  rcases prepared.kind with ⟨rfl, same⟩ | ⟨new, _, plain, slotuse, type', n', at_, room⟩
  · rw [here, contents_of_leaf live₀] at same
    simp only [Option.some.injEq, Prod.mk.injEq] at same
    have extends_ : Extends leaf ↔ Extends old₀ := by
      unfold Extends
      rw [same.1, same.2]
    cases node : leaf.node with
    | btree slots =>
      rw [node] at insert
      obtain ⟨parent, settles⟩ :=
        insertBtree_settles prepared.lt prepared.reparents.bounded live insert
      refine ⟨parent₁, parent, combine settles (.inl ⟨rfl, ?_⟩)⟩
      rw [← extends_, Extends, node]
    | blindi type n =>
      rw [node] at insert
      obtain ⟨parent', parent, settles⟩ :=
        insertBlindi_settles prepared.lt prepared.reparents.bounded prepared.seat live node insert
      exact ⟨parent', parent, combine settles (.inl ⟨rfl, extends_⟩)⟩
  · rw [here] at at_
    simp only [Option.some.injEq, Prod.mk.injEq] at at_
    obtain ⟨rfl, node⟩ := at_
    rw [node] at insert
    obtain ⟨parent', parent, settles⟩ :=
      insertBlindi_settles prepared.lt prepared.reparents.bounded prepared.seat live node insert
    refine ⟨parent', parent, combine settles (.inr ⟨new, room, ?_⟩)⟩
    rw [blind_iff live₀, not_not] at plain
    unfold Extends
    cases node₀ : old₀.node with
    | btree slots => exact id
    | blindi type n =>
      rw [node₀] at plain
      exact plain.elim

end ElasticIndex.Tree.Hybrid
