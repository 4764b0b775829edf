import ElasticIndex.Tree.HybridFrees

set_option autoImplicit false

namespace ElasticIndex.Tree.Hybrid

open Separators SeqTree LinkedRow

variable {c : Config} {mem : Addr → c.Key} {blank : SeqTreeBlindiNode} {t t' : HybridTree c}
  {stored : List c.Key} {key : Addr} {r : Iterator × Bool}
  {root : (level : Nat) × Node c.Key Ptr level}

-- The inner node above the leaf for a key, and the place of the leaf there.
def parentOf (key : c.Key) : ((level : Nat) × Node c.Key Ptr level) → Parent c
  | ⟨0, _⟩ => none
  | ⟨level + 1, node⟩ =>
    some (descendParent key level node, findLower (descendParent key level node).slotkey key)

-- The leaves that the insertion of a key frees.
def Frees (mem : Addr → c.Key) (t : HybridTree c) (key : Addr) (x : Ptr) : Prop :=
  ∃ root, t.root = some root ∧
    FreesAt t.stats.hybridstatus t.store (parentOf (mem key) root)
    (descend (mem key) root.1 root.2) x

theorem frees_iff (eq : t.root = some root) (x : Ptr) : Frees mem t key x ↔
    FreesAt t.stats.hybridstatus t.store (parentOf (mem key) root)
      (descend (mem key) root.1 root.2) x := by
  unfold Frees
  simp [eq]

/-- What an insertion does to the ends of the list of leaves. -/
structure Steps (mem : Addr → c.Key) (t : HybridTree c) (key : Addr)
    (t' : HybridTree c) : Prop where
  moves : Moves t.store t'.store (Frees mem t key)
  first : (cells t'.leaves).head? = (cells t.leaves).head? ∨ ∃ x, (cells t.leaves).head? = some x ∧
    t'.store.leaf x = none
  tail : t'.store.tailleaf = t.store.tailleaf ∨
    (∀ root, t.root = some root → t'.store.leaf (descend (mem key) root.1 root.2) ≠ none) ∧
    ∃ new, t'.store.tailleaf = some new ∧ t'.store.leaf new ≠ none
  last : ∀ x, (cells t.leaves).getLast? = some x → Frees mem t key x → ∃ root, t.root = some root ∧
    x = descend (mem key) root.1 root.2

-- The sweep does not come to the last child.
theorem last_child {low : WithBot c.Key} {inner : InnerNode c.Key Ptr} {front back : Row c.Key Ptr}
    (distinct : (cells (front ++ row low inner ++ back)).Nodup) {i : Nat} (lt : i < inner.slotuse) :
    (cells (front ++ row low inner ++ back)).getLast? ≠ some (inner.childid i) := by
  intro last
  obtain ⟨before, sep, after, eq, length⟩ := row_child low (le_refl inner.slotuse)
  have total := row_length low inner
  have short : after = [] := by
    rw [eq, List.length_append, List.length_cons, length] at total
    exact List.length_eq_zero_iff.mp (by omega)
  subst short
  obtain ⟨sep', here, -⟩ := row_getElem low inner lt.le
  rw [eq, List.getElem?_append_left (by omega)] at here
  have inside : inner.childid i ∈ cells before := List.mem_map_of_mem (List.mem_of_getElem? here)
  rw [eq, cells_append, cells_append, cells_append, cells_cons] at distinct last
  obtain ⟨left, -, apart⟩ := List.nodup_append.mp distinct
  have parts := (List.nodup_append.mp (List.nodup_append.mp left).2.1).2.2
  cases rest : cells back with
  | nil =>
    rw [rest, List.append_nil, List.getLast?_append_of_ne_nil _ (by simp),
      List.getLast?_append_of_ne_nil _ (by simp)] at last
    exact parts _ inside _ (by simpa [cells] using last.symm) rfl
  | cons b more =>
    rw [List.getLast?_append_of_ne_nil _ (by simp [rest])] at last
    exact apart _ (by simp [inside]) _ (List.mem_of_getLast? last) rfl

theorem Reached.steps (splits : c.Splits) (reached : Reached mem blank t stored)
    (eq : t.root = some root) (run : t.insert mem blank key = some (t', r)) :
    Steps mem t key t' := by
  obtain ⟨⟨used, accounts, place⟩, -⟩ := reached.built.accounted splits
  have stands : ¬ Dangling t := fun dangling => by
    rw [dangling.stuck] at run
    cases run
  have perm := place.resolve_left stands
  have below (x : Ptr) (leaf : Leaf (HybridNode c.Key)) (live : t.store.leaf x = some leaf) :
      x < t.store.fresh :=
    accounts.below x ((accounts.listed x).mpr ⟨_, contents_of_leaf live⟩)
  have old (x : Ptr) (inside : x ∈ cells t.leaves) : x < t.store.fresh :=
    accounts.below x (perm.symm.subset inside)
  obtain ⟨h', node', newchild, descends, root', store, -⟩ := HybridTree.insert_run eq run
  have leaves : t.leaves = Tree.leaves root.1 ⊥ root.2 := by rw [HybridTree.leaves, eq]
  have leaves' : t'.leaves = (splitRow ⊥ node' newchild).flatMap fun e =>
      Tree.leaves root.1 e.1 e.2 := by
    rw [HybridTree.leaves, root']
    exact leaves_growRoot node' newchild
  obtain ⟨level, node⟩ := root
  cases level with
  | zero =>
    obtain ⟨out, leaf, same⟩ := Option.map_eq_some_iff.mp descends
    simp only [Prod.mk.injEq] at same
    obtain ⟨rfl, rfl, rfl, -⟩ := same
    obtain ⟨parent', -, moves, -, tail⟩ :=
      leafPart_moves splits (h := { store := t.store, btreeleaves := _, breathingSum := _ }) below
      (fun p none => (by cases none)) (fun p none => (by cases none)) leaf
    rw [← store] at moves tail
    refine ⟨moves.congr fun x _ => (frees_iff eq x).symm, .inl ?_,
      tail.imp_right fun both => ⟨fun root same => ?_, both.2⟩,
      fun x last _ => ⟨_, eq, ?_⟩⟩
    · rw [leaves, leaves']
      rfl
    · rw [eq] at same
      cases same
      exact both.1
    · rw [leaves] at last
      exact (Option.some.inj last).symm
  | succ level =>
    obtain ⟨before, sep, inner, after, out, l, split, whole, parent, leaf, rfl, add, rows⟩ :=
      insertDescend_row splits.inner level ⊥ descends
    have inside : findLower inner.slotkey (mem key) ≤ inner.slotuse := by
      simpa [InnerNode.slotkey, InnerNode.slotuse] using findLower_le inner.slotkey (mem key)
    have row_eq : t.leaves = children before ++ row sep inner ++ children after := by
      rw [leaves]
      exact ((leaves_eq level ⊥ node).trans (congrArg _ whole)).trans
        (children_middle before after sep inner)
    have seat : Seat (some (inner, findLower inner.slotkey (mem key)))
        (inner.childid (findLower inner.slotkey (mem key))) := fun p at_ => by
      cases at_
      exact ⟨inside, rfl⟩
    have bounded : Bounded (some (inner, findLower inner.slotkey (mem key))) t.store.fresh :=
        fun p at_ => by
      cases at_
      exact old _ (by rw [row_eq, cells_append, cells_append]; simp [row, cells])
    obtain ⟨parent', same, moves, reparents, tail⟩ := leafPart_moves splits
      (h := { store := t.store, btreeleaves := _, breathingSum := _ }) below bounded seat leaf
    obtain ⟨⟨inner', slot⟩, rfl, shape⟩ := Option.map_eq_some_iff.mp reparents.shape
    simp only [Prod.mk.injEq] at shape
    obtain ⟨uses, rfl⟩ := shape
    obtain ⟨front, low, back, eq', length⟩ := row_child sep (inside.trans_eq uses.symm)
    obtain ⟨l₁, r₁, add₁, rows₁, _⟩ := addNewchild_row splits.inner eq' out.split
    rw [same, ← length] at add
    have added := add.symm.trans add₁
    simp only [Option.some.injEq, Prod.mk.injEq] at added
    obtain ⟨rfl, rfl⟩ := added
    have spread : (fun e : WithBot c.Key × Node c.Key Ptr (level + 1) =>
      Tree.leaves (level + 1) e.1 e.2) =
        fun e => (parents level e.1 e.2).flatMap fun e => row e.1 e.2 :=
        funext fun e => leaves_eq level e.1 e.2
    rw [spread, ← List.flatMap_assoc, rows, List.flatMap_append, List.flatMap_append, rows₁]
      at leaves'
    have start : (cells (front ++ splitRow low (inner'.childid (findLower inner.slotkey (mem key)))
        out.split ++ back)).head? = some inner'.first := by
      have first := congrArg (fun r => (cells r).head?) eq'
      cases front with
      | nil => exact first.symm
      | cons e front => exact first.symm
    have descends := descend_descendParent (mem key) level node
    rw [← parent] at descends
    have freed (x : Ptr) :
      FreesAt t.stats.hybridstatus t.store (some (inner, findLower inner.slotkey (mem key)))
        (inner.childid (findLower inner.slotkey (mem key))) x ↔ Frees mem t key x := by
      rw [frees_iff eq, parentOf, ← parent]
      dsimp only
      rw [descends]
    rw [← store] at moves reparents tail
    refine ⟨moves.congr fun x _ => freed x, ?_, tail.imp_right fun both =>
      ⟨fun root same => ?_, both.2⟩,
      fun x last frees => ⟨_, eq, ?_⟩⟩
    · rw [leaves', row_eq]
      cases before with
      | nil =>
        change (cells ((front ++ splitRow low (inner'.childid (findLower inner.slotkey (mem key)))
          out.split ++ back) ++ _)).head? =
          some inner.first ∨ ∃ x, some inner.first = some x ∧ t'.store.leaf x = none
        rw [cells_append, List.head?_append, start]
        exact (reparents.first _ rfl _ rfl).imp (congrArg some) fun gone => ⟨_, rfl, gone⟩
      | cons e before => exact .inl rfl
    · rw [eq] at same
      cases same
      rw [descends]
      exact both.1
    · dsimp only
      rw [descends]
      rcases (freed x).mpr frees with (⟨same, -⟩ | ⟨-, -, p, at_, -, first⟩) | ⟨same, -⟩
      · exact same
      · cases at_
        obtain ⟨i, lt, rfl, _⟩ := first
        have distinct := perm.nodup accounts.distinct
        rw [row_eq] at last distinct
        exact absurd last (last_child distinct lt)
      · exact same

-- m_headleaf is the first leaf, or one that is gone.
def HeadSafe (t : HybridTree c) : Prop :=
  ∀ x, t.store.headleaf = some x → x < t.store.fresh ∧
    (t.store.leaf x ≠ none → (cells t.leaves).head? = some x)

theorem empty_steps (splits : c.Splits)
    (run : (HybridTree.empty c).insert mem blank key = some (t', r)) :
    t'.store.headleaf = some 1 ∧ t'.store.tailleaf = some 1 ∧ t'.store.leaf 1 ≠ none ∧ HeadSafe t' ∧
    t'.root = some ⟨0, 1⟩ := by
  have two := splits.leaf
  obtain ⟨stats, _, _, _, first⟩ := empty_insert mem blank (show 0 < c.leafslotmax by omega) key
  have same := first.symm.trans run
  simp only [Option.some.injEq, Prod.mk.injEq] at same
  obtain ⟨rfl, -⟩ := same
  refine ⟨rfl, rfl, by simp, fun x head => ?_, rfl⟩
  obtain rfl : 1 = x := Option.some.inj head
  exact ⟨Nat.one_lt_two, fun _ => rfl⟩

theorem Steps.headSafe (steps : Steps mem t key t') (safe : HeadSafe t) : HeadSafe t' := by
  intro x head
  rw [steps.moves.head] at head
  obtain ⟨lt, first⟩ := safe x head
  refine ⟨lt.trans_le steps.moves.fresh, fun live => ?_⟩
  have live₀ : t.store.leaf x ≠ none := fun gone => live (steps.moves.gone lt gone)
  rcases steps.first with same | ⟨y, at_, gone⟩
  · rw [same]
    exact first live₀
  · rw [first live₀] at at_
    cases at_
    exact absurd gone live

theorem Reached.headSafe (splits : c.Splits)
    (reached : Reached mem blank t stored) : HeadSafe t := by
  induction reached with
  | empty => exact fun x none => (by cases none)
  | @insert t t' stored key r reached _ run ih =>
    cases eq : t.root with
    | none =>
      rw [(reached.built.accounted splits).2 eq] at run
      exact (empty_steps splits run).2.2.2.1
    | some root => exact (reached.steps splits eq run).headSafe ih

theorem Config.Fits.splits (fits : c.Fits) : c.Splits :=
  ⟨by have := fits.slots; omega, fits.inner, fits.small⟩

/-- The leaves below the root are live, m_headleaf and m_tailleaf are the first and the last of
them, the links lead through all of them both ways, and ++ from begin() to end() reads the stored
keys in order. -/
structure Chained (mem : Addr → c.Key) (t : HybridTree c) (stored : List c.Key) : Prop where
  live : ∀ a ∈ cells t.leaves, t.store.leaf a ≠ none
  head : t.store.headleaf = (cells t.leaves).head?
  tail : t.store.tailleaf = (cells t.leaves).getLast?
  forward : Visits (fun a => (t.store.links a).map Prod.snd) t.store.headleaf (cells t.leaves)
  backward : Visits (fun a => (t.store.links a).map Prod.fst) t.store.tailleaf
    (cells t.leaves).reverse
  walk : ∃ keys, Walks (HybridNode.keys mem) t.store t.store.begin_ keys ∧ keys.Pairwise (· < ·) ∧
    ∀ k, k ∈ keys ↔ k ∈ stored

theorem chained_empty : Chained mem (.empty c) [] :=
  ⟨fun _ inside => absurd inside List.not_mem_nil, rfl, rfl, .null, .null, [], .stop rfl,
    .nil, fun _ => Iff.rfl⟩

theorem leaves_nonempty (eq : t.root = some root) : t.leaves ≠ [] := by
  obtain ⟨d, rest, starts⟩ := starts_leaves root.1 (⊥, root.2)
  rw [HybridTree.leaves, eq]
  dsimp only at starts ⊢
  rw [starts]
  exact List.cons_ne_nil _ _

theorem Reached.chained (fits : c.Fits) (reached : Reached mem blank t stored) {x y : Ptr}
    (head : t.store.headleaf = some x) (first : t.store.leaf x ≠ none)
    (tail : t.store.tailleaf = some y) (last : t.store.leaf y ≠ none) :
    Chained mem t stored := by
  have start := (reached.headSafe fits.splits x head).2 first
  have some_ : t.leaves ≠ [] := by
    intro none
    rw [none] at start
    cases start
  have nonempty : t.root ≠ none := by
    intro none
    rw [HybridTree.leaves, none] at some_
    exact some_ rfl
  have stands : ¬ Dangling t := by
    rintro ⟨a, root, gone⟩
    rw [HybridTree.leaves, root] at start
    cases start
    exact first gone
  obtain ⟨known, -, either⟩ := reached.keeps fits
  have keeps := either.resolve_right stands
  have good := keeps.good nonempty
  obtain ⟨⟨used, accounts, place⟩, -⟩ := reached.built.accounted fits.splits
  have perm := place.resolve_left stands
  have inside : y ∈ cells t.leaves := by
    obtain ⟨leaf, live⟩ := Option.ne_none_iff_exists'.mp last
    exact perm.subset ((accounts.listed y).mpr ⟨_, contents_of_leaf live⟩)
  have stop := (keeps.tail y tail).2 inside
  have head' := head.trans start.symm
  have tail' := tail.trans stop.symm
  refine ⟨fun a here => ?_, head', tail', ?_, ?_, _,
    good.walks_begin counted_hybrid some_ head' tail',
    good.tight.sorted good.tight.ascending, fun k => (keeps.keys k).symm⟩
  · obtain ⟨leaf, live, _⟩ := good.live a here
    simp [live]
  · rw [head']
    exact good.linked.forward
  · rw [tail']
    exact good.linked.backward

-- The insertion frees neither the first nor the last leaf.
def Spares (mem : Addr → c.Key) (t : HybridTree c) (key : Addr) : Prop :=
  ∀ x, Frees mem t key x → t.store.headleaf ≠ some x ∧ t.store.tailleaf ≠ some x

inductive SparingRun (mem : Addr → c.Key) (blank : SeqTreeBlindiNode) :
    HybridTree c → List c.Key → Prop where
  | empty : SparingRun mem blank (.empty c) []
  | insert {t t' : HybridTree c} {stored : List c.Key} {key : Addr} {r : Iterator × Bool} :
    SparingRun mem blank t stored →
    mem key ∉ stored → Spares mem t key → t.insert mem blank key = some (t', r) →
    SparingRun mem blank t' (mem key :: stored)

theorem SparingRun.reached (run : SparingRun mem blank t stored) : Reached mem blank t stored := by
  induction run with
  | empty => exact .empty
  | insert _ missing _ insert ih => exact ih.insert missing insert

theorem Chained.insert (fits : c.Fits) (reached : Reached mem blank t stored)
    (chained : Chained mem t stored) (missing : mem key ∉ stored)
    (run : t.insert mem blank key = some (t', r)) :
    Chained mem t' (mem key :: stored) ↔ Spares mem t key := by
  have reached' := reached.insert missing run
  cases eq : t.root with
  | none =>
    have same := (reached.built.accounted fits.splits).2 eq
    rw [same] at run
    obtain ⟨head, tail, live, -, -⟩ := empty_steps fits.splits run
    refine ⟨fun _ x frees => ?_, fun _ => reached'.chained fits head live tail live⟩
    obtain ⟨root, some_, _⟩ := frees
    rw [eq] at some_
    cases some_
  | some root =>
    have steps := reached.steps fits.splits eq run
    have ends {x : Ptr} (inside : x ∈ cells t.leaves) : x < t.store.fresh ∧
        t.store.leaf x ≠ none := by
      have live := chained.live x inside
      obtain ⟨leaf, here⟩ := Option.ne_none_iff_exists'.mp live
      obtain ⟨⟨used, accounts, -⟩, -⟩ := reached.built.accounted fits.splits
      exact ⟨accounts.below x ((accounts.listed x).mpr ⟨_, contents_of_leaf here⟩), live⟩
    have some_ : cells t.leaves ≠ [] := fun none => leaves_nonempty eq (List.map_eq_nil_iff.mp none)
    have head := chained.head.trans (List.head?_eq_some_head some_)
    have tail := chained.tail.trans (List.getLast?_eq_some_getLast some_)
    have first := ends (List.head_mem some_)
    have last := ends (List.getLast_mem some_)
    constructor
    · intro chained' z frees
      have gone {x : Ptr} (old : x < t.store.fresh) (frees : Frees mem t key x) : x ∉
          cells t'.leaves := fun inside =>
        chained'.live x inside ((steps.moves.freed x old).mpr (.inr frees))
      refine ⟨fun same => ?_, fun same => ?_⟩
      · obtain rfl := Option.some.inj (head.symm.trans same)
        have head' := chained'.head.symm.trans (steps.moves.head.trans head)
        exact gone first.1 frees (List.mem_of_head? head')
      · obtain rfl := Option.some.inj (tail.symm.trans same)
        rcases steps.tail with same | ⟨kept, -⟩
        · have tail' := chained'.tail.symm.trans (same.trans tail)
          exact gone last.1 frees (List.mem_of_getLast? tail')
        · obtain ⟨root', eq', here⟩ := steps.last _ (List.getLast?_eq_some_getLast some_) frees
          exact kept root' eq' (here ▸ (steps.moves.freed _ last.1).mpr (.inr frees))
    · intro spares
      have stays {x : Ptr} (live : x < t.store.fresh ∧ t.store.leaf x ≠ none)
          (kept : ¬ Frees mem t key x) : t'.store.leaf x ≠ none :=
        fun gone => ((steps.moves.freed x live.1).mp gone).elim live.2 kept
      have head' := steps.moves.head.trans head
      have first' := stays first fun frees => (spares _ frees).1 head
      rcases steps.tail with same | ⟨-, new, tail', last'⟩
      · exact reached'.chained fits head' first' (same.trans tail)
          (stays last fun frees => (spares _ frees).2 tail)
      · exact reached'.chained fits head' first' tail' last'

-- As long as no insertion frees the first or the last leaf, and no longer.
theorem chain_stands (fits : c.Fits) (run : SparingRun mem blank t stored) : Chained mem t stored ∧
    ∀ (key : Addr) (t' : HybridTree c) (r : Iterator × Bool), mem key ∉ stored →
    t.insert mem blank key = some (t', r) →
      (Chained mem t' (mem key :: stored) ↔ Spares mem t key) := by
  have chained : Chained mem t stored := by
    induction run with
    | empty => exact chained_empty
    | insert run missing spares insert ih =>
      exact (ih.insert fits run.reached missing insert).mpr spares
  exact ⟨chained, fun key t' r missing insert => chained.insert fits run.reached missing insert⟩

section Sample

instance decidableConverts (status : HybridStatus) (leaf : Leaf (HybridNode c.Key)) :
    Decidable (Converts status leaf) :=
  inferInstanceAs (Decidable (_ ∨ _))

instance decidableExtends (leaf : Leaf (HybridNode c.Key)) : Decidable (Extends leaf) :=
  match eq : leaf.node with
  | .btree _ => .isFalse (by simp [Extends, eq])
  | .blindi type _ =>
    decidable_of_iff (leaf.slotuse = c.leafslotmax * type.size ∧ type.extended ≠
      none) (by simp [Extends, eq])

instance decidableFirstPlain (s : Store (HybridNode c.Key)) (inner : InnerNode c.Key Ptr)
    (x : Ptr) : Decidable (FirstPlain s inner x) :=
  inferInstanceAs (Decidable (∃ i, i < inner.slotuse ∧ inner.childid i = x ∧ ¬ Blind s x ∧
    ∀ j, j < i → Blind s (inner.childid j)))

instance decidableCompresses (status : HybridStatus) (s : Store (HybridNode c.Key))
    (parent : Parent c) (a x : Ptr) :
    Decidable (Compresses status s parent a x) :=
  inferInstanceAs (Decidable (_ ∨ _))

instance decidableFreesAt (status : HybridStatus) (s : Store (HybridNode c.Key))
    (parent : Parent c) (a x : Ptr) :
    Decidable (FreesAt status s parent a x) :=
  inferInstanceAs (Decidable (_ ∨ _))

instance decidableFrees (mem : Addr → c.Key) (t : HybridTree c) (key : Addr) (x : Ptr) :
    Decidable (Frees mem t key x) :=
  match eq : t.root with
  | none => .isFalse (by simp [Frees, eq])
  | some _ => decidable_of_iff _ (frees_iff eq x).symm

theorem spares_iff : Spares mem t key ↔ ∀ x ∈ t.store.headleaf.toList ++ t.store.tailleaf.toList,
    ¬ Frees mem t key x := by
  simp only [Spares, List.mem_append, Option.mem_toList]
  exact ⟨fun spares x either frees => either.elim (spares x frees).1 (spares x frees).2,
    fun all x frees => ⟨fun head => all x (.inl head) frees, fun tail => all x (.inr tail) frees⟩⟩

instance decidableSpares (mem : Addr → c.Key) (t : HybridTree c) (key : Addr) :
    Decidable (Spares mem t key) :=
  decidable_of_iff _ spares_iff.symm

-- A full leaf in the middle is converted.
theorem chain_stands_sample : ∃ t stored, SparingRun sampleMem SeqTree.sampleNode t stored ∧
    (∃ a ∈ cells t.leaves, Blind t.store a) ∧ Chained sampleMem t stored := by
  have blind : ((sampleRun (fun t key => decide (Spares sampleMem t key))
      (sampleKeys ++ [73, 74])).map fun t =>
      (cells t.leaves).any fun a => decide (Blind t.store a)) = some true := by decide +kernel
  obtain ⟨t, run, found⟩ := Option.map_eq_some_iff.mp blind
  have sparing := insertAll_run (R := SparingRun sampleMem SeqTree.sampleNode)
    (fun t t' stored key r start ok missing insert =>
      start.insert missing (of_decide_eq_true ok) insert) .empty (by decide) run
  obtain ⟨a, inside, is_blind⟩ := List.any_eq_true.mp found
  exact ⟨t, _, sparing, ⟨a, inside, of_decide_eq_true is_blind⟩,
    (chain_stands sampleConfig_fits sparing).1⟩

-- The first leaf is converted, and m_headleaf goes on pointing to the one that has been freed.
theorem chain_breaks : ∃ t stored, Reached sampleMem SeqTree.sampleNode t stored ∧
    ¬ Chained sampleMem t stored := by
  have stale : ((sampleRun (fun _ _ => true) (sampleKeys ++ [200, 1, 2, 3, 4, 5, 6])).map fun t =>
      decide (t.store.headleaf = (cells t.leaves).head?)) = some false := by decide +kernel
  obtain ⟨t, run, differs⟩ := Option.map_eq_some_iff.mp stale
  have reached := insertAll_run (R := Reached sampleMem SeqTree.sampleNode)
    (fun t t' stored key r start ok missing insert => start.insert missing insert)
      .empty (by decide) run
  exact ⟨t, _, reached, fun chained => of_decide_eq_false differs chained.head⟩

end Sample

end ElasticIndex.Tree.Hybrid
