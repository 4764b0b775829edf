import ElasticIndex.Shared.SequenceEdit

set_option autoImplicit false

namespace CartesianTree

open SequenceEdit

structure StrictMin (b : Nat → Nat) (lo hi m : Nat) : Prop where
  left : lo ≤ m
  right : m < hi
  least : ∀ t, lo ≤ t → t < hi → t ≠ m → b m < b t

theorem StrictMin.unique {b : Nat → Nat} {lo hi m m' : Nat} (h : StrictMin b lo hi m)
    (g : StrictMin b lo hi m') : m = m' := by
  by_contra ne
  have lt := h.least m' g.left g.right (Ne.symm ne)
  have gt := g.least m h.left h.right ne
  omega

theorem StrictMin.narrow {b : Nat → Nat} {lo hi m lo' hi' : Nat} (h : StrictMin b lo hi m)
    (left : lo ≤ lo') (right : hi' ≤ hi) (after : lo' ≤ m) (before : m < hi') :
    StrictMin b lo' hi' m :=
  ⟨after, before, fun t ht ht' ne => h.least t (by omega) (by omega) ne⟩

theorem StrictMin.le {b : Nat → Nat} {lo hi m t : Nat} (h : StrictMin b lo hi m)
    (left : lo ≤ t) (right : t < hi) : b m ≤ b t := by
  by_cases same : t = m
  · simp [same]
  · exact (h.least t left right same).le

theorem StrictMin.congr {b c : Nat → Nat} {lo hi m : Nat} (h : StrictMin b lo hi m)
    (same : ∀ t, lo ≤ t → t < hi → c t = b t) : StrictMin c lo hi m :=
  ⟨h.left, h.right, fun t ht ht' ne => by
    rw [same m h.left h.right, same t ht ht']; exact h.least t ht ht' ne⟩

-- The least value so far against the next one.
theorem StrictMin.extend {b : Nat → Nat} {lo i m m' : Nat} (h : StrictMin b lo i m)
    (whole : StrictMin b lo (i + 1) m') :
    (if b i < b m then i else m) = m' := by
  have := h.left
  have := h.right
  have := whole.left
  have := whole.right
  by_cases last : m' = i
  · subst last
    rw [if_pos (whole.least m (by omega) (by omega) (by omega))]
  · obtain rfl := h.unique (whole.narrow le_rfl (by omega) (by omega) (by omega))
    have := whole.least i (by omega) (by omega) (by omega)
    rw [if_neg (by omega)]

-- A least value seen from position o on.
theorem StrictMin.window {b : Nat → Nat} {lo hi m o lo' hi' : Nat} (h : StrictMin b lo hi m)
    (left : lo ≤ o + lo') (right : o + hi' ≤ hi) (after : o + lo' ≤ m) (before : m < o + hi') :
    StrictMin (fun i => b (o + i)) lo' hi' (m - o) := by
  refine ⟨by omega, by omega, fun t ht ht' ne => ?_⟩
  have least := h.least (o + t) (by omega) (by omega) (by omega)
  rwa [Nat.add_sub_cancel' (by omega)]

instance (b : Nat → Nat) (lo hi m : Nat) : Decidable (StrictMin b lo hi m) :=
  decidable_of_iff (lo ≤ m ∧ m < hi ∧ ∀ t, t < hi → lo ≤ t → t ≠ m → b m < b t)
    ⟨fun h => ⟨h.1, h.2.1, fun t ht ht' => h.2.2 t ht' ht⟩,
      fun h => ⟨h.left, h.right, fun t ht ht' => h.least t ht' ht⟩⟩

/-- Binary trees of positions; a missing child is an empty range. -/
inductive PosTree where
  | nil
  | node (left : PosTree) (pos : Nat) (right : PosTree)
  deriving DecidableEq, Repr

namespace PosTree

def root : PosTree → Option Nat
  | .nil => none
  | .node _ m _ => some m

def child : Bool → PosTree → PosTree
  | _, .nil => .nil
  | false, .node l _ _ => l
  | true, .node _ _ r => r

-- A path lists the turns from the root, false for left.
def sub : PosTree → List Bool → PosTree
  | t, [] => t
  | t, d :: ds => (t.child d).sub ds

@[simp] theorem sub_nil (t : PosTree) : t.sub [] = t := rfl

@[simp] theorem sub_cons (t : PosTree) (d : Bool) (ds : List Bool) :
    t.sub (d :: ds) = (t.child d).sub ds := rfl

@[simp] theorem child_nil (d : Bool) : child d .nil = .nil := by cases d <;> rfl

@[simp] theorem child_false (l r : PosTree) (m : Nat) : child false (.node l m r) = l := rfl

@[simp] theorem child_true (l r : PosTree) (m : Nat) : child true (.node l m r) = r := rfl

@[simp] theorem root_nil : root .nil = none := rfl

@[simp] theorem root_node (l r : PosTree) (m : Nat) : root (.node l m r) = some m := rfl

@[simp] theorem nil_sub (p : List Bool) : sub .nil p = .nil := by
  induction p with
  | nil => rfl
  | cons d ds ih => simpa using ih

theorem sub_append (t : PosTree) (p q : List Bool) : t.sub (p ++ q) = (t.sub p).sub q := by
  induction p generalizing t with
  | nil => rfl
  | cons d ds ih => simpa using ih (t.child d)

theorem sub_snoc (t : PosTree) (p : List Bool) (d : Bool) : t.sub (p ++ [d]) =
    (t.sub p).child d := by
  simp [sub_append]

def map (f : Nat → Nat) : PosTree → PosTree
  | .nil => .nil
  | .node l m r => .node (l.map f) (f m) (r.map f)

@[simp] theorem root_map (f : Nat → Nat) (t : PosTree) : (t.map f).root = t.root.map f := by
  cases t <;> rfl

theorem child_map (f : Nat → Nat) (t : PosTree) (d : Bool) : (t.map f).child d =
    (t.child d).map f := by
  cases t <;> cases d <;> rfl

theorem sub_map (f : Nat → Nat) (t : PosTree) (p : List Bool) :
    (t.map f).sub p = (t.sub p).map f := by
  induction p generalizing t with
  | nil => rfl
  | cons d ds ih => simp only [sub_cons, child_map, ih]

-- Replace the subtree at the end of a path.
def modify (f : PosTree → PosTree) : List Bool → PosTree → PosTree
  | [], t => f t
  | _ :: _, .nil => .nil
  | false :: ds, .node l m r => .node (modify f ds l) m r
  | true :: ds, .node l m r => .node l m (modify f ds r)

theorem sub_modify_below (f : PosTree → PosTree) (q rest : List Bool) (t : PosTree)
    (above : ∀ p d ds, q = p ++ d :: ds → t.sub p ≠ .nil) :
    (modify f q t).sub (q ++ rest) = (f (t.sub q)).sub rest := by
  induction q generalizing t with
  | nil => rfl
  | cons d ds ih =>
    have present := above [] d ds rfl
    have next (p : List Bool) (e : Bool) (es : List Bool) (same : ds = p ++ e :: es) :
        (t.child d).sub p ≠ .nil := by
      have := above (d :: p) e es (by simp [same])
      simpa using this
    cases t with
    | nil => exact absurd rfl present
    | node l m r =>
      cases d with
      | false => simpa [modify] using ih l next
      | true => simpa [modify] using ih r next

theorem root_modify_aside (f : PosTree → PosTree) (q p : List Bool) (t : PosTree)
    (aside : ¬ q <+: p) : ((modify f q t).sub p).root = (t.sub p).root := by
  induction q generalizing t p with
  | nil => exact absurd List.nil_prefix aside
  | cons d ds ih =>
    cases t with
    | nil => simp [modify]
    | node l m r =>
      cases p with
      | nil => cases d <;> simp [modify]
      | cons e es =>
        by_cases turn : d = e
        · subst turn
          have later : ¬ ds <+: es := by
            intro h
            exact aside (by simpa [List.cons_prefix_cons] using h)
          cases d with
          | false => simpa [modify] using ih es l later
          | true => simpa [modify] using ih es r later
        · cases d <;> cases e <;> simp_all [modify]

end PosTree

open PosTree

/-- The tree over [lo, hi) whose root is the position of the least value. -/
inductive IsCartesian (b : Nat → Nat) : Nat → Nat → PosTree → Prop where
  | nil {lo hi : Nat} : hi ≤ lo → IsCartesian b lo hi .nil
  | node {lo hi m : Nat} {l r : PosTree} : StrictMin b lo hi m → IsCartesian b lo m l →
      IsCartesian b (m + 1) hi r → IsCartesian b lo hi (.node l m r)

def decideCartesian (b : Nat → Nat) : (lo hi : Nat) → (t : PosTree) →
    Decidable (IsCartesian b lo hi t)
  | lo, hi, .nil => decidable_of_iff (hi ≤ lo) ⟨.nil, fun h => by cases h; assumption⟩
  | lo, hi, .node l m r =>
    have := decideCartesian b lo m l
    have := decideCartesian b (m + 1) hi r
    decidable_of_iff (StrictMin b lo hi m ∧ IsCartesian b lo m l ∧ IsCartesian b (m + 1) hi r)
      ⟨fun h => .node h.1 h.2.1 h.2.2, fun h => by cases h with | node min l r => exact ⟨min, l, r⟩⟩

instance (b : Nat → Nat) (lo hi : Nat) (t : PosTree) : Decidable (IsCartesian b lo hi t) :=
  decideCartesian b lo hi t

theorem IsCartesian.congr {b c : Nat → Nat} {lo hi : Nat} {t : PosTree} (h : IsCartesian b lo hi t)
    (same : ∀ i, lo ≤ i → i < hi → c i = b i) : IsCartesian c lo hi t := by
  induction h with
  | nil le => exact .nil le
  | node min _ _ ihl ihr =>
    exact .node (min.congr same)
      (ihl fun i h1 h2 => same i h1 (by have := min.right; omega))
      (ihr fun i h1 h2 => same i (by have := min.left; omega) h2)

theorem IsCartesian.unique {b : Nat → Nat} {lo hi : Nat} {t t' : PosTree}
    (h : IsCartesian b lo hi t) (g : IsCartesian b lo hi t') : t = t' := by
  induction h generalizing t' with
  | nil le =>
    cases g with
    | nil => rfl
    | node min => have := min.left; have := min.right; omega
  | node min _ _ ihl ihr =>
    cases g with
    | nil => have := min.left; have := min.right; omega
    | node min' l r =>
      obtain rfl := min.unique min'
      rw [ihl l, ihr r]

theorem IsCartesian.sub_bounds {b : Nat → Nat} {lo hi m : Nat} {t : PosTree}
    (h : IsCartesian b lo hi t) {p : List Bool} (at_ : (t.sub p).root = some m) :
    lo ≤ m ∧ m < hi := by
  induction h generalizing p with
  | nil => simp at at_
  | node min _ _ ihl ihr =>
    have := min.left
    have := min.right
    cases p with
    | nil =>
      simp only [sub_nil, root_node, Option.some.injEq] at at_
      omega
    | cons d ds =>
      cases d with
      | false =>
        have := ihl at_
        omega
      | true =>
        have := ihr at_
        omega

-- A tree over positions counted from o, in the numbering of the whole sequence.
theorem IsCartesian.shift {b : Nat → Nat} {o lo hi : Nat} {t : PosTree}
    (h : IsCartesian (fun i => b (o + i)) lo hi t) :
    IsCartesian b (o + lo) (o + hi) (t.map (o + ·)) := by
  induction h with
  | nil le => exact .nil (by omega)
  | @node lo hi m l r min _ _ ihl ihr =>
    have := min.left
    have := min.right
    have whole : StrictMin b (o + lo) (o + hi) (o + m) := by
      refine ⟨by omega, by omega, fun i hi hi' ne => ?_⟩
      have least := min.least (i - o) (by omega) (by omega) (by omega)
      rwa [Nat.add_sub_cancel' (by omega)] at least
    exact .node whole ihl ihr

/-- The range a path leads to, below the tree over [0, size). -/
inductive Reaches (t : PosTree) (size : Nat) : List Bool → Nat → Nat → Prop where
  | root : Reaches t size [] 0 size
  | left {p : List Bool} {lo hi m : Nat} : Reaches t size p lo hi → (t.sub p).root = some m →
      Reaches t size (p ++ [false]) lo m
  | right {p : List Bool} {lo hi m : Nat} : Reaches t size p lo hi → (t.sub p).root = some m →
      Reaches t size (p ++ [true]) (m + 1) hi

theorem PosTree.node_of_root {t : PosTree} {m : Nat} (h : t.root = some m) :
    t = .node (t.child false) m (t.child true) := by
  cases t with
  | nil => cases h
  | node l m' r =>
    obtain rfl : m' = m := by simpa using h
    rfl

theorem IsCartesian.min {b : Nat → Nat} {lo hi m : Nat} {t : PosTree} (h : IsCartesian b lo hi t)
    (root : t.root = some m) : StrictMin b lo hi m := by
  cases h with
  | nil => cases root
  | node min =>
    obtain rfl := Option.some.inj root
    exact min

theorem IsCartesian.left {b : Nat → Nat} {lo hi m : Nat} {t : PosTree} (h : IsCartesian b lo hi t)
    (root : t.root = some m) : IsCartesian b lo m (t.child false) := by
  cases h with
  | nil => cases root
  | node _ l =>
    obtain rfl := Option.some.inj root
    exact l

theorem IsCartesian.right {b : Nat → Nat} {lo hi m : Nat} {t : PosTree} (h : IsCartesian b lo hi t)
    (root : t.root = some m) : IsCartesian b (m + 1) hi (t.child true) := by
  cases h with
  | nil => cases root
  | node _ _ r =>
    obtain rfl := Option.some.inj root
    exact r

theorem IsCartesian.empty {b : Nat → Nat} {lo hi : Nat} {t : PosTree} (h : IsCartesian b lo hi t)
    (root : t.root = none) : hi ≤ lo := by
  cases h with
  | nil le => exact le
  | node => cases root

theorem IsCartesian.root_of_lt {b : Nat → Nat} {lo hi : Nat} {t : PosTree}
    (h : IsCartesian b lo hi t) (lt : lo < hi) : ∃ m, t.root = some m := by
  cases h with
  | nil => omega
  | node => exact ⟨_, rfl⟩

namespace Reaches

variable {t : PosTree} {size lo hi lo' hi' : Nat} {b : Nat → Nat} {p : List Bool}

theorem cartesian (h : Reaches t size p lo hi) (tree : IsCartesian b 0 size t) :
    IsCartesian b lo hi (t.sub p) := by
  induction h with
  | root => exact tree
  | left _ root ih => rw [sub_snoc]; exact ih.left root
  | right _ root ih => rw [sub_snoc]; exact ih.right root

theorem unique (h : Reaches t size p lo hi) (g : Reaches t size p lo' hi') :
    lo = lo' ∧ hi = hi' := by
  induction h generalizing lo' hi' with
  | root =>
    generalize same : ([] : List Bool) = q at g
    cases g with
    | root => exact ⟨rfl, rfl⟩
    | left => simp at same
    | right => simp at same
  | @left p lo hi m h root ih =>
    generalize same : p ++ [false] = q at g
    cases g with
    | root => simp at same
    | left g root' =>
      obtain rfl : p = _ := by simpa using same
      rw [root] at root'
      exact ⟨(ih g).1, Option.some.inj root'⟩
    | right => simp at same
  | @right p lo hi m h root ih =>
    generalize same : p ++ [true] = q at g
    cases g with
    | root => simp at same
    | left => simp at same
    | right g root' =>
      obtain rfl : p = _ := by simpa using same
      rw [root] at root'
      exact ⟨by rw [Option.some.inj root'], (ih g).2⟩

-- The entries next to a range are ancestors of everything inside it.
theorem boundary (h : Reaches t size p lo hi) (tree : IsCartesian b 0 size t) :
    (0 < lo → ∀ i, lo ≤ i → i < hi → b (lo - 1) < b i) ∧
      (hi < size → ∀ i, lo ≤ i → i < hi → b hi < b i) := by
  induction h with
  | root => exact ⟨fun lt => absurd lt (lt_irrefl _), fun lt => absurd lt (lt_irrefl _)⟩
  | left h root ih =>
    have min := (h.cartesian tree).min root
    have := min.right
    exact ⟨fun lt i h1 h2 => ih.1 lt i h1 (by omega),
      fun _ i h1 h2 => min.least i h1 (by omega) (by omega)⟩
  | right h root ih =>
    have min := (h.cartesian tree).min root
    have := min.left
    exact ⟨fun _ i h1 h2 => min.least i (by omega) h2 (by omega),
      fun lt i h1 h2 => ih.2 lt i (by omega) h2⟩

theorem snoc {d : Bool} (h : Reaches t size (p ++ [d]) lo hi) :
    ∃ lo' hi' m, Reaches t size p lo' hi' ∧ (t.sub p).root = some m ∧
      (d = false ∧ lo = lo' ∧ hi = m ∨ d = true ∧ lo = m + 1 ∧ hi = hi') := by
  generalize same : p ++ [d] = q at h
  cases h with
  | root => simp at same
  | left h root =>
    obtain ⟨rfl, turn⟩ := List.append_inj' same rfl
    exact ⟨_, _, _, h, root, .inl ⟨by simpa using turn, rfl, rfl⟩⟩
  | right h root =>
    obtain ⟨rfl, turn⟩ := List.append_inj' same rfl
    exact ⟨_, _, _, h, root, .inr ⟨by simpa using turn, rfl, rfl⟩⟩

theorem le_size (h : Reaches t size p lo hi) (tree : IsCartesian b 0 size t) :
    lo ≤ hi ∧ hi ≤ size := by
  induction h with
  | root => exact ⟨Nat.zero_le _, le_rfl⟩
  | left h root ih =>
    have min := (h.cartesian tree).min root
    have := min.left
    have := min.right
    omega
  | right h root ih =>
    have min := (h.cartesian tree).min root
    have := min.right
    omega

-- Once the parent's value is at most d, so are the entries next to the child's range.
theorem boundary_le {d m : Nat} {e : Bool} (tree : IsCartesian b 0 size t)
    (h : Reaches t size (p ++ [e]) lo hi) (root : (t.sub p).root = some m) (low : b m ≤ d) :
    (0 < lo → b (lo - 1) ≤ d) ∧ (hi < size → b hi ≤ d) := by
  obtain ⟨lo', hi', m', up, root', side⟩ := h.snoc
  obtain rfl : m = m' := by simpa [root] using root'
  have min := (up.cartesian tree).min root
  have outer := up.boundary tree
  have := min.left
  have := min.right
  rcases side with ⟨_, rfl, rfl⟩ | ⟨_, rfl, rfl⟩
  · exact ⟨fun lt => (outer.1 lt hi min.left min.right).le.trans low, fun _ => low⟩
  · exact ⟨fun _ => by simpa using low, fun lt => (outer.2 lt m min.left min.right).le.trans low⟩

-- A maximal run of values above d is the range of some path.
theorem exists_group {d glo ghi : Nat} (tree : IsCartesian b 0 size t) (h : Reaches t size p lo hi)
    (left : lo ≤ glo) (le : glo ≤ ghi) (right : ghi ≤ hi) (deep : ∀ i, glo ≤ i → i < ghi → d < b i)
    (prev : lo < glo → b (glo - 1) < d) (next : ghi < hi → b ghi < d) :
    ∃ q, Reaches t size (p ++ q) glo ghi := by
  have here := h.cartesian tree
  generalize same : t.sub p = s at here
  induction here generalizing p with
  | @nil lo hi empty =>
    have first : lo = glo := by omega
    have last : hi = ghi := by omega
    subst first last
    exact ⟨[], by simpa using h⟩
  | @node lo hi m l r min _ _ ihl ihr =>
    have root : (t.sub p).root = some m := by rw [same]; rfl
    have := min.left
    have := min.right
    by_cases before : ghi ≤ m
    · obtain ⟨q, reach⟩ := ihl (h.left root) left before prev
        (fun lt => by
          by_contra high
          exact absurd (next (by omega)) high) (by rw [sub_snoc, same]; rfl)
      exact ⟨false :: q, by simpa using reach⟩
    · by_cases after : m < glo
      · obtain ⟨q, reach⟩ := ihr (h.right root) after right
          (fun lt => prev (by omega)) next (by rw [sub_snoc, same]; rfl)
        exact ⟨true :: q, by simpa using reach⟩
      · have inside := deep m (by omega) (by omega)
        have first : lo = glo := by
          by_contra ne
          have low := prev (by omega)
          have := min.le (t := glo - 1) (by omega) (by omega)
          omega
        have last : ghi = hi := by
          by_contra ne
          have low := next (by omega)
          have := min.le (t := ghi) (by omega) (by omega)
          omega
        subst first last
        exact ⟨[], by simpa using h⟩

end Reaches

end CartesianTree
