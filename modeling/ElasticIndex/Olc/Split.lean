import ElasticIndex.Olc.Effect

set_option autoImplicit false

namespace ElasticIndex.Olc

variable {T K P : Type} [LinearOrder K] {c : Config} {blank : BTreeInner K}
  {key : P → K} {g : View T K} {m : Memory K P} {t u : T} {node p new : Nat} {k sep : K}
  {parent : Option Nat}

-- The node keeps the keys up to the separator, a new node of the same height takes the others.
def View.split (g : View T K) (node new : Nat) (sep : K) : View T K :=
  { g with
    span := Function.update (Function.update g.span node {k | k ∈ g.span node ∧ k ≤ sep}) new
      {k | k ∈ g.span node ∧ sep < k}
    reach := Function.update g.reach new {k | k ∈ g.span node ∧ sep < k}
    height := Function.update g.height new (g.height node) }

def Memory.afterSplit (m : Memory K P) (node : Nat) (left right : Node K P) : Memory K P :=
  (m.write node left).allocate right

section Split

variable {left right : Node K P}

omit [LinearOrder K] in
theorem split_node_node (lt : node < m.allocated) :
    (m.afterSplit node left right).node node = left := by
  have ne : node ≠ m.allocated := by omega
  simp [Memory.afterSplit, Memory.write, Memory.allocate, Function.update_of_ne ne]

omit [LinearOrder K] in
theorem split_node_new : (m.afterSplit node left right).node m.allocated = right := by
  simp [Memory.afterSplit, Memory.write, Memory.allocate]

omit [LinearOrder K] in
theorem split_node_other {n : Nat} (ne : n ≠ node) (old : n ≠ m.allocated) :
    (m.afterSplit node left right).node n = m.node n := by
  simp [Memory.afterSplit, Memory.write, Memory.allocate, Function.update_of_ne ne,
    Function.update_of_ne old]

theorem split_span_node (lt : node < m.allocated) :
    (g.split node m.allocated sep).span node = {k | k ∈ g.span node ∧ k ≤ sep} := by
  have ne : node ≠ m.allocated := by omega
  simp [View.split, Function.update_of_ne ne]

theorem split_span_new : (g.split node m.allocated sep).span m.allocated =
    {k | k ∈ g.span node ∧ sep < k} := by
  simp [View.split]

theorem split_span_other {n : Nat} (ne : n ≠ node) (old : n ≠ m.allocated) :
    (g.split node m.allocated sep).span n = g.span n := by
  simp [View.split, Function.update_of_ne ne, Function.update_of_ne old]

theorem split_reach_old {n : Nat} (lt : n < m.allocated) :
    (g.split node m.allocated sep).reach n = g.reach n := by
  have old : n ≠ m.allocated := by omega
  simp [View.split, Function.update_of_ne old]

theorem split_height_old {n : Nat} (lt : n < m.allocated) :
    (g.split node m.allocated sep).height n = g.height n := by
  have old : n ≠ m.allocated := by omega
  simp [View.split, Function.update_of_ne old]

theorem split_height_new : (g.split node m.allocated sep).height m.allocated = g.height node := by
  simp [View.split]

-- Whatever a node answers for afterwards came from the node that had its place.
theorem split_span_from {n : Nat} (lt : node < m.allocated)
    (hk : k ∈ (g.split node m.allocated sep).span n) :
    k ∈ g.span (if n = m.allocated then node else n) := by
  by_cases isNew : n = m.allocated
  · rw [if_pos isNew]
    rw [isNew, split_span_new] at hk
    exact hk.1
  · rw [if_neg isNew]
    by_cases here : n = node
    · rw [here, split_span_node lt] at hk
      exact here ▸ hk.1
    · rwa [split_span_other here isNew] at hk

theorem split_height_from {n : Nat} (lt : n < m.allocated + 1) :
    (g.split node m.allocated sep).height n = g.height (if n = m.allocated then node else n) := by
  by_cases isNew : n = m.allocated
  · rw [if_pos isNew, isNew, split_height_new]
  · rw [if_neg isNew, split_height_old (by omega)]

theorem split_apart (shape : Shape c key g m) (lt : node < m.allocated) (n n' : Nat)
    (hn : n < m.allocated + 1) (hn' : n' < m.allocated + 1)
    (level : (g.split node m.allocated sep).height n = (g.split node m.allocated sep).height n')
    (k : K) (hk : k ∈ (g.split node m.allocated sep).span n)
    (hk' : k ∈ (g.split node m.allocated sep).span n') : n = n' := by
  rw [split_height_from hn, split_height_from hn'] at level
  have from_ := shape.apart _ _ (by split <;> omega) (by split <;> omega) level k
    (split_span_from lt hk)
    (split_span_from lt hk')
  have halves : ∀ {a b : Nat}, a = m.allocated → b = node →
    k ∈ (g.split node m.allocated sep).span a →
      k ∈ (g.split node m.allocated sep).span b → False := fun ha hb above below => by
    rw [ha, split_span_new] at above
    rw [hb, split_span_node lt] at below
    exact absurd above.2 (not_lt.mpr below.2)
  split at from_ <;> split at from_
  · omega
  · exact (halves ‹_› from_.symm hk hk').elim
  · exact (halves ‹_› from_ hk' hk).elim
  · exact from_

variable (shape : Shape c key g m) (held : Held g t node)
  (leftOk : NodeOk c key (g.split node m.allocated sep) (m.afterSplit node left right) node)
  (rightOk : NodeOk c key (g.split node m.allocated sep) (m.afterSplit node left right) m.allocated)
  (keeps : ∀ entries, m.node node = .leaf entries → ∃ ls rs, left = .leaf ls ∧ right = .leaf rs ∧
    ∀ a ∈ entries, (key a ≤ sep → a ∈ ls) ∧ (sep < key a → a ∈ rs))
  (leaves : ∀ ls, left = .leaf ls ∨ right = .leaf ls → ∃ entries, m.node node = .leaf entries)

include shape held leftOk rightOk keeps leaves

theorem split_effect :
    Effect c key g m (g.split node m.allocated sep) (m.afterSplit node left right) t := by
  have lt := held.lt shape
  have newFree : g.owner m.allocated = none := by
    by_contra owned
    exact lt_irrefl _ (shape.owned _ owned)
  have version : ∀ n : Nat, n < m.allocated → (m.afterSplit node left right).version n =
      m.version n := fun n ln => by
    have old : n ≠ m.allocated := by omega
    simp [Memory.afterSplit, Memory.write, Memory.allocate, Function.update_of_ne old]
  have stored : ∀ k, Stored key g m k →
      Stored key (g.split node m.allocated sep) (m.afterSplit node left right) k :=
      fun k stored n ln es hes hk => by
    by_cases isNew : n = m.allocated
    · rw [isNew, split_node_new] at hes
      rw [isNew, split_span_new] at hk
      obtain ⟨entries, is⟩ := leaves es (.inr hes)
      obtain ⟨ls, rs, _, hr, go⟩ := keeps entries is
      obtain ⟨a, ha, rfl⟩ := stored node lt entries is hk.1
      rw [hr, Node.leaf.injEq] at hes
      exact ⟨a, hes ▸ (go a ha).2 hk.2, rfl⟩
    · by_cases here : n = node
      · rw [here, split_node_node lt] at hes
        rw [here, split_span_node lt] at hk
        obtain ⟨entries, is⟩ := leaves es (.inl hes)
        obtain ⟨ls, rs, hl, _, go⟩ := keeps entries is
        obtain ⟨a, ha, rfl⟩ := stored node lt entries is hk.1
        rw [hl, Node.leaf.injEq] at hes
        exact ⟨a, hes ▸ (go a ha).1 hk.2, rfl⟩
      · rw [split_node_other here isNew] at hes
        rw [split_span_other here isNew] at hk
        exact stored n (Nat.lt_of_le_of_ne (Nat.le_of_lt_succ ln) isNew) es hes hk
  have level : ∀ n : Nat, n < m.allocated → (g.split node m.allocated sep).height n = g.height n :=
    fun n ln => split_height_old ln
  have total : (m.afterSplit node left right).allocated = m.allocated + 1 := rfl
  refine ⟨⟨Nat.lt_succ_of_lt shape.root, ?_, fun n ln => ?_,
    fun n owned => Nat.lt_succ_of_lt (shape.owned n owned),
    fun n ln => ?_, fun n ln free => ?_, split_apart (m := m) shape lt, fun n ln => ?_⟩,
    stored, fun u ne => ?_⟩
  · exact (split_reach_old shape.root).trans shape.top
  · change _ ≤ (g.split node m.allocated sep).height m.root
    rw [split_height_from (m := m) ln, split_height_old shape.root]
    rw [total] at ln
    exact shape.highest _ (by split <;> omega)
  · change _ ↔ g.owner n ≠ none
    by_cases isNew : n = m.allocated
    · subst isNew
      simp only [newFree, Memory.afterSplit, Memory.write, Memory.allocate, Function.update_self]
      exact ⟨fun no => absurd no Bool.false_ne_true, fun no => absurd rfl no⟩
    · have old : n < m.allocated := Nat.lt_of_le_of_ne (Nat.le_of_lt_succ ln) isNew
      rw [version n old]
      exact shape.locked n old
  · change g.owner n = none at free
    by_cases isNew : n = m.allocated
    · rw [isNew, split_span_new]
      simp [View.split]
    · have old : n < m.allocated := Nat.lt_of_le_of_ne (Nat.le_of_lt_succ ln) isNew
      have other : n ≠ node := fun here => by
        rw [here, held.owner] at free
        cases free
      rw [split_span_other other isNew, split_reach_old old]
      exact shape.settled n old free
  · by_cases isNew : n = m.allocated
    · exact isNew ▸ rightOk
    · have old : n < m.allocated := Nat.lt_of_le_of_ne (Nat.le_of_lt_succ ln) isNew
      by_cases here : n = node
      · exact here ▸ leftOk
      · exact (shape.nodes n old).congr old (Nat.le_succ _) (split_node_other here isNew)
          (split_span_other here isNew) level fun child has =>
            split_reach_old (shape.child_lt old has)
  · refine ⟨Nat.le_succ _, fun n ln => (version n ln).ge, level, fun _ => Iff.rfl,
      fun n ln calm => ?_,
      fun n ln _ => split_reach_old ln, fun n _ ln _ _ _ _ => split_reach_old ln,
      fun _ n ln _ _ => split_reach_old ln, fun _ => rfl, stored⟩
    have old : n ≠ m.allocated := by omega
    have other : n ≠ node := fun here => shape.restless held.owner ne (here ▸ calm)
    rw [split_node_other other old]
    exact ⟨.refl _, split_span_other other old⟩

end Split

-- The two halves of a leaf.
theorem splitLeaf_effect (shape : Shape c key g m) (held : Held g t node) {entries ls rs : List P}
    (is : m.node node = .leaf entries) (halves : BTreeLeaf.split key entries = some (sep, ls, rs)) :
    Effect c key g m (g.split node m.allocated sep) (m.afterSplit node (.leaf ls) (.leaf rs)) t ∧
      Pending (g.split node m.allocated sep)
        (m.afterSplit node (.leaf ls) (.leaf rs)) t node sep m.allocated := by
  have lt := held.lt shape
  have ok := shape.leaf lt is
  obtain ⟨whole, ⟨last, lastIn, lastKey⟩, below, above, nonempty⟩ :=
    BTreeLeaf.split_spec ok.sorted halves
  have parts : (ls ++ rs).Pairwise fun a b => key a < key b := whole ▸ ok.sorted
  have lengths : ls.length + rs.length = entries.length := by rw [whole, List.length_append]
  have bounded := ok.bounded
  have inside : ∀ a ∈ ls ++ rs, key a ∈ g.span node := fun a ha => ok.inside a (whole ▸ ha)
  have newHeight : (g.split node m.allocated sep).height m.allocated =
    g.height node := split_height_new
  constructor
  · refine split_effect shape held ?_ ?_ (fun es hes => ⟨ls, rs, rfl, rfl, fun a ha => ?_⟩)
      fun _ _ => ⟨entries, is⟩
    · rw [NodeOk, split_node_node lt]
      refine ⟨by omega, (List.pairwise_append.mp parts).1, fun a ha => ?_, ?_⟩
      · rw [split_span_node lt]
        exact ⟨inside a (List.mem_append_left rs ha), below a ha⟩
      · rw [split_height_old lt]
        exact ok.level
    · rw [NodeOk, split_node_new]
      refine ⟨by omega, (List.pairwise_append.mp parts).2.1, fun a ha => ?_, ?_⟩
      · rw [split_span_new]
        exact ⟨inside a (List.mem_append_right ls ha), above a ha⟩
      · rw [newHeight]
        exact ok.level
    · rw [is, Node.leaf.injEq] at hes
      rw [← hes, whole] at ha
      rcases List.mem_append.mp ha with inLeft | inRight
      · exact ⟨fun _ => inLeft, fun more => absurd more (not_lt.mpr (below a inLeft))⟩
      · exact ⟨fun le => absurd (above a inRight) (not_lt.mpr le), fun _ => inRight⟩
  · obtain ⟨a, ha⟩ := List.exists_mem_of_ne_nil rs nonempty
    refine ⟨held.owner, Nat.lt_succ_self _, by omega, ?_, ?_, ?_, ?_, key a, ?_⟩
    · rw [newHeight, split_height_old lt]
    · rw [split_reach_old lt, ← held.whole, ← lastKey]
      exact inside last (List.mem_append_left rs lastIn)
    · rw [split_span_node lt, split_reach_old lt, held.whole]
    · rw [split_reach_old lt, ← held.whole]
      simp [View.split]
    · simp only [View.split, Function.update_self]
      exact ⟨inside a (List.mem_append_right ls ha), above a ha⟩

-- The two parts of an inner node; the children stay where their keys are.
theorem splitInner_effect (blank : BTreeInner K) (slots : 3 ≤ c.innerSlots ∧ c.innerSlots ≤ 65536)
    (shape : Shape c key g m) (held : Held g t node) {n : BTreeInner K}
    (is : m.node node = .inner n) (full : n.count = c.innerSlots - 1) :
    Effect c key g m (g.split node m.allocated (n.split blank).1)
        (m.afterSplit node (.inner (n.split blank).2.1) (.inner (n.split blank).2.2)) t ∧
      Pending (g.split node m.allocated (n.split blank).1)
        (m.afterSplit node (.inner (n.split blank).2.1) (.inner (n.split blank).2.2)) t node
        (n.split blank).1
        m.allocated := by
  have lt := held.lt shape
  have ok := shape.inner lt is
  have two : 2 ≤ n.count := by omega
  have small : n.count < 65536 := by omega
  obtain ⟨counts, positive⟩ := BTreeInner.split_counts blank two small
  obtain ⟨leftSorted, rightSorted⟩ := BTreeInner.split_sorted blank ok.sorted two small
  have bounded := ok.bounded
  have sepIs : (n.split blank).1 = n.keys (n.split blank).2.1.count := BTreeInner.split_sep
  have sepIn : (n.split blank).1 ∈ g.span node := by
    rw [sepIs]
    exact ok.inside _ (by omega)
  have rightKey : ∀ x : Nat, x < (n.split blank).2.2.count →
    (n.split blank).2.2.keys x ∈ g.span node ∧
      (n.split blank).1 < (n.split blank).2.2.keys x := fun x lx => by
    rw [BTreeInner.split_right_keys (le_of_lt lx), sepIs]
    exact ⟨ok.inside _ (by omega), ok.sorted _ _ (by omega) (by omega)⟩
  constructor
  · refine split_effect shape held ?_ ?_ (fun es hes => ?_) fun es hes => ?_
    · rw [NodeOk, split_node_node lt]
      refine ⟨by omega, leftSorted, fun x lx => ?_, fun none k hk => ?_, fun j le => ?_,
        fun j le => ?_, fun j le => ?_⟩
      · rw [split_span_node lt, BTreeInner.split_left_keys]
        refine ⟨ok.inside x (by omega), le_of_lt ?_⟩
        rw [sepIs]
        exact ok.sorted x _ lx (by omega)
      · rw [split_span_node lt] at hk
        rw [BTreeInner.split_left_keys, ← none, ← sepIs]
        exact hk.2
      · rw [BTreeInner.split_left_children]
        exact Nat.lt_succ_of_lt (ok.known j (by omega))
      · rw [BTreeInner.split_left_children, split_height_old (ok.known j (by omega)),
          split_height_old lt]
        exact ok.level j (by omega)
      · rw [BTreeInner.split_left_children, split_reach_old (ok.known j (by omega)),
          ok.sends j (by omega), split_span_node lt]
        ext k
        simp only [Set.mem_ofPred_eq,
          BTreeInner.split_left_routes ok.sorted two small le, and_assoc]
    · rw [NodeOk, split_node_new]
      refine ⟨by omega, rightSorted, fun x lx => ?_, fun none => ?_, fun j le => ?_,
        fun j le => ?_, fun j le => ?_⟩
      · rw [split_span_new]
        exact rightKey x lx
      · omega
      · rw [BTreeInner.split_right_children le]
        exact Nat.lt_succ_of_lt (ok.known _ (by omega))
      · rw [BTreeInner.split_right_children le,
          split_height_old (ok.known _ (by omega)), split_height_new]
        exact ok.level _ (by omega)
      · rw [BTreeInner.split_right_children le, split_reach_old (ok.known _ (by omega)),
          ok.sends _ (by omega), split_span_new]
        ext k
        simp only [Set.mem_ofPred_eq,
          BTreeInner.split_right_routes ok.sorted two small le, and_assoc]
    · rw [is] at hes
      cases hes
    · rcases hes with no | no <;> cases no
  · refine ⟨held.owner, Nat.lt_succ_self _, by omega, ?_, ?_, ?_, ?_,
      (n.split blank).2.2.keys 0, ?_⟩
    · rw [split_height_new, split_height_old lt]
    · rw [split_reach_old lt, ← held.whole]
      exact sepIn
    · rw [split_span_node lt, split_reach_old lt, held.whole]
    · rw [split_reach_old lt, ← held.whole]
      simp [View.split]
    · simp only [View.split, Function.update_self]
      exact rightKey 0 positive

end ElasticIndex.Olc
