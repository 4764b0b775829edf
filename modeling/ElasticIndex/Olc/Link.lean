import ElasticIndex.Olc.Split

set_option autoImplicit false

namespace ElasticIndex.Olc

variable {T K P : Type} [LinearOrder K] {c : Config} {blank : BTreeInner K}
  {key : P → K} {g : View T K} {m : Memory K P} {t u : T} {node p new : Nat} {k sep : K}

-- From now on only the keys the node has kept are sent to it.
def View.link (g : View T K) (node : Nat) : View T K :=
  { g with reach := Function.update g.reach node (g.span node) }

omit [LinearOrder K] in
theorem link_reach_node : (g.link node).reach node = g.span node := by
  simp [View.link]

omit [LinearOrder K] in
theorem link_reach_other {n : Nat} (ne : n ≠ node) : (g.link node).reach n = g.reach n := by
  simp [View.link, Function.update_of_ne ne]

omit [LinearOrder K] in
theorem Held.link (held : Held g t p) (ne : p ≠ node) : Held (g.link node) t p :=
  ⟨held.owner, held.whole.trans (link_reach_other ne).symm⟩

theorem link_inner (slots : 3 ≤ c.innerSlots ∧ c.innerSlots ≤ 65536) (shape : Shape c key g m)
    (pending : Pending g m t node sep new) (lt : p < m.allocated) {n : BTreeInner K}
    (is : m.node p = .inner n) (child : Child m p node) (room : n.count < c.innerSlots - 1) :
    InnerOk c (g.link node) (m.write p (.inner (n.insert sep new))) p (n.insert sep new) := by
  have ok := shape.inner lt is
  have small : n.count + 1 < 65536 := by omega
  have sepIn : sep ∈ g.span p := shape.child_reach lt child pending.member
  obtain ⟨n', is', j, le, here⟩ := child
  obtain rfl : n = n' := by
    rw [is] at is'
    exact Node.inner.inj is'
  have sendsHere := ok.sends j le
  rw [here] at sendsHere
  have routes : n.Routes sep j := by
    have member := pending.member
    rw [sendsHere] at member
    exact member.2
  have at_ : n.lowerBound sep = j :=
    routes.lowerBound ok.sorted (fun none => ok.empty none sep sepIn) le
  -- the new node is not empty, so its separator is not the next one
  have strict : ∀ x : Nat, j ≤ x → x < n.count → sep < n.keys x := fun x hx lx => by
    obtain ⟨k, hk⟩ := pending.some_right
    rw [pending.right, sendsHere] at hk
    exact lt_of_lt_of_le hk.2 (hk.1.2.below x hx lx)
  have others : ∀ i : Nat, i ≤ n.count → i ≠ j → n.children i ≠ node := fun i li ne same => by
    have there := ok.sends i li
    rw [same] at there
    have member := pending.member
    rw [there] at member
    exact ne (member.2.unique routes li le)
  have newNot : new ≠ node := pending.ne
  have levelNode : g.height node + 1 = g.height p := here ▸ ok.level j le
  refine ⟨?_, BTreeInner.insert_sorted ok.sorted small at_ le routes.above strict,
    fun x lx => ?_, fun none => ?_,
    fun i li => ?_, fun i li => ?_, fun i li => ?_⟩
  · rw [BTreeInner.insert_count small]
    omega
  · rw [BTreeInner.insert_count small] at lx
    rw [BTreeInner.insert_keys at_ le (by omega)]
    change _ ∈ g.span p
    rcases Nat.lt_trichotomy x j with less | rfl | more
    · rw [SequenceEdit.insertAt_below _ _ less]
      exact ok.inside x (by omega)
    · rw [SequenceEdit.insertAt_self]
      exact sepIn
    · rw [SequenceEdit.insertAt_above _ _ more]
      exact ok.inside (x - 1) (by omega)
  · rw [BTreeInner.insert_count small] at none
    omega
  · rw [BTreeInner.insert_count small] at li
    rw [BTreeInner.insert_children at_ le li]
    change _ < m.allocated
    rcases Nat.lt_trichotomy i (j + 1) with less | rfl | more
    · rw [SequenceEdit.insertAt_below _ _ less]
      exact ok.known i (by omega)
    · rw [SequenceEdit.insertAt_self]
      exact pending.lt
    · rw [SequenceEdit.insertAt_above _ _ more]
      exact ok.known (i - 1) (by omega)
  · rw [BTreeInner.insert_count small] at li
    rw [BTreeInner.insert_children at_ le li]
    change g.height _ + 1 = g.height p
    rcases Nat.lt_trichotomy i (j + 1) with less | rfl | more
    · rw [SequenceEdit.insertAt_below _ _ less]
      exact ok.level i (by omega)
    · rw [SequenceEdit.insertAt_self, pending.level]
      exact levelNode
    · rw [SequenceEdit.insertAt_above _ _ more]
      exact ok.level (i - 1) (by omega)
  · rw [BTreeInner.insert_count small] at li
    rw [BTreeInner.insert_children at_ le li]
    change _ = {k | k ∈ g.span p ∧ _}
    rcases Nat.lt_trichotomy i (j + 1) with less | rfl | more
    · rw [SequenceEdit.insertAt_below _ _ less]
      rcases Nat.lt_or_eq_of_le (Nat.le_of_lt_succ less) with before | rfl
      · rw [link_reach_other (others i (by omega) (by omega)), ok.sends i (by omega)]
        ext k
        simp only [Set.mem_ofPred_eq, BTreeInner.insert_routes_before small at_ le routes before]
      · rw [here, link_reach_node, pending.left, sendsHere]
        ext k
        simp only [Set.mem_ofPred_eq, BTreeInner.insert_routes_left small at_ le, and_assoc]
    · rw [SequenceEdit.insertAt_self, link_reach_other newNot, pending.right, sendsHere]
      ext k
      simp only [Set.mem_ofPred_eq, BTreeInner.insert_routes_right small at_ le routes, and_assoc]
    · obtain ⟨i, rfl⟩ : ∃ x, i = x + 1 := ⟨i - 1, by omega⟩
      rw [SequenceEdit.insertAt_succ _ _ (by omega),
        link_reach_other (others i (by omega) (by omega)), ok.sends i (by omega)]
      ext k
      simp only [Set.mem_ofPred_eq,
        BTreeInner.insert_routes_after small at_ le routes (by omega : j < i) (by omega)]

theorem link_effect (slots : 3 ≤ c.innerSlots ∧ c.innerSlots ≤ 65536) (shape : Shape c key g m)
    (pending : Pending g m t node sep new) (held : Held g t p) {n : BTreeInner K}
    (is : m.node p = .inner n) (child : Child m p node) (room : n.count < c.innerSlots - 1) :
    Effect c key g m (g.link node) (m.write p (.inner (n.insert sep new))) t := by
  have lt := held.lt shape
  have notRoot := shape.child_ne_root lt child
  have level := shape.child_height lt child
  have below := shape.child_reach lt child
  have written : ∀ {x : Nat}, x ≠ p → (m.write p (.inner (n.insert sep new))).node x =
      m.node x := fun ne => by
    simp only [Memory.write, Function.update_of_ne ne]
  have stored : ∀ k, Stored key g m k →
      Stored key (g.link node) (m.write p (.inner (n.insert sep new))) k :=
    fun k stored x lx es hes hk => by
      have ne : x ≠ p := fun same => by
        simp only [same, Memory.write, Function.update_self] at hes
        cases hes
      rw [written ne] at hes
      exact stored x lx es hes hk
  refine ⟨⟨shape.root, ?_, shape.highest, shape.owned, shape.locked, fun x lx free => ?_,
    shape.apart, fun x lx => ?_⟩,
    stored, fun u ne => ?_⟩
  · rw [show (m.write p (.inner (n.insert sep new))).root = m.root from rfl,
      link_reach_other notRoot.symm]
    exact shape.top
  · have other : x ≠ node := fun same => by
      have none := pending.owner.symm.trans (same ▸ free)
      cases none
    rw [link_reach_other other]
    exact shape.settled x lx free
  · by_cases same : x = p
    · rw [same, NodeOk]
      simp only [Memory.write, Function.update_self]
      exact link_inner slots shape pending lt is child room
    · refine (shape.nodes x lx).congr lx le_rfl (written same) rfl (fun _ _ => rfl) fun y has => ?_
      refine link_reach_other fun here => same (shape.parent_unique lx lt ?_
        (shape.child_reach lx has (here ▸ pending.member)) (below pending.member))
      have levelY := shape.child_height lx has
      rw [here] at levelY
      omega
  · refine ⟨le_rfl, fun _ _ => le_rfl, fun _ _ => rfl, fun _ => Iff.rfl, fun x lx calm => ⟨?_, rfl⟩,
      fun x _ theirs => ?_, fun x q _ lq calm lev sub => ?_, fun _ x lx _ lev => ?_,
      fun _ => rfl, stored⟩
    · rw [written fun same => shape.restless held.owner ne (same ▸ calm)]
      exact .refl _
    · exact link_reach_other fun same =>
        ne (Option.some.inj ((same ▸ theirs).symm.trans pending.owner))
    · refine link_reach_other fun same => ?_
      subst same
      have isP : q = p := shape.parent_unique lq lt (by omega) (sub pending.member)
        (below pending.member)
      exact shape.restless held.owner ne (isP ▸ calm)
    · refine link_reach_other fun same => ?_
      have high := shape.highest p lt
      rw [same] at lev
      omega

-- The new root stands over both halves of the old one.
def View.grow (g : View T K) (node root : Nat) : View T K :=
  { g with
    span := Function.update g.span root Set.univ
    reach := Function.update (Function.update g.reach node (g.span node)) root Set.univ
    height := Function.update g.height root (g.height node + 1) }

def Memory.afterMakeRoot (m : Memory K P) (blank : BTreeInner K) (node : Nat) (sep : K)
    (new : Nat) : Memory K P :=
  { m.allocate (.inner (.makeRoot blank sep node new)) with root := m.allocated }

section MakeRoot

omit [LinearOrder K] in
theorem grow_reach_node (lt : node < m.allocated) :
    (g.grow node m.allocated).reach node = g.span node := by
  have ne : node ≠ m.allocated := by omega
  simp [View.grow, Function.update_of_ne ne]

omit [LinearOrder K] in
theorem grow_reach_other {n : Nat} (lt : n < m.allocated) (ne : n ≠ node) :
    (g.grow node m.allocated).reach n = g.reach n := by
  have old : n ≠ m.allocated := by omega
  simp [View.grow, Function.update_of_ne ne, Function.update_of_ne old]

omit [LinearOrder K] in
theorem grow_span_old {n : Nat} (lt : n < m.allocated) :
    (g.grow node m.allocated).span n = g.span n := by
  have old : n ≠ m.allocated := by omega
  simp [View.grow, Function.update_of_ne old]

omit [LinearOrder K] in
theorem grow_height_old {n : Nat} (lt : n < m.allocated) :
    (g.grow node m.allocated).height n = g.height n := by
  have old : n ≠ m.allocated := by omega
  simp [View.grow, Function.update_of_ne old]

omit [LinearOrder K] in
theorem grow_height_new : (g.grow node m.allocated).height m.allocated = g.height node + 1 := by
  simp [View.grow]

omit [LinearOrder K] in
theorem makeRoot_node_old {n : Nat} (lt : n < m.allocated) :
    (m.afterMakeRoot blank node sep new).node n = m.node n := by
  have old : n ≠ m.allocated := by omega
  simp [Memory.afterMakeRoot, Memory.allocate, Function.update_of_ne old]

omit [LinearOrder K] in
theorem makeRoot_node_new :
    (m.afterMakeRoot blank node sep new).node m.allocated = .inner
    (.makeRoot blank sep node new) := by
  simp [Memory.afterMakeRoot, Memory.allocate]

theorem makeRoot_inner (slots : 3 ≤ c.innerSlots) (shape : Shape c key g m)
    (pending : Pending g m t m.root sep new) :
    InnerOk c (g.grow m.root m.allocated) (m.afterMakeRoot blank m.root sep new) m.allocated
      (.makeRoot blank sep m.root new) := by
  have two : ∀ {j : Nat}, j ≤ 1 → j = 0 ∨ j = 1 := fun le => by omega
  have univ : ∀ k : K, k ∈ (g.grow m.root m.allocated).span m.allocated :=
    fun k => by simp [View.grow]
  have firstKey : (BTreeInner.makeRoot blank sep m.root new).keys 0 = sep := by
    simp [BTreeInner.makeRoot]
  have firstChild : (BTreeInner.makeRoot blank sep m.root new).children 0 = m.root := by
    simp [BTreeInner.makeRoot]
  have lastChild : (BTreeInner.makeRoot blank sep m.root new).children 1 = new := by
    simp [BTreeInner.makeRoot]
  refine ⟨?_, fun x y lt bound => ?_, fun x _ => univ _, fun none => ?_, fun j le => ?_,
    fun j le => ?_, fun j le => ?_⟩
  · change 1 ≤ _
    omega
  · change y < 1 at bound
    omega
  · cases none
  · change _ < m.allocated + 1
    rcases two le with rfl | rfl
    · rw [firstChild]
      exact Nat.lt_succ_of_lt shape.root
    · rw [lastChild]
      exact Nat.lt_succ_of_lt pending.lt
  · rw [grow_height_new]
    rcases two le with rfl | rfl
    · rw [firstChild, grow_height_old shape.root]
    · rw [lastChild, grow_height_old pending.lt, pending.level]
  · rcases two le with rfl | rfl
    · rw [firstChild, grow_reach_node shape.root, pending.left, shape.top]
      ext k
      simp only [Set.mem_ofPred_eq, Set.mem_univ, univ k, true_and]
      constructor
      · intro bounded
        refine ⟨fun x lx => absurd lx (Nat.not_lt_zero x), fun x _ lx => ?_⟩
        have zero : x = 0 := Nat.lt_one_iff.mp lx
        rw [zero, firstKey]
        exact bounded
      · intro routes
        exact firstKey ▸ routes.below 0 le_rfl Nat.zero_lt_one
    · rw [lastChild, grow_reach_other pending.lt pending.ne, pending.right, shape.top]
      ext k
      simp only [Set.mem_ofPred_eq, Set.mem_univ, univ k, true_and]
      constructor
      · intro above
        refine ⟨fun x lx => ?_, fun x hx lx => absurd (lt_of_le_of_lt hx lx) (lt_irrefl 1)⟩
        have zero : x = 0 := Nat.lt_one_iff.mp lx
        rw [zero, firstKey]
        exact above
      · intro routes
        exact firstKey ▸ routes.above 0 Nat.zero_lt_one

theorem makeRoot_effect (blank : BTreeInner K) (slots : 3 ≤ c.innerSlots) (shape : Shape c key g m)
    (pending : Pending g m t m.root sep new) :
    Effect c key g m (g.grow m.root m.allocated) (m.afterMakeRoot blank m.root sep new) t := by
  have total : (m.afterMakeRoot blank m.root sep new).allocated = m.allocated + 1 := rfl
  have newFree : g.owner m.allocated = none := by
    by_contra owned
    exact lt_irrefl _ (shape.owned _ owned)
  have version : ∀ {n : Nat}, n < m.allocated →
      (m.afterMakeRoot blank m.root sep new).version n = m.version n :=
    fun ln => by
      have old : _ ≠ m.allocated := Nat.ne_of_lt ln
      simp [Memory.afterMakeRoot, Memory.allocate, Function.update_of_ne old]
  have split_lt : ∀ {n : Nat}, n < m.allocated + 1 → n < m.allocated ∨ n = m.allocated :=
    fun ln => by omega
  have stored : ∀ k, Stored key g m k →
      Stored key (g.grow m.root m.allocated) (m.afterMakeRoot blank m.root sep new) k :=
      fun k stored n ln es hes hk => by
    rcases split_lt (total ▸ ln) with old | rfl
    · rw [makeRoot_node_old old] at hes
      rw [grow_span_old old] at hk
      exact stored n old es hes hk
    · rw [makeRoot_node_new] at hes
      cases hes
  have topNew : ∀ {n : Nat}, n < m.allocated →
      (g.grow m.root m.allocated).height n ≠
      (g.grow m.root m.allocated).height m.allocated := fun ln => by
    rw [grow_height_old ln, grow_height_new]
    have high := shape.highest _ ln
    omega
  refine ⟨⟨Nat.lt_succ_self _, ?_, fun n ln => ?_,
    fun n owned => Nat.lt_succ_of_lt (shape.owned n owned), fun n ln => ?_,
    fun n ln free => ?_, fun n n' ln ln' level k hk hk' => ?_, fun n ln => ?_⟩,
    stored, fun u ne => ?_⟩
  · simp [Memory.afterMakeRoot, View.grow]
  · change _ ≤ (g.grow m.root m.allocated).height m.allocated
    rw [grow_height_new]
    rcases split_lt (total ▸ ln) with old | rfl
    · rw [grow_height_old old]
      exact le_trans (shape.highest n old) (Nat.le_succ _)
    · rw [grow_height_new]
  · change _ ↔ g.owner n ≠ none
    rcases split_lt (total ▸ ln) with old | rfl
    · rw [version old]
      exact shape.locked n old
    · simp only [newFree, Memory.afterMakeRoot, Memory.allocate, Function.update_self]
      exact ⟨fun no => absurd no Bool.false_ne_true, fun no => absurd rfl no⟩
  · change g.owner n = none at free
    rcases split_lt (total ▸ ln) with old | rfl
    · have other : n ≠ m.root := fun same => by
        have none := pending.owner.symm.trans (same ▸ free)
        cases none
      rw [grow_span_old old, grow_reach_other old other]
      exact shape.settled n old free
    · simp [View.grow]
  · rcases split_lt (total ▸ ln) with old | rfl <;> rcases split_lt (total ▸ ln') with old' | rfl
    · rw [grow_height_old old, grow_height_old old'] at level
      rw [grow_span_old old] at hk
      rw [grow_span_old old'] at hk'
      exact shape.apart n n' old old' level k hk hk'
    · exact absurd level (topNew old)
    · exact absurd level.symm (topNew old')
    · rfl
  · rcases split_lt (total ▸ ln) with old | rfl
    · refine (shape.nodes n old).congr old (Nat.le_succ _) (makeRoot_node_old old)
        (grow_span_old old)
        (fun x lx => grow_height_old lx) fun x has => ?_
      exact grow_reach_other (shape.child_lt old has) (shape.child_ne_root old has)
    · rw [NodeOk, makeRoot_node_new]
      exact makeRoot_inner slots shape pending
  · refine ⟨Nat.le_succ _, fun n ln => (version ln).ge,
      fun n ln => grow_height_old ln, fun _ => Iff.rfl,
      fun n ln _ => ?_, fun n ln theirs => ?_, fun n q ln lq _ level _ => ?_, fun theirs => ?_,
      fun theirs => ?_, stored⟩
    · rw [makeRoot_node_old ln]
      exact ⟨.refl _, grow_span_old ln⟩
    · exact grow_reach_other ln fun same =>
        ne (Option.some.inj ((same ▸ theirs).symm.trans pending.owner))
    · refine grow_reach_other ln fun same => ?_
      have high := shape.highest q lq
      rw [same] at level
      omega
    · exact absurd (Option.some.inj (theirs.symm.trans pending.owner)) ne
    · exact absurd (Option.some.inj (theirs.symm.trans pending.owner)) ne

end MakeRoot

end ElasticIndex.Olc
