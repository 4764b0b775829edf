import ElasticIndex.Olc.Invariant

set_option autoImplicit false

namespace ElasticIndex.Olc

variable {T K P : Type} [LinearOrder K] {c : Config} {key : P → K} {g g' : View T K}
  {m m' : Memory K P} {u : T} {call : Call K P} {node p version : Nat} {k : K}

-- A node the thread holds, or one whose unlocked version is still the same.
def Calm (g : View T K) (m m' : Memory K P) (u : T) (node : Nat) : Prop :=
  g.owner node = some u ∨ isLocked (m.version node) = false ∧ m'.version node = m.version node

-- Equal up to the pointers of a leaf.
def SameNode (key : P → K) : Node K P → Node K P → Prop
  | .inner n, .inner n' => n = n'
  | .leaf entries, .leaf entries' => entries.map key = entries'.map key
  | _, _ => False

omit [LinearOrder K] in
theorem SameNode.refl (n : Node K P) : SameNode key n n := by
  cases n <;> rfl

/-- What a thread can count on while the others act. -/
structure Rely (key : P → K) (g : View T K) (m : Memory K P) (g' : View T K) (m' : Memory K P)
    (u : T) : Prop where
  grows : m.allocated ≤ m'.allocated
  later : ∀ n : Nat, n < m.allocated → m.version n ≤ m'.version n
  level : ∀ n : Nat, n < m.allocated → g'.height n = g.height n
  owner : ∀ n : Nat, g'.owner n = some u ↔ g.owner n = some u
  same : ∀ n : Nat, n < m.allocated → Calm g m m' u n → SameNode key (m.node n) (m'.node n) ∧
    g'.span n = g.span n
  ownReach : ∀ n : Nat, n < m.allocated → g.owner n = some u → g'.reach n = g.reach n
  reach : ∀ n p : Nat, n < m.allocated → p < m.allocated → Calm g m m' u p →
    g.height n + 1 = g.height p →
    g.reach n ⊆ g.span p → g'.reach n = g.reach n
  topReach : g.owner m.root = some u → ∀ n : Nat, n < m.allocated → n ≠ m.root →
    g.height n = g.height m.root → g'.reach n = g.reach n
  root : g.owner m.root = some u → m'.root = m.root
  stored : ∀ k, Stored key g m k → Stored key g' m' k

omit [LinearOrder K] in
theorem SameNode.inner {n : BTreeInner K} (same : SameNode key (m.node node) (m'.node node))
    (is : m.node node = .inner n) : m'.node node = .inner n := by
  rw [is] at same
  cases h : m'.node node with
  | inner n' =>
    rw [h] at same
    exact congrArg Node.inner (Eq.symm same)
  | leaf entries =>
    rw [h] at same
    exact same.elim

omit [LinearOrder K] in
theorem SameNode.leaf {entries : List P} (same : SameNode key (m.node node) (m'.node node))
    (is : m.node node = .leaf entries) : ∃ entries', m'.node node = .leaf entries' ∧
      entries.map key = entries'.map key := by
  rw [is] at same
  cases h : m'.node node with
  | inner n' =>
    rw [h] at same
    exact same.elim
  | leaf entries' =>
    rw [h] at same
    exact ⟨entries', rfl, same⟩

theorem Child.same (child : Child m p node) (same : SameNode key (m.node p) (m'.node p)) :
    Child m' p node := by
  obtain ⟨n, is, inside⟩ := child
  exact ⟨n, same.inner is, inside⟩

theorem Room.same (room : Room c m p)
    (same : SameNode key (m.node p) (m'.node p)) : Room c m' p := by
  obtain ⟨n, is, less⟩ := room
  exact ⟨n, same.inner is, less⟩

theorem LeafRoom.same (room : LeafRoom c m node)
    (same : SameNode key (m.node node) (m'.node node)) :
    LeafRoom c m' node := by
  obtain ⟨entries, is, less⟩ := room
  obtain ⟨entries', is', eq⟩ := same.leaf is
  have lengths := congrArg List.length eq
  rw [List.length_map, List.length_map] at lengths
  exact ⟨entries', is', lengths ▸ less⟩

omit [LinearOrder K] in
theorem Full.same (full : Full c m node) (same : SameNode key (m.node node) (m'.node node)) :
    Full c m' node := by
  unfold Full at full ⊢
  cases h : m'.node node with
  | leaf entries => trivial
  | inner n =>
    cases old : m.node node with
    | leaf entries =>
      rw [old, h] at same
      exact same.elim
    | inner n' =>
      rw [old, h] at same
      rw [old] at full
      exact (show n' = n from same) ▸ full

namespace Rely

omit [LinearOrder K] in
theorem seen (rely : Rely key g m g' m' u) (seen : Seen m node version) : Seen m' node version :=
  ⟨lt_of_lt_of_le seen.lt rely.grows, seen.free, le_trans seen.le (rely.later node seen.lt)⟩

-- A version that is current again has been current all along.
omit [LinearOrder K] in
theorem back (rely : Rely key g m g' m' u) (seen : Seen m node version)
    (current : m'.version node = version) :
    m.version node = version := by
  have le := seen.le
  have later := rely.later node seen.lt
  omega

theorem calm (rely : Rely key g m g' m' u) (seen : Seen m node version)
    (current : m'.version node = version) :
    Calm g m m' u node := by
  have old := rely.back seen current
  exact .inr ⟨by rw [old]; exact seen.free, by rw [old, current]⟩

theorem sameNode (rely : Rely key g m g' m' u) (seen : Seen m node version)
    (current : m'.version node = version) : SameNode key (m.node node) (m'.node node) :=
  (rely.same node seen.lt (rely.calm seen current)).1

theorem sameSpan (rely : Rely key g m g' m' u) (seen : Seen m node version)
    (current : m'.version node = version) : g'.span node = g.span node :=
  (rely.same node seen.lt (rely.calm seen current)).2

-- A calm parent still sends the same keys to its children.
theorem childReach (rely : Rely key g m g' m' u) (shape : Shape c key g m) (lt : p < m.allocated)
    (calm : Calm g m m' u p) (child : Child m p node) : g'.reach node = g.reach node :=
  rely.reach node p (shape.child_lt lt child) lt calm (shape.child_height lt child)
    (shape.child_reach lt child)

theorem aimed (rely : Rely key g m g' m' u) (shape : Shape c key g m) {inserts : Bool}
    {parent : Option (Nat × Nat)} (seen : parent = none → Seen m node version)
    (aimed : Aimed c g m inserts k parent node version) :
    Aimed c g' m' inserts k parent node version := by
  cases parent with
  | none =>
    intro current
    rw [rely.sameSpan (seen rfl) current]
    exact aimed (rely.back (seen rfl) current)
  | some pair =>
    obtain ⟨p, versionParent⟩ := pair
    obtain ⟨seenParent, points⟩ := aimed
    refine ⟨rely.seen seenParent, fun current => ?_⟩
    obtain ⟨child, mine, room⟩ := points (rely.back seenParent current)
    have same := rely.sameNode seenParent current
    refine ⟨child.same same, ?_, fun ins => (room ins).same same⟩
    rw [rely.childReach shape seenParent.lt (rely.calm seenParent current) child]
    exact mine

theorem held (rely : Rely key g m g' m' u) (shape : Shape c key g m) (held : Held g u node) :
    Held g' u node := by
  have lt : node < m.allocated := shape.owned node (by rw [held.owner]; exact Option.some_ne_none u)
  refine ⟨(rely.owner node).mpr held.owner, ?_⟩
  rw [(rely.same node lt (.inl held.owner)).2, rely.ownReach node lt held.owner, held.whole]

theorem heldNode (rely : Rely key g m g' m' u) (shape : Shape c key g m)
    (owner : g.owner node = some u) :
    SameNode key (m.node node) (m'.node node) ∧ g'.span node = g.span node :=
  rely.same node (shape.owned node (by rw [owner]; exact Option.some_ne_none u)) (.inl owner)

theorem ready (rely : Rely key g m g' m' u) (shape : Shape c key g m) {parent : Option Nat}
    (owner : parent = none → g.owner node = some u) (ready : Ready c g m u k parent node) :
    Ready c g' m' u k parent node := by
  cases parent with
  | none =>
    have isRoot : node = m.root := ready
    exact isRoot.trans (rely.root (isRoot ▸ owner rfl)).symm
  | some p =>
    obtain ⟨held, child, mine, room⟩ := ready
    have lt : p < m.allocated := shape.owned p (by rw [held.owner]; exact Option.some_ne_none u)
    have same := (rely.heldNode shape held.owner).1
    refine ⟨rely.held shape held, child.same same, ?_, room.same same⟩
    rw [rely.childReach shape lt (.inl held.owner) child]
    exact mine

theorem heldParent (rely : Rely key g m g' m' u) (shape : Shape c key g m) {parent : Option Nat}
    (held : HeldParent g u parent node) : HeldParent g' u parent node := by
  cases parent with
  | none => trivial
  | some p => exact ⟨rely.held shape held.1, held.2⟩

-- Nobody else can hang the new half of a split node into the tree.
theorem pending (rely : Rely key g m g' m' u) (shape : Shape c key g m) {parent : Option Nat}
    {sep : K} {new : Nat} (ready : Ready c g m u k parent node)
    (pending : Pending g m u node sep new) :
    Pending g' m' u node sep new := by
  have lt : node < m.allocated :=
    shape.owned node (by rw [pending.owner]; exact Option.some_ne_none u)
  have own := rely.ownReach node lt pending.owner
  have other : g'.reach new = g.reach new := by
    cases parent with
    | none =>
      have isRoot : node = m.root := ready
      subst isRoot
      exact rely.topReach pending.owner new pending.lt pending.ne pending.level
    | some p =>
      obtain ⟨held, child, _, _⟩ := ready
      have ltParent : p < m.allocated :=
        shape.owned p (by rw [held.owner]; exact Option.some_ne_none u)
      refine rely.reach new p pending.lt ltParent (.inl held.owner) ?_ fun x hx => ?_
      · rw [pending.level]
        exact shape.child_height ltParent child
      · rw [pending.right] at hx
        exact shape.child_reach ltParent child hx.1
  refine ⟨(rely.owner node).mpr pending.owner, lt_of_lt_of_le pending.lt rely.grows, pending.ne,
    ?_, ?_, ?_, ?_, ?_⟩
  · rw [rely.level new pending.lt, rely.level node lt, pending.level]
  · rw [own]
    exact pending.member
  · rw [(rely.heldNode shape pending.owner).2, own, pending.left]
  · rw [other, own, pending.right]
  · rw [other]
    exact pending.some_right

theorem asserts (rely : Rely key g m g' m' u) (shape : Shape c key g m) (pc : Pc K)
    (asserts : pc.Asserts c key g m u call) :
    pc.Asserts c key g' m' u call := by
  have growing : ∀ {n : Nat}, n < m.allocated → n < m'.allocated :=
    fun lt => lt_of_lt_of_le lt rely.grows
  cases pc with
  | loadRoot => trivial
  | readRootVersion node => exact growing asserts
  | checkRoot node versionNode => exact rely.seen asserts
  | readType parent node versionNode =>
    exact ⟨rely.seen asserts.1, rely.aimed shape (fun _ => asserts.1) asserts.2⟩
  | innerFull parent node versionNode =>
    exact ⟨asserts.1, rely.seen asserts.2.1, rely.aimed shape (fun _ => asserts.2.1) asserts.2.2⟩
  | checkParent parent versionParent node versionNode =>
    obtain ⟨seen, aimed, room⟩ := asserts
    exact ⟨rely.seen seen, rely.aimed shape (fun _ => seen) aimed, fun ins current =>
      (room ins (rely.back seen current)).same (rely.sameNode seen current)⟩
  | findChild inner versionNode =>
    obtain ⟨seen, mine, room⟩ := asserts
    refine ⟨rely.seen seen, fun current => ?_, fun ins current =>
      (room ins (rely.back seen current)).same (rely.sameNode seen current)⟩
    rw [rely.sameSpan seen current]
    exact mine (rely.back seen current)
  | checkInner inner versionNode child =>
    have aimed : Aimed c g m call.inserts (call.key key) (some (inner, versionNode)) child 0 :=
      asserts
    exact rely.aimed shape (fun none => by cases none) aimed
  | readVersion parent versionParent node =>
    exact ⟨growing asserts.1, rely.aimed shape (fun none => by cases none) asserts.2⟩
  | leafFull parent node versionNode =>
    exact ⟨asserts.1, rely.seen asserts.2.1, rely.aimed shape (fun _ => asserts.2.1) asserts.2.2⟩
  | lockParent parent versionParent node versionNode =>
    obtain ⟨ins, seen, aimed, full⟩ := asserts
    exact ⟨ins, rely.seen seen, rely.aimed shape (fun _ => seen) aimed, fun current =>
      (full (rely.back seen current)).same (rely.sameNode seen current)⟩
  | lockNode parent node versionNode =>
    obtain ⟨seen, full, ready⟩ := asserts
    exact ⟨rely.seen seen,
      fun current => (full (rely.back seen current)).same (rely.sameNode seen current),
      fun p is => rely.ready shape (fun none => by cases none) (ready p is)⟩
  | recheckRoot node =>
    obtain ⟨held, full⟩ := asserts
    exact ⟨rely.held shape held, full.same (rely.heldNode shape held.owner).1⟩
  | split parent node =>
    obtain ⟨held, full, ready⟩ := asserts
    exact ⟨rely.held shape held, full.same (rely.heldNode shape held.owner).1,
      rely.ready shape (fun _ => held.owner) ready⟩
  | insertSep parent node sep new =>
    obtain ⟨pending, ready⟩ := asserts
    exact ⟨rely.pending shape ready pending, rely.ready shape (fun _ => pending.owner) ready⟩
  | unlockNode parent node => exact ⟨rely.held shape asserts.1, rely.heldParent shape asserts.2⟩
  | unlockRestart node => exact rely.held shape asserts
  | lockLeaf parent node versionNode =>
    obtain ⟨ins, seen, aimed, room⟩ := asserts
    exact ⟨ins, rely.seen seen, rely.aimed shape (fun _ => seen) aimed, fun current =>
      (room (rely.back seen current)).same (rely.sameNode seen current)⟩
  | validateParent parent versionParent node =>
    obtain ⟨held, aimed, room⟩ := asserts
    exact ⟨rely.held shape held, rely.aimed shape (fun none => by cases none) aimed,
      room.same (rely.heldNode shape held.owner).1⟩
  | insertLeaf node =>
    obtain ⟨held, mine, room⟩ := asserts
    have same := rely.heldNode shape held.owner
    refine ⟨rely.held shape held, ?_, room.same same.1⟩
    rw [same.2]
    exact mine
  | unlockReturn node => exact ⟨rely.held shape asserts.1, rely.stored _ asserts.2⟩
  | search parent node versionNode =>
    exact ⟨rely.seen asserts.1, rely.aimed shape (fun _ => asserts.1) asserts.2⟩
  | store parent node versionNode slot =>
    obtain ⟨seen, points⟩ := asserts
    refine ⟨rely.seen seen, fun current => ?_⟩
    obtain ⟨entries, a, is, at_, eq⟩ := points (rely.back seen current)
    obtain ⟨entries', is', keys⟩ := (rely.sameNode seen current).leaf is
    have mapped : (entries'.map key)[slot]? = some (key a) := by
      rw [← keys, List.getElem?_map, at_]
      rfl
    rw [List.getElem?_map, Option.map_eq_some_iff] at mapped
    obtain ⟨a', at', eq'⟩ := mapped
    exact ⟨entries', a', is', at', eq'.trans eq⟩

theorem thread {s s' : Shared K P} (rely : Rely key g s.memory g' s'.memory u)
    (shape : Shape c key g s.memory) (l : Local K P) (asserts : l.Asserts c key g s u) :
    l.Asserts c key g' s' u := by
  cases l with
  | idle => exact fun n mine => asserts n ((rely.owner n).mp mine)
  | busy call known pc =>
    exact ⟨fun n mine => asserts.1 n ((rely.owner n).mp mine), rely.asserts shape pc asserts.2⟩

end Rely

end ElasticIndex.Olc
