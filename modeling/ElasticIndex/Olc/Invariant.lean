import Mathlib.Data.Set.Basic
import ElasticIndex.Olc.Machine
import ElasticIndex.Olc.Route

set_option autoImplicit false

namespace ElasticIndex.Olc

variable {T K P : Type} [LinearOrder K]

/-- What the words in memory stand for: the keys a node answers for, the keys its parent sends to it
(more, while the node has been split and its parent has not been told), its height, and the thread
that holds its lock. -/
structure View (T K : Type) where
  span : Nat → Set K
  reach : Nat → Set K
  height : Nat → Nat
  owner : Nat → Option T

variable {c : Config} {blank : BTreeInner K} {key : P → K} {g g' : View T K}
  {m m' : Memory K P} {t u : T} {call : Call K P} {known : Bool} {node p i : Nat}

structure InnerOk (c : Config) (g : View T K) (m : Memory K P) (node : Nat)
    (n : BTreeInner K) : Prop where
  bounded : n.count ≤ c.innerSlots - 1
  sorted : n.Sorted
  inside : ∀ x : Nat, x < n.count → n.keys x ∈ g.span node
  empty : n.count = 0 → ∀ k ∈ g.span node, k ≤ n.keys 0
  known : ∀ j : Nat, j ≤ n.count → n.children j < m.allocated
  level : ∀ j : Nat, j ≤ n.count → g.height (n.children j) + 1 = g.height node
  sends : ∀ j : Nat, j ≤ n.count → g.reach (n.children j) = {k | k ∈ g.span node ∧ n.Routes k j}

structure LeafOk (c : Config) (key : P → K) (g : View T K) (node : Nat)
    (entries : List P) : Prop where
  bounded : entries.length ≤ c.leafSlots
  sorted : BTreeLeaf.Sorted key entries
  inside : ∀ a ∈ entries, key a ∈ g.span node
  level : g.height node = 0

def NodeOk (c : Config) (key : P → K) (g : View T K) (m : Memory K P) (node : Nat) : Prop :=
  match m.node node with
  | .inner n => InnerOk c g m node n
  | .leaf entries => LeafOk c key g node entries

/-- The tree in memory, whatever the threads are doing. -/
structure Shape (c : Config) (key : P → K) (g : View T K) (m : Memory K P) : Prop where
  root : m.root < m.allocated
  top : g.reach m.root = Set.univ
  highest : ∀ n : Nat, n < m.allocated → g.height n ≤ g.height m.root
  owned : ∀ n : Nat, g.owner n ≠ none → n < m.allocated
  locked : ∀ n : Nat, n < m.allocated → (isLocked (m.version n) = true ↔ g.owner n ≠ none)
  settled : ∀ n : Nat, n < m.allocated → g.owner n = none → g.span n = g.reach n
  apart : ∀ n n' : Nat, n < m.allocated → n' < m.allocated → g.height n = g.height n' →
    ∀ k, k ∈ g.span n → k ∈ g.span n' → n = n'
  nodes : ∀ n : Nat, n < m.allocated → NodeOk c key g m n

-- The leaf that answers for the key has it.
def Stored (key : P → K) (g : View T K) (m : Memory K P) (k : K) : Prop :=
  ∀ n : Nat, n < m.allocated → ∀ entries, m.node n = .leaf entries → k ∈ g.span n →
    ∃ a ∈ entries, key a = k

def Child (m : Memory K P) (parent node : Nat) : Prop :=
  ∃ n : BTreeInner K, m.node parent = .inner n ∧ ∃ j : Nat, j ≤ n.count ∧ n.children j = node

def Room (c : Config) (m : Memory K P) (parent : Nat) : Prop :=
  ∃ n : BTreeInner K, m.node parent = .inner n ∧ n.count < c.innerSlots - 1

def Full (c : Config) (m : Memory K P) (node : Nat) : Prop :=
  match m.node node with
  | .inner n => n.count = c.innerSlots - 1
  | .leaf _ => True

def LeafRoom (c : Config) (m : Memory K P) (node : Nat) : Prop :=
  ∃ entries, m.node node = .leaf entries ∧ entries.length < c.leafSlots

theorem Shape.inner (shape : Shape c key g m) (lt : node < m.allocated) {n : BTreeInner K}
    (is : m.node node = .inner n) : InnerOk c g m node n := by
  have ok := shape.nodes node lt
  rwa [NodeOk, is] at ok

theorem Shape.leaf (shape : Shape c key g m) (lt : node < m.allocated) {entries : List P}
    (is : m.node node = .leaf entries) : LeafOk c key g node entries := by
  have ok := shape.nodes node lt
  rwa [NodeOk, is] at ok

theorem Shape.child_lt (shape : Shape c key g m) (lt : p < m.allocated) (child : Child m p node) :
    node < m.allocated := by
  obtain ⟨n, is, j, le, rfl⟩ := child
  exact (shape.inner lt is).known j le

theorem Shape.child_height (shape : Shape c key g m) (lt : p < m.allocated)
    (child : Child m p node) :
    g.height node + 1 = g.height p := by
  obtain ⟨n, is, j, le, rfl⟩ := child
  exact (shape.inner lt is).level j le

theorem Shape.child_reach (shape : Shape c key g m) (lt : p < m.allocated)
    (child : Child m p node) :
    g.reach node ⊆ g.span p := by
  obtain ⟨n, is, j, le, rfl⟩ := child
  intro k hk
  rw [(shape.inner lt is).sends j le] at hk
  exact hk.1

theorem Shape.child_ne_root (shape : Shape c key g m) (lt : p < m.allocated)
    (child : Child m p node) :
    node ≠ m.root := by
  rintro rfl
  have above := shape.child_height lt child
  have below := shape.highest p lt
  omega

theorem Shape.free (shape : Shape c key g m) (lt : node < m.allocated)
    (free : isLocked (m.version node) = false) :
    g.owner node = none := by
  by_contra held
  rw [(shape.locked node lt).mpr held] at free
  exact Bool.false_ne_true free.symm

-- A node has one parent.
theorem Shape.parent_unique (shape : Shape c key g m) {q : Nat} {k : K} (hp : p < m.allocated)
    (hq : q < m.allocated) (level : g.height p = g.height q) (inP : k ∈ g.span p)
    (inQ : k ∈ g.span q) : p = q :=
  shape.apart p q hp hq level k inP inQ

/-- What a thread knows of a node whose version it has recorded. -/
structure Seen (m : Memory K P) (node version : Nat) : Prop where
  lt : node < m.allocated
  free : isLocked version = false
  le : version ≤ m.version node

-- What it knows of the node it stands at, provided that the recorded versions are still those in
-- memory.
def Aimed (c : Config) (g : View T K) (m : Memory K P) (inserts : Bool) (k : K)
    (parent : Option (Nat × Nat)) (node versionNode : Nat) : Prop :=
  match parent with
  | none => m.version node = versionNode → k ∈ g.span node
  | some (p, versionParent) => Seen m p versionParent ∧ (m.version p = versionParent →
      Child m p node ∧ k ∈ g.reach node ∧ (inserts = true → Room c m p))

structure Held (g : View T K) (t : T) (node : Nat) : Prop where
  owner : g.owner node = some t
  whole : g.span node = g.reach node

-- The parent a thread has locked to hang a new node under it, or the root itself.
def Ready (c : Config) (g : View T K) (m : Memory K P) (t : T) (k : K) (parent : Option Nat)
    (node : Nat) : Prop :=
  match parent with
  | none => node = m.root
  | some p => Held g t p ∧ Child m p node ∧ k ∈ g.reach node ∧ Room c m p

/-- A node that has been split and whose parent has not been told. -/
structure Pending (g : View T K) (m : Memory K P) (t : T) (node : Nat) (sep : K)
    (new : Nat) : Prop where
  owner : g.owner node = some t
  lt : new < m.allocated
  ne : new ≠ node
  level : g.height new = g.height node
  member : sep ∈ g.reach node
  left : g.span node = {k | k ∈ g.reach node ∧ k ≤ sep}
  right : g.reach new = {k | k ∈ g.reach node ∧ sep < k}
  some_right : ∃ k, k ∈ g.reach new

def HeldParent (g : View T K) (t : T) (parent : Option Nat) (node : Nat) : Prop :=
  match parent with
  | none => True
  | some p => Held g t p ∧ p ≠ node

-- The locks a thread has where it stands.
def Pc.holds : Pc K → List Nat
  | .lockNode (some p) _ _ => [p]
  | .recheckRoot node => [node]
  | .split parent node => node :: parent.toList
  | .insertSep parent node _ _ => node :: parent.toList
  | .unlockNode parent node => node :: parent.toList
  | .unlockRestart node => [node]
  | .validateParent _ _ node => [node]
  | .insertLeaf node => [node]
  | .unlockReturn node => [node]
  | _ => []

def Pc.Asserts (c : Config) (key : P → K) (g : View T K) (m : Memory K P) (t : T)
    (call : Call K P) : Pc K → Prop
  | .loadRoot => True
  | .readRootVersion node => node < m.allocated
  | .checkRoot node versionNode => Seen m node versionNode
  | .readType parent node versionNode =>
    Seen m node versionNode ∧ Aimed c g m call.inserts (call.key key) parent node versionNode
  | .innerFull parent node versionNode =>
    call.inserts = true ∧ Seen m node versionNode ∧
      Aimed c g m call.inserts (call.key key) parent node versionNode
  | .checkParent parent versionParent node versionNode =>
    Seen m node versionNode ∧
      Aimed c g m call.inserts (call.key key) (some (parent, versionParent)) node versionNode ∧
      (call.inserts = true → m.version node = versionNode → Room c m node)
  | .findChild inner versionNode =>
    Seen m inner versionNode ∧ (m.version inner = versionNode → call.key key ∈ g.span inner) ∧
      (call.inserts = true → m.version inner = versionNode → Room c m inner)
  | .checkInner inner versionNode child =>
    Aimed c g m call.inserts (call.key key) (some (inner, versionNode)) child 0
  | .readVersion parent versionParent node =>
    node < m.allocated ∧
      Aimed c g m call.inserts (call.key key) (some (parent, versionParent)) node 0
  | .leafFull parent node versionNode =>
    call.inserts = true ∧ Seen m node versionNode ∧
      Aimed c g m call.inserts (call.key key) parent node versionNode
  | .lockParent parent versionParent node versionNode =>
    call.inserts = true ∧ Seen m node versionNode ∧
      Aimed c g m call.inserts (call.key key) (some (parent, versionParent)) node versionNode ∧
      (m.version node = versionNode → Full c m node)
  | .lockNode parent node versionNode =>
    Seen m node versionNode ∧ (m.version node = versionNode → Full c m node) ∧
      ∀ p : Nat, parent = some p → Ready c g m t (call.key key) (some p) node
  | .recheckRoot node => Held g t node ∧ Full c m node
  | .split parent node => Held g t node ∧ Full c m node ∧ Ready c g m t (call.key key) parent node
  | .insertSep parent node sep new =>
    Pending g m t node sep new ∧ Ready c g m t (call.key key) parent node
  | .unlockNode parent node => Held g t node ∧ HeldParent g t parent node
  | .unlockRestart node => Held g t node
  | .lockLeaf parent node versionNode =>
    call.inserts = true ∧ Seen m node versionNode ∧
      Aimed c g m call.inserts (call.key key) parent node versionNode ∧
      (m.version node = versionNode → LeafRoom c m node)
  | .validateParent parent versionParent node =>
    Held g t node ∧ Aimed c g m call.inserts (call.key key) (some (parent, versionParent)) node 0 ∧
      LeafRoom c m node
  | .insertLeaf node => Held g t node ∧ call.key key ∈ g.span node ∧ LeafRoom c m node
  | .unlockReturn node => Held g t node ∧ Stored key g m (call.key key)
  | .search parent node versionNode =>
    Seen m node versionNode ∧ Aimed c g m call.inserts (call.key key) parent node versionNode
  | .store _ node versionNode slot =>
    Seen m node versionNode ∧
      (m.version node = versionNode → ∃ entries a, m.node node = .leaf entries ∧
      entries[slot]? = some a ∧ key a = call.key key)

def Local.Asserts (c : Config) (key : P → K) (g : View T K) (s : Shared K P)
    (t : T) : Local K P → Prop
  | .idle => ∀ n : Nat, g.owner n ≠ some t
  | .busy call _ pc =>
    (∀ n : Nat, g.owner n = some t → n ∈ pc.holds) ∧ pc.Asserts c key g s.memory t call

def Good (c : Config) (key : P → K) (g : View T K) (s : Shared K P) : Prop :=
  Shape c key g s.memory ∧ ∀ k ∈ s.returned, Stored key g s.memory k

end ElasticIndex.Olc
