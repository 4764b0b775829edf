import ElasticIndex.Olc.Node
import ElasticIndex.Shared.Interleaving

set_option autoImplicit false

namespace ElasticIndex.Olc

open Interleaving

variable {T K P : Type} [LinearOrder K]

/-- A call of the tree. insert stores the address of its key, upsert the pointer v. -/
inductive Call (K P : Type) where
  | insert (address : P)
  | lookup (k : K)
  | upsert (k : K) (v : P)

namespace Call

def key (key : P → K) : Call K P → K
  | insert a => key a
  | lookup k => k
  | upsert k _ => k

def inserts : Call K P → Bool
  | insert _ => true
  | _ => false

end Call

inductive Answer (P : Type) where
  | inserted
  | lookedUp (result : Option P)
  | upserted (hit : Bool)

/-- Where a call stands before its next atomic step. A parent comes with its recorded version as
long as that version may still be compared. -/
inductive Pc (K : Type) where
  | loadRoot
  | readRootVersion (node : Nat)
  | checkRoot (node versionNode : Nat)
  | readType (parent : Option (Nat × Nat)) (node versionNode : Nat)
  | innerFull (parent : Option (Nat × Nat)) (node versionNode : Nat)
  | checkParent (parent versionParent node versionNode : Nat)
  | findChild (inner versionNode : Nat)
  | checkInner (inner versionNode child : Nat)
  | readVersion (parent versionParent node : Nat)
  | leafFull (parent : Option (Nat × Nat)) (node versionNode : Nat)
  | lockParent (parent versionParent node versionNode : Nat)
  | lockNode (parent : Option Nat) (node versionNode : Nat)
  | recheckRoot (node : Nat)
  | split (parent : Option Nat) (node : Nat)
  | insertSep (parent : Option Nat) (node : Nat) (sep : K) (new : Nat)
  | unlockNode (parent : Option Nat) (node : Nat)
  | unlockRestart (node : Nat)
  | lockLeaf (parent : Option (Nat × Nat)) (node versionNode : Nat)
  | validateParent (parent versionParent node : Nat)
  | insertLeaf (node : Nat)
  | unlockReturn (node : Nat)
  | search (parent : Option (Nat × Nat)) (node versionNode : Nat)
  | store (parent : Option (Nat × Nat)) (node versionNode slot : Nat)

inductive Outcome (K P : Type) where
  | goto (pc : Pc K)
  | done (answer : Answer P)

namespace Pc

def afterFull (parent : Option (Nat × Nat)) (node versionNode : Nat) : Pc K :=
  match parent with
  | some (p, versionParent) => .lockParent p versionParent node versionNode
  | none => .lockNode none node versionNode

def descend (parent : Option (Nat × Nat)) (node versionNode : Nat) : Pc K :=
  match parent with
  | some (p, versionParent) => .checkParent p versionParent node versionNode
  | none => .findChild node versionNode

def afterLeafLock (parent : Option (Nat × Nat)) (node : Nat) : Pc K :=
  match parent with
  | some (p, versionParent) => .validateParent p versionParent node
  | none => .insertLeaf node

def unlockParent (parent : Option Nat) : Pc K :=
  match parent with
  | some p => .unlockRestart p
  | none => .loadRoot

end Pc

-- The parent and its version become the node's own; a missed split sends the call back to the root.
def resume (c : Config) (blank : BTreeInner K) (key : P → K) (m : Memory K P) (call : Call K P) :
    Pc K → Option (Memory K P × Outcome K P)
  | .loadRoot => some (m, .goto (.readRootVersion m.root))
  | .readRootVersion node =>
    let version := m.version node
    some (m, .goto (if isLocked version || isObsolete version then .loadRoot
      else .checkRoot node version))
  | .checkRoot node versionNode =>
    some (m, .goto (if node ≠ m.root then .loadRoot else .readType none node versionNode))
  | .readType parent node versionNode =>
    match m.node node with
    | .inner _ => some (m, .goto (if call.inserts then .innerFull parent node versionNode
        else .descend parent node versionNode))
    | .leaf _ => some (m, .goto (if call.inserts then .leafFull parent node versionNode
        else .search parent node versionNode))
  | .innerFull parent node versionNode =>
    match m.node node with
    | .inner n => some (m, .goto (if n.isFull c then .afterFull parent node versionNode
        else .descend parent node versionNode))
    | .leaf _ => none
  | .checkParent parent versionParent node versionNode =>
    some (m, .goto (if versionParent ≠ m.version parent then .loadRoot
      else .findChild node versionNode))
  | .findChild inner versionNode =>
    match m.node inner with
    | .inner n =>
      some (m, .goto (.checkInner inner versionNode (n.children (n.lowerBound (call.key key)))))
    | .leaf _ => none
  | .checkInner inner versionNode child =>
    some (m, .goto (if versionNode ≠ m.version inner then .loadRoot
      else .readVersion inner versionNode child))
  | .readVersion parent versionParent node =>
    let version := m.version node
    some (m, .goto (if isLocked version || isObsolete version then .loadRoot
      else .readType (some (parent, versionParent)) node version))
  | .leafFull parent node versionNode =>
    match m.node node with
    | .leaf entries =>
      some (m, .goto (if BTreeLeaf.isFull c entries then .afterFull parent node versionNode
        else .lockLeaf parent node versionNode))
    | .inner _ => none
  | .lockParent parent versionParent node versionNode =>
    if m.version parent = versionParent then
      some (m.addVersion parent, .goto (.lockNode (some parent) node versionNode))
    else some (m, .goto .loadRoot)
  | .lockNode parent node versionNode =>
    if m.version node = versionNode then
      some (m.addVersion node, .goto (match parent with
        | some _ => .split parent node
        | none => .recheckRoot node))
    else some (m, .goto (.unlockParent parent))
  | .recheckRoot node =>
    some (m, .goto (if node ≠ m.root then .unlockRestart node else .split none node))
  | .split parent node =>
    match m.node node with
    | .inner n =>
      let (sep, left, right) := n.split blank
      some ((m.write node (.inner left)).allocate (.inner right),
        .goto (.insertSep parent node sep m.allocated))
    | .leaf entries =>
      (BTreeLeaf.split key entries).map fun (sep, left, right) =>
        ((m.write node (.leaf left)).allocate (.leaf right),
          .goto (.insertSep parent node sep m.allocated))
  | .insertSep (some parent) node sep new =>
    match m.node parent with
    | .inner n =>
      some (m.write parent (.inner (n.insert sep new)), .goto (.unlockNode (some parent) node))
    | .leaf _ => none
  | .insertSep none node sep new =>
    some ({ m.allocate (.inner (.makeRoot blank sep node new)) with root := m.allocated },
      .goto (.unlockNode none node))
  | .unlockNode parent node => some (m.addVersion node, .goto (.unlockParent parent))
  | .unlockRestart node => some (m.addVersion node, .goto .loadRoot)
  | .lockLeaf parent node versionNode =>
    if m.version node = versionNode
      then some (m.addVersion node, .goto (.afterLeafLock parent node))
    else some (m, .goto .loadRoot)
  | .validateParent parent versionParent node =>
    some (m, .goto (if versionParent ≠ m.version parent then .unlockRestart node
      else .insertLeaf node))
  | .insertLeaf node =>
    match m.node node, call with
    | .leaf entries, .insert a => some (m.write node (.leaf (BTreeLeaf.insert key a entries)),
        .goto (.unlockReturn node))
    | _, _ => none
  | .unlockReturn node => some (m.addVersion node, .done .inserted)
  | .search parent node versionNode =>
    match m.node node, call with
    | .leaf entries, .upsert k _ => some (m, match BTreeLeaf.search key entries k with
        | some slot => .goto (.store parent node versionNode slot)
        | none => .done (.upserted false))
    | .leaf entries, .lookup k =>
      some (m, .done
        (.lookedUp ((BTreeLeaf.search key entries k).bind fun slot => entries[slot]?)))
    | _, _ => none
  | .store _ node _ slot =>
    match m.node node, call with
    | .leaf entries, .upsert _ v =>
      some (m.write node (.leaf (entries.set slot v)), .done (.upserted true))
    | _, _ => none

theorem resume_loadRoot {c : Config} {blank : BTreeInner K} {key : P → K} {m : Memory K P}
    {call : Call K P} :
    resume c blank key m call .loadRoot = some (m, .goto (.readRootVersion m.root)) := by
  rw [resume]

/-- begun and returned are the keys of the inserts that have started and that have returned. -/
structure Shared (K P : Type) where
  memory : Memory K P
  begun : List K
  returned : List K

/-- known tells whether an insert of the key had returned when the call began. -/
inductive Local (K P : Type) where
  | idle
  | busy (call : Call K P) (known : Bool) (pc : Pc K)

/-- A thread begins a call or takes the next step of the one it is in. -/
inductive Move (K P : Type) where
  | begin (call : Call K P)
  | resume

def perform (c : Config) (blank : BTreeInner K) (key : P → K) (s : Shared K P) :
    Local K P → Move K P → Option (Shared K P × Local K P × Option (Answer P))
  | .idle, .begin call =>
    let k := call.key key
    some ({ s with begun := if call.inserts then k :: s.begun else s.begun },
      .busy call (decide (k ∈ s.returned)) .loadRoot, none)
  | .busy call known pc, .resume =>
    match resume c blank key s.memory call pc with
    | some (m, .goto pc') => some ({ s with memory := m }, .busy call known pc', none)
    | some (m, .done answer) =>
      some ({ s with memory := m,
                     returned := if call.inserts then call.key key :: s.returned else s.returned },
        .idle, some answer)
    | none => none
  | _, _ => none

theorem perform_cases {c : Config} {blank : BTreeInner K} {key : P → K} {s s' : Shared K P}
    {l l' : Local K P} {move : Move K P} {answer : Option (Answer P)}
    (performs : perform c blank key s l move = some (s', l', answer)) :
    (∃ call, l = .idle ∧ move = .begin call ∧
      s' = { s with begun := if call.inserts then call.key key :: s.begun else s.begun } ∧
      l' = .busy call (decide (call.key key ∈ s.returned)) .loadRoot ∧ answer = none) ∨
    ∃ call known pc m, l = .busy call known pc ∧
      ((∃ pc', resume c blank key s.memory call pc = some (m, .goto pc') ∧
        s' = { s with memory := m } ∧
        l' = .busy call known pc' ∧ answer = none) ∨
      ∃ a, resume c blank key s.memory call pc = some (m, .done a) ∧
        s' = { s with
          memory := m
          returned := if call.inserts then call.key key :: s.returned else s.returned } ∧
        l' = .idle ∧ answer = some a) := by
  cases l with
  | idle =>
    cases move with
    | resume => simp [perform] at performs
    | begin call =>
      simp only [perform, Option.some.injEq, Prod.mk.injEq] at performs
      obtain ⟨rfl, rfl, rfl⟩ := performs
      exact .inl ⟨call, rfl, rfl, rfl, rfl, rfl⟩
  | busy call known pc =>
    cases move with
    | begin call => simp [perform] at performs
    | resume =>
      simp only [perform] at performs
      split at performs
      · rename_i m pc' resumed
        simp only [Option.some.injEq, Prod.mk.injEq] at performs
        obtain ⟨rfl, rfl, rfl⟩ := performs
        exact .inr ⟨call, known, pc, m, rfl, .inl ⟨pc', resumed, rfl, rfl, rfl⟩⟩
      · rename_i m a resumed
        simp only [Option.some.injEq, Prod.mk.injEq] at performs
        obtain ⟨rfl, rfl, rfl⟩ := performs
        exact .inr ⟨call, known, pc, m, rfl, .inr ⟨a, resumed, rfl, rfl, rfl⟩⟩
      · cases performs

-- What has returned stays so.
theorem perform_returned {c : Config} {blank : BTreeInner K} {key : P → K} {s s' : Shared K P}
    {l l' : Local K P} {move : Move K P} {answer : Option (Answer P)}
    (performs : perform c blank key s l move = some (s', l', answer)) :
    s.returned ⊆ s'.returned := by
  rcases perform_cases performs with ⟨call, _, _, rfl, _⟩ | ⟨call, known, pc, m, _,
    ⟨pc', _, rfl, _⟩ | ⟨a, _, rfl, _⟩⟩
  · exact List.Subset.refl _
  · exact List.Subset.refl _
  · dsimp only
    split
    · exact List.subset_cons_self _ _
    · exact List.Subset.refl _

abbrev Machine (T K P : Type) := System T (Shared K P) (Local K P)

def Machine.Start (s : Machine T K P) : Prop :=
  s.shared = { memory := .empty, begun := [], returned := [] } ∧ ∀ t, s.locals t = .idle

-- The moves of a thread that a condition on the state before them lets through.
def Acts (c : Config) (blank : BTreeInner K) (key : P → K)
    (allowed : Shared K P → Local K P → Move K P → Prop) (_ : T) (s : Shared K P) (l : Local K P)
    (s' : Shared K P) (l' : Local K P) : Prop :=
  ∃ move answer, allowed s l move ∧ perform c blank key s l move = some (s', l', answer)

-- Descending from a node by lowerBound, through at most fuel nodes.
def Memory.descend (m : Memory K P) (k : K) : Nat → Nat → Option Nat
  | 0, _ => none
  | fuel + 1, node =>
    match m.node node with
    | .leaf _ => some node
    | .inner n => m.descend k fuel (n.children (n.lowerBound k))

def Memory.Stores (m : Memory K P) (key : P → K) (node : Nat) (k : K) : Prop :=
  ∃ entries, m.node node = .leaf entries ∧ ∃ a ∈ entries, key a = k

end ElasticIndex.Olc
