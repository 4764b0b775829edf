import Mathlib.Data.Nat.Bitwise
import ElasticIndex.Shared.SequenceEdit

set_option autoImplicit false

namespace ElasticIndex.Olc

open SequenceEdit

variable {K P : Type} [LinearOrder K]

-- OptLock: bit 1 of the version word is the lock, bit 0 marks an obsolete node. The word is a
-- natural number here; a node has to be locked 2^61 times before the 64-bit word wraps.
def initialVersion : Nat := 0b100

def isLocked (version : Nat) : Bool := version &&& 0b10 == 0b10

def isObsolete (version : Nat) : Bool := version &&& 1 == 1

theorem isLocked_iff (version : Nat) : isLocked version = true ↔ version / 2 % 2 = 1 := by
  have low : version &&& 0b10 = (version.testBit 1).toNat * 2 := Nat.and_two_pow version 1
  have bit : version.testBit 1 = decide (version / 2 % 2 = 1) := by
    rw [Nat.testBit_eq_decide_div_mod_eq, pow_one]
  unfold isLocked
  rw [low, bit]
  by_cases odd : version / 2 % 2 = 1 <;> simp [odd]

theorem isLocked_add (version : Nat) : isLocked (version + 0b10) = !isLocked version := by
  rw [Bool.eq_iff_iff, Bool.not_eq_true', ← Bool.not_eq_true, isLocked_iff, isLocked_iff]
  omega

/-- The template parameters _InnerSlots and _LeafSlots. -/
structure Config where
  innerSlots : Nat
  leafSlots : Nat

structure BTreeInner (K : Type) where
  count : Nat
  keys : Nat → K
  children : Nat → Nat

namespace BTreeInner

def isFull (c : Config) (n : BTreeInner K) : Prop := n.count = c.innerSlots - 1

instance (c : Config) (n : BTreeInner K) : Decidable (n.isFull c) :=
  inferInstanceAs (Decidable (_ = _))

-- The body runs once before the first test, also when the node holds no key.
def lowerBoundLoop (keys : Nat → K) (k : K) : Nat → Nat → Nat → Nat
  | 0, lower, _ => lower
  | fuel + 1, lower, upper =>
    let mid := (upper - lower) / 2 + lower
    if k < keys mid then
      if lower < mid then lowerBoundLoop keys k fuel lower mid else lower
    else if keys mid < k then
      if mid + 1 < upper then lowerBoundLoop keys k fuel (mid + 1) upper else mid + 1
    else mid

def lowerBound (n : BTreeInner K) (k : K) : Nat := lowerBoundLoop n.keys k (n.count + 1) 0 n.count

-- The separator, what is left of the node, and the new right node. The arrays of a new node hold
-- what blank holds until they are written; count is a uint16_t.
def split (n blank : BTreeInner K) : K × BTreeInner K × BTreeInner K :=
  let newCount := n.count - n.count / 2
  let count := (n.count + 65536 - newCount - 1) % 65536
  (n.keys count, { n with count := count },
    { count := newCount
      keys := blit 0 (count + 1) (newCount + 1) n.keys blank.keys
      children := blit 0 (count + 1) (newCount + 1) n.children blank.children })

def insert (n : BTreeInner K) (k : K) (child : Nat) : BTreeInner K :=
  let pos := n.lowerBound k
  let keys := moveUp pos (n.count + 1 - pos) n.keys
  let children := Function.update (moveUp pos (n.count + 1 - pos) n.children) pos child
  { count := (n.count + 1) % 65536
    keys := Function.update keys pos k
    children := Function.update (Function.update children pos (children (pos + 1)))
      (pos + 1) (children pos) }

-- A new root over two nodes.
def makeRoot (blank : BTreeInner K) (k : K) (leftChild rightChild : Nat) : BTreeInner K :=
  { count := 1
    keys := Function.update blank.keys 0 k
    children := Function.update (Function.update blank.children 0 leftChild) 1 rightChild }

end BTreeInner

-- A leaf stores pointers to its keys in order; its node operations act as operations on that
-- sequence.
namespace BTreeLeaf

def isFull (c : Config) (entries : List P) : Prop := entries.length = c.leafSlots

instance (c : Config) (entries : List P) : Decidable (isFull c entries) :=
  inferInstanceAs (Decidable (_ = _))

-- A key that the leaf has already gets a second entry.
def insert (key : P → K) (a : P) : List P → List P
  | [] => [a]
  | b :: rest => if key a < key b then a :: b :: rest else b :: insert key a rest

def search (key : P → K) (entries : List P) (k : K) : Option Nat :=
  entries.findIdx? fun a => key a = k

-- The separator is the largest key of the left half; a half without keys has none.
def split (key : P → K) (entries : List P) : Option (K × List P × List P) :=
  let left := entries.take (entries.length / 2)
  left.getLast?.map fun last => (key last, left, entries.drop (entries.length / 2))

end BTreeLeaf

inductive Node (K P : Type) where
  | inner (n : BTreeInner K)
  | leaf (entries : List P)

/-- Nodes are numbered in the order in which they are allocated and are never freed. -/
structure Memory (K P : Type) where
  root : Nat
  version : Nat → Nat
  node : Nat → Node K P
  allocated : Nat

namespace Memory

-- A successful compare-and-swap and the unlocking fetch_add change the word alike.
def addVersion (m : Memory K P) (node : Nat) : Memory K P :=
  { m with version := Function.update m.version node (m.version node + 0b10) }

def write (m : Memory K P) (node : Nat) (contents : Node K P) : Memory K P :=
  { m with node := Function.update m.node node contents }

def allocate (m : Memory K P) (contents : Node K P) : Memory K P :=
  { m with
    version := Function.update m.version m.allocated initialVersion
    node := Function.update m.node m.allocated contents
    allocated := m.allocated + 1 }

def empty : Memory K P :=
  { root := 0, version := fun _ => initialVersion, node := fun _ => .leaf [], allocated := 1 }

end Memory

end ElasticIndex.Olc
