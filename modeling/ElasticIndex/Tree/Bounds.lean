import ElasticIndex.Tree.BlindLeaf
import ElasticIndex.Tree.Cursor

set_option autoImplicit false

namespace ElasticIndex.Tree

open Separators LinkedRow Loop

variable {K N : Type} [LinearOrder K] {keys : List K} {x : K} {r : Found}

-- A miss inside a leaf stands at the last key below x.
theorem Predecessor.cut (answer : Predecessor keys x r) (increasing : keys.Pairwise (· < ·))
    (miss : r.hit = false) (larger : r.smallerThanNode = false) : r.position < keys.length ∧
    (∃ k, keys[r.position]? = some k ∧ k < x) ∧
      (∀ k ∈ keys.take (r.position + 1), k < x) ∧ ∀ k ∈ keys.drop (r.position + 1), x < k := by
  obtain ⟨k, here, less, last⟩ := answer.largest miss larger
  obtain ⟨lt, at_⟩ := List.getElem?_eq_some_iff.mp here
  refine ⟨lt, ⟨k, here, less⟩, fun k' inside => ?_, fun k' inside => ?_⟩
  · obtain ⟨i, bound, same⟩ := List.mem_take_iff_getElem.mp inside
    rcases Nat.lt_or_ge i r.position with before | past
    · have := List.pairwise_iff_getElem.mp increasing i r.position (by omega) lt before
      rw [same, at_] at this
      exact this.trans less
    · obtain rfl : i = r.position := by omega
      rw [at_] at same
      exact same ▸ less
  · obtain ⟨i, bound, same⟩ := List.mem_drop_iff_getElem.mp inside
    have here' : keys[r.position + 1 + i]? = some k' :=
      List.getElem?_eq_some_iff.mpr ⟨by omega, by simpa [Nat.add_comm] using same⟩
    rcases lt_trichotomy k' x with below | equal | above
    · have := last _ k' here' below
      omega
    · exact absurd ((answer.hit.mpr (equal ▸ List.mem_of_getElem? here')).symm.trans miss) (by simp)
    · exact above

theorem Predecessor.found_cut (answer : Predecessor keys x r) (increasing : keys.Pairwise (· < ·))
    (hit : r.hit = true) :
    r.position < keys.length ∧ (∀ k ∈ keys.take r.position, k < x) ∧
    (∀ k ∈ keys.drop r.position, x ≤ k) ∧
      (∀ k ∈ keys.take (r.position + 1), k ≤ x) ∧ ∀ k ∈ keys.drop (r.position + 1), x < k := by
  obtain ⟨lt, at_⟩ := List.getElem?_eq_some_iff.mp (answer.found hit).1
  have split := List.take_append_drop r.position keys
  rw [List.drop_eq_getElem_cons lt, at_] at split
  have sorted := increasing
  rw [← split] at sorted
  obtain ⟨_, tail, cross⟩ := List.pairwise_append.mp sorted
  have above := (List.pairwise_cons.mp tail).1
  refine ⟨lt, fun k mem => cross k mem x List.mem_cons_self, fun k mem => ?_,
    fun k mem => ?_, above⟩
  · rw [List.drop_eq_getElem_cons lt, at_] at mem
    rcases List.mem_cons.mp mem with rfl | mem
    · exact le_rfl
    · exact (above k mem).le
  · rw [← List.take_concat_get' _ _ lt, at_] at mem
    rcases List.mem_append.mp mem with mem | mem
    · exact (cross k mem x List.mem_cons_self).le
    · exact (List.mem_singleton.mp mem).le

variable {T : NodeType K N} {slots : Slots} {mem : Addr → K} {Valid : N → Prop}
  {t : BTree K N} {stored : List K}

theorem counted_leaves (lawful : T.Lawful mem slots.leaf Valid) :
    Counted (T.keys mem) (LeafSound T slots Valid) := by
  constructor
  · exact fun valid => valid.counted.trans (keys_length _).symm
  · intro slotuse node valid none
    have some_ := lawful.nonempty valid.valid
    have length : (T.keys mem node).length = T.getValidLen node := keys_length node
    rw [none, List.length_nil] at length
    omega

-- x is there, or nothing is above it, or x comes before its leaf.
def LowerBoundRight (T : NodeType K N) (mem : Addr → K) (t : BTree K N)
    (stored : List K) (x : K) : Prop :=
  x ∈ stored ∨ (∀ k ∈ stored, k < x) ∨
    ∀ root, t.root = some root → ∀ k ∈ t.store.keysAt (T.keys mem) (descend x root.1 root.2), x < k

/-- What lower_bound and upper_bound return in a tree of blindi leaves. -/
structure AnswersBounds (T : NodeType K N) (mem : Addr → K) (endSlot : Leaf N → Nat) (t : BTree K N)
    (stored : List K) : Prop where
  lower : ∀ x, (∃ it, Returns (fun rounds => t.lowerBound T mem endSlot rounds x) it ∧
    Bound (T.keys mem) endSlot t.store (· ∈ stored) (x ≤ ·) it) ↔ LowerBoundRight T mem t stored x
  upper : ∀ x, ∃ it, Returns (fun rounds => t.upperBound T mem endSlot rounds x) it ∧
    Bound (T.keys mem) endSlot t.store (· ∈ stored) (x < ·) it

end ElasticIndex.Tree
