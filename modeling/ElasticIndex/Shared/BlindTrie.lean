import ElasticIndex.Shared.BlindSequence

set_option autoImplicit false

namespace BlindTrie

open BitOrder SequenceEdit BlindSequence

/-- Compressed binary tries: a branch holds the bit its two sides first differ at. -/
inductive Trie where
  | leaf
  | branch (bit : Nat) (left right : Trie)
  deriving DecidableEq, Repr

namespace Trie

def leaves : Trie → Nat
  | .leaf => 1
  | .branch _ l r => l.leaves + r.leaves

-- The bit of each branch and the number of leaves on its left, a branch before its sides.
def preorder : Trie → List (Nat × Nat)
  | .leaf => []
  | .branch d l r => (d, l.leaves) :: (l.preorder ++ r.preorder)

@[simp] theorem leaves_leaf : Trie.leaf.leaves = 1 := rfl

@[simp] theorem leaves_branch (d : Nat) (l r : Trie) : (Trie.branch d l r).leaves =
    l.leaves + r.leaves := rfl

theorem leaves_pos (t : Trie) : 1 ≤ t.leaves := by
  induction t with
  | leaf => exact le_rfl
  | branch d l r ihl _ => exact le_trans ihl (Nat.le_add_right _ _)

@[simp] theorem length_preorder (t : Trie) : t.preorder.length + 1 = t.leaves := by
  induction t with
  | leaf => rfl
  | branch d l r ihl ihr =>
    simp only [preorder, List.length_cons, List.length_append, leaves_branch]
    omega

end Trie

open Trie

-- The two arrays hold the preorder listing of a trie from entry j on.
def Lists (bits counts : Nat → Nat) : Nat → Trie → Prop
  | _, .leaf => True
  | j, .branch d l r =>
    bits j = d ∧ counts j = l.leaves ∧ Lists bits counts (j + 1) l ∧
      Lists bits counts (j + l.leaves) r

variable {bits counts bits' counts' : Nat → Nat} {i j j' d e lo hi f : Nat} {t l r : Trie}

theorem Lists.move (h : Lists bits counts j t)
    (same : ∀ i, i + 1 < t.leaves → bits' (j' + i) = bits (j + i) ∧
    counts' (j' + i) = counts (j + i)) : Lists bits' counts' j' t := by
  induction t generalizing j j' with
  | leaf => trivial
  | branch d l r ihl ihr =>
    obtain ⟨bit, count, left, right⟩ := h
    have posL := l.leaves_pos
    have posR := r.leaves_pos
    rw [leaves_branch] at same
    obtain ⟨sameBit, sameCount⟩ := same 0 (by omega)
    refine ⟨sameBit.trans bit, sameCount.trans count, ihl left fun i hi => ?_,
      ihr right fun i hi => ?_⟩
    · have := same (1 + i) (by omega)
      rwa [← Nat.add_assoc, ← Nat.add_assoc] at this
    · have := same (l.leaves + i) (by omega)
      rwa [← Nat.add_assoc, ← Nat.add_assoc] at this

theorem Lists.congr (h : Lists bits counts j t)
    (same : ∀ i, j ≤ i → i + 1 < j + t.leaves → bits' i = bits i ∧
    counts' i = counts i) : Lists bits' counts' j t :=
  h.move fun i hi => same (j + i) (by omega) (by omega)

theorem lists_iff : Lists bits counts j t ↔
    entries (t.leaves - 1) (fun i => (bits (j + i), counts (j + i))) = t.preorder := by
  induction t generalizing j with
  | leaf => exact ⟨fun _ => rfl, fun _ => trivial⟩
  | branch d l r ihl ihr =>
    have posL := l.leaves_pos
    have posR := r.leaves_pos
    have size : l.leaves + r.leaves - 1 = 1 + ((l.leaves - 1) + (r.leaves - 1)) := by omega
    rw [leaves_branch, size, entries_add, entries_add, preorder]
    have head : entries 1 (fun i => (bits (j + i), counts (j + i))) = [(bits j, counts j)] := rfl
    have right (i : Nat) : j + (1 + (l.leaves - 1 + i)) = j + l.leaves + i := by omega
    have left (i : Nat) : j + (1 + i) = j + 1 + i := by omega
    simp only [head, right, left, List.singleton_append, List.cons.injEq, Prod.mk.injEq]
    have whole {u u' v v' : List (Nat × Nat)} (size : u.length = u'.length) :
        u ++ v = u' ++ v' ↔ u = u' ∧ v = v' :=
      ⟨fun same => List.append_inj same size, fun ⟨first, second⟩ => by rw [first, second]⟩
    have length : l.leaves - 1 = l.preorder.length := by
      have := l.length_preorder
      omega
    rw [whole (by rw [length_entries, length])]
    simp only [Lists, ihl, ihr]
    tauto

theorem Lists.same (h : Lists bits counts 0 t) (g : Lists bits' counts' 0 t) {i : Nat}
    (inside : i + 1 < t.leaves) :
    bits i = bits' i ∧ counts i = counts' i := by
  have listing := (lists_iff.mp h).trans (lists_iff.mp g).symm
  have at_ := List.getElem_of_eq listing (i := i) (by rw [length_entries]; omega)
  rw [getElem_entries, getElem_entries, Nat.zero_add] at at_
  exact Prod.mk.inj at_

-- The keys lo, lo + 1, ... stand at the leaves, and the two sides of a branch first differ at its
-- bit.
def Splits {K : Type} (B : BitKeys K) (k : Nat → K) : Nat → Trie → Prop
  | _, .leaf => True
  | lo, .branch d l r =>
    (∀ i j, lo ≤ i → i < lo + l.leaves → lo + l.leaves ≤ j → j < lo + l.leaves + r.leaves →
      B.LessAt (k i) (k j) d) ∧ Splits B k lo l ∧ Splits B k (lo + l.leaves) r

variable {K : Type} {B : BitKeys K} {k k' : Nat → K} {x : K}

theorem Splits.move {lo' : Nat} (h : Splits B k lo t)
    (same : ∀ i, i < t.leaves → k' (lo' + i) = k (lo + i)) :
    Splits B k' lo' t := by
  induction t generalizing lo lo' with
  | leaf => trivial
  | branch d l r ihl ihr =>
    obtain ⟨apart, left, right⟩ := h
    rw [leaves_branch] at same
    refine ⟨fun i j hi hi' hj hj' => ?_, ihl left fun i hi => same i (by omega),
      ihr right fun i hi => ?_⟩
    · have first := same (i - lo') (by omega)
      have second := same (j - lo') (by omega)
      rw [Nat.add_sub_cancel' (by omega)] at first second
      rw [first, second]
      exact apart _ _ (by omega) (by omega) (by omega) (by omega)
    · have := same (l.leaves + i) (by omega)
      rwa [← Nat.add_assoc, ← Nat.add_assoc] at this

theorem Splits.congr (h : Splits B k lo t) (same : ∀ i, lo ≤ i → i < lo + t.leaves → k' i = k i) :
    Splits B k' lo t :=
  h.move fun i hi => same (lo + i) (by omega) (by omega)

theorem Splits.less (h : Splits B k lo t) (left : lo ≤ i) (lt : i < j) (right : j < lo + t.leaves) :
    B.Less (k i) (k j) := by
  induction t generalizing lo with
  | leaf =>
    rw [leaves_leaf] at right
    omega
  | branch d l r ihl ihr =>
    obtain ⟨apart, low, high⟩ := h
    rw [leaves_branch] at right
    by_cases first : j < lo + l.leaves
    · exact ihl low left first
    · by_cases second : lo + l.leaves ≤ i
      · exact ihr high second (by omega)
      · exact (apart i j left (by omega) (by omega) (by omega)).less

theorem Splits.injective (h : Splits B k lo t) (hi : lo ≤ i) (hi' : i < lo + t.leaves) (hj : lo ≤ j)
    (hj' : j < lo + t.leaves) (same : k i = k j) : i = j := by
  rcases Nat.lt_trichotomy i j with lt | eq | lt
  · exact absurd same (h.less hi lt hj').ne
  · exact eq
  · exact absurd same.symm (h.less hj lt hi').ne

-- All keys below a branch agree up to its bit.
theorem Splits.agree (h : Splits B k lo (.branch d l r)) (hi : lo ≤ i)
    (hi' : i < lo + (l.leaves + r.leaves)) (hj : lo ≤ j) (hj' : j < lo + (l.leaves + r.leaves)) :
    B.Agree (k i) (k j) d := by
  have posL := l.leaves_pos
  have posR := r.leaves_pos
  have first (m : Nat) (hm : lo ≤ m) (hm' : m < lo + (l.leaves + r.leaves)) :
      B.Agree (k m) (k lo) d := by
    by_cases low : m < lo + l.leaves
    · have up := h.1 m (lo + l.leaves) hm low le_rfl (by omega)
      have down := h.1 lo (lo + l.leaves) le_rfl (by omega) le_rfl (by omega)
      exact up.agree.trans down.agree.symm
    · exact (h.1 lo m le_rfl (by omega) (by omega) (by omega)).agree.symm
  exact (first i hi hi').trans (first j hj hj').symm

-- The keys determine the trie.
theorem Splits.unique {t' : Trie} (h : Splits B k lo t) (g : Splits B k lo t')
    (size : t.leaves = t'.leaves) :
    t = t' := by
  induction t generalizing lo t' with
  | leaf =>
    cases t' with
    | leaf => rfl
    | branch d' l' r' =>
      have := l'.leaves_pos
      have := r'.leaves_pos
      rw [leaves_leaf, leaves_branch] at size
      omega
  | branch d l r ihl ihr =>
    cases t' with
    | leaf =>
      have := l.leaves_pos
      have := r.leaves_pos
      rw [leaves_leaf, leaves_branch] at size
      omega
    | branch d' l' r' =>
      have posL := l.leaves_pos
      have posR := r.leaves_pos
      have posL' := l'.leaves_pos
      have posR' := r'.leaves_pos
      rw [leaves_branch, leaves_branch] at size
      have ends := h.1 lo (lo + l.leaves + r.leaves - 1) le_rfl (by omega) (by omega) (by omega)
      have ends' := g.1 lo (lo + l.leaves + r.leaves - 1) le_rfl (by omega) (by omega) (by omega)
      obtain rfl := ends.unique ends'
      have same : l.leaves = l'.leaves := by
        rcases Nat.lt_trichotomy l.leaves l'.leaves with lt | eq | lt
        · have high := (h.1 lo (lo + l.leaves) le_rfl (by omega) le_rfl (by omega)).high
          rw [(g.1 (lo + l.leaves) (lo + l'.leaves) (by omega) (by omega) le_rfl (by omega)).low]
            at high
          cases high
        · exact eq
        · have high := (g.1 lo (lo + l'.leaves) le_rfl (by omega) le_rfl (by omega)).high
          rw [(h.1 (lo + l'.leaves) (lo + l.leaves) (by omega) (by omega) le_rfl (by omega)).low]
            at high
          cases high
      have right' := g.2.2
      rw [← same] at right'
      rw [ihl h.2.1 g.2.1 same, ihr h.2.2 right' (by omega)]

-- The leaf a key is led to by its own bits.
def blindLeaf (bitOf : Nat → Bool) : Trie → Nat
  | .leaf => 0
  | .branch d l r => if bitOf d then l.leaves + blindLeaf bitOf r else blindLeaf bitOf l

theorem blindLeaf_lt (bitOf : Nat → Bool) (t : Trie) : blindLeaf bitOf t < t.leaves := by
  induction t with
  | leaf => exact Nat.zero_lt_one
  | branch d l r ihl ihr =>
    have := r.leaves_pos
    unfold blindLeaf
    rw [leaves_branch]
    split_ifs <;> omega

-- No other leaf shares more with the key.
theorem Splits.bestIn (h : Splits B k lo t) :
    BestIn B k x lo (lo + t.leaves - 1) (lo + blindLeaf (B.bit x) t) := by
  induction t generalizing lo with
  | leaf => exact BestIn.single lo
  | branch d l r ihl ihr =>
    obtain ⟨apart, low, high⟩ := h
    have posL := l.leaves_pos
    have posR := r.leaves_pos
    have bestL := ihl low
    have bestR := ihr high
    rw [leaves_branch]
    cases turn : B.bit x d with
    | true =>
      have place : lo + (l.leaves + blindLeaf (B.bit x) r) =
        lo + l.leaves + blindLeaf (B.bit x) r := by omega
      rw [blindLeaf, turn, if_pos rfl, place]
      refine ⟨by omega, by have := bestR.right; omega, fun j hj hj' e agree => ?_⟩
      by_cases side : j < lo + l.leaves
      · have less := apart j (lo + l.leaves) hj side le_rfl (by omega)
        have shallow : e ≤ d := by
          by_contra deep
          have same := agree d (by omega)
          rw [turn, less.low] at same
          cases same
        exact bestR.most (lo + l.leaves) le_rfl (by omega) e (agree.trans (less.agree.mono shallow))
      · exact bestR.most j (by omega) (by omega) e agree
    | false =>
      rw [blindLeaf, turn, if_neg Bool.false_ne_true]
      refine ⟨by omega, by have := bestL.right; omega, fun j hj hj' e agree => ?_⟩
      by_cases side : j < lo + l.leaves
      · exact bestL.most j hj (by omega) e agree
      · have less := apart lo j le_rfl (by omega) (by omega) (by omega)
        have shallow : e ≤ d := by
          by_contra deep
          have same := agree d (by omega)
          rw [turn, less.high] at same
          cases same
        exact bestL.most lo le_rfl (by omega) e (agree.trans (less.agree.mono shallow).symm)

-- x first differs from y at bit d, and is the larger one or the smaller one.
def Beside (B : BitKeys K) (x : K) (d : Nat) : Bool → K → Prop
  | true, y => B.LessAt y x d
  | false, y => B.LessAt x y d

variable {large : Bool} {y y' : K}

theorem Beside.agree (h : Beside B x d large y) : B.Agree x y d := by
  cases large with
  | true => exact BitKeys.LessAt.agree h |>.symm
  | false => exact BitKeys.LessAt.agree h

theorem Beside.inside (h : Beside B x d large y) : d < B.width := by
  cases large with
  | true => exact BitKeys.LessAt.inside h
  | false => exact BitKeys.LessAt.inside h

theorem Beside.move (h : Beside B x d large y) (agree : B.Agree y' y e) (lt : d < e) :
    Beside B x d large y' := by
  cases large with
  | true => exact BitKeys.LessAt.of_agree_left h agree lt
  | false => exact BitKeys.LessAt.of_agree_right h agree.symm lt

/-- x leaves the keys lo .. lo + n - 1 at bit d: key lo + f goes on as long as any, and differs
there. -/
structure Departs (B : BitKeys K) (k : Nat → K) (x : K) (lo n f d : Nat) (large : Bool) : Prop where
  bound : f < n
  beside : Beside B x d large (k (lo + f))
  most : ∀ j, lo ≤ j → j < lo + n → ¬ B.Agree x (k j) (d + 1)

theorem Beside.not_agree (h : Beside B x d large y) : ¬ B.Agree x y (d + 1) := by
  intro agree
  cases large with
  | true => exact absurd (BitKeys.LessAt.agree_le h agree.symm) (by omega)
  | false => exact absurd (BitKeys.LessAt.agree_le h agree) (by omega)

theorem departs_of_best {n : Nat} (best : BestIn B k x lo (lo + n - 1) (lo + f)) (bound : f < n)
    (beside : Beside B x d large (k (lo + f))) : Departs B k x lo n f d large :=
  ⟨bound, beside, fun j hj hj' agree => beside.not_agree (best.most j hj (by omega) (d + 1) agree)⟩

theorem Departs.left (h : Departs B k x lo (l.leaves + r.leaves) f d large) (turn : f < l.leaves) :
    Departs B k x lo l.leaves f d large :=
  ⟨turn, h.beside, fun j hj hj' => h.most j hj (by omega)⟩

theorem Departs.right (h : Departs B k x lo (l.leaves + r.leaves) f d large) (turn : l.leaves ≤ f) :
    Departs B k x (lo + l.leaves) r.leaves (f - l.leaves) d large := by
  have bound := h.bound
  refine ⟨by omega, ?_, fun j hj hj' => h.most j (by omega) (by omega)⟩
  have beside := h.beside
  rwa [show lo + l.leaves + (f - l.leaves) = lo + f by omega]

-- A branch that tests a later bit has all its keys on one side of x.
theorem Departs.whole (h : Splits B k lo (.branch e l r))
    (departs : Departs B k x lo (l.leaves + r.leaves) f d large) (deep : d ≤ e) (hi : lo ≤ i)
    (hi' : i < lo + (l.leaves + r.leaves)) : Beside B x d large (k i) := by
  have bound := departs.bound
  have posL := l.leaves_pos
  have posR := r.leaves_pos
  have ne : d ≠ e := by
    rintro rfl
    have less := h.1 lo (lo + l.leaves) le_rfl (by omega) le_rfl (by omega)
    have agree (j : Nat) (hj : lo ≤ j) (hj' : j < lo + (l.leaves + r.leaves)) : B.Agree x (k j) d :=
      departs.beside.agree.trans (h.agree (by omega) (by omega) hj hj')
    have more (j : Nat) (hj : lo ≤ j) (hj' : j < lo + (l.leaves + r.leaves))
        (same : B.bit x d = B.bit (k j) d) : False := by
      refine departs.most j hj hj' fun m hm => ?_
      by_cases last : m = d
      · rw [last, same]
      · exact agree j hj hj' m (by omega)
    cases bit : B.bit x d with
    | false => exact more lo le_rfl (by omega) (bit.trans less.low.symm)
    | true => exact more (lo + l.leaves) (by omega) (by omega) (bit.trans less.high.symm)
  exact departs.beside.move (h.agree hi hi' (by omega) (by omega)) (by omega)

-- Where x goes among the leaves, and the trie with x.
def gap (d : Nat) (large : Bool) : Trie → Nat → Nat
  | .leaf, _ => large.toNat
  | .branch e l r, f =>
    if e < d then if f < l.leaves then gap d large l f else l.leaves + gap d large r (f - l.leaves)
    else if large then l.leaves + r.leaves else 0

def graft (d : Nat) (large : Bool) : Trie → Nat → Trie
  | .leaf, _ => .branch d .leaf .leaf
  | .branch e l r, f =>
    if e < d then
      if f < l.leaves then .branch e (graft d large l f) r
        else .branch e l (graft d large r (f - l.leaves))
    else if large then .branch d (.branch e l r) .leaf
    else .branch d .leaf (.branch e l r)

theorem gap_bounds (d : Nat) (large : Bool) (t : Trie) (f : Nat) :
    (large = true → 1 ≤ gap d large t f ∧ gap d large t f ≤ t.leaves) ∧
    (large = false → gap d large t f < t.leaves) := by
  induction t generalizing f with
  | leaf => cases large <;> simp [gap]
  | branch e l r ihl ihr =>
    have left := ihl f
    have right := ihr (f - l.leaves)
    have posL := l.leaves_pos
    have posR := r.leaves_pos
    unfold gap
    rw [leaves_branch]
    constructor
    · intro big
      have left := left.1 big
      have right := right.1 big
      split_ifs <;> omega
    · intro small
      have left := left.2 small
      have right := right.2 small
      split_ifs <;> first | omega | simp_all

theorem gap_le (d : Nat) (large : Bool) (t : Trie) (f : Nat) : gap d large t f ≤ t.leaves := by
  obtain ⟨big, small⟩ := gap_bounds d large t f
  cases large with
  | true => exact (big rfl).2
  | false => exact (small rfl).le

@[simp] theorem leaves_graft (d : Nat) (large : Bool) (t : Trie) (f : Nat) :
    (graft d large t f).leaves = t.leaves + 1 := by
  induction t generalizing f with
  | leaf => rfl
  | branch e l r ihl ihr =>
    unfold graft
    split_ifs
    · rw [leaves_branch, ihl, leaves_branch]
      omega
    · rw [leaves_branch, ihr, leaves_branch]
      omega
    · rfl
    · rw [leaves_branch, leaves_leaf, leaves_branch]
      omega

-- A branch over all keys and x.
theorem Splits.join_x (h : Splits B k lo t)
    (beside : ∀ i, lo ≤ i → i < lo + t.leaves → Beside B x d large (k i)) :
    Splits B (insertAt (lo + if large then t.leaves else 0) x k) lo
      (if large then .branch d t .leaf else .branch d .leaf t) := by
  cases large with
  | true =>
    rw [if_pos rfl, if_pos rfl]
    refine ⟨fun i j hi hi' hj hj' => ?_, h.congr fun i _ hi => insertAt_below _ _ hi, trivial⟩
    obtain rfl : j = lo + t.leaves := by
      rw [leaves_leaf] at hj'
      omega
    rw [insertAt_below _ _ hi', insertAt_self]
    exact beside i hi hi'
  | false =>
    rw [if_neg Bool.false_ne_true, if_neg Bool.false_ne_true, Nat.add_zero]
    refine ⟨fun i j hi hi' hj hj' => ?_, trivial, h.move fun i hi => ?_⟩
    · rw [leaves_leaf] at hi' hj hj'
      obtain rfl : i = lo := by omega
      rw [insertAt_self, insertAt_above _ _ (by omega)]
      exact beside (j - 1) (by omega) (by omega)
    · rw [leaves_leaf, show lo + 1 + i = lo + i + 1 by omega, insertAt_succ _ _ (by omega)]

theorem Splits.graft (h : Splits B k lo t) (departs : Departs B k x lo t.leaves f d large) :
    Splits B (insertAt (lo + gap d large t f) x k) lo (graft d large t f) := by
  induction t generalizing lo f with
  | leaf =>
    have f0 : f = 0 := by
      have := departs.bound
      rw [leaves_leaf] at this
      omega
    subst f0
    have beside (i : Nat) (hi : lo ≤ i) (hi' : i < lo + Trie.leaf.leaves) :
        Beside B x d large (k i) := by
      rw [leaves_leaf] at hi'
      rw [show i = lo + 0 by omega]
      exact departs.beside
    have here := h.join_x beside
    cases large <;> exact here
  | branch e l r ihl ihr =>
    rw [leaves_branch] at departs
    have bound := departs.bound
    have posL := l.leaves_pos
    have posR := r.leaves_pos
    by_cases shallow : e < d
    · by_cases turn : f < l.leaves
      · have gapL := gap_le d large l f
        rw [BlindTrie.gap, BlindTrie.graft, if_pos shallow, if_pos shallow,
          if_pos turn, if_pos turn]
        refine ⟨fun i j hi hi' hj hj' => ?_, ihl h.2.1 (departs.left turn),
          h.2.2.move fun i hi => ?_⟩
        · rw [leaves_graft] at hi' hj hj'
          rw [insertAt_above (i := j) _ _ (by omega)]
          rcases Nat.lt_trichotomy i (lo + gap d large l f) with lt | same | lt
          · rw [insertAt_below _ _ lt]
            exact h.1 i (j - 1) hi (by omega) (by omega) (by omega)
          · rw [same, insertAt_self]
            exact (h.1 (lo + f) (j - 1) (by omega) (by omega) (by omega) (by omega)).of_agree_left
              departs.beside.agree shallow
          · rw [insertAt_above _ _ lt]
            exact h.1 (i - 1) (j - 1) (by omega) (by omega) (by omega) (by omega)
        · rw [leaves_graft, show lo + (l.leaves + 1) + i = lo + l.leaves + i + 1 by omega,
            insertAt_succ _ _ (by omega)]
      · have gapR := gap_le d large r (f - l.leaves)
        rw [BlindTrie.gap, BlindTrie.graft, if_pos shallow, if_pos shallow, if_neg turn,
          if_neg turn, ← Nat.add_assoc]
        refine ⟨fun i j hi hi' hj hj' => ?_, h.2.1.congr fun i _ hi =>
          insertAt_below _ _ (by omega),
          ihr h.2.2 (departs.right (by omega))⟩
        rw [leaves_graft] at hj'
        rw [insertAt_below (i := i) _ _ (by omega)]
        rcases Nat.lt_trichotomy j (lo + l.leaves + gap d large r (f - l.leaves))
          with lt | same | lt
        · rw [insertAt_below _ _ lt]
          exact h.1 i j hi (by omega) (by omega) (by omega)
        · rw [same, insertAt_self]
          exact (h.1 i (lo + f) hi (by omega) (by omega) (by omega)).of_agree_right
            departs.beside.agree.symm shallow
        · rw [insertAt_above _ _ lt]
          exact h.1 i (j - 1) hi (by omega) (by omega) (by omega)
    · have beside (i : Nat) (hi : lo ≤ i) (hi' : i < lo + (Trie.branch e l r).leaves) :
          Beside B x d large (k i) :=
        Departs.whole h departs (by omega) hi hi'
      have here := h.join_x beside
      rw [BlindTrie.gap, BlindTrie.graft, if_neg shallow, if_neg shallow]
      exact here

-- The bit of the new branch is in the listing.
theorem graft_mem (d : Nat) (large : Bool) (t : Trie) (f : Nat) :
    ∃ m, (d, m) ∈ (graft d large t f).preorder := by
  induction t generalizing f with
  | leaf => exact ⟨1, List.mem_cons_self⟩
  | branch e l r ihl ihr =>
    obtain ⟨m, left⟩ := ihl f
    obtain ⟨m', right⟩ := ihr (f - l.leaves)
    unfold graft
    split_ifs
    · exact ⟨m, List.mem_cons_of_mem _ (List.mem_append_left _ left)⟩
    · exact ⟨m', List.mem_cons_of_mem _ (List.mem_append_right _ right)⟩
    · exact ⟨_, List.mem_cons_self⟩
    · exact ⟨_, List.mem_cons_self⟩

-- The trie without leaf p, and without its parent.
def prune : Trie → Nat → Trie
  | .leaf, _ => .leaf
  | .branch e l r, p =>
    if p < l.leaves then if l.leaves = 1 then r else .branch e (prune l p) r
    else if r.leaves = 1 then l else .branch e l (prune r (p - l.leaves))

theorem leaves_prune {p : Nat} (several : 2 ≤ t.leaves) (bound : p < t.leaves) :
    (prune t p).leaves + 1 = t.leaves := by
  induction t generalizing p with
  | leaf =>
    rw [leaves_leaf] at several
    omega
  | branch e l r ihl ihr =>
    have posL := l.leaves_pos
    have posR := r.leaves_pos
    rw [leaves_branch] at bound ⊢
    unfold prune
    split_ifs with left one one
    · omega
    · have := ihl (p := p) (by omega) left
      rw [leaves_branch]
      omega
    · omega
    · have := ihr (p := p - l.leaves) (by omega) (by omega)
      rw [leaves_branch]
      omega

theorem Splits.prune {p : Nat} (h : Splits B k lo t) (several : 2 ≤ t.leaves)
    (bound : p < t.leaves) :
    Splits B (eraseAt (lo + p) k) lo (prune t p) := by
  induction t generalizing lo p with
  | leaf =>
    rw [leaves_leaf] at several
    omega
  | branch e l r ihl ihr =>
    obtain ⟨apart, low, high⟩ := h
    have posL := l.leaves_pos
    have posR := r.leaves_pos
    rw [leaves_branch] at bound several
    unfold BlindTrie.prune
    split_ifs with left one one
    · refine high.move fun i hi => ?_
      rw [eraseAt_above _ (by omega), one, Nat.add_right_comm]
    · have size := leaves_prune (p := p) (t := l) (by omega) left
      refine ⟨fun i j hi hi' hj hj' => ?_, ihl low (by omega) left, high.move fun i hi => ?_⟩
      · rw [eraseAt_above (i := j) _ (by omega)]
        by_cases before : i < lo + p
        · rw [eraseAt_below _ before]
          exact apart i (j + 1) hi (by omega) (by omega) (by omega)
        · rw [eraseAt_above _ (by omega)]
          exact apart (i + 1) (j + 1) (by omega) (by omega) (by omega) (by omega)
      · rw [eraseAt_above _ (by omega), show lo + (BlindTrie.prune l p).leaves + i + 1 =
          lo + l.leaves + i by omega]
    · exact low.congr fun i _ hi => eraseAt_below _ (by omega)
    · have size := leaves_prune (p := p - l.leaves) (t := r) (by omega) (by omega)
      have rest := ihr (p := p - l.leaves) high (by omega) (by omega)
      rw [show lo + l.leaves + (p - l.leaves) = lo + p by omega] at rest
      refine ⟨fun i j hi hi' hj hj' => ?_, low.congr fun i _ hi => eraseAt_below _ (by omega), rest⟩
      rw [eraseAt_below (i := i) _ (by omega)]
      by_cases before : j < lo + p
      · rw [eraseAt_below _ before]
        exact apart i j hi (by omega) (by omega) (by omega)
      · rw [eraseAt_above _ (by omega)]
        exact apart i (j + 1) hi (by omega) (by omega) (by omega)

-- All branches test a bit below a bound.
def Trie.Under (bound : Nat) : Trie → Prop
  | .leaf => True
  | .branch d l r => d < bound ∧ l.Under bound ∧ r.Under bound

theorem Lists.under {bound : Nat} (h : Lists bits counts j t) :
    t.Under bound ↔ ∀ i, j ≤ i → i + 1 < j + t.leaves → bits i < bound := by
  induction t generalizing j with
  | leaf =>
    refine ⟨fun _ i hi hi' => ?_, fun _ => trivial⟩
    rw [leaves_leaf] at hi'
    omega
  | branch d l r ihl ihr =>
    obtain ⟨bit, _, left, right⟩ := h
    have posL := l.leaves_pos
    have posR := r.leaves_pos
    rw [Trie.Under, ihl left, ihr right, leaves_branch]
    refine ⟨fun ⟨root, low, high⟩ i hi hi' => ?_,
      fun all => ⟨?_, fun i hi hi' => ?_, fun i hi hi' => ?_⟩⟩
    · by_cases first : i = j
      · rw [first, bit]
        exact root
      · by_cases inside : i + 1 < j + 1 + l.leaves
        · exact low i (by omega) inside
        · exact high i (by omega) (by omega)
    · rw [← bit]
      exact all j le_rfl (by omega)
    · exact all i (by omega) (by omega)
    · exact all i (by omega) (by omega)

-- The tries of the first m leaves and of the others.
def firstLeaves (m : Nat) : Trie → Trie
  | .leaf => .leaf
  | .branch d l r =>
    if m < l.leaves then firstLeaves m l
    else if m = l.leaves then l
    else .branch d l (firstLeaves (m - l.leaves) r)

def lastLeaves (m : Nat) : Trie → Trie
  | .leaf => .leaf
  | .branch d l r =>
    if m < l.leaves then .branch d (lastLeaves m l) r
    else if m = l.leaves then r
    else lastLeaves (m - l.leaves) r

theorem leaves_halves {m : Nat} (positive : 1 ≤ m) (bound : m < t.leaves) :
    (firstLeaves m t).leaves = m ∧ (lastLeaves m t).leaves = t.leaves - m := by
  induction t generalizing m with
  | leaf =>
    rw [leaves_leaf] at bound
    omega
  | branch d l r ihl ihr =>
    have posR := r.leaves_pos
    rw [leaves_branch] at bound ⊢
    unfold firstLeaves lastLeaves
    split_ifs with left here
    · obtain ⟨first, last⟩ := ihl positive left
      rw [leaves_branch, first, last]
      omega
    · omega
    · obtain ⟨first, last⟩ := ihr (m := m - l.leaves) (by omega) (by omega)
      rw [leaves_branch, first, last]
      omega

theorem Splits.halves {m : Nat} (h : Splits B k lo t) (positive : 1 ≤ m) (bound : m < t.leaves) :
    Splits B k lo (firstLeaves m t) ∧ Splits B k (lo + m) (lastLeaves m t) := by
  induction t generalizing lo m with
  | leaf =>
    rw [leaves_leaf] at bound
    omega
  | branch d l r ihl ihr =>
    obtain ⟨apart, low, high⟩ := h
    rw [leaves_branch] at bound
    unfold firstLeaves lastLeaves
    split_ifs with left here
    · obtain ⟨first, last⟩ := ihl low positive left
      have rest := (leaves_halves positive left).2
      refine ⟨first, fun i j hi hi' hj hj' => apart i j (by omega) (by omega) (by omega) (by omega),
        last, ?_⟩
      rwa [rest, show lo + m + (l.leaves - m) = lo + l.leaves by omega]
    · rw [here]
      exact ⟨low, high⟩
    · obtain ⟨first, last⟩ := ihr (m := m - l.leaves) high (by omega) (by omega)
      have size := (leaves_halves (t := r) (m := m - l.leaves) (by omega) (by omega)).1
      rw [show lo + l.leaves + (m - l.leaves) = lo + m by omega] at last
      exact ⟨⟨fun i j hi hi' hj hj' => apart i j hi hi' hj (by omega), low, first⟩, last⟩

theorem Trie.Under.halves {b m : Nat} (h : t.Under b) : (firstLeaves m t).Under b ∧
    (lastLeaves m t).Under b := by
  induction t generalizing m with
  | leaf => exact ⟨trivial, trivial⟩
  | branch d l r ihl ihr =>
    obtain ⟨root, low, high⟩ := h
    unfold firstLeaves lastLeaves
    split_ifs
    · exact ⟨(ihl low).1, root, (ihl low).2, high⟩
    · exact ⟨low, high⟩
    · exact ⟨⟨root, low, (ihr high).1⟩, (ihr high).2⟩

-- The root, if there is one, tests bit b or a later one.
def Trie.AtLeast (b : Nat) : Trie → Prop
  | .leaf => True
  | .branch e _ _ => b ≤ e

-- All keys of such a trie agree up to b.
theorem Splits.agree_to {b : Nat} (h : Splits B k lo t) (root : t.AtLeast b) (hi : lo ≤ i)
    (hi' : i < lo + t.leaves) (hj : lo ≤ j) (hj' : j < lo + t.leaves) : B.Agree (k i) (k j) b := by
  cases t with
  | leaf =>
    rw [leaves_leaf] at hi' hj'
    rw [show i = j by omega]
    exact agree_refl _ _
  | branch e l r =>
    have root : b ≤ e := root
    exact (h.agree hi hi' hj hj').mono root

/-- A trie whose keys are followed by those of another, the ends of the two first differing at bit
d: the right spine of the one and the left spine of the other are merged by their bits down to the
new branch. -/
inductive Joins (d : Nat) : Trie → Trie → Trie → Prop where
  | root {s l : Trie} : s.AtLeast (d + 1) → l.AtLeast (d + 1) → Joins d s l (.branch d s l)
  | small {e : Nat} {sl sr l t : Trie} : ¬ (d < e ∧ l.AtLeast (d + 1)) →
    l.AtLeast (e + 1) → Joins d sr l t →
      Joins d (.branch e sl sr) l (.branch e sl t)
  | large {f : Nat} {s ll lr t : Trie} : ¬ (s.AtLeast (d + 1) ∧ d < f) →
    s.AtLeast f → Joins d s ll t →
      Joins d s (.branch f ll lr) (.branch f t lr)

theorem Joins.leaves {s l : Trie} (h : Joins d s l t) : t.leaves = s.leaves + l.leaves := by
  induction h with
  | root => rfl
  | small _ _ _ ih =>
    rw [leaves_branch, ih, leaves_branch]
    omega
  | large _ _ _ ih =>
    rw [leaves_branch, ih, leaves_branch]
    omega

theorem exists_joins (d : Nat) (s l : Trie) : ∃ t, Joins d s l t := by
  induction s generalizing l with
  | leaf =>
    induction l with
    | leaf => exact ⟨_, .root trivial trivial⟩
    | branch f ll lr ihl _ =>
      by_cases top : d < f
      · exact ⟨_, .root trivial top⟩
      · obtain ⟨t, joins⟩ := ihl
        exact ⟨_, .large (fun both => top both.2) trivial joins⟩
  | branch e sl sr _ ihr =>
    induction l with
    | leaf =>
      by_cases top : d < e
      · exact ⟨_, .root top trivial⟩
      · obtain ⟨t, joins⟩ := ihr .leaf
        exact ⟨_, .small (fun both => top both.1) trivial joins⟩
    | branch f ll lr ihl _ =>
      by_cases top : d < e ∧ d < f
      · exact ⟨_, .root top.1 top.2⟩
      · by_cases first : e < f
        · obtain ⟨t, joins⟩ := ihr (.branch f ll lr)
          exact ⟨_, .small top first joins⟩
        · obtain ⟨t, joins⟩ := ihl
          exact ⟨_, .large top (Nat.le_of_not_lt first) joins⟩

theorem Joins.under {s l : Trie} {b : Nat} (h : Joins d s l t) (small : s.Under b)
    (large : l.Under b) (bit : d < b) :
    t.Under b := by
  induction h with
  | root => exact ⟨bit, small, large⟩
  | small _ _ _ ih => exact ⟨small.1, small.2.1, ih small.2.2 large⟩
  | large _ _ _ ih => exact ⟨large.1, ih small large.2.1, large.2.2⟩

-- The last key on the left has a 0 at d and the first one on the right a 1, so no spine tests bit d
-- itself, and none above d tests a bit of the other spine.
theorem Joins.splits {s l : Trie} (h : Joins d s l t) (small : Splits B k lo s)
    (large : Splits B k (lo + s.leaves) l)
    (apart : B.LessAt (k (lo + s.leaves - 1)) (k (lo + s.leaves)) d) : Splits B k lo t := by
  induction h generalizing lo with
  | @root s l low high =>
    have posS := s.leaves_pos
    have posL := l.leaves_pos
    refine ⟨fun i j hi hi' hj hj' => ?_, small, large⟩
    have first := small.agree_to low hi hi' (j := lo + s.leaves - 1) (by omega) (by omega)
    have second := large.agree_to high (i := lo + s.leaves) le_rfl (by omega) hj hj'
    exact (apart.of_agree_left first (Nat.lt_succ_self d)).of_agree_right second
      (Nat.lt_succ_self d)
  | @small e sl sr l t not_root next joins ih =>
    have posS := sl.leaves_pos
    have posR := sr.leaves_pos
    have posL := l.leaves_pos
    obtain ⟨split, left, right⟩ := small
    rw [leaves_branch, ← Nat.add_assoc] at large apart
    have last := split lo (lo + sl.leaves + sr.leaves - 1) le_rfl (by omega) (by omega) (by omega)
    have ne : e ≠ d := by
      rintro rfl
      have high := last.high
      rw [apart.low] at high
      cases high
    have above : e < d := by
      by_contra deep
      refine not_root ⟨by omega, ?_⟩
      cases l with
      | leaf => trivial
      | branch f ll lr =>
        have next : e < f := next
        exact (show d < f by omega)
    refine ⟨fun i j hi hi' hj hj' => ?_, left, ih right large apart⟩
    rw [joins.leaves] at hj'
    by_cases own : j < lo + sl.leaves + sr.leaves
    · exact split i j hi hi' hj own
    · have first := split i (lo + sl.leaves + sr.leaves - 1) hi hi' (by omega) (by omega)
      have second := large.agree_to next (i := lo + sl.leaves + sr.leaves) (j := j)
        le_rfl (by omega) (by omega) (by omega)
      exact (first.of_agree_right apart.agree above).of_agree_right second (Nat.lt_succ_self e)
  | @large f s ll lr t not_root next joins ih =>
    have posS := s.leaves_pos
    have posL := ll.leaves_pos
    have posR := lr.leaves_pos
    obtain ⟨split, left, right⟩ := large
    have first := split (lo + s.leaves) (lo + s.leaves + ll.leaves)
      le_rfl (by omega) le_rfl (by omega)
    have ne : f ≠ d := by
      rintro rfl
      have low := first.low
      rw [apart.high] at low
      cases low
    have above : f < d := by
      by_contra deep
      refine not_root ⟨?_, by omega⟩
      cases s with
      | leaf => trivial
      | branch e sl sr =>
        have next : f ≤ e := next
        exact (show d < e by omega)
    have later : s.AtLeast (f + 1) := by
      cases s with
      | leaf => trivial
      | branch e sl sr =>
        have next : f ≤ e := next
        have posL := sl.leaves_pos
        have posR := sr.leaves_pos
        by_contra same
        have same : ¬ f + 1 ≤ e := same
        obtain rfl : e = f := by omega
        rw [leaves_branch] at apart first
        have last := small.1 lo (lo + (sl.leaves + sr.leaves) - 1)
          le_rfl (by omega) (by omega) (by omega)
        have high := last.high
        rw [apart.agree e above, first.low] at high
        cases high
    have size := joins.leaves
    refine ⟨fun i j hi hi' hj hj' => ?_, ih small left apart, right.move fun i hi => ?_⟩
    · by_cases own : lo + s.leaves ≤ i
      · exact split i j own (by omega) (by omega) (by omega)
      · have from_ := split (lo + s.leaves) j le_rfl (by omega) (by omega) (by omega)
        have agree := small.agree_to later hi (i := i)
          (j := lo + s.leaves - 1) (by omega) (by omega) (by omega)
        exact (from_.of_agree_left apart.agree above).of_agree_left agree (Nat.lt_succ_self f)
    · rw [show lo + t.leaves + i = lo + s.leaves + ll.leaves + i by omega]

end BlindTrie
