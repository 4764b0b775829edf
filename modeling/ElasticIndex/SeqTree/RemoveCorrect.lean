import ElasticIndex.SeqTree.Remove

set_option autoImplicit false

namespace ElasticIndex.SeqTree

open SequenceEdit BitOrder BlindSequence CartesianTree CartesianTree.PosTree SlotTree

variable {c : Params} {b array : Nat → Nat} {lo hi m n p v : Nat}

theorem minPosScan_seen (rest i minPos minValue : Nat)
    (least : ∀ t, i ≤ t → t < i + rest → minValue ≤ b t) :
    minPosScan b rest i minPos minValue = minPos := by
  induction rest generalizing i with
  | zero => rfl
  | succ rest ih =>
    have := least i le_rfl (by omega)
    rw [minPosScan, if_neg (by omega)]
    exact ih (i + 1) fun t ht ht' => least t (by omega) (by omega)

theorem minPosScan_spec (rest i minPos minValue : Nat) (min : StrictMin b i (i + rest) m)
    (less : b m < minValue) :
    minPosScan b rest i minPos minValue = m := by
  induction rest generalizing i minPos minValue with
  | zero =>
    have := min.left
    have := min.right
    omega
  | succ rest ih =>
    have left := min.left
    rw [minPosScan]
    by_cases here : i = m
    · subst here
      rw [if_pos less]
      exact minPosScan_seen rest (i + 1) i (b i) fun t ht ht' =>
        (min.least t (by omega) (by omega) (by omega)).le
    · have inner : StrictMin b (i + 1) (i + 1 + rest) m :=
        min.narrow (by omega) (by omega) (by omega)
        (by have := min.right; omega)
      have above := min.least i le_rfl (by omega) here
      split_ifs
      · exact ih (i + 1) i (b i) inner above
      · exact ih (i + 1) minPos minValue inner less

-- A slot's entry: the least value of its range, or the sentinel.
def EntryOf (sentinel : Nat) (b : Nat → Nat) (lo hi v : Nat) : Prop :=
  hi ≤ lo ∧ v = sentinel ∨ StrictMin b lo hi v

theorem minPosValueInRange_spec (small : ∀ i, lo ≤ i → i < hi → b i < c.endTree)
    (exists_ : lo < hi → ∃ m, StrictMin b lo hi m) :
    EntryOf c.endTree b lo hi (minPosValueInRange c b lo (hi - 1 : Int)) := by
  unfold minPosValueInRange
  have steps : ((hi : Int) - 1 + 1 - lo).toNat = hi - lo := by omega
  rw [steps, Int.toNat_natCast]
  by_cases empty : hi ≤ lo
  · rw [Nat.sub_eq_zero_of_le empty]
    exact .inl ⟨empty, rfl⟩
  · obtain ⟨m, min⟩ := exists_ (by omega)
    have whole : lo + (hi - lo) = hi := by omega
    have found := minPosScan_spec (hi - lo) lo c.endTree c.endTree (by rwa [whole])
      (small m min.left min.right)
    rw [found]
    exact .inr min

theorem EntryOf.le (entry : EntryOf c.endTree b lo hi v) (bound : hi ≤ c.endTree) :
    v % c.idxSize = v := by
  have size : c.endTree = c.idxSize - 1 := rfl
  have sentinel := endTree_eq c
  apply Nat.mod_eq_of_lt
  rcases entry with ⟨_, rfl⟩ | min
  · omega
  · have := min.right
    omega

theorem EntryOf.min (entry : EntryOf c.endTree b lo hi v) (lt : lo < hi) : StrictMin b lo hi v := by
  rcases entry with ⟨empty, _⟩ | min
  · omega
  · exact min

theorem EntryOf.congr {b' : Nat → Nat} (entry : EntryOf c.endTree b lo hi v)
    (same : ∀ i, lo ≤ i → i < hi → b' i = b i) : EntryOf c.endTree b' lo hi v := by
  rcases entry with empty | min
  · exact .inl empty
  · exact .inr (min.congr same)

/-- Bits whose minima the sequential scan can find. -/
structure Scannable (c : Params) (b : Nat → Nat) (size : Nat) : Prop where
  mins : ∀ lo hi, lo < hi → hi ≤ size → ∃ m, StrictMin b lo hi m
  small : ∀ i, i < size → b i < c.endTree
  fits : size ≤ c.endTree

variable {blindiKeys tree : Nat → Nat} {size pos : Nat}

theorem Scannable.found (h : Scannable c b size) (lo hi : Nat) (bound : hi ≤ size) :
    EntryOf c.endTree b lo hi (minPosValueInRange c b lo (hi - 1 : Int)) :=
  minPosValueInRange_spec (fun i _ lt => h.small i (by omega)) fun lt => h.mins lo hi lt bound

theorem Scannable.root (h : Scannable c b (n - 1)) (positive : 1 ≤ n) :
    EntryOf c.endTree b 0 (n - 1) (minPosOfSlot c b tree n 0 % c.idxSize) := by
  have found := h.found 0 (n - 1) le_rfl
  have last : ((n - 1 : Nat) : Int) - 1 = (n : Int) - 2 := by omega
  rw [Nat.cast_zero, last] at found
  change EntryOf c.endTree b 0 (n - 1) (minPosValueInRange c b 0 ((n : Int) - 2) % c.idxSize)
  rwa [found.le h.fits]

-- The range of slots 1 and 2 below the entry of slot 0.
def sideRange (size root pos : Nat) : Nat × Nat := if pos = 1 then (0, root)
    else (root + 1, size - 1)

theorem Scannable.side (h : Scannable c b (n - 1)) (more : 1 < c.treeLevels)
    (side : pos = 1 ∨ pos = 2) (inside : tree 0 < n - 1) :
    EntryOf c.endTree b (sideRange n (tree 0) pos).1 (sideRange n (tree 0) pos).2
      (minPosOfSlot c b tree n pos % c.idxSize) := by
  have fits := h.fits
  have bound : (sideRange n (tree 0) pos).2 ≤ c.endTree := by
    unfold sideRange
    split_ifs <;> dsimp only <;> omega
  have search : EntryOf c.endTree b (sideRange n (tree 0) pos).1 (sideRange n (tree 0) pos).2
      (minPosOfSlot c b tree n pos) := by
    unfold minPosOfSlot bringEdgesSeqFromPos sideRange
    rcases side with rfl | rfl
    · have found := h.found 0 (tree 0) inside.le
      simpa [more] using found
    · have found := h.found (tree 0 + 1) (n - 1) le_rfl
      have last : ((n - 1 : Nat) : Int) - 1 = (n : Int) - 2 := by omega
      rw [last] at found
      simpa [more] using found
  rwa [search.le bound]

/-- The removal of key p from size + 1 keys: the old entries, and the bits that are left. -/
structure Repairing (c : Params) (b blindiKeys tree : Nat → Nat) (size p : Nat) : Prop where
  root : StrictMin b 0 size (tree 0)
  left : 1 < c.treeLevels → EntryOf c.endTree b 0 (tree 0) (tree 1)
  right : 1 < c.treeLevels → EntryOf c.endTree b (tree 0 + 1) size (tree 2)
  bound : p ≤ size
  several : p = 0 → 2 ≤ size
  agree : ∀ i, i < size - 1 → blindiKeys i = mergeAt p b i
  mins : ∀ lo hi, lo < hi → hi ≤ size - 1 → ∃ m, StrictMin blindiKeys lo hi m
  small : ∀ i, i < size - 1 → blindiKeys i < c.endTree
  fits : size < c.endTree

theorem Repairing.scannable (h : Repairing c b blindiKeys tree size p) :
    Scannable c blindiKeys (size - 1) :=
  ⟨h.mins, h.small, by have := h.fits; omega⟩

-- The new root is right, and unless both sides are marked it is the old one.
theorem Repairing.repairRoot_spec (h : Repairing c b blindiKeys tree size p) :
    let s := repairRoot c blindiKeys tree size p (decide (p = 0)) (decide (p + 1 = size + 1))
    EntryOf c.endTree blindiKeys 0 (size - 1) (s.tree 0) ∧ s.tree 1 = tree 1 ∧ s.tree 2 = tree 2 ∧
      (1 < c.treeLevels → s.rangeMinValue 1 = true ∧ s.rangeMinValue 2 = true ∨
        s.rangeMinValue 1 = false ∧ s.rangeMinValue 2 = false ∧ s.tree 0 = dropFrom p (tree 0) ∧
          ¬ (p = 0 ∧ tree 0 = 0) ∧ ¬ (p = size ∧ tree 0 + 1 = size)) := by
  have root := h.root
  have := root.right
  have fits := h.fits
  have search := h.scannable.found 0 (size - 1) le_rfl
  have whole : ((size - 1 : Nat) : Int) - 1 = (size : Int) - 2 := by omega
  rw [Nat.cast_zero, whole] at search
  have stored := search.le (by omega)
  unfold repairRoot
  dsimp only
  by_cases first : p = 0 ∧ tree 0 = 0
  · rw [if_pos (by simpa using first)]
    by_cases levels : 1 < c.treeLevels
    · rw [if_pos levels]
      have several := h.several first.1
      have right := (h.right levels).min (by omega)
      have := right.left
      have := right.right
      have small : tree 2 - 1 < c.idxSize := by
        have size : c.endTree = c.idxSize - 1 := rfl
        omega
      have value : toU16 ((tree 2 : Int) - 1) % c.idxSize = tree 2 - 1 := by
        have sentinel := endTree_eq c
        have cast_ : (tree 2 : Int) - 1 = ((tree 2 - 1 : Nat) : Int) := by omega
        rw [cast_, toU16_nat (by omega), Nat.mod_eq_of_lt small]
      have moved := min_after_merge (p := p) right (by omega)
      rw [first.2] at moved
      refine ⟨.inr ?_, rfl, rfl, fun _ => .inl ⟨rfl, rfl⟩⟩
      change StrictMin blindiKeys 0 (size - 1) (toU16 ((tree 2 : Int) - 1) % c.idxSize)
      rw [value]
      exact moved.congr fun i _ lt => h.agree i lt
    · rw [if_neg levels]
      refine ⟨?_, rfl, rfl, fun more => absurd more levels⟩
      simpa only [Function.update_self, stored] using search
  · rw [if_neg (by simpa using first)]
    by_cases last : p = size ∧ tree 0 + 1 = size
    · rw [if_pos (by simpa using last)]
      by_cases levels : 1 < c.treeLevels
      · rw [if_pos levels]
        refine ⟨?_, rfl, rfl, fun _ => .inl ⟨rfl, rfl⟩⟩
        have left := h.left levels
        have top : tree 0 = size - 1 := by omega
        rw [top] at left
        change EntryOf c.endTree blindiKeys 0 (size - 1) (tree 1)
        refine left.congr fun i _ lt => ?_
        rw [h.agree i lt]
        exact mergeAt_below (by omega)
      · rw [if_neg levels]
        refine ⟨?_, rfl, rfl, fun more => absurd more levels⟩
        simpa only [Function.update_self, stored] using search
    · rw [if_neg (by simpa using last)]
      have kept := (min_drop root h.bound first last).congr fun i _ lt => h.agree i lt
      by_cases past : p ≤ tree 0
      · rw [if_pos past]
        have moves : dropFrom p (tree 0) = tree 0 - 1 := if_pos past
        rw [moves] at kept
        refine ⟨.inr kept, rfl, rfl, fun _ => .inr ⟨rfl, rfl, moves.symm, first, last⟩⟩
      · rw [if_neg past]
        have stays : dropFrom p (tree 0) = tree 0 := if_neg past
        rw [stays] at kept
        exact ⟨.inr kept, rfl, rfl, fun _ => .inr ⟨rfl, rfl, stays.symm, first, last⟩⟩

theorem Repairing.recompute_spec (h : Repairing c b blindiKeys tree size p)
    (levels : c.treeLevels = 2) (s : Repair) {pos : Nat} (side : pos = 1 ∨ pos = 2)
    (inside : s.tree 0 < size - 1) :
    EntryOf c.endTree blindiKeys (sideRange size (s.tree 0) pos).1 (sideRange size (s.tree 0) pos).2
        ((s.recompute c blindiKeys size 2 pos).tree pos) ∧
      (∀ i, i ≠ pos → (s.recompute c blindiKeys size 2 pos).tree i = s.tree i) ∧
      (s.recompute c blindiKeys size 2 pos).rangeMinValue = s.rangeMinValue := by
  have same : s.recompute c blindiKeys size 2 pos =
      s.set pos (minPosOfSlot c blindiKeys s.tree size pos % c.idxSize) := by
    rw [Repair.recompute, if_neg (by omega)]
  rw [same]
  refine ⟨?_, fun i ne => Function.update_of_ne ne _ _, rfl⟩
  change EntryOf _ _ _ _ (Function.update s.tree pos _ pos)
  rw [Function.update_self]
  exact h.scannable.side (by omega) side inside

-- One of the two slots below the root, whatever made it be kept, moved or recomputed.
theorem Repairing.repairSlot_spec (h : Repairing c b blindiKeys tree size p)
    (levels : c.treeLevels = 2) (s : Repair) {pos : Nat} (side : pos = 1 ∨ pos = 2)
    (top : EntryOf c.endTree blindiKeys 0 (size - 1) (s.tree 0)) (old : s.tree pos = tree pos)
    (marked : s.rangeMinValue pos = true ∨ s.rangeMinValue pos = false ∧
      s.tree 0 = dropFrom p (tree 0) ∧
      ¬ (p = 0 ∧ tree 0 = 0) ∧ ¬ (p = size ∧ tree 0 + 1 = size)) :
    let s' := repairSlot c blindiKeys size p (decide (p = 0)) (decide (p + 1 = size + 1)) 2 pos s
    (s.tree 0 = c.endTree → s'.tree pos = c.endTree) ∧
      (s.tree 0 ≠ c.endTree → EntryOf c.endTree blindiKeys (sideRange size (s.tree 0) pos).1
        (sideRange size (s.tree 0) pos).2 (s'.tree pos)) ∧
      (∀ i, i ≠ pos → s'.tree i = s.tree i) ∧ s'.rangeMinValue = s.rangeMinValue := by
  intro s'
  have unfolded : s' =
    repairSlot c blindiKeys size p (decide (p = 0)) (decide (p + 1 = size + 1)) 2 pos s := rfl
  have fits := h.fits
  have parent : (pos + 1) / 2 - 1 = 0 := by omega
  have other (v i : Nat) (ne : i ≠ pos) : (s.set pos v).tree i = s.tree i :=
    Function.update_of_ne ne _ _
  have here (v : Nat) : (s.set pos v).tree pos = v := Function.update_self _ _ _
  rw [repairSlot, parent] at unfolded
  dsimp only at unfolded
  by_cases none : s.tree 0 = c.endTree
  · rw [if_pos none] at unfolded
    rw [unfolded]
    exact ⟨fun _ => here _, fun present => absurd none present, other _, rfl⟩
  rw [if_neg none] at unfolded
  have inside : s.tree 0 < size - 1 := by
    rcases top with ⟨_, eq⟩ | min
    · exact absurd eq none
    · exact min.right
  have recomputed := h.recompute_spec levels s side inside
  have emptied (empty : (sideRange size (s.tree 0) pos).2 ≤ (sideRange size (s.tree 0) pos).1)
      (eq : s' = s.set pos c.endTree) : (s.tree 0 = c.endTree → s'.tree pos = c.endTree) ∧
      (s.tree 0 ≠ c.endTree → EntryOf c.endTree blindiKeys (sideRange size (s.tree 0) pos).1
        (sideRange size (s.tree 0) pos).2 (s'.tree pos)) ∧
      (∀ i, i ≠ pos → s'.tree i = s.tree i) ∧ s'.rangeMinValue = s.rangeMinValue := by
    rw [eq]
    exact ⟨fun _ => here _, fun _ => .inl ⟨empty, here _⟩, other _, rfl⟩
  have again (eq : s' = s.recompute c blindiKeys size 2 pos) :
    (s.tree 0 = c.endTree → s'.tree pos = c.endTree) ∧
      (s.tree 0 ≠ c.endTree → EntryOf c.endTree blindiKeys (sideRange size (s.tree 0) pos).1
        (sideRange size (s.tree 0) pos).2 (s'.tree pos)) ∧
      (∀ i, i ≠ pos → s'.tree i = s.tree i) ∧ s'.rangeMinValue = s.rangeMinValue := by
    rw [eq]
    exact ⟨fun eq => absurd eq none, fun _ => recomputed.1, recomputed.2⟩
  by_cases leftEmpty : s.tree 0 = 0 ∧ pos % 2 = 1
  · rw [if_pos leftEmpty] at unfolded
    refine emptied ?_ unfolded
    rw [sideRange, if_pos (by omega), leftEmpty.1]
  rw [if_neg leftEmpty] at unfolded
  by_cases rightEmpty : s.tree 0 + 2 = size ∧ pos % 2 = 0
  · rw [if_pos rightEmpty] at unfolded
    refine emptied ?_ unfolded
    rw [sideRange, if_neg (by omega)]
    dsimp only
    omega
  rw [if_neg rightEmpty] at unfolded
  rcases marked with mark | ⟨mark, root, first, last⟩
  · rw [if_pos mark] at unfolded
    exact again unfolded
  rw [if_neg (by simp [mark])] at unfolded
  have more : 1 < c.treeLevels := by omega
  have entry : StrictMin b (if pos = 1 then 0 else tree 0 + 1) (if pos = 1 then tree 0
      else size) (tree pos) := by
    have := h.root.right
    unfold dropFrom at root
    rcases side with rfl | rfl
    · exact (h.left more).min (by split_ifs at root <;> omega)
    · exact (h.right more).min (by split_ifs at root <;> omega)
  have present : s.tree pos ≠ c.endTree := by
    have := entry.right
    have := h.root.right
    rw [old]
    split_ifs at * <;> omega
  rw [if_neg present] at unfolded
  by_cases ends : (decide (p = 0) = true ∧ s.tree pos = 0) ∨
    (decide (p + 1 = size + 1) = true ∧ s.tree pos + 1 = size)
  · rw [if_pos ends] at unfolded
    exact again unfolded
  rw [if_neg ends] at unfolded
  by_cases near : s.tree pos = s.tree 0 ∨ s.tree pos + 1 = p
  · rw [if_pos near] at unfolded
    exact again unfolded
  rw [if_neg near] at unfolded
  obtain ⟨s1, hs1⟩ : ∃ s1, (if p ≤ s.tree pos then s.set pos (s.tree pos - 1) else s) = s1 :=
    ⟨_, rfl⟩
  rw [hs1] at unfolded
  have value : s1.tree pos = dropFrom p (tree pos) := by
    rw [← hs1, ← old, dropFrom]
    split_ifs
    · exact here _
    · rfl
  have aside (i : Nat) (ne : i ≠ pos) : s1.tree i = s.tree i := by
    rw [← hs1]
    split_ifs
    · exact other _ i ne
    · rfl
  have flags : s1.rangeMinValue = s.rangeMinValue := by
    rw [← hs1]
    split_ifs <;> rfl
  have top1 : s1.tree 0 = s.tree 0 := aside 0 (by omega)
  rw [top1] at unfolded
  by_cases clash : s1.tree pos = s.tree 0
  · rw [if_pos clash] at unfolded
    obtain ⟨found, rest, flags'⟩ := h.recompute_spec levels s1 side (by rwa [top1])
    rw [top1] at found
    rw [unfolded]
    exact ⟨fun eq => absurd eq none, fun _ => found, fun i ne => (rest i ne).trans (aside i ne),
      flags'.trans flags⟩
  rw [if_neg clash] at unfolded
  rw [unfolded]
  refine ⟨fun eq => absurd eq none, fun _ => .inr ?_, aside, flags⟩
  rw [value, root] at clash
  rw [value, root]
  rw [old] at ends near
  simp only [decide_eq_true_eq, not_or, Nat.add_right_cancel_iff] at ends near
  have bound := h.bound
  rcases side with rfl | rfl
  · have kept := min_drop_left (p := p) entry ends.1 near.2
    refine kept.congr fun i _ lt => h.agree i ?_
    change i < dropFrom p (tree 0) at lt
    omega
  · exact (min_drop_right entry bound first ends.2 near.2 clash).congr fun i _ lt => h.agree i lt

theorem entry_of_cartesian {t : PosTree} (tree : IsCartesian b lo hi t) :
    EntryOf c.endTree b lo hi (t.root.getD c.endTree) := by
  cases tree with
  | nil empty => exact .inl ⟨empty, rfl⟩
  | node min => exact .inr min

theorem EntryOf.eq_root {t : PosTree} (entry : EntryOf c.endTree b lo hi v)
    (tree : IsCartesian b lo hi t) :
    v = t.root.getD c.endTree := by
  rcases entry with ⟨empty, rfl⟩ | min
  · cases tree with
    | nil => rfl
    | node min =>
      have := min.left
      have := min.right
      omega
  · cases tree with
    | nil empty =>
      have := min.left
      have := min.right
      omega
    | node min' => exact min.unique min'

-- With one or two levels the cut is given by the entries of its three slots.
theorem cut_of_entries {t : PosTree} (cartesian : IsCartesian b lo hi t)
    (levels : c.treeLevels = 1 ∨ c.treeLevels = 2) (root : EntryOf c.endTree b lo hi (array 0))
    (none : c.treeLevels = 2 → array 0 = c.endTree → array 1 = c.endTree ∧ array 2 = c.endTree)
    (bound : hi ≤ c.endTree)
    (sides : c.treeLevels = 2 → array 0 ≠ c.endTree → EntryOf c.endTree b lo (array 0) (array 1) ∧
      EntryOf c.endTree b (array 0 + 1) hi (array 2)) : Cut c.endTree c.treeLevels array t := by
  intro p short
  have top := root.eq_root cartesian
  cases p with
  | nil => exact top
  | cons d ds =>
    simp only [List.length_cons] at short
    obtain rfl : ds = [] := List.length_eq_zero_iff.mp (by omega)
    have two : c.treeLevels = 2 := by omega
    have number : slot [d] = 1 + d.toNat := by simp [slot, slotFrom]
    rw [number, sub_cons, sub_nil]
    cases cartesian with
    | nil empty =>
      obtain ⟨left, right⟩ := none two top
      cases d <;> simp [left, right]
    | node min l r =>
      have right := min.right
      rw [root_node, Option.getD_some] at top
      obtain ⟨left, right⟩ := sides two (by omega)
      rw [top] at left right
      cases d with
      | false => exact left.eq_root l
      | true => exact right.eq_root r

theorem Repairing.levels_cut (h : Repairing c b blindiKeys tree size p)
    (levels : c.treeLevels = 1 ∨ c.treeLevels = 2) {t : PosTree}
    (cartesian : IsCartesian blindiKeys 0 (size - 1) t) :
    Cut c.endTree c.treeLevels
      (repairLevels c blindiKeys size p (decide (p = 0)) (decide (p + 1 = size + 1))
        (c.treeLevels - 1) 2
        (repairRoot c blindiKeys tree size p (decide (p = 0)) (decide (p + 1 = size + 1)))).tree
        t := by
  have fits := h.fits
  obtain ⟨root, one, two, marked⟩ := h.repairRoot_spec
  generalize repairRoot c blindiKeys tree size p (decide (p = 0)) (decide (p + 1 = size + 1)) =
    s at root one two marked ⊢
  rcases levels with single | double
  · have same : repairLevels c blindiKeys size p (decide (p = 0)) (decide (p + 1 = size + 1))
      (c.treeLevels - 1) 2 s =
        s := by rw [single]; rfl
    rw [same]
    exact cut_of_entries cartesian (.inl single) root (fun more => by omega) (by omega)
      fun more => by omega
  · have same : repairLevels c blindiKeys size p (decide (p = 0)) (decide (p + 1 = size + 1))
      (c.treeLevels - 1) 2 s =
        repairSlot c blindiKeys size p (decide (p = 0)) (decide (p + 1 = size + 1)) 2 1
          (repairSlot c blindiKeys size p (decide (p = 0)) (decide (p + 1 = size + 1)) 2 2 s) := by
            rw [double]; rfl
    rw [same]
    have marked := marked (by omega)
    have markedRight := marked.imp And.right And.right
    have markedLeft : s.rangeMinValue 1 = true ∨ s.rangeMinValue 1 = false ∧
      s.tree 0 = dropFrom p (tree 0) ∧
        ¬ (p = 0 ∧ tree 0 = 0) ∧ ¬ (p = size ∧ tree 0 + 1 = size) :=
      marked.imp And.left fun rest => ⟨rest.1, rest.2.2⟩
    obtain ⟨noneRight, someRight, restRight, flags⟩ :=
      h.repairSlot_spec double s (.inr rfl) root two markedRight
    generalize repairSlot c blindiKeys size p (decide (p = 0)) (decide (p + 1 = size + 1)) 2 2 s =
      s2 at *
    have top2 := restRight 0 (by omega)
    rw [← flags, ← top2] at markedLeft
    obtain ⟨noneLeft, someLeft, restLeft, _⟩ :=
      h.repairSlot_spec double s2 (.inl rfl) (by rwa [top2])
      ((restRight 1 (by omega)).trans one) markedLeft
    generalize repairSlot c blindiKeys size p (decide (p = 0)) (decide (p + 1 = size + 1)) 2 1 s2 =
      s1 at *
    have top1 := restLeft 0 (by omega)
    have kept := restLeft 2 (by omega)
    rw [top2] at noneLeft someLeft top1
    refine cut_of_entries cartesian (.inr double) (by rwa [top1]) (fun _ none => ?_) (by omega)
      fun _ present => ?_
    · rw [top1] at none
      exact ⟨noneLeft none, kept.trans (noneRight none)⟩
    · rw [top1] at present ⊢
      rw [kept]
      exact ⟨someLeft present, someRight present⟩

theorem removeSequence_spec (node : SeqTreeBlindiNode) {p : Nat} (several : 2 ≤ node.validLen)
    (bound : p < node.validLen) :
    let r := removeSequence node p
    r.blindiTree = node.blindiTree ∧ r.validLen = node.validLen - 1 ∧
      (∀ i, i < node.validLen - 1 → r.keyPtr i = eraseAt p node.keyPtr i) ∧
      ∀ i, i < node.validLen - 2 → r.blindiKeys i = mergeAt p node.blindiKeys i := by
  intro r
  have eq : r = removeSequence node p := rfl
  by_cases last : p + 1 = node.validLen
  · rw [eq, removeSequence, if_pos last]
    refine ⟨rfl, rfl, fun i hi => ?_, fun i hi => ?_⟩
    · rw [eraseAt_below _ (by omega)]
      exact Function.update_of_ne (by omega) _ _
    · rw [mergeAt_below (by omega)]
      exact Function.update_of_ne (by omega) _ _
  · rw [eq, removeSequence, if_neg last]
    refine ⟨rfl, rfl, fun i hi => ?_, fun i hi => ?_⟩
    · simp only [Function.update_apply, moveDown_eq _ _ _ _ (Nat.succ_pos p), eraseAt]
      grind
    · simp only [ite_apply, Function.update_apply, moveDown_eq _ _ _ _ (Nat.succ_pos p), mergeAt]
      grind

/-- The depths and key lengths the removal is written for. -/
structure Params.Shallow (c : Params) : Prop where
  levels : c.treeLevels = 1 ∨ c.treeLevels = 2
  key : c.keyLen ≤ 31

theorem Params.Shallow.representable (shallow : c.Shallow) : c.Representable :=
  ⟨by rcases shallow.levels with one | two <;> omega, le_trans shallow.key (by decide)⟩

theorem Params.Shallow.positive (shallow : c.Shallow) : 1 ≤ c.treeLevels := by
  rcases shallow.levels with one | two <;> omega

-- The minimum scan starts from END_TREE, so it sees only the bits below it.
def SeqTreeBlindiNode.Narrow (c : Params) (node : SeqTreeBlindiNode) : Prop :=
  ∀ i, i + 1 < node.validLen → node.blindiKeys i < c.endTree

theorem narrow_of_blind {k : Nat → Bytes c.keyLen} (shallow : c.Shallow)
    (blind : Blind (keyBits c.keyLen) k b n) :
    ∀ i, i + 1 < n → b i < c.endTree := by
  have key := shallow.key
  have sentinel := endTree_eq c
  intro i hi
  have inside : b i < 8 * c.keyLen := (blind i hi).inside
  omega

theorem WellFormed.narrow {mem : Addr → Bytes c.keyLen} {node : SeqTreeBlindiNode}
    (shallow : c.Shallow) (wf : WellFormed mem node) : node.Narrow c :=
  narrow_of_blind shallow wf.blind

theorem scannable_of_blind {k : Nat → Bytes c.keyLen} (narrow : ∀ i, i + 1 < n → b i < c.endTree)
    (blind : Blind (keyBits c.keyLen) k b n) (idx : n ≤ c.endTree) : Scannable c b (n - 1) :=
  ⟨fun lo hi lt inside => blind.exists_min lt (by omega), fun i hi => narrow i (by omega), by omega⟩

theorem WellFormed.repairing {mem : Addr → Bytes c.keyLen} {node : SeqTreeBlindiNode}
    (positive : 1 ≤ c.treeLevels) (wf : WellFormed mem node) (narrow : node.Narrow c)
    (several : 2 ≤ node.validLen) (bound : p < node.validLen)
    (second : ¬ (node.validLen = 2 ∧ p = 0))
    (agree : ∀ i, i < node.validLen - 2 → blindiKeys i = mergeAt p node.blindiKeys i) :
    Repairing c node.blindiKeys blindiKeys node.blindiTree (node.validLen - 1) p := by
  obtain ⟨t, tree, cut⟩ := wf.tree
  obtain ⟨m, root⟩ := tree.root_of_lt (by omega)
  have top : node.blindiTree 0 = m := by
    have entry := cut [] positive
    rwa [sub_nil, root, Option.getD_some] at entry
  have child (d : Bool) (more : 1 < c.treeLevels) : node.blindiTree (1 + d.toNat) =
      (t.child d).root.getD c.endTree := by
    have entry := cut [d] (by simpa using more)
    rwa [show slot [d] = 1 + d.toNat by simp [slot, slotFrom]] at entry
  have blind : Blind (keyBits c.keyLen) (eraseAt p (node.keys mem)) blindiKeys
      (node.validLen - 1) :=
    wf.blind.erase.congr (fun _ _ => rfl) fun i hi => agree i (by omega)
  have idx := wf.idx
  have merged : ∀ i, i + 1 < node.validLen - 1 → blindiKeys i < c.endTree := by
    intro i hi
    have here := narrow i (by omega)
    have next := narrow (i + 1) (by omega)
    rw [agree i (by omega), mergeAt]
    split_ifs with below at_
    · exact here
    · rw [← at_]
      exact lt_of_le_of_lt (min_le_left _ _) next
    · exact next
  have left := scannable_of_blind merged blind (by omega)
  refine ⟨top ▸ tree.min root, fun more => ?_, fun more => ?_, by omega, fun _ => by omega,
    fun i hi => agree i (by omega),
    left.mins, left.small, by omega⟩
  · have left := child false more
    rw [Bool.toNat_false] at left
    rw [top, left]
    exact entry_of_cartesian (tree.left root)
  · have right := child true more
    rw [Bool.toNat_true] at right
    rw [top, right]
    exact entry_of_cartesian (tree.right root)

-- A removal that is not of the smaller of two keys keeps the node well formed.
theorem removeFromBlindiNodeInPosition_spec {mem : Addr → Bytes c.keyLen} {node : SeqTreeBlindiNode}
    (levels : c.treeLevels = 1 ∨ c.treeLevels = 2) (wf : WellFormed mem node)
    (narrow : node.Narrow c) (several : 2 ≤ node.validLen) (bound : p < node.validLen)
    (second : ¬ (node.validLen = 2 ∧ p = 0)) :
    let r := removeFromBlindiNodeInPosition c node p
    r.1 = .success ∧ WellFormed mem r.2 ∧ r.2.validLen = node.validLen - 1 ∧
      ∀ i, i < node.validLen - 1 → r.2.keyPtr i = eraseAt p node.keyPtr i := by
  intro r
  obtain ⟨sameTree, validLen, keyPtr, blindiKeys⟩ := removeSequence_spec node several bound
  have positive : 1 ≤ c.treeLevels := by omega
  have repairing := wf.repairing positive narrow several bound second blindiKeys
  have eq : r = (.success, { removeSequence node p with
      blindiTree := (repairLevels c (removeSequence node p).blindiKeys (node.validLen - 1)
        p (decide (p = 0))
        (decide (p + 1 = node.validLen - 1 + 1)) (c.treeLevels - 1) 2
        (repairRoot c (removeSequence node p).blindiKeys node.blindiTree (node.validLen - 1)
        p (decide (p = 0))
          (decide (p + 1 = node.validLen - 1 + 1)))).tree }) := by
    have unfolded : r = removeFromBlindiNodeInPosition c node p := rfl
    rw [unfolded, removeFromBlindiNodeInPosition, if_neg (by omega), Nat.sub_add_cancel (by omega)]
    dsimp only
    rw [if_pos (show 0 < c.treeLevels from positive), sameTree, validLen]
  have blind : Blind (keyBits c.keyLen) (eraseAt p (node.keys mem))
    (removeSequence node p).blindiKeys
      (node.validLen - 1) := wf.blind.erase.congr (fun _ _ => rfl) fun i hi =>
        blindiKeys i (by omega)
  obtain ⟨t, cartesian⟩ :=
    blind.exists_cartesian (node.validLen - 1) 0 (node.validLen - 1 - 1) le_rfl (by omega)
  have cut := repairing.levels_cut levels cartesian
  have fits := wf.fits
  have idx := wf.idx
  rw [eq]
  refine ⟨rfl, ⟨?_, ?_, ?_, ?_, t, ?_, cut⟩, validLen, keyPtr⟩
  · change 1 ≤ (removeSequence node p).validLen
    omega
  · change (removeSequence node p).validLen ≤ c.numSlots
    omega
  · change (removeSequence node p).validLen ≤ c.endTree
    omega
  · change Blind _ _ _ (removeSequence node p).validLen
    rw [validLen]
    refine blind.congr (fun i hi => ?_) fun _ _ => rfl
    rw [SeqTreeBlindiNode.keys]
    dsimp only
    rw [keyPtr i hi, map_eraseAt mem]
    rfl
  · change IsCartesian _ 0 ((removeSequence node p).validLen - 1) t
    rwa [validLen]

structure Removed (mem : Addr → Bytes c.keyLen) (node : SeqTreeBlindiNode) (p : Nat)
    (r : RemoveResult × SeqTreeBlindiNode) : Prop where
  wellFormed : WellFormed mem r.2
  validLen : r.2.validLen = node.validLen - 1
  keyPtr : ∀ i, i < node.validLen - 1 → r.2.keyPtr i = eraseAt p node.keyPtr i

theorem WellFormed.root_of_single {mem : Addr → Bytes c.keyLen} {node : SeqTreeBlindiNode}
    (positive : 1 ≤ c.treeLevels) (wf : WellFormed mem node) (single : node.validLen = 1) :
    node.blindiTree 0 = c.endTree := by
  obtain ⟨t, tree, cut⟩ := wf.tree
  rw [single] at tree
  have top := cut [] positive
  rw [slot_nil] at top
  cases tree with
  | nil => exact top
  | node min =>
    have := min.right
    omega

theorem WellFormed.root_of_several {mem : Addr → Bytes c.keyLen} {node : SeqTreeBlindiNode}
    (positive : 1 ≤ c.treeLevels) (wf : WellFormed mem node) (several : 2 ≤ node.validLen) :
    StrictMin node.blindiKeys 0 (node.validLen - 1) (node.blindiTree 0) := by
  obtain ⟨t, tree, cut⟩ := wf.tree
  obtain ⟨m, root⟩ := tree.root_of_lt (by omega)
  have top := cut [] positive
  rw [slot_nil, sub_nil, root, Option.getD_some] at top
  rw [top]
  exact tree.min root

-- The early return leaves the old root in slot 0 of a node that has one key left.
theorem not_removed_first_of_two {mem : Addr → Bytes c.keyLen} {node : SeqTreeBlindiNode}
    (positive : 1 ≤ c.treeLevels) (wf : WellFormed mem node) (two : node.validLen = 2) :
    ¬ Removed mem node 0 (removeFromBlindiNodeInPosition c node 0) := by
  have eq : removeFromBlindiNodeInPosition c node 0 = (.success, { node with
      blindiKeys := Function.update node.blindiKeys 0 0
      keyPtr := Function.update (Function.update node.keyPtr 0 (node.keyPtr 1)) 1 0
      validLen := 1 }) := by
    rw [removeFromBlindiNodeInPosition, if_pos (by omega), if_pos two]
  rw [eq]
  intro removed
  have none := removed.wellFormed.root_of_single positive rfl
  change node.blindiTree 0 = c.endTree at none
  have root := (wf.root_of_several positive (by omega)).right
  have idx := wf.idx
  omega

-- Removal keeps the node well formed except for the smaller of two keys.
theorem removeFromBlindiNodeInPosition_removed (shallow : c.Shallow) (mem : Addr → Bytes c.keyLen)
    (node : SeqTreeBlindiNode) (wf : WellFormed mem node) (several : 2 ≤ node.validLen) (p : Nat)
    (bound : p < node.validLen) :
    Removed mem node p (removeFromBlindiNodeInPosition c node p) ↔
    ¬ (node.validLen = 2 ∧ p = 0) := by
  constructor
  · rintro removed ⟨two, rfl⟩
    exact not_removed_first_of_two shallow.positive wf two removed
  · intro second
    obtain ⟨_, wellFormed, validLen, keyPtr⟩ :=
      removeFromBlindiNodeInPosition_spec shallow.levels wf (wf.narrow shallow)
      several bound second
    exact ⟨wellFormed, validLen, keyPtr⟩

theorem removeFromBlindiNodeInPosition_removed_sample :
    Removed (c := sampleParams) sampleKey sampleNode 0
      (removeFromBlindiNodeInPosition sampleParams sampleNode 0) ↔
      ¬ (3 = 2 ∧ 0 = 0) :=
  removeFromBlindiNodeInPosition_removed (c := sampleParams) ⟨.inr rfl, by decide⟩
    sampleKey sampleNode
    sampleNode_wellFormed (by decide) 0 (by decide)

-- The keys 1 and 2.
def pairNode : SeqTreeBlindiNode :=
  { validLen := 2
    blindiTree := cutArray 255 2 (.node .nil 0 .nil)
    currentMaxSlot := 6
    keyPtr := fun i => 2 ^ i
    blindiKeys := fun i => 6 - i }

theorem pairNode_wellFormed : WellFormed (c := sampleParams) sampleKey pairNode := by
  refine ⟨by decide, by decide, by decide, fun i hi => ?_, .node .nil 0 .nil, by decide,
    cut_cutArray 255 2 _⟩
  change i + 1 < 2 at hi
  obtain rfl : i = 0 := by omega
  exact lessAt_of_compare (by decide)

theorem pairNode_stale :
    WellFormed (c := sampleParams) sampleKey pairNode ∧ pairNode.validLen = 2 ∧
      ¬ Removed (c := sampleParams) sampleKey pairNode 0
      (removeFromBlindiNodeInPosition sampleParams pairNode 0) :=
  ⟨pairNode_wellFormed, rfl, not_removed_first_of_two (by decide) pairNode_wellFormed rfl⟩

end ElasticIndex.SeqTree
