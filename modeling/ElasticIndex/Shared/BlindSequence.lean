import ElasticIndex.Shared.BitOrder
import ElasticIndex.Shared.CartesianTree

set_option autoImplicit false

namespace BlindSequence

open BitOrder SequenceEdit CartesianTree

variable {K : Type} {B : BitKeys K} {k : Nat → K} {b : Nat → Nat} {n : Nat} {x : K}

-- Increasing keys k 0 .. k (n - 1) whose neighbours first differ at bits b 0 .. b (n - 2).
def Blind (B : BitKeys K) (k : Nat → K) (b : Nat → Nat) (n : Nat) : Prop :=
  ∀ i, i + 1 < n → B.LessAt (k i) (k (i + 1)) (b i)

theorem Blind.congr {k' : Nat → K} {b' : Nat → Nat} (h : Blind B k b n)
    (keys : ∀ i, i < n → k' i = k i) (bits : ∀ i, i + 1 < n → b' i = b i) : Blind B k' b' n := by
  intro i hi
  rw [keys i (by omega), keys (i + 1) hi, bits i hi]
  exact h i hi

theorem Blind.window (h : Blind B k b n) {o m : Nat} (le : o + m ≤ n) :
    Blind B (fun i => k (o + i)) (fun i => b (o + i)) m := fun i hi => h (o + i) (by omega)

-- Two sequences side by side, d the first bit where the last key of one and the first of the other
-- differ.
theorem Blind.append {k' : Nat → K} {b' : Nat → Nat} {n' d : Nat} (h : Blind B k b n)
    (g : Blind B k' b' n') (nonempty : 1 ≤ n) (less : B.LessAt (k (n - 1)) (k' 0) d) :
    Blind B (fun i => if i < n then k i else k' (i - n))
      (fun i => if i + 1 < n then b i else if i + 1 = n then d else b' (i - n)) (n + n') := by
  intro i hi
  dsimp only
  rcases Nat.lt_trichotomy (i + 1) n with lt | same | lt
  · rw [if_pos (by omega), if_pos lt, if_pos lt]
    exact h i lt
  · rw [if_pos (by omega), if_neg (by omega), if_neg (by omega), if_pos same, same, Nat.sub_self,
      show i = n - 1 by omega]
    exact less
  · rw [if_neg (by omega), if_neg (by omega), if_neg (by omega), if_neg (by omega),
      show i + 1 - n = i - n + 1 by omega]
    exact g (i - n) (by omega)

theorem Blind.between (h : Blind B k b n) {i j : Nat} (lt : i < j) (bound : j < n) :
    ∃ m, StrictMin b i j m ∧ B.LessAt (k i) (k j) (b m) := by
  induction j, lt using Nat.le_induction with
  | base => exact ⟨i, ⟨le_rfl, by omega, fun t _ _ ne => by omega⟩, h i bound⟩
  | succ j le ih =>
    obtain ⟨m, min, less⟩ := ih (by omega)
    have step := h j bound
    have ne := (less.trans step).1
    have left := min.left
    have right := min.right
    rcases Nat.lt_or_gt_of_ne ne with lt | lt
    · refine ⟨m, ⟨left, by omega, fun t ht ht' other => ?_⟩, less.trans_left step lt⟩
      by_cases last : t = j
      · rw [last]; exact lt
      · exact min.least t ht (by omega) other
    · refine ⟨j, ⟨by omega, by omega, fun t ht ht' other => ?_⟩, less.trans_right step lt⟩
      exact lt_of_lt_of_le lt (min.le ht (by omega))

theorem Blind.less (h : Blind B k b n) {i j : Nat} (lt : i < j) (bound : j < n) :
    B.Less (k i) (k j) := by
  obtain ⟨m, _, less⟩ := h.between lt bound
  exact less.less

theorem Blind.exists_min (h : Blind B k b n) {i j : Nat} (lt : i < j) (bound : j < n) :
    ∃ m, StrictMin b i j m := by
  obtain ⟨m, min, _⟩ := h.between lt bound
  exact ⟨m, min⟩

theorem Blind.exists_cartesian (h : Blind B k b n) (size : Nat) (lo hi : Nat) (bound : hi ≤ n - 1)
    (room : hi ≤ lo + size) : ∃ t, IsCartesian b lo hi t := by
  induction size generalizing lo hi with
  | zero => exact ⟨.nil, .nil (by omega)⟩
  | succ size ih =>
    by_cases empty : hi ≤ lo
    · exact ⟨.nil, .nil empty⟩
    · obtain ⟨m, min⟩ := h.exists_min (i := lo) (j := hi) (by omega) (by omega)
      have := min.left
      have := min.right
      obtain ⟨l, left⟩ := ih lo m (by omega) (by omega)
      obtain ⟨r, right⟩ := ih (m + 1) hi bound (by omega)
      exact ⟨.node l m r, .node min left right⟩

theorem Blind.injective (h : Blind B k b n) {i j : Nat} (hi : i < n) (hj : j < n)
    (same : k i = k j) :
    i = j := by
  rcases Nat.lt_trichotomy i j with lt | eq | lt
  · exact absurd same (h.less lt hj).ne
  · exact eq
  · exact absurd same.symm (h.less lt hi).ne

-- Any two keys on the two sides of a least value first differ there.
theorem Blind.lessAt_min (h : Blind B k b n) {lo hi m s t : Nat} (min : StrictMin b lo hi m)
    (bound : hi < n) (hs : lo ≤ s) (sm : s ≤ m) (mt : m < t) (ht : t ≤ hi) :
    B.LessAt (k s) (k t) (b m) := by
  obtain ⟨m', min', less⟩ := h.between (i := s) (j := t) (by omega) (by omega)
  rwa [min'.unique (min.narrow hs ht sm mt)] at less

theorem Blind.agree (h : Blind B k b n) {i j d : Nat} (le : i ≤ j) (bound : j < n)
    (deep : ∀ t, i ≤ t → t < j → d ≤ b t) : B.Agree (k i) (k j) d := by
  by_cases same : i = j
  · subst same; exact agree_refl _ _
  · obtain ⟨m, min, less⟩ := h.between (i := i) (j := j) (by omega) bound
    exact less.agree.mono (deep m min.left min.right)

/-- k f shares the longest prefix with x among all keys. -/
structure Best (B : BitKeys K) (k : Nat → K) (n : Nat) (x : K) (f : Nat) : Prop where
  bound : f < n
  most : ∀ j, j < n → ∀ d, B.Agree x (k j) d → B.Agree x (k f) d

structure BestIn (B : BitKeys K) (k : Nat → K) (x : K) (lo hi f : Nat) : Prop where
  left : lo ≤ f
  right : f ≤ hi
  most : ∀ j, lo ≤ j → j ≤ hi → ∀ d, B.Agree x (k j) d → B.Agree x (k f) d

-- No key outside [lo, hi] shares more with x than some key inside.
def Covers (B : BitKeys K) (k : Nat → K) (n : Nat) (x : K) (lo hi : Nat) : Prop :=
  ∀ j, j < n → ∀ d, B.Agree x (k j) d → ∃ t, lo ≤ t ∧ t ≤ hi ∧ B.Agree x (k t) d

theorem covers_all : Covers B k n x 0 (n - 1) :=
  fun j hj _ agree => ⟨j, by omega, by omega, agree⟩

theorem BestIn.single (f : Nat) : BestIn B k x f f f :=
  ⟨le_rfl, le_rfl, fun j h1 h2 d agree => by
    obtain rfl : j = f := by omega
    exact agree⟩

theorem Covers.best {lo hi f : Nat} (cover : Covers B k n x lo hi) (best : BestIn B k x lo hi f)
    (bound : hi < n) : Best B k n x f := by
  refine ⟨lt_of_le_of_lt best.right bound, fun j hj d agree => ?_⟩
  obtain ⟨t, left, right, agree⟩ := cover j hj d agree
  exact best.most t left right d agree

theorem Covers.right (h : Blind B k b n) {lo hi m : Nat}
    (cover : Covers B k n x lo hi) (bound : hi < n) (min : StrictMin b lo hi m)
    (set : B.bit x (b m) = true) : Covers B k n x (m + 1) hi := by
  intro j hj d agree
  obtain ⟨t, left, right, agree⟩ := cover j hj d agree
  have := min.left
  have := min.right
  by_cases side : m < t
  · exact ⟨t, side, right, agree⟩
  · have less := h.lessAt_min min bound left (by omega) (Nat.lt_succ_self m) (by omega)
    have shallow : d ≤ b m := by
      by_contra deep
      have same := agree (b m) (by omega)
      rw [set, less.low] at same
      cases same
    exact ⟨m + 1, le_rfl, by omega, agree.trans (less.agree.mono shallow)⟩

theorem Covers.left (h : Blind B k b n) {lo hi m : Nat}
    (cover : Covers B k n x lo hi) (bound : hi < n) (min : StrictMin b lo hi m)
    (clear : B.bit x (b m) = false) : Covers B k n x lo m := by
  intro j hj d agree
  obtain ⟨t, left, right, agree⟩ := cover j hj d agree
  have := min.left
  by_cases side : t ≤ m
  · exact ⟨t, left, side, agree⟩
  · have less := h.lessAt_min min bound this (le_refl m) (by omega) right
    have shallow : d ≤ b m := by
      by_contra deep
      have same := agree (b m) (by omega)
      rw [clear, less.high] at same
      cases same
    exact ⟨m, this, le_rfl, agree.trans (less.agree.mono shallow).symm⟩

-- One step of a left-to-right scan that keeps the best key seen so far.
theorem BestIn.advance {lo i p : Nat} (best : BestIn B k x lo i p)
    (less : B.LessAt (k p) (k (i + 1)) (b i)) (set : B.bit x (b i) = true) :
    BestIn B k x lo (i + 1) (i + 1) := by
  have left := best.left
  have right := best.right
  refine ⟨by omega, le_rfl, fun j hj hj' d agree => ?_⟩
  by_cases last : j = i + 1
  · rwa [last] at agree
  · have upto := best.most j hj (by omega) d agree
    have shallow : d ≤ b i := by
      by_contra deep
      have same := upto (b i) (by omega)
      rw [set, less.low] at same
      cases same
    exact upto.trans (less.agree.mono shallow)

theorem BestIn.keep {lo i p e : Nat} (best : BestIn B k x lo i p)
    (less : B.LessAt (k p) (k (i + 1)) e) (clear : B.bit x e = false) :
    BestIn B k x lo (i + 1) p := by
  have left := best.left
  have right := best.right
  refine ⟨left, by omega, fun j hj hj' d agree => ?_⟩
  by_cases last : j = i + 1
  · subst last
    have shallow : d ≤ e := by
      by_contra deep
      have same := agree e (by omega)
      rw [clear, less.high] at same
      cases same
    exact agree.trans (less.agree.mono shallow).symm
  · exact best.most j hj (by omega) d agree

theorem Best.agree_le_of_lessAt {f d e j : Nat} (best : Best B k n x f) (less : B.LessAt (k f) x d)
    (bound : j < n) (agree : B.Agree x (k j) e) : e ≤ d :=
  less.agree_le (best.most j bound e agree).symm

theorem Best.agree_le_of_lessAt' {f d e j : Nat} (best : Best B k n x f) (less : B.LessAt x (k f) d)
    (bound : j < n) (agree : B.Agree x (k j) e) : e ≤ d :=
  less.agree_le (best.most j bound e agree)

theorem Best.eq_of_stored {f j : Nat} (h : Blind B k b n)
    (best : Best B k n (k j) f) (bound : j < n) :
    f = j := by
  have same : k j = k f :=
    B.ext _ _ fun i hi => best.most j bound (i + 1) (agree_refl _ _) i (by omega)
  exact (h.injective bound best.bound same).symm

-- x lies above every key of its group, and the group ends at r.
theorem Best.above {f d r : Nat} (h : Blind B k b n) (best : Best B k n x f)
    (less : B.LessAt (k f) x d) (le : f ≤ r) (bound : r < n) (deep : ∀ t, f ≤ t → t < r → d ≤ b t)
    (next : r + 1 < n → b r < d) :
    B.LessAt (k r) x d ∧ (r + 1 < n → B.LessAt x (k (r + 1)) (b r)) := by
  have group : B.Agree x (k r) d := less.agree.symm.trans (h.agree le bound deep)
  have bits : B.bit (k r) d ≠ B.bit x d := by
    intro same
    have more : B.Agree x (k r) (d + 1) := by
      intro i hi
      by_cases last : i = d
      · rw [last, same]
      · exact group i (by omega)
    have := best.agree_le_of_lessAt less bound more
    omega
  refine ⟨⟨less.inside, group.symm, by simpa [less.high] using bits, less.high⟩, fun hr => ?_⟩
  exact (h r hr).of_agree_left group (next hr)

theorem Best.below {f d l : Nat} (h : Blind B k b n) (best : Best B k n x f)
    (less : B.LessAt x (k f) d) (le : l ≤ f) (deep : ∀ t, l ≤ t → t < f → d ≤ b t)
    (prev : 0 < l → b (l - 1) < d) :
    B.LessAt x (k l) d ∧ (0 < l → B.LessAt (k (l - 1)) x (b (l - 1))) := by
  have bound := best.bound
  have group : B.Agree x (k l) d := less.agree.trans (h.agree le bound deep).symm
  have bits : B.bit (k l) d ≠ B.bit x d := by
    intro same
    have more : B.Agree x (k l) (d + 1) := by
      intro i hi
      by_cases last : i = d
      · rw [last, same]
      · exact group i (by omega)
    have := best.agree_le_of_lessAt' less (by omega) more
    omega
  refine ⟨⟨less.inside, group, less.low, by simpa [less.low] using bits⟩, fun hl => ?_⟩
  have step := h (l - 1) (by omega)
  rw [Nat.sub_add_cancel hl] at step
  exact step.of_agree_right group.symm (prev hl)

-- The first bit where x leaves the group is no blind key of the group.
theorem Best.group_ne {f d t : Nat} (h : Blind B k b n) (best : Best B k n x f)
    (differ : B.LessAt (k f) x d ∨ B.LessAt x (k f) d) (bound : t + 1 < n)
    (deep : (f ≤ t ∧ ∀ s, f ≤ s → s < t → d ≤ b s) ∨ (t < f ∧ ∀ s, t < s → s < f → d ≤ b s)) :
    b t ≠ d := by
  intro same
  have step := h t bound
  rw [same] at step
  have limit {j e : Nat} (hj : j < n) (agree : B.Agree x (k j) e) : e ≤ d := by
    rcases differ with less | less
    · exact best.agree_le_of_lessAt less hj agree
    · exact best.agree_le_of_lessAt' less hj agree
  have near : B.Agree x (k f) d := by
    rcases differ with less | less
    · exact less.agree.symm
    · exact less.agree
  have pair : B.Agree x (k t) d ∧ B.Agree x (k (t + 1)) d := by
    rcases deep with ⟨le, deep⟩ | ⟨lt, deep⟩
    · have first := near.trans (h.agree le (by omega) deep)
      exact ⟨first, first.trans step.agree⟩
    · have second := near.trans (h.agree (i := t + 1) (j := f) lt best.bound
        fun s hs hs' => deep s (by omega) hs').symm
      exact ⟨second.trans step.agree.symm, second⟩
  cases bit : B.bit x d with
  | false =>
    have more : B.Agree x (k t) (d + 1) := by
      intro i hi
      by_cases last : i = d
      · rw [last, bit, step.low]
      · exact pair.1 i (by omega)
    have := limit (by omega) more
    omega
  | true =>
    have more : B.Agree x (k (t + 1)) (d + 1) := by
      intro i hi
      by_cases last : i = d
      · rw [last, bit, step.high]
      · exact pair.2 i (by omega)
    have := limit bound more
    omega

/-- The maximal run of keys around f that agree with it past bit d. -/
structure Group (b : Nat → Nat) (n d f glo ghi : Nat) : Prop where
  left : glo ≤ f
  right : f ≤ ghi
  bound : ghi < n
  deep : ∀ i, glo ≤ i → i < ghi → d < b i
  prev : 0 < glo → b (glo - 1) < d
  next : ghi + 1 < n → b ghi < d

theorem Best.group_of_weak {f d glo ghi : Nat} (h : Blind B k b n) (best : Best B k n x f)
    (differ : B.LessAt (k f) x d ∨ B.LessAt x (k f) d) (left : glo ≤ f)
    (right : f ≤ ghi) (bound : ghi < n) (deep : ∀ i, glo ≤ i → i < ghi → d < b i)
    (prev : 0 < glo → b (glo - 1) ≤ d) (next : ghi + 1 < n → b ghi ≤ d) :
    Group b n d f glo ghi := by
  refine ⟨left, right, bound, deep, fun inner => ?_, fun inner => ?_⟩
  · refine lt_of_le_of_ne (prev inner)
      (best.group_ne h differ (by omega) (.inr ⟨by omega, fun s hs hs' => ?_⟩))
    exact (deep s (by omega) (by omega)).le
  · refine lt_of_le_of_ne (next inner)
      (best.group_ne h differ inner (.inl ⟨right, fun s hs hs' => ?_⟩))
    exact (deep s (by omega) hs').le

theorem exists_run_left (b : Nat → Nat) (d f : Nat) :
    ∃ glo, glo ≤ f ∧ (∀ i, glo ≤ i → i < f → d < b i) ∧ (0 < glo → b (glo - 1) ≤ d) := by
  induction f with
  | zero => exact ⟨0, le_rfl, fun i _ lt => absurd lt (Nat.not_lt_zero i),
    fun lt => absurd lt (lt_irrefl _)⟩
  | succ f ih =>
    by_cases deep : d < b f
    · obtain ⟨glo, le, run, stop⟩ := ih
      refine ⟨glo, by omega, fun i hi hi' => ?_, stop⟩
      by_cases last : i = f
      · rwa [last]
      · exact run i hi (by omega)
    · exact ⟨f + 1, le_rfl, fun i hi hi' => by omega, fun _ => by simpa using deep⟩

theorem exists_run_right (b : Nat → Nat) (d f rest : Nat) :
    ∃ ghi, f ≤ ghi ∧ ghi ≤ f + rest ∧ (∀ i, f ≤ i → i < ghi → d < b i) ∧
    (ghi < f + rest → b ghi ≤ d) := by
  induction rest with
  | zero => exact ⟨f, le_rfl, le_rfl, fun i hi hi' => by omega, fun lt => absurd lt (lt_irrefl _)⟩
  | succ rest ih =>
    obtain ⟨ghi, le, bound, run, stop⟩ := ih
    by_cases inner : ghi < f + rest
    · exact ⟨ghi, le, by omega, run, fun _ => stop inner⟩
    · obtain rfl : ghi = f + rest := by omega
      by_cases deep : d < b (f + rest)
      · refine ⟨f + rest + 1, by omega, le_rfl, fun i hi hi' => ?_,
          fun lt => absurd lt (lt_irrefl _)⟩
        by_cases last : i = f + rest
        · rwa [last]
        · exact run i hi (by omega)
      · exact ⟨f + rest, le, by omega, run, fun _ => by omega⟩

theorem Best.exists_group {f d : Nat} (h : Blind B k b n) (best : Best B k n x f)
    (differ : B.LessAt (k f) x d ∨ B.LessAt x (k f) d) : ∃ glo ghi, Group b n d f glo ghi := by
  have bound := best.bound
  obtain ⟨glo, left, runLeft, prev⟩ := exists_run_left b d f
  obtain ⟨ghi, right, inside, runRight, next⟩ := exists_run_right b d f (n - 1 - f)
  refine ⟨glo, ghi, best.group_of_weak h differ left right (by omega) (fun i hi hi' => ?_) prev
    fun inner => next (by omega)⟩
  by_cases side : i < f
  · exact runLeft i hi side
  · exact runRight i (by omega) hi'

theorem Best.above_group {f d glo ghi : Nat} (h : Blind B k b n) (best : Best B k n x f)
    (group : Group b n d f glo ghi) (less : B.LessAt (k f) x d) :
    B.LessAt (k ghi) x d ∧ (ghi + 1 < n → B.LessAt x (k (ghi + 1)) (b ghi)) :=
  best.above h less group.right group.bound
    (fun t ht ht' => (group.deep t (le_trans group.left ht) ht').le) group.next

theorem Best.below_group {f d glo ghi : Nat} (h : Blind B k b n) (best : Best B k n x f)
    (group : Group b n d f glo ghi) (less : B.LessAt x (k f) d) :
    B.LessAt x (k glo) d ∧ (0 < glo → B.LessAt (k (glo - 1)) x (b (glo - 1))) :=
  best.below h less group.left
    (fun t ht ht' => (group.deep t ht (lt_of_lt_of_le ht' group.right)).le) group.prev

theorem Blind.insert_above (h : Blind B k b n) {r d : Nat} (bound : r < n)
    (less : B.LessAt (k r) x d) (next : r + 1 < n → B.LessAt x (k (r + 1)) (b r)) :
    Blind B (insertAt (r + 1) x k) (insertAt r d b) (n + 1) := by
  intro i hi
  rcases Nat.lt_trichotomy i r with lt | same | lt
  · rw [insertAt_below _ _ (by omega), insertAt_below _ _ (by omega), insertAt_below _ _ lt]
    exact h i (by omega)
  · subst same
    rw [insertAt_below _ _ (by omega), insertAt_self, insertAt_self]
    exact less
  · have shifted : insertAt r d b i = b (i - 1) := insertAt_above _ _ lt
    rw [shifted, insertAt_succ _ _ lt]
    by_cases first : i = r + 1
    · subst first
      simpa using next (by omega)
    · rw [insertAt_above _ _ (by omega)]
      have step := h (i - 1) (by omega)
      rwa [Nat.sub_add_cancel (by omega)] at step

theorem Blind.insert_below (h : Blind B k b n) {l d : Nat} (bound : l < n)
    (less : B.LessAt x (k l) d) (prev : 0 < l → B.LessAt (k (l - 1)) x (b (l - 1))) :
    Blind B (insertAt l x k) (insertAt l d b) (n + 1) := by
  intro i hi
  rcases Nat.lt_trichotomy i l with lt | same | lt
  · rw [insertAt_below _ _ lt, insertAt_below _ _ lt]
    by_cases last : i + 1 = l
    · subst last
      simpa using prev (by omega)
    · rw [insertAt_below _ _ (by omega)]
      exact h i (by omega)
  · subst same
    rw [insertAt_self, insertAt_self, insertAt_succ _ _ le_rfl]
    exact less
  · rw [insertAt_succ _ _ lt.le, insertAt_above _ _ lt, insertAt_above _ _ lt]
    have step := h (i - 1) (by omega)
    rwa [Nat.sub_add_cancel (by omega)] at step

end BlindSequence
