import ElasticIndex.Shared.CartesianTree

set_option autoImplicit false

namespace SlotTree

open CartesianTree CartesianTree.PosTree

-- Level order numbering: the children of slot s are 2 s + 1 and 2 s + 2.
def slotFrom : Nat → List Bool → Nat
  | s, [] => s
  | s, d :: ds => slotFrom (2 * s + 1 + d.toNat) ds

def slot (p : List Bool) : Nat := slotFrom 0 p

def offset : List Bool → Nat
  | [] => 0
  | d :: ds => d.toNat * 2 ^ ds.length + offset ds

@[simp] theorem slot_nil : slot [] = 0 := rfl

theorem slotFrom_append (s : Nat) (p q : List Bool) :
    slotFrom s (p ++ q) = slotFrom (slotFrom s p) q := by
  induction p generalizing s with
  | nil => rfl
  | cons d ds ih => exact ih _

theorem slot_snoc (p : List Bool) (d : Bool) : slot (p ++ [d]) = 2 * slot p + 1 + d.toNat := by
  simp [slot, slotFrom_append, slotFrom]

theorem offset_lt (p : List Bool) : offset p < 2 ^ p.length := by
  induction p with
  | nil => simp [offset]
  | cons d ds ih =>
    cases d <;> simp only [offset, List.length_cons, Nat.pow_succ, Bool.toNat_true,
      Bool.toNat_false] <;> omega

theorem slotFrom_eq (s : Nat) (p : List Bool) :
    slotFrom s p + 1 = (s + 1) * 2 ^ p.length + offset p := by
  induction p generalizing s with
  | nil => simp [slotFrom, offset]
  | cons d ds ih =>
    rw [slotFrom, ih]
    cases d <;> simp only [offset, List.length_cons, Nat.pow_succ, Bool.toNat_true,
      Bool.toNat_false] <;> ring

theorem slot_lt (p : List Bool) : slot p + 1 < 2 ^ (p.length + 1) := by
  have eq := slotFrom_eq 0 p
  have lt := offset_lt p
  rw [Nat.pow_succ]
  simp only [slot] at *
  omega

theorem le_slot (p : List Bool) : 2 ^ p.length ≤ slot p + 1 := by
  have eq := slotFrom_eq 0 p
  simp only [slot] at *
  omega

theorem slot_injective {p q : List Bool} (same : slot p = slot q) : p = q := by
  induction p using List.reverseRecOn generalizing q with
  | nil =>
    cases q using List.reverseRecOn with
    | nil => rfl
    | append_singleton q e =>
      rw [slot_nil, slot_snoc] at same
      omega
  | append_singleton p d ih =>
    cases q using List.reverseRecOn with
    | nil =>
      rw [slot_nil, slot_snoc] at same
      omega
    | append_singleton q e =>
      rw [slot_snoc, slot_snoc] at same
      have turn : d = e := by
        cases d <;> cases e <;> simp only [Bool.toNat_true, Bool.toNat_false] at same <;>
          first | rfl | omega
      subst turn
      rw [ih (show slot p = slot q by omega)]

theorem exists_path (s : Nat) : ∃ p, slot p = s := by
  induction s using Nat.strong_induction_on with
  | _ s ih =>
    by_cases zero : s = 0
    · exact ⟨[], zero.symm⟩
    · obtain ⟨p, hp⟩ := ih ((s - 1) / 2) (by omega)
      refine ⟨p ++ [decide ((s - 1) % 2 = 1)], ?_⟩
      rw [slot_snoc, hp]
      by_cases odd : (s - 1) % 2 = 1 <;> simp [odd] <;> omega

theorem length_of_slot_lt {p : List Bool} {levels : Nat} (lt : slot p < 2 ^ levels - 1) :
    p.length < levels := by
  by_contra ge
  have mono : 2 ^ levels ≤ 2 ^ p.length := Nat.pow_le_pow_right (by omega) (by omega)
  have := le_slot p
  omega

theorem slot_lt_of_length {p : List Bool} {levels : Nat} (lt : p.length < levels) :
    slot p < 2 ^ levels - 1 := by
  have mono : 2 ^ (p.length + 1) ≤ 2 ^ levels := Nat.pow_le_pow_right (by omega) (by omega)
  have := slot_lt p
  omega

theorem exists_offset (r j : Nat) (lt : r < 2 ^ j) : ∃ p : List Bool, p.length = j ∧
    offset p = r := by
  induction j generalizing r with
  | zero => exact ⟨[], rfl, by simp [offset] at *; omega⟩
  | succ j ih =>
    rw [Nat.pow_succ] at lt
    by_cases high : 2 ^ j ≤ r
    · obtain ⟨p, len, off⟩ := ih (r - 2 ^ j) (by omega)
      exact ⟨true :: p, by simp [len], by simp [offset, len, off]; omega⟩
    · obtain ⟨p, len, off⟩ := ih r (by omega)
      exact ⟨false :: p, by simp [len], by simp [offset, off]⟩

theorem slot_append (q p : List Bool) : slot (q ++ p) =
    (slot q + 1) * 2 ^ p.length - 1 + offset p := by
  have eq := slotFrom_eq (slot q) p
  have pos : 1 ≤ (slot q + 1) * 2 ^ p.length := Nat.mul_pos (by omega) (Nat.two_pow_pos _)
  rw [slot, slotFrom_append]
  change slotFrom (slot q) p = _
  omega

-- The first of the 2 ^ j slots that lie j levels below q.
def blockStart (q : List Bool) (j : Nat) : Nat := (slot q + 1) * 2 ^ j - 1

theorem slot_append_eq (q p : List Bool) : slot (q ++ p) =
    blockStart q p.length + offset p := slot_append q p

theorem blockStart_pos (q : List Bool) (j : Nat) : blockStart q j + 1 = (slot q + 1) * 2 ^ j := by
  have pos : 1 ≤ (slot q + 1) * 2 ^ j := Nat.mul_pos (by omega) (Nat.two_pow_pos _)
  unfold blockStart
  omega

theorem blockStart_succ (q : List Bool) (j : Nat) : 2 * (blockStart q j + 1) - 1 =
    blockStart q (j + 1) := by
  rw [blockStart_pos, blockStart, Nat.pow_succ]
  congr 1
  ring

theorem exists_in_block {q : List Bool} {j s : Nat} (left : blockStart q j ≤ s)
    (right : s < blockStart q j + 2 ^ j) :
    ∃ p : List Bool, p.length = j ∧ slot (q ++ p) = s := by
  obtain ⟨p, len, off⟩ := exists_offset (s - blockStart q j) j (by omega)
  refine ⟨p, len, ?_⟩
  rw [slot_append_eq, len, off]
  omega

theorem mem_block (q p : List Bool) :
    blockStart q p.length ≤ slot (q ++ p) ∧ slot (q ++ p) <
      blockStart q p.length + 2 ^ p.length := by
  have := offset_lt p
  rw [slot_append_eq]
  omega

-- On one level of a Cartesian tree the positions grow from left to right.
theorem level_mono {b : Nat → Nat} {lo hi m m' s : Nat} {t : PosTree} (h : IsCartesian b lo hi t)
    {p q : List Bool} (len : p.length = q.length) (lt : slotFrom s p < slotFrom s q)
    (hp : (t.sub p).root = some m) (hq : (t.sub q).root = some m') : m < m' := by
  induction h generalizing p q s with
  | nil => simp at hp
  | node min left right ihl ihr =>
    cases p with
    | nil =>
      cases q with
      | nil => exact absurd lt (lt_irrefl _)
      | cons => cases len
    | cons d ds =>
      cases q with
      | nil => cases len
      | cons e es =>
        replace len : ds.length = es.length := by simpa using len
        simp only [slotFrom, sub_cons] at lt hp hq
        cases d with
        | false =>
          cases e with
          | false => exact ihl len lt hp hq
          | true =>
            have := left.sub_bounds hp
            have := right.sub_bounds hq
            omega
        | true =>
          cases e with
          | true => exact ihr len lt hp hq
          | false =>
            exfalso
            have eqP := slotFrom_eq (2 * s + 1 + 1) ds
            have eqQ := slotFrom_eq (2 * s + 1) es
            have := offset_lt es
            rw [← len] at eqQ this
            simp only [Bool.toNat_true, Bool.toNat_false, Nat.add_zero] at lt
            rw [add_mul] at eqP
            omega

-- The array holds the first levels of the tree, the sentinel standing for a missing subtree.
def Cut (sentinel levels : Nat) (array : Nat → Nat) (t : PosTree) : Prop :=
  ∀ p : List Bool, p.length < levels → array (slot p) = (t.sub p).root.getD sentinel

def pathTo : Nat → Nat → List Bool
  | 0, _ => []
  | levels + 1, s => if s = 0 then [] else pathTo levels ((s - 1) / 2) ++ [(s - 1) % 2 == 1]

theorem pathTo_slot (levels : Nat) (p : List Bool) (short : p.length ≤ levels) :
    pathTo levels (slot p) = p := by
  induction levels generalizing p with
  | zero => simpa [pathTo] using (List.length_eq_zero_iff.mp (Nat.le_zero.mp short)).symm
  | succ levels ih =>
    cases p using List.reverseRecOn with
    | nil => simp [pathTo]
    | append_singleton p d =>
      have half : (slot (p ++ [d]) - 1) / 2 = slot p := by
        rw [slot_snoc]
        cases d <;> simp only [Bool.toNat_true, Bool.toNat_false] <;> omega
      have parity : ((slot (p ++ [d]) - 1) % 2 == 1) = d := by
        rw [slot_snoc]
        cases d <;> simp only [Bool.toNat_true, Bool.toNat_false, beq_iff_eq,
          beq_eq_false_iff_ne] <;> omega
      rw [pathTo, if_neg (by rw [slot_snoc]; omega), half, parity, ih p (by simp at short; omega)]

-- The array that stores a given tree.
def cutArray (sentinel levels : Nat) (t : PosTree) : Nat → Nat :=
  fun s => (t.sub (pathTo levels s)).root.getD sentinel

theorem cut_cutArray (sentinel levels : Nat) (t : PosTree) :
    Cut sentinel levels (cutArray sentinel levels t) t := by
  intro p short
  rw [cutArray, pathTo_slot levels p short.le]

/-- The nearest ancestor of a slot that has it on the right, by parent links. -/
inductive LeftAncestor : Nat → Nat → Prop where
  | parent (a : Nat) : LeftAncestor (2 * a + 2) a
  | above {s a : Nat} : LeftAncestor s a → LeftAncestor (2 * s + 1) a

/-- The nearest ancestor of a slot that has it on the left. -/
inductive RightAncestor : Nat → Nat → Prop where
  | parent (a : Nat) : RightAncestor (2 * a + 1) a
  | above {s a : Nat} : RightAncestor s a → RightAncestor (2 * s + 2) a

theorem leftAncestor_slot {s a : Nat} (h : LeftAncestor s a) :
    (∃ b, s = 2 * b + 2 ∧ a = b) ∨ ∃ b, s = 2 * b + 1 ∧ LeftAncestor b a := by
  cases h with
  | parent => exact .inl ⟨a, rfl, rfl⟩
  | above h => exact .inr ⟨_, rfl, h⟩

theorem rightAncestor_slot {s a : Nat} (h : RightAncestor s a) :
    (∃ b, s = 2 * b + 1 ∧ a = b) ∨ ∃ b, s = 2 * b + 2 ∧ RightAncestor b a := by
  cases h with
  | parent => exact .inl ⟨a, rfl, rfl⟩
  | above h => exact .inr ⟨_, rfl, h⟩

@[simp] theorem leftAncestor_child_false (s a : Nat) : LeftAncestor (2 * s + 1) a ↔
    LeftAncestor s a := by
  constructor
  · intro h
    rcases leftAncestor_slot h with ⟨b, eq, rfl⟩ | ⟨b, eq, h⟩
    · omega
    · rwa [show s = b by omega]
  · exact .above

@[simp] theorem leftAncestor_child_true (s a : Nat) : LeftAncestor (2 * s + 2) a ↔ a = s := by
  constructor
  · intro h
    rcases leftAncestor_slot h with ⟨b, eq, rfl⟩ | ⟨b, eq, h⟩ <;> omega
  · rintro rfl
    exact .parent a

@[simp] theorem rightAncestor_child_false (s a : Nat) : RightAncestor (2 * s + 1) a ↔ a = s := by
  constructor
  · intro h
    rcases rightAncestor_slot h with ⟨b, eq, rfl⟩ | ⟨b, eq, h⟩ <;> omega
  · rintro rfl
    exact .parent a

@[simp] theorem rightAncestor_child_true (s a : Nat) : RightAncestor (2 * s + 2) a ↔
    RightAncestor s a := by
  constructor
  · intro h
    rcases rightAncestor_slot h with ⟨b, eq, rfl⟩ | ⟨b, eq, h⟩
    · omega
    · rwa [show s = b by omega]
  · exact .above

@[simp] theorem not_leftAncestor_zero (a : Nat) : ¬ LeftAncestor 0 a := by
  intro h
  rcases leftAncestor_slot h with ⟨b, eq, -⟩ | ⟨b, eq, -⟩ <;> omega

@[simp] theorem not_rightAncestor_zero (a : Nat) : ¬ RightAncestor 0 a := by
  intro h
  rcases rightAncestor_slot h with ⟨b, eq, -⟩ | ⟨b, eq, -⟩ <;> omega

end SlotTree
