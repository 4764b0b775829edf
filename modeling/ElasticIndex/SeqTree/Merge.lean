import ElasticIndex.SeqTree.InsertCorrect

set_option autoImplicit false

namespace ElasticIndex.SeqTree

open SequenceEdit BitOrder BlindSequence CartesianTree CartesianTree.PosTree SlotTree

variable (c : Params)

def shiftEntry (offset value : Nat) : Nat :=
  if value = c.endTree then c.endTree else (value + offset) % c.idxSize

-- Remaining levels, level_offset, source_pos, dest_pos.
def pushDownBlindiTree (source : Nat → Nat) (offset : Nat) : Nat → Nat → Nat → Nat →
    (Nat → Nat) → Nat → Nat
  | 0, _, _, _, tree => tree
  | rest + 1, levelOffset, sourcePos, destPos, tree =>
    pushDownBlindiTree source offset rest (levelOffset + 1) ((2 * (sourcePos + 1) - 1) % 65536)
      ((2 * (destPos + 1) - 1) % 65536)
      (blit destPos sourcePos (2 ^ levelOffset) (fun i => shiftEntry c offset (source i)) tree)

/-- blindiTree and the three positions of the race down the spine. -/
structure Race where
  tree : Nat → Nat
  nextPos : Nat
  smallPos : Nat
  largePos : Nat

-- Remaining levels, l. The first case ends the loop.
def raceLevels (smallTree blindiKeys : Nat → Nat) (nodeLarge : SeqTreeBlindiNode)
    (smallLen diffPos : Nat) :
    Nat → Nat → Race → Nat → Nat
  | 0, _, s => s.tree
  | rest + 1, l, s =>
    let small := smallTree s.smallPos
    let large := nodeLarge.blindiTree s.largePos
    let push (source : Nat → Nat) (sourcePos destPos offset : Nat) (tree : Nat → Nat) : Nat → Nat :=
      pushDownBlindiTree c source offset (c.treeLevels - (l + 1)) 0 (sourcePos % 65536)
        (destPos % 65536) tree
    if (small = c.endTree ∨ diffPos < blindiKeys small) ∧
        (large = c.endTree ∨ diffPos < nodeLarge.blindiKeys large) then
      let tree := Function.update s.tree s.nextPos (smallLen - 1)
      if l < c.treeSize - 1 then
        push nodeLarge.blindiTree s.largePos (2 * (s.nextPos + 1)) smallLen
          (push smallTree s.smallPos (2 * (s.nextPos + 1) - 1) 0 tree)
      else tree
    else if small ≠ c.endTree ∧ (large = c.endTree ∨ blindiKeys small < nodeLarge.blindiKeys large)
      then
      let tree := Function.update s.tree s.nextPos small
      if l < c.treeLevels - 1 then
        let nextPos := 2 * (s.nextPos + 1)
        let smallPos := 2 * (s.smallPos + 1)
        raceLevels smallTree blindiKeys nodeLarge smallLen diffPos rest (l + 1)
          { s with nextPos, smallPos, tree := push smallTree (smallPos - 1) (nextPos - 1) 0 tree }
      else raceLevels smallTree blindiKeys nodeLarge smallLen diffPos rest (l + 1) { s with tree }
    else
      let tree := Function.update s.tree s.nextPos ((large + smallLen) % c.idxSize)
      if l < c.treeSize - 1 then
        let largePos := 2 * (s.largePos + 1) - 1
        let nextPos := 2 * (s.nextPos + 1) - 1
        raceLevels smallTree blindiKeys nodeLarge smallLen diffPos rest (l + 1)
          { s with nextPos, largePos,
                   tree := push nodeLarge.blindiTree (largePos + 1) (nextPos + 1) smallLen tree }
      else raceLevels smallTree blindiKeys nodeLarge smallLen diffPos rest (l + 1) { s with tree }

variable {c} (mem : Addr → Bytes c.keyLen)

-- _diff_pos is a uint16_t.
def mergeBlindiNodes (node nodeLarge : SeqTreeBlindiNode) : SeqTreeBlindiNode :=
  let smallLen := node.validLen
  let largeLen := nodeLarge.validLen
  let keyPtr := blit smallLen 0 (largeLen - 1) nodeLarge.keyPtr node.keyPtr
  let blindiKeys := blit smallLen 0 (largeLen - 1) nodeLarge.blindiKeys node.blindiKeys
  let keyPtr := Function.update keyPtr (smallLen + largeLen - 1) (nodeLarge.keyPtr (largeLen - 1))
  let compare := compareStage (mem (keyPtr (smallLen - 1))) (mem (nodeLarge.keyPtr 0))
  let diffPos := if compare.eq then c.duplicate else compare.position % 65536
  let blindiKeys := Function.update blindiKeys (smallLen - 1) (diffPos % c.bitidxSize)
  let merged : SeqTreeBlindiNode :=
    { node with validLen := (smallLen + largeLen) % c.idxSize, keyPtr, blindiKeys }
  if 0 < c.treeLevels then
    { merged with
      blindiTree := raceLevels c node.blindiTree blindiKeys nodeLarge smallLen
        diffPos c.treeLevels 0
        { tree := node.blindiTree, nextPos := 0, smallPos := 0, largePos := 0 } }
  else merged

variable {bits source smallTree : Nat → Nat} {t t0 : PosTree} {p q : List Bool} {o lo hi : Nat}

theorem blockStart_lt {k levels : Nat} (inside : p.length + k < levels) :
    blockStart p k + 1 < 2 ^ levels := by
  have start := blockStart_pos p k
  have number := slot_lt p
  have mono : 2 ^ (p.length + k + 1) ≤ 2 ^ levels := Nat.pow_le_pow_right (by omega) (by omega)
  have product : (slot p + 1) * 2 ^ k < 2 ^ (p.length + 1) * 2 ^ k :=
    Nat.mul_lt_mul_of_pos_right number (Nat.two_pow_pos k)
  have powers : 2 ^ (p.length + 1) * 2 ^ k = 2 ^ (p.length + k + 1) := by ring
  omega

theorem next_block (depth : c.treeLevels ≤ 16) {k : Nat}
    (inside : p.length + k + 1 < c.treeLevels) :
    (2 * (blockStart p k + 1) - 1) % 65536 = blockStart p (k + 1) := by
  have bound := blockStart_lt (p := p) (k := k + 1) inside
  have power : 2 ^ c.treeLevels ≤ 2 ^ 16 := Nat.pow_le_pow_right (by omega) depth
  rw [blockStart_succ, Nat.mod_eq_of_lt (by omega)]

-- Below p stands what the source has below q, every other slot is kept.
theorem pushDownBlindiTree_spec (depth : c.treeLevels ≤ 16) (source : Nat → Nat) (offset : Nat)
    (le : q.length ≤ p.length) (rest k sourcePos destPos : Nat) (tree : Nat → Nat)
    (room : rest + (p.length + k) = c.treeLevels)
    (starts : 0 < rest → sourcePos = blockStart q k ∧ destPos = blockStart p k) :
    (∀ w : List Bool, k ≤ w.length → p.length + w.length < c.treeLevels →
        pushDownBlindiTree c source offset rest k sourcePos destPos tree (slot (p ++ w)) =
          shiftEntry c offset (source (slot (q ++ w)))) ∧
      ∀ s, (∀ w : List Bool, k ≤ w.length → p.length + w.length < c.treeLevels →
        s ≠ slot (p ++ w)) →
        pushDownBlindiTree c source offset rest k sourcePos destPos tree s = tree s := by
  induction rest generalizing k sourcePos destPos tree with
  | zero => exact ⟨fun w deep inside => by omega, fun _ _ => rfl⟩
  | succ rest ih =>
    obtain ⟨rfl, rfl⟩ := starts (by omega)
    obtain ⟨below, aside⟩ :=
      ih (k + 1) ((2 * (blockStart q k + 1) - 1) % 65536) ((2 * (blockStart p k + 1) - 1) % 65536)
      (blit (blockStart p k) (blockStart q k) (2 ^ k)
        (fun i => shiftEntry c offset (source i)) tree) (by omega)
      fun more => ⟨next_block depth (by omega), next_block depth (by omega)⟩
    rw [pushDownBlindiTree]
    refine ⟨fun w deep inside => ?_, fun s outside => ?_⟩
    · by_cases here : w.length = k
      · subst here
        have block := mem_block p w
        have target := slot_append_eq p w
        have origin := slot_append_eq q w
        rw [aside _ fun w' longer _ => slot_append_ne (by omega), blit, if_pos block]
        congr 2
        omega
      · exact below w (by omega) inside
    · rw [aside s fun w deep inside => outside w (by omega) inside, blit, if_neg]
      rintro ⟨left, right⟩
      obtain ⟨w, len, same⟩ := exists_in_block left right
      exact outside w len.ge (by omega) same.symm

theorem shiftEntry_root (bound : ∀ m, t0.root = some m → o + m < c.endTree) :
    shiftEntry c o (t0.root.getD c.endTree) = (t0.map (o + ·)).root.getD c.endTree := by
  have size : c.endTree = c.idxSize - 1 := rfl
  cases root : t0.root with
  | none =>
    rw [root_map, root]
    exact if_pos rfl
  | some m =>
    have := bound m root
    rw [root_map, root, Option.getD_some, shiftEntry, if_neg (by omega),
      Nat.mod_eq_of_lt (by omega), Nat.add_comm]
    rfl

-- Pushing a subtree of another tree below p, its positions counted from o.
theorem pushDownBlindiTree_cut (depth : c.treeLevels ≤ 16)
    (cut : Cut c.endTree c.treeLevels source t0) (le : q.length ≤ p.length)
    (short : p.length ≤ c.treeLevels) (target : IsCartesian bits (o + lo) (o + hi) (t.sub p))
    (sub : IsCartesian (fun i => bits (o + i)) lo hi (t0.sub q)) (bound : o + hi ≤ c.endTree)
    (sourcePos destPos : Nat)
    (starts : p.length < c.treeLevels → sourcePos = slot q ∧ destPos = slot p) (tree : Nat → Nat) :
    (∀ w : List Bool, p.length + w.length < c.treeLevels →
        pushDownBlindiTree c source o (c.treeLevels - p.length) 0 (sourcePos % 65536)
          (destPos % 65536) tree
          (slot (p ++ w)) = (t.sub (p ++ w)).root.getD c.endTree) ∧
      ∀ p', ¬ p <+: p' →
        pushDownBlindiTree c source o (c.treeLevels - p.length) 0 (sourcePos % 65536)
          (destPos % 65536) tree (slot p') =
          tree (slot p') := by
  have same : t.sub p = (t0.sub q).map (o + ·) := target.unique sub.shift
  have number {q' : List Bool} (inside : q'.length < c.treeLevels) : slot q' % 65536 = slot q' := by
    have lt := slot_lt_of_length inside
    have power : 2 ^ c.treeLevels ≤ 2 ^ 16 := Nat.pow_le_pow_right (by omega) depth
    exact Nat.mod_eq_of_lt (by omega)
  obtain ⟨below, aside⟩ :=
    pushDownBlindiTree_spec (q := q) (p := p) depth source o le (c.treeLevels - p.length) 0
    (sourcePos % 65536) (destPos % 65536) tree (by omega) fun more => by
      obtain ⟨rfl, rfl⟩ := starts (by omega)
      rw [number (by omega), number (by omega), blockStart_zero, blockStart_zero]
      exact ⟨rfl, rfl⟩
  refine ⟨fun w inside => ?_, fun p' outside => ?_⟩
  · rw [below w (Nat.zero_le _) inside, cut (q ++ w) (by simp; omega), sub_append,
      sub_append, same, sub_map]
    refine shiftEntry_root fun m root => ?_
    have := sub.sub_bounds root
    omega
  · refine aside _ fun w _ _ eq => ?_
    obtain rfl := slot_injective eq
    exact outside (List.prefix_append _ _)

/-- The race over two trees side by side, n the length of the small node: P is the spine of the
merged tree t, ps and pl what is left of the two trees, and everything off the spine is in place. -/
structure Racing (c : Params) (bits : Nat → Nat) (t small large : PosTree) (n size : Nat)
    (P ps pl : List Bool) (lo hi l : Nat) (s : Race) : Prop where
  len : P.length = l
  smallDepth : ps.length ≤ l
  largeDepth : pl.length ≤ l
  reaches : Reaches t size P lo (n + hi)
  inside : lo < n
  smallTree : IsCartesian bits lo (n - 1) (small.sub ps)
  largeTree : IsCartesian (fun i => bits (n + i)) 0 hi (large.sub pl)
  pos : l < c.treeLevels → s.nextPos = slot P ∧ s.smallPos = slot ps ∧ s.largePos = slot pl
  done : ∀ p, p.length < c.treeLevels → ¬ P <+: p → s.tree (slot p) = (t.sub p).root.getD c.endTree

theorem prefix_cases {P p : List Bool} (under : P <+: p) : p = P ∨ ∃ d, P ++ [d] <+: p := by
  obtain ⟨w, rfl⟩ := under
  cases w with
  | nil => exact .inl (List.append_nil P)
  | cons d w => exact .inr ⟨d, w, by simp⟩

theorem not_prefix_turn {P p : List Bool} {d e : Bool} (under : P ++ [d] <+: p) (ne : e ≠ d) :
    ¬ P ++ [e] <+: p := by
  rintro ⟨w, rfl⟩
  obtain ⟨w', same⟩ := under
  rw [List.append_assoc, List.append_assoc] at same
  have turn := List.append_cancel_left same
  simp at turn
  exact ne turn.1.symm

theorem slot_child (P : List Bool) (d : Bool) : slot (P ++ [d]) =
    2 * (slot P + 1) - 1 + d.toNat := by
  rw [slot_snoc]
  omega

section

variable {small large : PosTree} {n size l m : Nat} {P ps pl : List Bool} {s s' : Race}
  {largeTree : Nat → Nat} (depth : c.treeLevels ≤ 16) (tree : IsCartesian bits 0 size t)
  (bound : size < c.endTree)
  (cutSmall : Cut c.endTree c.treeLevels smallTree small)
  (cutLarge : Cut c.endTree c.treeLevels largeTree large)
  (h : Racing c bits t small large n size P ps pl lo hi l s) (more : l < c.treeLevels)

include h in
theorem Racing.turn_length (d : Bool) : (P ++ [d]).length = l + 1 := by
  rw [List.length_append, h.len]
  rfl

-- The tree of the small node below the left turn: all that is left of it, or its left subtree.
include depth tree bound cutSmall h more in
theorem Racing.push_small {hi' : Nat} (root : (t.sub P).root = some hi') (q : List Bool)
    (le : q.length ≤ l + 1) (sub : IsCartesian bits lo hi' (small.sub q)) (sourcePos : Nat)
    (starts : l + 1 < c.treeLevels → sourcePos = slot q) (array : Nat → Nat) :
    (∀ w : List Bool, l + 1 + w.length < c.treeLevels →
        pushDownBlindiTree c smallTree 0 (c.treeLevels - (l + 1)) 0 (sourcePos % 65536)
          ((2 * (s.nextPos + 1) - 1) % 65536) array (slot (P ++ [false] ++ w)) =
            (t.sub (P ++ [false] ++ w)).root.getD c.endTree) ∧
      ∀ p', ¬ P ++ [false] <+: p' →
        pushDownBlindiTree c smallTree 0 (c.treeLevels - (l + 1)) 0 (sourcePos % 65536)
          ((2 * (s.nextPos + 1) - 1) % 65536) array (slot p') = array (slot p') := by
  have range := h.reaches.le_size tree
  have cartesian := h.reaches.cartesian tree
  have min := cartesian.min root
  have := min.right
  have len := h.turn_length false
  have zero : (fun i => bits (0 + i)) = bits := by simp
  have target : IsCartesian bits (0 + lo) (0 + hi') (t.sub (P ++ [false])) := by
    rw [sub_snoc, Nat.zero_add, Nat.zero_add]
    exact cartesian.left root
  have pushed := pushDownBlindiTree_cut (q := q) depth cutSmall (by omega) (by omega)
    target (by rwa [zero]) (by omega)
    sourcePos (2 * (s.nextPos + 1) - 1)
    (fun inside => ⟨starts (by omega), by rw [(h.pos more).1, slot_child]; rfl⟩) array
  rwa [len] at pushed

-- The tree of the large node below the right turn.
include depth tree bound cutLarge h more in
theorem Racing.push_large (root : (t.sub P).root = some m) (lo' : Nat)
    (start : m + 1 = n + lo') (q : List Bool) (le : q.length ≤ l + 1)
    (sub : IsCartesian (fun i => bits (n + i)) lo' hi (large.sub q)) (sourcePos : Nat)
    (starts : l + 1 < c.treeLevels → sourcePos = slot q) (array : Nat → Nat) :
    (∀ w : List Bool, l + 1 + w.length < c.treeLevels →
        pushDownBlindiTree c largeTree n (c.treeLevels - (l + 1)) 0 (sourcePos % 65536)
          (2 * (s.nextPos + 1) % 65536) array (slot (P ++ [true] ++ w)) =
            (t.sub (P ++ [true] ++ w)).root.getD c.endTree) ∧
      ∀ p', ¬ P ++ [true] <+: p' →
        pushDownBlindiTree c largeTree n (c.treeLevels - (l + 1)) 0 (sourcePos % 65536)
          (2 * (s.nextPos + 1) % 65536) array (slot p') = array (slot p') := by
  have range := h.reaches.le_size tree
  have cartesian := h.reaches.cartesian tree
  have len := h.turn_length true
  have target : IsCartesian bits (n + lo') (n + hi) (t.sub (P ++ [true])) := by
    rw [sub_snoc, ← start]
    exact cartesian.right root
  have pushed := pushDownBlindiTree_cut (q := q) depth cutLarge (by omega) (by omega)
    target sub (by omega)
    sourcePos (2 * (s.nextPos + 1))
    (fun inside => ⟨starts (by omega), by rw [(h.pos more).1, slot_child, Bool.toNat_true]; omega⟩)
      array
  rwa [len] at pushed

include h more in
-- The slots off the spine and the new entry, once the pushes leave them alone.
theorem Racing.settled (root : (t.sub P).root = some m) {array : Nat → Nat}
    (kept : ∀ p, (∀ d, ¬ P ++ [d] <+: p) → array (slot p) =
      Function.update s.tree s.nextPos m (slot p)) (p : List Bool)
    (short : p.length < c.treeLevels) (off : ∀ d, ¬ P ++ [d] <+: p) :
    array (slot p) = (t.sub p).root.getD c.endTree := by
  rw [kept p off, (h.pos more).1]
  by_cases under : P <+: p
  · rcases prefix_cases under with rfl | ⟨d, turn⟩
    · rw [Function.update_self, root]
      rfl
    · exact absurd turn (off d)
  · rw [Function.update_of_ne, h.done p short under]
    intro same
    obtain rfl := slot_injective same
    exact under (List.prefix_refl _)

include depth tree bound cutSmall cutLarge h more in
theorem Racing.middle_wins (root : (t.sub P).root = some (n - 1)) :
    Cut c.endTree c.treeLevels
      (pushDownBlindiTree c largeTree n (c.treeLevels - (l + 1)) 0 (s.largePos % 65536)
        (2 * (s.nextPos + 1) % 65536)
        (pushDownBlindiTree c smallTree 0 (c.treeLevels - (l + 1)) 0 (s.smallPos % 65536)
          ((2 * (s.nextPos + 1) - 1) % 65536) (Function.update s.tree s.nextPos (n - 1)))) t := by
  have inside := h.inside
  obtain ⟨_, smallPos, largePos⟩ := h.pos more
  obtain ⟨belowSmall, asideSmall⟩ := h.push_small depth tree bound cutSmall more root ps
    (by have := h.smallDepth; omega) h.smallTree s.smallPos (fun _ => smallPos)
      (Function.update s.tree s.nextPos (n - 1))
  obtain ⟨belowLarge, asideLarge⟩ :=
    h.push_large depth tree bound cutLarge more root 0 (by omega) pl
    (by have := h.largeDepth; omega) h.largeTree s.largePos (fun _ => largePos)
    (pushDownBlindiTree c smallTree 0 (c.treeLevels - (l + 1)) 0 (s.smallPos % 65536)
      ((2 * (s.nextPos + 1) - 1) % 65536)
      (Function.update s.tree s.nextPos (n - 1)))
  intro p short
  by_cases off : ∀ d, ¬ P ++ [d] <+: p
  · exact h.settled more root
      (fun p off => (asideLarge p (off true)).trans (asideSmall p (off false))) p short off
  · push Not at off
    obtain ⟨d, turn⟩ := off
    obtain ⟨w, same⟩ := turn
    have room : l + 1 + w.length < c.treeLevels := by
      have := congrArg List.length same
      rw [List.length_append, h.turn_length d] at this
      omega
    subst same
    cases d with
    | false =>
      rw [asideLarge _ (not_prefix_turn (List.prefix_append _ _) (by decide))]
      exact belowSmall w room
    | true => exact belowLarge w room

include depth tree bound cutSmall h more in
theorem Racing.small_wins (root : (t.sub P).root = some m) (entry : (small.sub ps).root = some m)
    (array : s'.tree = pushDownBlindiTree c smallTree 0 (c.treeLevels - (l + 1)) 0
      ((2 * (s.smallPos + 1) - 1) % 65536) ((2 * (s.nextPos + 1) - 1) % 65536)
      (Function.update s.tree s.nextPos m))
    (pos : l + 1 < c.treeLevels → s'.nextPos = 2 * (s.nextPos + 1) ∧
      s'.smallPos = 2 * (s.smallPos + 1) ∧
      s'.largePos = s.largePos) :
    Racing c bits t small large n size (P ++ [true]) (ps ++ [true]) pl (m + 1) hi (l + 1) s' := by
  obtain ⟨nextPos, smallPos, largePos⟩ := h.pos more
  have below := h.smallTree.sub_bounds (p := []) entry
  have smallDepth := h.smallDepth
  obtain ⟨pushed, aside⟩ := h.push_small depth tree bound cutSmall more root (ps ++ [false])
    (by rw [List.length_append, List.length_singleton]; omega) (by
      rw [sub_snoc]; exact h.smallTree.left entry)
    (2 * (s.smallPos + 1) - 1) (fun _ => by rw [smallPos, slot_child]; rfl)
      (Function.update s.tree s.nextPos m)
  refine ⟨h.turn_length true, by rw [List.length_append, List.length_singleton]; omega,
    by have := h.largeDepth; omega,
    h.reaches.right root, by omega, ?_, h.largeTree, fun inside => ?_, fun p short off => ?_⟩
  · rw [sub_snoc]
    exact h.smallTree.right entry
  · obtain ⟨next', small', large'⟩ := pos inside
    rw [next', small', large', nextPos, smallPos, largePos, slot_child, slot_child, Bool.toNat_true]
    exact ⟨by omega, by omega, rfl⟩
  · rw [array]
    by_cases turn : P ++ [false] <+: p
    · obtain ⟨w, same⟩ := turn
      have room : l + 1 + w.length < c.treeLevels := by
        have := congrArg List.length same
        rw [List.length_append, h.turn_length false] at this
        omega
      rw [← same]
      exact pushed w room
    · refine h.settled more root (fun p off => aside p (off false)) p short fun d => ?_
      cases d with
      | false => exact turn
      | true => exact off

include depth tree bound cutLarge h more in
theorem Racing.large_wins (root : (t.sub P).root = some (n + m))
    (entry : (large.sub pl).root = some m)
    (array : s'.tree = pushDownBlindiTree c largeTree n (c.treeLevels - (l + 1)) 0
      ((2 * (s.largePos + 1) - 1 + 1) % 65536) (2 * (s.nextPos + 1) % 65536)
      (Function.update s.tree s.nextPos (n + m)))
    (pos : l + 1 < c.treeLevels → s'.nextPos = 2 * (s.nextPos + 1) - 1 ∧ s'.smallPos = s.smallPos ∧
      s'.largePos = 2 * (s.largePos + 1) - 1) :
    Racing c bits t small large n size (P ++ [false]) ps (pl ++ [false]) lo m (l + 1) s' := by
  obtain ⟨nextPos, smallPos, largePos⟩ := h.pos more
  have largeDepth := h.largeDepth
  obtain ⟨pushed, aside⟩ :=
    h.push_large depth tree bound cutLarge more root (m + 1) (by omega) (pl ++ [true])
    (by rw [List.length_append, List.length_singleton]; omega) (by
      rw [sub_snoc]; exact h.largeTree.right entry)
    (2 * (s.largePos + 1) - 1 + 1) (fun _ => by rw [largePos, slot_child]; rfl)
    (Function.update s.tree s.nextPos (n + m))
  refine ⟨h.turn_length false, by have := h.smallDepth; omega,
    by rw [List.length_append, List.length_singleton]; omega,
    h.reaches.left root, h.inside, h.smallTree, ?_, fun inside => ?_, fun p short off => ?_⟩
  · rw [sub_snoc]
    exact h.largeTree.left entry
  · obtain ⟨next', small', large'⟩ := pos inside
    rw [next', small', large', nextPos, smallPos, largePos, slot_child,
      slot_child, Bool.toNat_false]
    exact ⟨by omega, rfl, by omega⟩
  · rw [array]
    by_cases turn : P ++ [true] <+: p
    · obtain ⟨w, same⟩ := turn
      have room : l + 1 + w.length < c.treeLevels := by
        have := congrArg List.length same
        rw [List.length_append, h.turn_length true] at this
        omega
      rw [← same]
      exact pushed w room
    · refine h.settled more root (fun p off => aside p (off true)) p short fun d => ?_
      cases d with
      | false => exact off
      | true => exact turn

end

theorem entry_cases {array : Nat → Nat} {t0 : PosTree}
    (cut : Cut c.endTree c.treeLevels array t0) {q : List Bool} (short : q.length < c.treeLevels)
    (sub : IsCartesian bits lo hi (t0.sub q)) :
    array (slot q) = c.endTree ∧ hi ≤ lo ∨
      ∃ m, (t0.sub q).root = some m ∧ array (slot q) = m ∧ StrictMin bits lo hi m := by
  have entry := cut q short
  cases root : (t0.sub q).root with
  | none =>
    rw [root, Option.getD_none] at entry
    exact .inl ⟨entry, sub.empty root⟩
  | some m =>
    rw [root, Option.getD_some] at entry
    exact .inr ⟨m, rfl, entry, sub.min root⟩

-- At each level the race picks the least bit that is left, so it follows the spine of the merged
-- tree.
theorem raceLevels_cut {small large : PosTree} {n size : Nat} {nodeLarge : SeqTreeBlindiNode}
    (depth : c.treeLevels ≤ 16) (tree : IsCartesian bits 0 size t) (bound : size < c.endTree)
    (cutSmall : Cut c.endTree c.treeLevels smallTree small)
    (cutLarge : Cut c.endTree c.treeLevels nodeLarge.blindiTree large)
    (keys : ∀ m, n + m < size → nodeLarge.blindiKeys m = bits (n + m)) (rest l : Nat)
    {P ps pl : List Bool} {s : Race} (room : l + rest = c.treeLevels)
    (h : Racing c bits t small large n size P ps pl lo hi l s) :
    Cut c.endTree c.treeLevels
      (raceLevels c smallTree bits nodeLarge n (bits (n - 1)) rest l s) t := by
  induction rest generalizing l P ps pl lo hi s with
  | zero =>
    intro p short
    refine h.done p short fun under => ?_
    have := under.length_le
    have := h.len
    omega
  | succ rest ih =>
    have more : l < c.treeLevels := by omega
    have inside := h.inside
    have smallDepth := h.smallDepth
    have largeDepth := h.largeDepth
    have range := h.reaches.le_size tree
    obtain ⟨nextPos, smallPos, largePos⟩ := h.pos more
    have cartesian := h.reaches.cartesian tree
    obtain ⟨M, root⟩ := cartesian.root_of_lt (by omega)
    have min := cartesian.min root
    have left := min.left
    have right := min.right
    have smallEntry := entry_cases cutSmall (by omega) h.smallTree
    have largeEntry := entry_cases cutLarge (by omega) h.largeTree
    have wide (l : Nat) (last : ¬ l < c.treeSize - 1) (lt : l < c.treeLevels) :
        c.treeLevels - (l + 1) = 0 := by
      have := Nat.lt_two_pow_self (n := l + 2)
      by_contra deeper
      have mono : 2 ^ (l + 2) ≤ 2 ^ c.treeLevels := Nat.pow_le_pow_right (by omega) (by omega)
      unfold Params.treeSize at last
      omega
    unfold raceLevels
    dsimp only
    rw [smallPos, largePos]
    rcases Nat.lt_trichotomy M (n - 1) with lt | rfl | gt
    · obtain ⟨entry, value⟩ : (small.sub ps).root = some M ∧ smallTree (slot ps) = M := by
        rcases smallEntry with ⟨_, empty⟩ | ⟨m, root', value, min'⟩
        · omega
        · obtain rfl := (min.narrow le_rfl (by omega) left lt).unique min'
          exact ⟨root', value⟩
      have loses : ¬ bits (n - 1) < bits M := by
        have := min.least (n - 1) (by omega) (by omega) (by omega)
        omega
      have wins : nodeLarge.blindiTree (slot pl) = c.endTree ∨
          bits M < nodeLarge.blindiKeys (nodeLarge.blindiTree (slot pl)) := by
        rcases largeEntry with ⟨none, _⟩ | ⟨m, _, value', min'⟩
        · exact .inl none
        · have := min'.right
          rw [value', keys m (by omega)]
          exact .inr (min.least (n + m) (by omega) (by omega) (by omega))
      have present : M ≠ c.endTree := by omega
      rw [value, if_neg fun both => both.1.elim present loses, if_pos ⟨present, wins⟩]
      by_cases last : l < c.treeLevels - 1
      · rw [if_pos last]
        refine ih (l + 1) (by omega)
          (h.small_wins depth tree bound cutSmall more root entry ?_ fun _ => ⟨rfl, ?_, ?_⟩)
        · rw [smallPos]
        · rw [smallPos]
        · rw [largePos]
      · rw [if_neg last]
        refine ih (l + 1) (by omega)
          (h.small_wins depth tree bound cutSmall more root entry ?_ fun inner => by omega)
        rw [show c.treeLevels - (l + 1) = 0 by omega]
        rfl
    · have wins : (smallTree (slot ps) = c.endTree ∨ bits (n - 1) < bits (smallTree (slot ps))) ∧
          (nodeLarge.blindiTree (slot pl) = c.endTree ∨
            bits (n - 1) < nodeLarge.blindiKeys (nodeLarge.blindiTree (slot pl))) := by
        refine ⟨?_, ?_⟩
        · rcases smallEntry with ⟨none, _⟩ | ⟨m, _, value, min'⟩
          · exact .inl none
          · have := min'.left
            have := min'.right
            rw [value]
            exact .inr (min.least m (by omega) (by omega) (by omega))
        · rcases largeEntry with ⟨none, _⟩ | ⟨m, _, value, min'⟩
          · exact .inl none
          · have := min'.right
            rw [value, keys m (by omega)]
            exact .inr (min.least (n + m) (by omega) (by omega) (by omega))
      have joined := h.middle_wins depth tree bound cutSmall cutLarge more root
      rw [smallPos, largePos] at joined
      rw [if_pos wins]
      by_cases last : l < c.treeSize - 1
      · rw [if_pos last]
        exact joined
      · rw [if_neg last]
        rw [wide l last more] at joined
        exact joined
    · obtain ⟨m, rfl⟩ : ∃ m, M = n + m := ⟨M - n, by omega⟩
      have window : StrictMin (fun i => bits (n + i)) 0 hi (n + m - n) :=
        min.window (by omega) (by omega) (by omega) (by omega)
      rw [Nat.add_sub_cancel_left] at window
      obtain ⟨entry, value⟩ : (large.sub pl).root = some m ∧
          nodeLarge.blindiTree (slot pl) = m := by
        rcases largeEntry with ⟨_, empty⟩ | ⟨m', root', value, min'⟩
        · omega
        · obtain rfl := window.unique min'
          exact ⟨root', value⟩
      have key := keys m (by omega)
      have present : m ≠ c.endTree := by omega
      have middle : ¬ bits (n - 1) < bits (n + m) := by
        have := min.least (n - 1) (by omega) (by omega) (by omega)
        omega
      have loses : ¬ (smallTree (slot ps) ≠ c.endTree ∧
          (m = c.endTree ∨ bits (smallTree (slot ps)) < bits (n + m))) := by
        rintro ⟨some, less⟩
        rcases smallEntry with ⟨none, _⟩ | ⟨m', _, value', min'⟩
        · exact some none
        · have := min'.left
          have := min'.right
          have least := min.least m' (by omega) (by omega) (by omega)
          rw [value'] at less
          rcases less with none | less
          · exact present none
          · omega
      have stored : (m + n) % c.idxSize = n + m := by
        have sentinel : c.endTree = c.idxSize - 1 := rfl
        rw [Nat.mod_eq_of_lt (by omega), Nat.add_comm]
      rw [value, key, if_neg fun both => both.2.elim present middle, if_neg loses, stored]
      by_cases last : l < c.treeSize - 1
      · rw [if_pos last]
        refine ih (l + 1) (by omega)
          (h.large_wins depth tree bound cutLarge more root entry ?_ fun _ => ⟨rfl, ?_, ?_⟩)
        · have next : 2 * (s.nextPos + 1) - 1 + 1 = 2 * (s.nextPos + 1) := by omega
          rw [largePos, next]
        · rw [smallPos]
        · rw [largePos]
      · rw [if_neg last]
        refine ih (l + 1) (by omega)
          (h.large_wins depth tree bound cutLarge more root entry ?_ fun inner => ?_)
        · rw [wide l last more]
          rfl
        · have := wide l last more
          omega

variable {mem : Addr → Bytes c.keyLen} {node nodeLarge : SeqTreeBlindiNode}

theorem Params.length_fits (c : Params) (slots : c.numSlots < 65536) {n : Nat}
    (fits : n ≤ c.numSlots) : n ≤ c.endTree := by
  have even := c.even
  unfold Params.endTree Params.idxSize
  split_ifs <;> omega

theorem Params.bits_fit (c : Params) (key : c.keyLen ≤ 8192) : 8 * c.keyLen ≤ c.bitidxSize := by
  unfold Params.bitidxSize
  split_ifs <;> omega

theorem Params.bitidxSize_le (c : Params) : c.bitidxSize ≤ 65536 := by
  unfold Params.bitidxSize
  split_ifs <;> omega

structure Joined (mem : Addr → Bytes c.keyLen) (node nodeLarge r : SeqTreeBlindiNode) : Prop where
  wellFormed : WellFormed mem r
  entries : entries r.validLen r.keyPtr =
    entries node.validLen node.keyPtr ++ entries nodeLarge.validLen nodeLarge.keyPtr

-- The arrays after the copy, d the first bit where the two nodes differ.
theorem mergeBlindiNodes_arrays {d n n' : Nat} (small : node.validLen = n)
    (large : nodeLarge.validLen = n') (positive : 1 ≤ n) (positive' : 1 ≤ n')
    (fits : n + n' ≤ c.endTree)
    (less : (keyBits c.keyLen).LessAt (node.keys mem (n - 1)) (nodeLarge.keys mem 0) d) :
    let r := mergeBlindiNodes mem node nodeLarge
    r.validLen = n + n' ∧
      (∀ i, i < n + n' → r.keyPtr i = if i < n then node.keyPtr i else nodeLarge.keyPtr (i - n)) ∧
      (∀ i, i + 1 < n + n' → r.blindiKeys i = if i + 1 < n then node.blindiKeys i
        else if i + 1 = n then d % 65536 % c.bitidxSize else nodeLarge.blindiKeys (i - n)) ∧
      (0 < c.treeLevels → r.blindiTree =
      raceLevels c node.blindiTree r.blindiKeys nodeLarge n (d % 65536)
        c.treeLevels 0 { tree := node.blindiTree, nextPos := 0, smallPos := 0,
                         largePos := 0 }) := by
  intro r
  have size : c.endTree = c.idxSize - 1 := rfl
  have unfolded : r = mergeBlindiNodes mem node nodeLarge := rfl
  have last : Function.update (blit n 0 (n' - 1) nodeLarge.keyPtr node.keyPtr) (n + n' - 1)
    (nodeLarge.keyPtr (n' - 1))
      (n - 1) = node.keyPtr (n - 1) := by
    rw [Function.update_of_ne (by omega), blit, if_neg (by omega)]
  rw [mergeBlindiNodes] at unfolded
  dsimp only at unfolded
  rw [small, large, last] at unfolded
  have compare := compareStage_of_less less
  rw [SeqTreeBlindiNode.keys, SeqTreeBlindiNode.keys] at compare
  rw [compare] at unfolded
  dsimp only at unfolded
  rw [if_neg Bool.false_ne_true, Nat.mod_eq_of_lt (a := n + n') (by omega)] at unfolded
  have keyPtr (i : Nat) (hi : i < n + n') :
    Function.update (blit n 0 (n' - 1) nodeLarge.keyPtr node.keyPtr) (n + n' - 1)
      (nodeLarge.keyPtr (n' - 1)) i = if i < n then node.keyPtr i
          else nodeLarge.keyPtr (i - n) := by
    by_cases end_ : i = n + n' - 1
    · rw [end_, Function.update_self, if_neg (by omega)]
      congr 1
      omega
    · rw [Function.update_of_ne end_, blit]
      by_cases below : i < n
      · rw [if_neg (by omega), if_pos below]
      · rw [if_pos (by omega), if_neg below, Nat.zero_add]
  have blindiKeys (i : Nat) (hi : i + 1 < n + n') :
      Function.update (blit n 0 (n' - 1) nodeLarge.blindiKeys node.blindiKeys) (n - 1)
      (d % 65536 % c.bitidxSize) i =
        if i + 1 < n then node.blindiKeys i else if i + 1 = n then d % 65536 % c.bitidxSize
          else nodeLarge.blindiKeys (i - n) := by
    by_cases middle : i = n - 1
    · rw [middle, Function.update_self, if_neg (by omega), if_pos (by omega)]
    · rw [Function.update_of_ne middle, blit]
      by_cases below : i < n
      · rw [if_neg (by omega), if_pos (by omega)]
      · rw [if_pos (by omega), if_neg (by omega), if_neg (by omega), Nat.zero_add]
  rw [unfolded]
  by_cases levels : 0 < c.treeLevels
  · rw [if_pos levels]
    exact ⟨rfl, keyPtr, blindiKeys, fun _ => rfl⟩
  · rw [if_neg levels]
    exact ⟨rfl, keyPtr, blindiKeys, fun positive => absurd positive levels⟩

-- Two neighbouring nodes that fit the indices become one over the keys of both.
theorem merge_joined (levels : 1 ≤ c.treeLevels) (depth : c.treeLevels ≤ 16)
    (bits : 8 * c.keyLen ≤ c.bitidxSize) (mem : Addr → Bytes c.keyLen)
    {node nodeLarge : SeqTreeBlindiNode} (small : WellFormed mem node)
    (large : WellFormed mem nodeLarge) (idx : node.validLen + nodeLarge.validLen ≤ c.endTree)
    (fits : node.validLen + nodeLarge.validLen ≤ c.numSlots)
    (below : ∀ i, i < node.validLen → ∀ j, j < nodeLarge.validLen →
      (keyBits c.keyLen).Less (node.keys mem i) (nodeLarge.keys mem j)) :
    Joined mem node nodeLarge (mergeBlindiNodes mem node nodeLarge) := by
  obtain ⟨n, hn⟩ : ∃ n, node.validLen = n := ⟨_, rfl⟩
  obtain ⟨n', hn'⟩ : ∃ n', nodeLarge.validLen = n' := ⟨_, rfl⟩
  have positive := small.nonempty
  have positive' := large.nonempty
  obtain ⟨s0, smallTree, cutSmall⟩ := small.tree
  obtain ⟨l0, largeTree, cutLarge⟩ := large.tree
  have blindSmall := small.blind
  have blindLarge := large.blind
  obtain ⟨d, less⟩ := below (node.validLen - 1) (by omega) 0 (by omega)
  rw [hn] at positive smallTree blindSmall less
  rw [hn'] at positive' largeTree blindLarge
  rw [hn, hn'] at fits idx
  obtain ⟨validLen, keyPtr, blindiKeys, blindiTree⟩ :=
    mergeBlindiNodes_arrays hn hn' positive positive' idx less
  have inside : d < 8 * c.keyLen := less.inside
  have word := c.bitidxSize_le
  have narrow : d % 65536 = d := Nat.mod_eq_of_lt (by omega)
  rw [narrow, Nat.mod_eq_of_lt (a := d) (by omega)] at blindiKeys
  rw [narrow] at blindiTree
  generalize mergeBlindiNodes mem node nodeLarge = r at *
  have separator : r.blindiKeys (n - 1) = d := by
    rw [blindiKeys (n - 1) (by omega), if_neg (by omega), if_pos (by omega)]
  have blind : Blind (keyBits c.keyLen) (r.keys mem) r.blindiKeys (n + n') := by
    refine (blindSmall.append blindLarge positive less).congr (fun i hi => ?_) blindiKeys
    rw [SeqTreeBlindiNode.keys, keyPtr i hi]
    by_cases first : i < n
    · rw [if_pos first, if_pos first]
      rfl
    · rw [if_neg first, if_neg first]
      rfl
  obtain ⟨t, cartesian⟩ := blind.exists_cartesian (n + n') 0 (n + (n' - 1)) (by omega) (by omega)
  have racing : Racing c r.blindiKeys t s0 l0 n (n + (n' - 1)) [] [] [] 0 (n' - 1) 0
      { tree := node.blindiTree, nextPos := 0, smallPos := 0, largePos := 0 } := by
    refine ⟨rfl, le_rfl, le_rfl, .root, by omega, smallTree.congr fun i _ hi => ?_,
      largeTree.congr fun i _ hi => ?_,
      fun _ => ⟨rfl, rfl, rfl⟩, fun p _ off => absurd List.nil_prefix off⟩
    · rw [blindiKeys i (by omega), if_pos (by omega)]
    · rw [blindiKeys (n + i) (by omega), if_neg (by omega), if_neg (by omega),
        Nat.add_sub_cancel_left]
  have cut := raceLevels_cut depth cartesian (by omega) cutSmall cutLarge (fun m hm => by
    rw [blindiKeys (n + m) (by omega), if_neg (by omega), if_neg (by omega),
      Nat.add_sub_cancel_left]) c.treeLevels 0
    (by omega) racing
  refine ⟨⟨by omega, by omega, by omega, by rwa [validLen], t, ?_, ?_⟩, ?_⟩
  · rwa [validLen, show n + n' - 1 = n + (n' - 1) by omega]
  · rw [separator] at cut
    rw [blindiTree levels]
    exact cut
  · rw [validLen, hn, hn']
    apply List.ext_getElem
    · simp
    · intro i h1 h2
      simp only [length_entries] at h1
      rw [getElem_entries, keyPtr i h1, List.getElem_append]
      simp only [length_entries, getElem_entries, dite_eq_ite]

-- Two neighbouring nodes become one over the keys of both.
theorem mergeBlindiNodes_joined (levels : 1 ≤ c.treeLevels) (depth : c.treeLevels ≤ 16)
    (key : c.keyLen ≤ 8192) (slots : c.numSlots < 65536) (mem : Addr → Bytes c.keyLen)
    (node nodeLarge : SeqTreeBlindiNode) (small : WellFormed mem node)
    (large : WellFormed mem nodeLarge) (fits : node.validLen + nodeLarge.validLen ≤ c.numSlots)
    (below : ∀ i, i < node.validLen → ∀ j, j < nodeLarge.validLen →
      (keyBits c.keyLen).Less (node.keys mem i) (nodeLarge.keys mem j)) :
    Joined mem node nodeLarge (mergeBlindiNodes mem node nodeLarge) :=
  merge_joined levels depth (c.bits_fit key) mem small large (c.length_fits slots fits) fits below

-- The keys 1, 2 and 4 below the key 8.
theorem mergeBlindiNodes_joined_sample :
    Joined (c := sampleParams) sampleKey sampleNode (firstInsert sampleParams sampleNode 8)
      (mergeBlindiNodes (c := sampleParams) sampleKey sampleNode
          (firstInsert sampleParams sampleNode 8)) := by
  refine mergeBlindiNodes_joined (c := sampleParams) (by decide) (by decide) (by decide) (by decide)
    sampleKey sampleNode _
    sampleNode_wellFormed (firstInsert_wellFormed sampleNode 8 (by decide)) (by decide)
      fun i hi j hj => ?_
  have compares : ∀ i : Nat, i < 3 → compareStage (sampleKey (2 ^ i)) (sampleKey 8) =
      { eq := false, bigSmall := false, position := 4 } := by decide
  obtain rfl : j = 0 := by
    change j < 1 at hj
    omega
  exact ⟨4, lessAt_of_compare (compares i hi)⟩

def rightChain : Nat → Nat → PosTree
  | 0, _ => .nil
  | rest + 1, pos => .node .nil pos (rightChain rest (pos + 1))

theorem rightChain_cartesian {b : Nat → Nat} (rising : ∀ i j, i < j → b i < b j) (rest pos : Nat) :
    IsCartesian b pos (pos + rest) (rightChain rest pos) := by
  induction rest generalizing pos with
  | zero => exact .nil le_rfl
  | succ rest ih =>
    have next := ih (pos + 1)
    rw [show pos + 1 + rest = pos + (rest + 1) by omega] at next
    exact .node ⟨le_rfl, by omega, fun i hi _ ne => rising pos i (by omega)⟩ (.nil le_rfl) next

-- The keys with from to from + n - 1 leading ones.
def chainNode (c : Params) (n from_ : Nat) : SeqTreeBlindiNode :=
  { validLen := n
    blindiTree := cutArray c.endTree c.treeLevels (rightChain (n - 1) 0)
    currentMaxSlot := n
    keyPtr := fun i => from_ + i
    blindiKeys := fun i => from_ + i }

theorem chainNode_wellFormed {n from_ : Nat} (positive : 1 ≤ n) (fits : n ≤ c.numSlots)
    (idx : n ≤ c.endTree) (inside : from_ + n ≤ 8 * c.keyLen + 1) :
    WellFormed (chainKey c.keyLen) (chainNode c n from_) := by
  have tree := rightChain_cartesian (b := fun i => from_ + i)
    (fun i j lt => Nat.add_lt_add_left lt _) (n - 1) 0
  rw [Nat.zero_add] at tree
  refine ⟨positive, fits, idx, fun i hi => ?_, rightChain (n - 1) 0, tree, cut_cutArray _ _ _⟩
  change i + 1 < n at hi
  exact chainKey_less (a := from_ + i) (b := from_ + (i + 1)) (by omega) (by omega)

-- Seventeen levels: the last level below the right turn starts at a slot that does not fit
-- dest_pos.
def spineKey (a : Addr) : Bytes 3 :=
  keyOfBits 3 fun position => if a = 16 then position = 0 else 1 ≤ position ∧ position ≤ a

def spineNode : SeqTreeBlindiNode :=
  { validLen := 16
    blindiTree := cutArray 255 17 (rightChain 15 0)
    currentMaxSlot := 20
    keyPtr := id
    blindiKeys := fun i => i + 1 }

theorem spineNode_wellFormed : WellFormed (c := deepParams) spineKey spineNode := by
  have compares : ∀ i : Nat, i < 15 → compareStage (spineKey i) (spineKey (i + 1)) =
      { eq := false, bigSmall := false, position := i + 1 } := by decide
  have tree := rightChain_cartesian (b := fun i => i + 1)
    (fun i j lt => Nat.add_lt_add_right lt 1) 15 0
  refine ⟨by decide, by decide, by decide, fun i hi => ?_, rightChain 15 0, tree,
    cut_cutArray 255 17 _⟩
  change i + 1 < 16 at hi
  have result := compares i (by omega)
  exact lessAt_of_compare result

theorem spineNode_merged :
    let r := mergeBlindiNodes (c := deepParams) spineKey spineNode
      (firstInsert deepParams spineNode 16)
    r.validLen = 17 ∧ IsCartesian r.blindiKeys 0 16 (.node (rightChain 15 0) 15 .nil) ∧
        r.blindiTree 49150 = 255 := by
  decide

theorem spineNode_below (i : Nat) (hi : i < 16) : (keyBits 3).Less (spineKey i) (spineKey 16) := by
  have compares : ∀ i : Nat, i < 16 → compareStage (spineKey i) (spineKey 16) =
      { eq := false, bigSmall := false, position := 0 } := by decide
  exact ⟨0, lessAt_of_compare (compares i hi)⟩

theorem spineNode_broken :
    ¬ Joined (c := deepParams) spineKey spineNode (firstInsert deepParams spineNode 16)
      (mergeBlindiNodes (c := deepParams) spineKey spineNode
          (firstInsert deepParams spineNode 16)) := by
  intro joined
  obtain ⟨t, tree, cut⟩ := joined.wellFormed.tree
  obtain ⟨len, whole, slot49150⟩ := spineNode_merged
  rw [len] at tree
  obtain rfl := tree.unique whole
  have entry := cut (false :: List.replicate 14 true) (by decide)
  have number : slot (false :: List.replicate 14 true) = 49150 := by decide
  rw [number, slot49150] at entry
  revert entry
  decide

-- Keys of 8193 bytes: their last bits do not fit blindiKeys.
abbrev longParams : Params :=
  { treeLevels := 1, numSlots := 6, keyLen := 8193, even := sampleParams.even }

def longKey (a : Addr) : Bytes 8193 := keyOfBits 8193 fun position =>
    decide (a = 1 ∧ position = 65536)

theorem longKey_less : (keyBits 8193).LessAt (longKey 0) (longKey 1) 65536 := by
  have bit (a : Addr) {position : Nat} (inside : position < 8 * 8193) :
      (keyBits 8193).bit (longKey a) position = decide (a = 1 ∧ position = 65536) :=
      keyOfBits_bit _ _ inside
  refine ⟨by decide, fun i hi => ?_, ?_, ?_⟩
  · have other : i ≠ 65536 := by omega
    rw [bit 0 (by omega), bit 1 (by omega)]
    simp [other]
  · rw [bit 0 (by omega)]
    simp
  · rw [bit 1 (by omega)]
    simp

def longNode (a : Addr) : SeqTreeBlindiNode := firstInsert longParams sampleNode a

theorem mergeBlindiNodes_validLen (mem : Addr → Bytes c.keyLen)
    (node nodeLarge : SeqTreeBlindiNode) :
    (mergeBlindiNodes mem node nodeLarge).validLen =
    (node.validLen + nodeLarge.validLen) % c.idxSize := by
  unfold mergeBlindiNodes
  dsimp only
  split_ifs <;> rfl

theorem longNode_merged :
    let r := mergeBlindiNodes (c := longParams) longKey (longNode 0) (longNode 1)
    r.keyPtr 0 = 0 ∧ r.keyPtr 1 = 1 ∧ r.blindiKeys 0 = 0 := by
  obtain ⟨_, keyPtr, blindiKeys, _⟩ :=
    @mergeBlindiNodes_arrays longParams longKey (longNode 0) (longNode 1) _ 1 1
    rfl rfl le_rfl le_rfl
    (by decide) longKey_less
  exact ⟨keyPtr 0 (by decide), keyPtr 1 (by decide), blindiKeys 0 (by decide)⟩

theorem longNode_broken :
    ¬ Joined (c := longParams) longKey (longNode 0) (longNode 1)
      (mergeBlindiNodes (c := longParams) longKey (longNode 0) (longNode 1)) := by
  intro joined
  obtain ⟨first, second, bit⟩ := longNode_merged
  have blind := joined.wellFormed.blind
  rw [mergeBlindiNodes_validLen] at blind
  have less := blind 0 (by decide)
  unfold SeqTreeBlindiNode.keys at less
  rw [first, second, bit] at less
  exact absurd (less.unique longKey_less) (by decide)

-- 65536 keys: valid_len wraps to zero.
abbrev vastParams : Params := { treeLevels := 1, numSlots := 65536, keyLen := 8192, even := rfl }

theorem vastNode_broken :
    ¬ Joined (c := vastParams) (chainKey 8192) (chainNode vastParams 65535 0)
      (chainNode vastParams 1 65535)
      (mergeBlindiNodes (c := vastParams) (chainKey 8192) (chainNode vastParams 65535 0)
        (chainNode vastParams 1 65535)) := by
  intro joined
  have nonempty := joined.wellFormed.nonempty
  rw [mergeBlindiNodes_validLen] at nonempty
  revert nonempty
  decide

-- Each of the three limits is needed: the depth, the key length and the type of NUM_SLOTS.
theorem merge_limits :
    (∃ (c : Params) (mem : Addr → Bytes c.keyLen) (node nodeLarge : SeqTreeBlindiNode),
      c.treeLevels = 17 ∧ c.keyLen = 3 ∧ c.numSlots = 20 ∧ WellFormed mem node ∧
      WellFormed mem nodeLarge ∧
        node.validLen + nodeLarge.validLen ≤ c.numSlots ∧
        (∀ i, i < node.validLen → ∀ j, j < nodeLarge.validLen →
          (keyBits c.keyLen).Less (node.keys mem i) (nodeLarge.keys mem j)) ∧
        ¬ Joined mem node nodeLarge (mergeBlindiNodes mem node nodeLarge)) ∧
      (∃ (c : Params) (mem : Addr → Bytes c.keyLen) (node nodeLarge : SeqTreeBlindiNode),
        c.treeLevels = 1 ∧ c.keyLen = 8193 ∧ c.numSlots = 6 ∧ WellFormed mem node ∧
        WellFormed mem nodeLarge ∧
          node.validLen + nodeLarge.validLen ≤ c.numSlots ∧
          (∀ i, i < node.validLen → ∀ j, j < nodeLarge.validLen →
            (keyBits c.keyLen).Less (node.keys mem i) (nodeLarge.keys mem j)) ∧
          ¬ Joined mem node nodeLarge (mergeBlindiNodes mem node nodeLarge)) ∧
      ∃ (c : Params) (mem : Addr → Bytes c.keyLen) (node nodeLarge : SeqTreeBlindiNode),
        c.treeLevels = 1 ∧ c.keyLen = 8192 ∧ c.numSlots = 65536 ∧ WellFormed mem node ∧
        WellFormed mem nodeLarge ∧
          node.validLen + nodeLarge.validLen ≤ c.numSlots ∧
          (∀ i, i < node.validLen → ∀ j, j < nodeLarge.validLen →
            (keyBits c.keyLen).Less (node.keys mem i) (nodeLarge.keys mem j)) ∧
          ¬ Joined mem node nodeLarge (mergeBlindiNodes mem node nodeLarge) := by
  refine ⟨⟨deepParams, spineKey, spineNode, firstInsert deepParams spineNode 16, rfl, rfl, rfl,
    spineNode_wellFormed,
      firstInsert_wellFormed _ _ (by decide), by decide, fun i hi j hj => ?_, spineNode_broken⟩,
    ⟨longParams, longKey, longNode 0, longNode 1, rfl, rfl, rfl,
    firstInsert_wellFormed _ _ (by decide),
      firstInsert_wellFormed _ _ (by decide), by decide, fun i hi j hj => ?_, longNode_broken⟩,
    ⟨vastParams, chainKey 8192, chainNode vastParams 65535 0,
    chainNode vastParams 1 65535, rfl, rfl, rfl,
      chainNode_wellFormed (by decide) (by decide) (by decide) (by decide),
      chainNode_wellFormed (by decide) (by decide) (by decide) (by decide), by decide,
      fun i hi j hj => ?_,
      vastNode_broken⟩⟩
  · obtain rfl : j = 0 := by
      change j < 1 at hj
      omega
    exact spineNode_below i hi
  · obtain rfl : j = 0 := by
      change j < 1 at hj
      omega
    obtain rfl : i = 0 := by
      change i < 1 at hi
      omega
    exact longKey_less.less
  · change i < 65535 at hi
    change (keyBits 8192).Less (chainKey 8192 (0 + i)) (chainKey 8192 (65535 + j))
    exact (chainKey_less (a := 0 + i) (b := 65535 + j) (by omega) (by omega)).less

end ElasticIndex.SeqTree
