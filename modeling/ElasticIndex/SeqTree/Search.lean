import ElasticIndex.SeqTree.WellFormed

set_option autoImplicit false

namespace ElasticIndex.SeqTree

open BitOrder BlindSequence CartesianTree CartesianTree.PosTree SlotTree

variable {c : Params} {mem : Addr → Bytes c.keyLen} {node : SeqTreeBlindiNode} {x : Bytes c.keyLen}
  {t : PosTree} {n : Nat}

theorem bit_lt (blind : Blind (keyBits c.keyLen) (node.keys mem) node.blindiKeys n) {i : Nat}
    (bound : i + 1 < n) : node.blindiKeys i < 8 * c.keyLen := (blind i bound).inside

-- The scan keeps the best key of the entries passed; high_miss is the least clear bit since then.
theorem scanFirstStage_best (small : c.Representable)
    (blind : Blind (keyBits c.keyLen) (node.keys mem) node.blindiKeys n) {lo : Nat}
    (rest i highMiss p : Nat) (bound : i + rest < n)
    (best : BestIn (keyBits c.keyLen) (node.keys mem) x lo i p)
    (miss : highMiss = c.maxHighMiss ∧ p = i ∨ ∃ m, StrictMin node.blindiKeys p i m ∧
      highMiss = node.blindiKeys m ∧ isNthBitSetInString x (node.blindiKeys m) = false) :
    BestIn (keyBits c.keyLen) (node.keys mem) x lo (i + rest)
      (scanFirstStage c node x rest i highMiss p) := by
  induction rest generalizing i highMiss p with
  | zero => exact best
  | succ rest ih =>
    have right := best.right
    have step : i + (rest + 1) = i + 1 + rest := by omega
    obtain ⟨e, min, less⟩ := blind.between (i := p) (j := i + 1) (by omega) (by omega)
    have bit := bit_lt blind (i := i) (by omega)
    rw [step]
    unfold scanFirstStage
    dsimp only
    by_cases low : node.blindiKeys i ≤ highMiss
    · have last : e = i := by
        rcases miss with ⟨_, rfl⟩ | ⟨m, old, rfl, _⟩
        · have := min.left
          have := min.right
          omega
        · by_contra ne
          have other : e = m := by
            have := min.right
            have inner := min.narrow (le_refl p) (Nat.le_succ i) min.left (by omega)
            exact inner.unique old
          subst other
          have := min.least i right (by omega) (Ne.symm ne)
          omega
      subst last
      rw [if_pos low]
      cases set : isNthBitSetInString x (node.blindiKeys e) with
      | true =>
        exact ih (e + 1) _ (e + 1) (by omega) (best.advance less set) (.inl ⟨rfl, rfl⟩)
      | false =>
        have shorter : Nat.min highMiss (node.blindiKeys e) = node.blindiKeys e :=
          Nat.min_eq_right low
        exact ih (e + 1) _ p (by omega) (best.keep less set) (.inr ⟨e, min, shorter, set⟩)
    · have old : ∃ m, StrictMin node.blindiKeys p i m ∧
          highMiss = node.blindiKeys m ∧ isNthBitSetInString x (node.blindiKeys m) = false := by
        rcases miss with ⟨rfl, _⟩ | old
        · exact absurd (small.bit_le bit) low
        · exact old
      obtain ⟨m, old, same, clear⟩ := old
      have earlier : e = m := by
        have := old.left
        have := old.right
        have ne : e ≠ i := by
          rintro rfl
          have := min.le (t := m) (by omega) (by omega)
          omega
        have := min.right
        exact (min.narrow (le_refl p) (Nat.le_succ i) min.left (by omega)).unique old
      subst earlier
      rw [if_neg low]
      exact ih (i + 1) _ p (by omega) (best.keep less clear) (.inr ⟨e, min, same, clear⟩)

/-- The state of the descent that has followed a path from the root. -/
structure AtPath (mem : Addr → Bytes c.keyLen) (node : SeqTreeBlindiNode)
    (x : Bytes c.keyLen) (t : PosTree) (p : List Bool) (lo hi : Nat) (s : Descent) : Prop where
  reaches : Reaches t (node.validLen - 1) p lo hi
  cover : Covers (keyBits c.keyLen) (node.keys mem) node.validLen x lo hi
  pos : p.length < c.treeLevels → s.treePosP1 = slot p + 1
  key : s.firstStageKeyPosition = lo
  start : s.isStartPos = true ∧ s.startBkSeqPos + 1 = lo ∨
    s.isStartPos = false ∧ s.startBkSeqPos = 0 ∧ lo = 0
  stop : s.isEndPos = true ∧ s.endBkSeqPos = hi ∧ hi < node.validLen - 1 ∨
    s.isEndPos = false ∧ s.endBkSeqPos = (node.validLen : Int) - 2 ∧ hi = node.validLen - 1
  len : s.traverse.len = p.length
  inTree : s.traverse.inTree = false
  last : s.traverse.last = (slot p + 1) / 2 - 1
  turn : ∀ q d, p = q ++ [d] → s.isLastLarge = d ∧ s.traverse.previous = (slot q + 1) / 2 - 1

theorem parent_slot (p : List Bool) (d : Bool) : (slot (p ++ [d]) + 1) / 2 - 1 = slot p := by
  rw [slot_snoc]
  cases d <;> simp only [Bool.toNat_true, Bool.toNat_false] <;> omega

/-- The last visited slot and the keys it stands for. -/
structure Visited (c : Params) (node : SeqTreeBlindiNode) (t : PosTree)
    (v : List Bool) (lo hi : Nat) (traverse : Traverse) : Prop where
  reaches : Reaches t (node.validLen - 1) v lo hi
  short : v.length < c.treeLevels
  inTree : traverse.inTree = false
  last : traverse.last = slot v
  previous : traverse.previous = (slot v + 1) / 2 - 1
  len : v ≠ [] → traverse.len = v.length + 1

theorem descend_spec (small : c.Representable) (wf : WellFormed mem node)
    (tree : IsCartesian node.blindiKeys 0 (node.validLen - 1) t)
    (cut : Cut c.endTree c.treeLevels node.blindiTree t) (levels : Nat)
    (p : List Bool) (lo hi : Nat) (s : Descent) (room : p.length + levels = c.treeLevels)
    (present : p = [] → node.blindiTree 0 ≠ c.endTree) (h : AtPath mem node x t p lo hi s) :
    (∃ v position s', descend c node x levels s = (some position, s') ∧
        Visited c node t v position position s'.traverse ∧ (t.sub v).root = none ∧
        Covers (keyBits c.keyLen) (node.keys mem) node.validLen x position position) ∨
      ∃ q lo' hi' s', descend c node x levels s = (none, s') ∧ AtPath mem node x t q lo' hi' s' ∧
        q.length = c.treeLevels := by
  induction levels generalizing p lo hi s with
  | zero => exact .inr ⟨p, lo, hi, s, rfl, h, by omega⟩
  | succ levels ih =>
    have depth := small.depth
    have bounds := h.reaches.le_size tree
    have here := h.reaches.cartesian tree
    have nonempty := wf.nonempty
    have position := h.pos (by omega)
    have entry : node.blindiTree (s.treePosP1 - 1) = (t.sub p).root.getD c.endTree := by
      rw [position, Nat.add_sub_cancel]
      exact cut p (by omega)
    unfold descend
    dsimp only
    cases root : (t.sub p).root with
    | none =>
      rw [root] at entry
      simp only [Option.getD_none] at entry
      rw [if_pos entry]
      cases p using List.reverseRecOn with
      | nil => exact absurd entry (by rw [position]; exact present rfl)
      | append_singleton q d =>
        obtain ⟨lo', hi', m, reach, up, side⟩ := h.reaches.snoc
        obtain ⟨large, _⟩ := h.turn q d rfl
        have single : lo = hi := by
          have := here.empty root
          omega
        have value : node.blindiTree s.traverse.last = m := by
          rw [h.last, parent_slot, cut q (by simp at room; omega), up]
          rfl
        have answer : node.blindiTree s.traverse.last + s.isLastLarge.toNat = lo := by
          rw [value, large]
          rcases side with ⟨rfl, rfl, rfl⟩ | ⟨rfl, rfl, rfl⟩
          · simpa using single.symm
          · rfl
        rw [answer]
        refine .inl ⟨q ++ [d], lo, _, rfl, ⟨?_, by omega, h.inTree, ?_, h.last, ?_⟩, root, ?_⟩
        · exact single ▸ h.reaches
        · simp [position]
        · exact fun _ => by simp [h.len]
        · exact single ▸ h.cover
    | some m =>
      rw [root] at entry
      simp only [Option.getD_some] at entry
      have min := here.min root
      have := min.left
      have := min.right
      have fits := wf.idx
      have room' (d : Bool) : (p ++ [d]).length + levels = c.treeLevels := by
        simp only [List.length_append, List.length_cons, List.length_nil]
        omega
      have present' (d : Bool) : p ++ [d] = [] → node.blindiTree 0 ≠ c.endTree := by simp
      have child (d : Bool) (inside : (p ++ [d]).length < c.treeLevels) :
          slot (p ++ [d]) + 1 < 65536 := by
        have number := slot_lt_of_length inside
        have power : 2 ^ c.treeLevels ≤ 2 ^ 16 := Nat.pow_le_pow_right (by omega) depth
        omega
      have visited : slot p = (slot (p ++ [true]) + 1) / 2 - 1 ∧ slot p =
          (slot (p ++ [false]) + 1) / 2 - 1 :=
        ⟨(parent_slot p true).symm, (parent_slot p false).symm⟩
      have turned (d e : Bool) (q : List Bool) (same : p ++ [d] = q ++ [e]) :
          d = e ∧ s.traverse.last = (slot q + 1) / 2 - 1 := by
        obtain ⟨rfl, turn⟩ := List.append_inj' same rfl
        exact ⟨by simpa using turn, h.last⟩
      have bound : hi < node.validLen := by omega
      rw [entry, if_neg (by omega)]
      cases set : isNthBitSetInString x (node.blindiKeys m) with
      | true =>
        rw [if_pos rfl]
        refine ih (p ++ [true]) (m + 1) hi _ (room' true) (present' true) ?_
        exact {
          reaches := h.reaches.right root
          cover := h.cover.right wf.blind bound min set
          pos := fun inside => by
            have small := child true inside
            rw [slot_snoc, Bool.toNat_true] at small ⊢
            simp only [position]
            omega
          key := rfl
          start := .inl ⟨rfl, rfl⟩
          stop := h.stop
          len := by simp [h.len]
          inTree := h.inTree
          last := by simp only [position, ← visited.1, Nat.add_sub_cancel]
          turn := fun q e same => turned true e q same }
      | false =>
        rw [if_neg (by simp)]
        refine ih (p ++ [false]) lo m _ (room' false) (present' false) ?_
        exact {
          reaches := h.reaches.left root
          cover := h.cover.left wf.blind bound min set
          pos := fun inside => by
            have small := child false inside
            rw [slot_snoc, Bool.toNat_false] at small ⊢
            simp only [position]
            omega
          key := h.key
          start := h.start
          stop := .inl ⟨rfl, rfl, by omega⟩
          len := by simp [h.len]
          inTree := h.inTree
          last := by simp only [position, ← visited.2, Nat.add_sub_cancel]
          turn := fun q e same => turned false e q same }

/-- What the first stage knows: the best key, and below the last slot the range it scanned. -/
structure FirstStage (mem : Addr → Bytes c.keyLen) (node : SeqTreeBlindiNode)
    (x : Bytes c.keyLen) (t : PosTree) (v : List Bool) (lo hi f : Nat)
    (traverse : Traverse) : Prop where
  visited : Visited c node t v lo hi traverse
  best : Best (keyBits c.keyLen) (node.keys mem) node.validLen x f
  left : lo ≤ f
  right : f ≤ hi
  scan : ∀ m, (t.sub v).root = some m →
    ∃ e lo' hi', Reaches t (node.validLen - 1) (v ++ [e]) lo' hi' ∧
    v.length + 1 = c.treeLevels ∧ lo' ≤ f ∧ f ≤ hi' ∧ traverse.startBkSeqPos = lo' - 1 ∧
      traverse.endBkSeqPos = min hi' (node.validLen - 2)

theorem seqFirstStage_spec (small : c.Representable) (wf : WellFormed mem node)
    {q : List Bool} {lo hi : Nat} {s : Descent} (several : 2 ≤ node.validLen)
    (range : lo ≤ hi ∧ hi ≤ node.validLen - 1) (h : AtPath mem node x t q lo hi s) :
    Best (keyBits c.keyLen) (node.keys mem) node.validLen x (seqFirstStage c node x s).1 ∧
      lo ≤ (seqFirstStage c node x s).1 ∧ (seqFirstStage c node x s).1 ≤ hi ∧
      (seqFirstStage c node x s).2.startBkSeqPos = lo - 1 ∧
      (seqFirstStage c node x s).2.endBkSeqPos = min hi (node.validLen - 2) := by
  have fits := wf.idx
  have sentinel := endTree_eq c
  have first : s.startBkSeqPos + s.isStartPos.toNat = lo := by
    rcases h.start with ⟨set, eq⟩ | ⟨clear, zero, eq⟩
    · simp [set, eq]
    · simp [clear, zero, eq]
  have steps : (s.endBkSeqPos - s.isEndPos.toNat + 1 - (lo : Nat)).toNat = hi - lo := by
    rcases h.stop with ⟨set, eq, _⟩ | ⟨clear, eq, last⟩
    · simp only [set, eq, Bool.toNat_true]
      omega
    · simp only [clear, eq, Bool.toNat_false]
      omega
  have start : s.startBkSeqPos = lo - 1 := by
    rcases h.start with ⟨_, eq⟩ | ⟨_, zero, eq⟩ <;> omega
  have stop : toU16 s.endBkSeqPos = min hi (node.validLen - 2) := by
    rcases h.stop with ⟨_, eq, inner⟩ | ⟨_, eq, last⟩
    · rw [eq, toU16_nat (by omega)]
      omega
    · have whole : s.endBkSeqPos = (node.validLen - 2 : Nat) := by omega
      rw [whole, toU16_nat (by omega)]
      omega
  have within : BestIn (keyBits c.keyLen) (node.keys mem) x lo hi (seqFirstStage c node x s).1 := by
    unfold seqFirstStage
    dsimp only
    rw [first, steps, h.key]
    have scanned := scanFirstStage_best small wf.blind (hi - lo) lo c.maxHighMiss lo (by omega)
      (.single (x := x) lo) (.inl ⟨rfl, rfl⟩)
    rwa [Nat.add_sub_cancel' range.1] at scanned
  exact ⟨h.cover.best within (by omega), within.left, within.right, start, stop⟩

theorem searchFirstStage_spec (small : c.Representable) (wf : WellFormed mem node)
    (levels : 1 ≤ c.treeLevels) (tree : IsCartesian node.blindiKeys 0 (node.validLen - 1) t)
    (cut : Cut c.endTree c.treeLevels node.blindiTree t) (traverse : Traverse) :
    ∃ v lo hi, FirstStage mem node x t v lo hi (searchFirstStage c node x traverse).1
      (searchFirstStage c node x traverse).2 := by
  have nonempty := wf.nonempty
  have top : node.blindiTree 0 = t.root.getD c.endTree := cut [] levels
  unfold searchFirstStage
  dsimp only
  rw [if_pos (show 0 < c.treeLevels from levels)]
  by_cases tiny : node.validLen = 1 ∨ node.blindiTree 0 = c.endTree
  · rw [if_pos tiny]
    have one : node.validLen = 1 := by
      rcases tiny with one | missing
      · exact one
      · by_contra more
        obtain ⟨m, root⟩ := tree.root_of_lt (by omega)
        have min := tree.min root
        have := min.right
        have := wf.idx
        rw [top, root, Option.getD_some] at missing
        omega
    have none : t.root = none := by
      rw [one] at tree
      cases tree with
      | nil => rfl
      | node min => exact absurd min.right (Nat.not_lt_zero _)
    refine ⟨[], 0, node.validLen - 1, ⟨.root, levels, rfl, rfl, rfl, fun h => absurd rfl h⟩, ?_,
      le_rfl, Nat.zero_le _, fun m root => ?_⟩
    · have single : BestIn (keyBits c.keyLen) (node.keys mem) x 0 (node.validLen - 1) 0 := by
        rw [one]
        exact .single 0
      exact covers_all.best single (by omega)
    · rw [sub_nil, none] at root
      cases root
  · rw [if_neg tiny]
    push Not at tiny
    obtain ⟨more, present⟩ := tiny
    generalize start : Descent.mk 0 0 ((node.validLen : Int) - 2) false false false 1
      { Traverse.zero with endBkSeqPos := toU16 ((node.validLen : Int) - 2) } = s
    have init : AtPath mem node x t [] 0 (node.validLen - 1) s := by
      subst start
      exact {
        reaches := .root
        cover := covers_all
        pos := fun _ => rfl
        key := rfl
        start := .inr ⟨rfl, rfl, rfl⟩
        stop := .inr ⟨rfl, rfl, rfl⟩
        len := rfl
        inTree := rfl
        last := rfl
        turn := fun q d same => by simp at same }
    rcases descend_spec small wf tree cut c.treeLevels [] 0 (node.validLen - 1) s (by simp)
        (fun _ => present) init with
      ⟨v, position, s', eq, visited, missing, cover⟩ | ⟨q, lo, hi, s', eq, h, full⟩
    · rw [eq]
      have bounds := visited.reaches.le_size tree
      exact ⟨v, position, position, visited,
        cover.best (.single position) (by omega), le_rfl, le_rfl,
        fun m root => absurd (missing ▸ root) (by simp)⟩
    · rw [eq]
      cases q using List.reverseRecOn with
      | nil => simp at full; omega
      | append_singleton v e =>
        simp only [List.length_append, List.length_cons, List.length_nil] at full
        obtain ⟨best, left, right, first, last⟩ :=
          seqFirstStage_spec small wf (by omega) (h.reaches.le_size tree) h
        obtain ⟨lo', hi', m, up, root, side⟩ := h.reaches.snoc
        have min := (up.cartesian tree).min root
        have := min.left
        have := min.right
        obtain ⟨_, previous⟩ := h.turn v e rfl
        have last' : s'.traverse.last = slot v := by rw [h.last, parent_slot]
        have left' : lo' ≤ (seqFirstStage c node x s').1 := by omega
        have right' : (seqFirstStage c node x s').1 ≤ hi' := by omega
        refine ⟨v, lo', hi', ⟨up, by omega, h.inTree, last', previous, fun _ => ?_⟩,
          best, left', right',
          fun m' _ => ⟨e, lo, hi, h.reaches, by omega, left, right, first, last⟩⟩
        change s'.traverse.len = v.length + 1
        rw [h.len, List.length_append]
        rfl

end ElasticIndex.SeqTree
