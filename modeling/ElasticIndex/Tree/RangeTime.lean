import ElasticIndex.KeyTypes
import ElasticIndex.Shared.RangeCount
import ElasticIndex.Tree.HybridSet

set_option autoImplicit false

namespace ElasticIndex.Tree.Hybrid

open Separators SeqTree RangeCount Loop

/-- The builds whose keys are UUIDs. -/
abbrev Config.uuid (c : Config) : Config := { c with keyLen := 16 }

section Keys

abbrev uuidOf (key : Key 16) : UUID := UUID.ofBytes key

abbrev typeOf (key : Key 16) : Nat := (uuidOf key).val1.toNat

abbrev timeOf (key : Key 16) : Nat := (uuidOf key).val0.toNat

-- operator< of UUID.
theorem key_lexicographic : Lexicographic typeOf timeOf := by
  have step {x y : Key 16} (less : x < y) :
      typeOf x < typeOf y ∨ typeOf x = typeOf y ∧ timeOf x < timeOf y := by
    have numbers := number_lt_number less
    have first := (uuidOf x).val0.toNat_lt
    have second := (uuidOf y).val0.toNat_lt
    simp only [UUID.number] at numbers
    simp only [typeOf, timeOf, uuidOf] at *
    omega
  intro x y
  refine ⟨step, fun less => ?_⟩
  rcases lt_trichotomy x y with before | rfl | after
  · exact before
  · omega
  · have other := step after
    omega

end Keys

/-- The slot at which the postfix ++ comes out behind the last entry. -/
def endslot : Nat := 16000

variable {c : Config} (mem : Addr → c.uuid.Key)

/-- The loop of GetRangeTime, which reads it->second; `curr_ts` points to a UUID in memory. -/
def getRangeTimeLoop (t : HybridTree c.uuid) (key : UUID) (timeEnd : UInt64) :
    Nat → Iterator → Nat → List Addr → Option (Nat × List Addr)
  | 0, _, _, _ => none
  | rounds + 1, it, cnt, valueList =>
    if it.currslot = endslot then some (cnt, valueList)
    else
      (t.data it).bind fun second =>
      let currTs := uuidOf (mem second)
      if key.val1 ≠ currTs.val1 then some (cnt, valueList)
      else if timeEnd < currTs.val0 then some (cnt, valueList)
      else
        (it.advance (fun _ => endslot) t.store).bind fun it =>
        getRangeTimeLoop t key timeEnd rounds it
          (if key.val0 ≤ currTs.val0 then cnt + 1 else cnt) (valueList ++ [second])

def HybridTree.getRangeTime (rounds : Nat) (t : HybridTree c.uuid) (key : c.uuid.Key)
    (timeEnd : UInt64) : Option (Nat × List Addr) :=
  (t.lowerBound mem key).bind fun it =>
    getRangeTimeLoop mem t (uuidOf key) timeEnd rounds it 0 []

variable {mem} {known : List Addr} {t : HybridTree c.uuid} {stored : List c.uuid.Key}
  {x : c.uuid.Key} {timeEnd : UInt64} {row before after : Row c.uuid.Key Ptr} {it : Iterator}
  {front back : List c.uuid.Key} {least : Nat} {a : Ptr} {leaf : Leaf (HybridNode c.uuid.Key)}

theorem data_at {i : Nat} {k : c.uuid.Key}
    (sound : HybridSound mem known least leaf.slotuse leaf.node)
    (live : t.store.leaf a = some leaf) (at_ : (leaf.node.keys mem)[i]? = some k) :
    ∃ b, t.data ⟨some a, i⟩ = some b ∧ mem b = k := by
  rw [sound.data.1, List.getElem?_map] at at_
  obtain ⟨b, here, same⟩ := Option.map_eq_some_iff.mp at_
  refine ⟨b, ?_, same⟩
  rw [HybridTree.data, Option.bind_some, live, Option.bind_some, here]

theorem slotuse_lt (few : 8 * c.leafslotmax < endslot)
    (sound : HybridSound mem known least leaf.slotuse leaf.node) : leaf.slotuse < endslot := by
  cases node : leaf.node with
  | btree slots =>
    rw [node] at sound
    have small : leaf.slotuse ≤ c.leafslotmax := sound.2.2.2.1
    omega
  | blindi kind n =>
    rw [node] at sound
    have fits := sound.2.1.wellFormed.fits
    have slots := slots_eq c.leafslotmax kind
    have size : kind.size ≤ 8 := by cases kind <;> decide
    have most := Nat.mul_le_mul_left c.leafslotmax size
    have counted := sound.1
    simp only at fits
    omega

-- One round at an entry.
theorem getRangeTimeLoop_entry {b : Addr} {it' : Iterator} (inside : it.currslot ≠ endslot)
    (data : t.data it = some b) (next : it.advance (fun _ => endslot) t.store = some it')
    (rounds cnt : Nat) (valueList : List Addr) :
    getRangeTimeLoop mem t (uuidOf x) timeEnd (rounds + 1) it cnt valueList =
      if typeOf (mem b) ≠ typeOf x ∨ timeEnd.toNat < timeOf (mem b) then some (cnt, valueList)
      else getRangeTimeLoop mem t (uuidOf x) timeEnd rounds it'
        (cnt + if timeOf x ≤ timeOf (mem b) then 1 else 0) (valueList ++ [b]) := by
  have other : (uuidOf x).val1 ≠ (uuidOf (mem b)).val1 ↔ typeOf (mem b) ≠ typeOf x := by
    rw [ne_comm, ne_eq, ne_eq, ← UInt64.toNat_inj]
  rw [getRangeTimeLoop, if_neg inside, data, Option.bind_some]
  dsimp only
  rw [next, Option.bind_some]
  simp only [other, UInt64.lt_iff_toNat_lt, UInt64.le_iff_toNat_le]
  by_cases same : typeOf (mem b) = typeOf x
  · rw [if_neg (not_not.mpr same)]
    by_cases past : timeEnd.toNat < timeOf (mem b)
    · rw [if_pos past, if_pos (.inr past)]
    · rw [if_neg past, if_neg (not_or.mpr ⟨not_not.mpr same, past⟩)]
      by_cases from_ : timeOf x ≤ timeOf (mem b)
      · rw [if_pos from_, if_pos from_]
      · rw [if_neg from_, if_neg from_, Nat.add_zero]
  · rw [if_pos same, if_pos (.inl same)]

theorem getRangeTimeLoop_end (a : Option Ptr) (rounds cnt : Nat) (valueList : List Addr) :
    getRangeTimeLoop mem t (uuidOf x) timeEnd (rounds + 1) ⟨a, endslot⟩ cnt valueList =
      some (cnt, valueList) := by
  rw [getRangeTimeLoop]
  exact if_pos rfl

-- From an entry on, the loop counts the keys up to the first one at which it stops.
theorem getRangeTimeLoop_counts (few : 8 * c.leafslotmax < endslot)
    (good : HybridGood mem known least t.store row)
    (stands : Stands (HybridNode.keys mem) t.store row it front back) (cnt : Nat)
    (valueList : List Addr) :
    ∃ list, Returns
      (fun rounds => getRangeTimeLoop mem t (uuidOf x) timeEnd rounds it cnt valueList)
      (cnt + countFrom typeOf timeOf x timeEnd.toNat back, list) := by
  induction back generalizing it front cnt valueList with
  | nil => exact absurd rfl stands.nonempty
  | cons k back ih =>
    obtain ⟨before, after, sep, a, leaf, i, rfl, eq, live, lt, split⟩ := stands.entry
    rw [List.drop_eq_getElem_cons lt, List.cons_append] at split
    obtain ⟨rfl, rfl⟩ := List.cons.inj split
    have here := good
    rw [eq] at here
    obtain ⟨leaf', live', valid, -, -⟩ := here.leaf_at
    obtain rfl : leaf = leaf' := Option.some.inj (live.symm.trans live')
    have length := counted_hybrid.length valid
    have small := slotuse_lt few valid
    have inside : i ≠ endslot := by omega
    obtain ⟨b, data, same⟩ := data_at valid live (List.getElem?_eq_getElem lt)
    obtain ⟨it', next, goes⟩ := good.advance (fun _ => endslot) counted_hybrid eq live lt
    have round (rounds : Nat) : getRangeTimeLoop mem t (uuidOf x) timeEnd (rounds + 1)
        ⟨some a, i⟩ cnt valueList = _ :=
      getRangeTimeLoop_entry inside data next rounds cnt valueList
    rw [countFrom, ← same]
    by_cases stops : typeOf (mem b) ≠ typeOf x ∨ timeEnd.toNat < timeOf (mem b)
    · refine ⟨valueList, .of_succ (fun rounds => ?_) (.pure _)⟩
      rw [round, if_pos stops, if_pos stops, Nat.add_zero]
    · simp only [if_neg stops] at round
      rw [if_neg stops, ← Nat.add_assoc]
      rcases goes with stands' | ⟨rfl, whole, rfl⟩
      · obtain ⟨list, returns⟩ := ih stands' _ (valueList ++ [b])
        exact ⟨list, .of_succ round returns⟩
      · -- behind the last entry the iterator is at ENDSLOT
        have behind : (leaf.node.keys mem).drop (i + 1) ++
            allKeys (t.store.pages (HybridNode.keys mem) []) = [] := by
          rw [whole, List.drop_length]
          rfl
        rw [behind, countFrom, Nat.add_zero]
        refine ⟨valueList ++ [b], .of_succ round (.of_succ (fun rounds => ?_) (.pure _))⟩
        exact getRangeTimeLoop_end (some a) rounds _ _

-- More rounds do not change the result.
theorem getRangeTimeLoop_more {rounds cnt : Nat} {valueList : List Addr} {r : Nat × List Addr}
    (result : getRangeTimeLoop mem t (uuidOf x) timeEnd rounds it cnt valueList = some r)
    (more : Nat) :
    getRangeTimeLoop mem t (uuidOf x) timeEnd (rounds + more) it cnt valueList = some r := by
  induction rounds generalizing it cnt valueList with
  | zero => cases result
  | succ rounds ih =>
    rw [Nat.add_right_comm]
    unfold getRangeTimeLoop at result ⊢
    split_ifs at result ⊢ with last
    · exact result
    · obtain ⟨b, data, result⟩ := Option.bind_eq_some_iff.mp result
      rw [data, Option.bind_some]
      dsimp only at result ⊢
      split_ifs at result ⊢ with other past
      · exact result
      · exact result
      all_goals
        obtain ⟨it', next, result⟩ := Option.bind_eq_some_iff.mp result
        rw [next, Option.bind_some]
        exact ih result

theorem getRangeTime_returns {rounds : Nat} {r : Nat × List Addr}
    (result : t.getRangeTime mem rounds x timeEnd = some r) :
    Returns (fun rounds => t.getRangeTime mem rounds x timeEnd) r := by
  obtain ⟨it, start, result⟩ := Option.bind_eq_some_iff.mp result
  refine ⟨rounds, fun more le => ?_⟩
  obtain ⟨rest, rfl⟩ := Nat.exists_eq_add_of_le le
  dsimp only [HybridTree.getRangeTime]
  rw [start]
  exact getRangeTimeLoop_more result rest

theorem getRangeTimeLoop_none (inside : it.currslot ≠ endslot) (data : t.data it = none)
    (rounds cnt : Nat) (valueList : List Addr) :
    getRangeTimeLoop mem t (uuidOf x) timeEnd rounds it cnt valueList = none := by
  cases rounds with
  | zero => rfl
  | succ rounds =>
    rw [getRangeTimeLoop, if_neg inside, data]
    rfl

-- Behind the last entry the iterator is read all the same.
theorem getRangeTimeLoop_past (few : 8 * c.leafslotmax < endslot)
    (sound : HybridSound mem known least leaf.slotuse leaf.node) (live : t.store.leaf a = some leaf)
    (rounds cnt : Nat) (valueList : List Addr) :
    getRangeTimeLoop mem t (uuidOf x) timeEnd rounds ⟨some a, leaf.slotuse⟩ cnt valueList =
      none := by
  have small := slotuse_lt few sound
  have inside : leaf.slotuse ≠ endslot := by omega
  have whole : leaf.node.data.length = leaf.slotuse := by
    rw [counted_hybrid.length sound, sound.data.1, List.length_map]
  have data : t.data ⟨some a, leaf.slotuse⟩ = none := by
    rw [HybridTree.data, Option.bind_some, live, Option.bind_some, ← whole, List.getElem?_length]
  exact getRangeTimeLoop_none inside data rounds cnt valueList

theorem Keeps.countP (keeps : Keeps mem known t stored) (distinct : stored.Nodup)
    (good : HybridGood mem known least t.store t.leaves)
    (stands : Stands (HybridNode.keys mem) t.store t.leaves it front back)
    (P : c.uuid.Key → Prop) [DecidablePred P] :
    stored.countP P = front.countP P + back.countP P := by
  have sorted := good.tight.sorted good.tight.ascending
  have perm : stored.Perm (allKeys (t.store.pages (HybridNode.keys mem) t.leaves)) :=
    (List.perm_ext_iff_of_nodup distinct (sorted.imp ne_of_lt)).mpr keeps.keys
  rw [perm.countP_eq, stands.split, List.countP_append]

theorem not_inRange {k : c.uuid.Key} (less : k < x) :
    ¬ InRange typeOf timeOf x timeEnd.toNat k :=
  fun inside => (inside.ge key_lexicographic).not_gt less

-- From the first key that is not below x.
theorem getRangeTimeLoop_first (few : 8 * c.leafslotmax < endslot)
    (keeps : Keeps mem known t stored) (distinct : stored.Nodup)
    (good : HybridGood mem known least t.store t.leaves)
    (stands : Stands (HybridNode.keys mem) t.store t.leaves it front back)
    (below : ∀ k ∈ front, k < x) (above : ∀ k ∈ back, x ≤ k) :
    ∃ list, Returns (fun rounds => getRangeTimeLoop mem t (uuidOf x) timeEnd rounds it 0 [])
      (stored.countP (InRange typeOf timeOf x timeEnd.toNat), list) := by
  obtain ⟨list, returns⟩ := getRangeTimeLoop_counts (x := x) few good stands 0 []
  have sorted := good.tight.sorted good.tight.ascending
  rw [stands.split] at sorted
  have count := keeps.countP distinct good stands (InRange typeOf timeOf x timeEnd.toNat)
  rw [countP_none fun k inside => not_inRange (below k inside)] at count
  rw [countFrom_eq key_lexicographic (List.pairwise_append.mp sorted).2.1 above,
    ← count] at returns
  exact ⟨list, returns⟩

-- From the last key below x, which is passed over only if it has the type of x.
theorem getRangeTimeLoop_before (timeEnd : UInt64) (few : 8 * c.leafslotmax < endslot)
    (keeps : Keeps mem known t stored) (distinct : stored.Nodup)
    (good : HybridGood mem known least t.store t.leaves) {k : c.uuid.Key}
    (stands : Stands (HybridNode.keys mem) t.store t.leaves it front (k :: back)) (less : k < x)
    (above : ∀ k ∈ back, x < k) :
    ∃ list, Returns (fun rounds => getRangeTimeLoop mem t (uuidOf x) timeEnd rounds it 0 [])
      (if typeOf k = typeOf x then stored.countP (InRange typeOf timeOf x timeEnd.toNat) else 0,
        list) := by
  obtain ⟨list, returns⟩ := getRangeTimeLoop_counts (x := x) few good stands 0 []
  have sorted := good.tight.sorted good.tight.ascending
  rw [stands.split] at sorted
  have behind := (List.pairwise_cons.mp (List.pairwise_append.mp sorted).2.1).2
  have count := keeps.countP distinct good stands (InRange typeOf timeOf x timeEnd.toNat)
  rw [countP_none fun k' inside => not_inRange ((stands.passed good k' inside).trans less),
    List.countP_cons_of_neg (by simpa using not_inRange less), Nat.zero_add] at count
  rw [countFrom_before key_lexicographic behind above less, Nat.zero_add, ← count] at returns
  exact ⟨list, returns⟩

-- A plain leaf has a key from the one asked for on behind it in the tree. A blind one has the key
-- itself, or only keys above it; or lower_bound does not return end(), and there is a key of the
-- same type below it in the leaf, unless nothing is in the range.
def RangeRightIn (mem : Addr → c.uuid.Key) (t : HybridTree c.uuid) (stored : List c.uuid.Key)
    (key : c.uuid.Key) (timeEnd : UInt64) (a : Ptr) (leaf : Leaf (HybridNode c.uuid.Key)) : Prop :=
  if leaf.node.Plain then ∃ k ∈ stored, key ≤ k
  else key ∈ stored ∨ (∀ k ∈ leaf.node.keys mem, key < k) ∨
    (t.store.tailleaf = some a → ∃ k ∈ stored, key < k) ∧
      ((∃ k ∈ leaf.node.keys mem, k < key ∧ typeOf k = typeOf key) ∨
        ∀ k ∈ stored, ¬ InRange typeOf timeOf key timeEnd.toNat k)

-- The leaf for the key is there, and right.
def RangeRight (mem : Addr → c.uuid.Key) (t : HybridTree c.uuid) (stored : List c.uuid.Key)
    (key : c.uuid.Key) (timeEnd : UInt64) : Prop :=
  ∃ root, t.root = some root ∧ ∃ leaf, t.store.leaf (descend key root.1 root.2) = some leaf ∧
    RangeRightIn mem t stored key timeEnd (descend key root.1 root.2) leaf

theorem Reaches.range_iff {root : (level : Nat) × Node c.uuid.Key Ptr level}
    {sep : WithBot c.uuid.Key} (few : 8 * c.leafslotmax < endslot)
    (keeps : Keeps mem known t stored) (distinct : stored.Nodup)
    (reaches : Reaches mem known t stored x root before sep leaf after)
    (lands : Lands mem t stored x (descend x root.1 root.2) leaf it) :
    (∃ list, Returns (fun rounds => getRangeTimeLoop mem t (uuidOf x) timeEnd rounds it 0 [])
      (stored.countP (InRange typeOf timeOf x timeEnd.toNat), list)) ↔
      RangeRightIn mem t stored x timeEnd (descend x root.1 root.2) leaf := by
  have good := reaches.good
  unfold RangeRightIn
  cases lands with
  | @first _ front back stands below above right =>
    refine iff_of_true (getRangeTimeLoop_first few keeps distinct good stands below above) ?_
    split_ifs with plain
    · obtain ⟨k, inside⟩ := List.exists_mem_of_ne_nil back stands.nonempty
      have stored' : k ∈ stored := by
        rw [keeps.keys, stands.split]
        exact List.mem_append_right _ inside
      exact ⟨k, stored', above k inside⟩
    · exact (right.resolve_left plain).imp_right .inl
  | @before _ front back k stands blind inside less above more =>
    obtain ⟨list, returns⟩ :=
      getRangeTimeLoop_before timeEnd few keeps distinct good stands less above
    rw [if_neg blind]
    constructor
    · rintro ⟨list', returns'⟩
      have same := congrArg Prod.fst (returns.unique returns')
      refine .inr (.inr ⟨fun tail => ?_, ?_⟩)
      · obtain ⟨k', past⟩ := List.exists_mem_of_ne_nil back (more tail)
        refine ⟨k', ?_, above k' past⟩
        rw [keeps.keys, stands.split]
        exact List.mem_append_right _ (List.mem_cons_of_mem _ past)
      · by_cases type : typeOf k = typeOf x
        · exact .inl ⟨k, inside, less, type⟩
        · dsimp only at same
          rw [if_neg type, eq_comm, List.countP_eq_zero] at same
          exact .inr (by simpa using same)
    · rintro (hit | all | ⟨-, ⟨k', inside', less', type⟩ | none⟩)
      · exact absurd ((keeps.keys x).mp hit) (stands.skips good less above)
      · exact absurd (all k inside) less.not_gt
      · have stored' := Routes.stored_of_leaf keeps.keys reaches.routes reaches.live inside'
        have le := stands.last_below good above ((keeps.keys k').mp stored') less'
        rw [if_pos (type_between key_lexicographic le less type)] at returns
        exact ⟨list, returns⟩
      · rw [countP_none none, ite_self] at returns
        rw [countP_none none]
        exact ⟨list, returns⟩
  | behind all right =>
    have wrong : ¬ ∃ list, Returns (fun rounds => getRangeTimeLoop mem t (uuidOf x) timeEnd rounds
        ⟨some (descend x root.1 root.2), leaf.slotuse⟩ 0 [])
        (stored.countP (InRange typeOf timeOf x timeEnd.toNat), list) := by
      rintro ⟨list, bound, returns⟩
      have result := returns bound le_rfl
      dsimp only at result
      rw [getRangeTimeLoop_past few reaches.valid reaches.live] at result
      cases result
    refine iff_of_false wrong ?_
    split_ifs with plain
    · rintro ⟨k, inside, le⟩
      exact (all k inside).not_ge le
    · rintro (hit | none | ⟨more, -⟩)
      · exact (all x hit).false
      · obtain ⟨k, inside⟩ := List.exists_mem_of_ne_nil _ (counted_hybrid.nonempty reaches.valid)
        exact (none k inside).asymm
          (all k (Routes.stored_of_leaf keeps.keys reaches.routes reaches.live inside))
      · obtain ⟨k, inside, less⟩ := more (right.resolve_left plain)
        exact (all k inside).asymm less

variable {blank : SeqTreeBlindiNode} {key : c.uuid.Key}

-- GetRangeTime ends with the number of the rows in the range exactly when lower_bound has come out
-- at a place from which the two early exits and the test for ENDSLOT are enough.
theorem rangeTime_iff (fits : c.uuid.Fits) (few : 8 * c.leafslotmax < endslot)
    (reached : Reached mem blank t stored) (key : c.uuid.Key) (timeEnd : UInt64) :
    (∃ list, Returns (fun rounds => t.getRangeTime mem rounds key timeEnd)
      (stored.countP (InRange typeOf timeOf key timeEnd.toNat), list)) ↔
      RangeRight mem t stored key timeEnd := by
  obtain ⟨known, -, keeps | ⟨a, root, gone⟩⟩ := reached.keeps fits
  · cases eq : t.root with
    | none =>
      refine iff_of_false ?_ fun right => ?_
      · rintro ⟨list, bound, returns⟩
        obtain ⟨rfl, rfl⟩ := keeps.empty eq
        have start : (HybridTree.empty c.uuid).lowerBound mem key = some ⟨none, 0⟩ := rfl
        have result := returns bound le_rfl
        dsimp only [HybridTree.getRangeTime] at result
        rw [start, Option.bind_some, getRangeTimeLoop_none (by decide) rfl] at result
        cases result
      · obtain ⟨root, some_, -⟩ := right
        cases eq.symm.trans some_
    | some root =>
      obtain ⟨before, sep, leaf, after, reaches⟩ := keeps.reaches key eq
      obtain ⟨it, run, lands⟩ := reaches.lowerBound fits keeps eq
      have right : RangeRight mem t stored key timeEnd ↔
          RangeRightIn mem t stored key timeEnd (descend key root.1 root.2) leaf := by
        constructor
        · rintro ⟨root', eq', leaf', live', right⟩
          cases eq.symm.trans eq'
          cases reaches.live.symm.trans live'
          exact right
        · exact fun right => ⟨root, eq, leaf, reaches.live, right⟩
      rw [right, ← reaches.range_iff few keeps reached.distinct lands]
      simp only [HybridTree.getRangeTime, run, Option.bind_some]
  · refine iff_of_false ?_ fun right => ?_
    · rintro ⟨list, bound, returns⟩
      have result := returns bound le_rfl
      dsimp only [HybridTree.getRangeTime, HybridTree.lowerBound] at result
      rw [root] at result
      dsimp only [descend] at result
      rw [gone] at result
      cases result
    · obtain ⟨root', eq', leaf, live, -⟩ := right
      cases root.symm.trans eq'
      cases gone.symm.trans live

section Sample

-- The status changes after four rows; the row a has the type a % 2 and the time a / 2.
def rangeSample : Config := { sampleConfig with limit2ShouldCompress := 4 }

def rangeMem (a : Addr) : rangeSample.uuid.Key := littleEndian 16 (a / 2 + 2 ^ 64 * (a % 2))

theorem rangeSample_fits :
    rangeSample.uuid.Fits := ⟨by decide, by decide, by decide, by decide, .inr rfl, by decide⟩

abbrev rangeRun (rows : List Addr) : Option (HybridTree rangeSample.uuid) :=
  (HybridTree.empty rangeSample.uuid).insertAll (c := rangeSample.uuid) rangeMem sampleNode
    (fun _ _ => true) rows

theorem rangeRun_reached {t : HybridTree rangeSample.uuid} {rows : List Addr}
    (distinct : ((rows.map rangeMem).reverse ++ []).Nodup) (run : rangeRun rows = some t) :
    Reached (c := rangeSample.uuid) rangeMem sampleNode t ((rows.map rangeMem).reverse ++ []) :=
  insertAll_run (c := rangeSample.uuid)
    (R := Reached (c := rangeSample.uuid) rangeMem sampleNode)
    (fun _ _ _ _ _ start _ missing insert => start.insert missing insert) .empty distinct run

-- The rows of type 1 are in a blind leaf, in which 11 is the last one before the time 6.
theorem rangeTime_iff_sample : ∃ t list, Reached (c := rangeSample.uuid) rangeMem sampleNode t
      (([10, 11, 20, 21, 30, 31, 40].map rangeMem).reverse ++ []) ∧
    Returns (fun rounds => t.getRangeTime rangeMem rounds (rangeMem 13) 15) (2, list) := by
  have blind : ((rangeRun [10, 11, 20, 21, 30, 31, 40]).map fun t => t.root.any fun root =>
      (t.store.leaf (descend (rangeMem 13) root.1 root.2)).any fun leaf =>
        !decide leaf.node.Plain && decide (rangeMem 11 ∈ leaf.node.keys rangeMem)) = some true := by
    decide +kernel
  obtain ⟨t, run, blind⟩ := Option.map_eq_some_iff.mp blind
  have reached := rangeRun_reached (by decide) run
  have right : RangeRight rangeMem t (([10, 11, 20, 21, 30, 31, 40].map rangeMem).reverse ++ [])
      (rangeMem 13) 15 := by
    obtain ⟨root, eq, blind⟩ := (Option.any_eq_true _ _).mp blind
    obtain ⟨leaf, live, blind⟩ := (Option.any_eq_true _ _).mp blind
    obtain ⟨blind, inside⟩ := (Bool.and_eq_true_iff).mp blind
    refine ⟨root, eq, leaf, live, ?_⟩
    rw [RangeRightIn, if_neg (by simpa using blind)]
    exact .inr (.inr ⟨fun _ => ⟨rangeMem 21, by decide, by decide⟩,
      .inl ⟨rangeMem 11, of_decide_eq_true inside, by decide, by decide +kernel⟩⟩)
  have count : (([10, 11, 20, 21, 30, 31, 40].map rangeMem).reverse ++ []).countP
      (InRange typeOf timeOf (rangeMem 13) (15 : UInt64).toNat) = 2 := by decide +kernel
  obtain ⟨list, returns⟩ :=
    (rangeTime_iff (c := rangeSample) rangeSample_fits (by decide) reached (rangeMem 13) 15).mpr
      right
  exact ⟨t, list, reached, count ▸ returns⟩

-- lower_bound of (4, 1) stands at the row 40, which is of type 0, and the walk ends there; and
-- where (7, 1) is above the only row, it returns end(), which is not at ENDSLOT.
theorem rangeTime_misses :
    (∃ t, Reached (c := rangeSample.uuid) rangeMem sampleNode t
        (([10, 11, 20, 21, 30, 31, 40].map rangeMem).reverse ++ []) ∧
      (([10, 11, 20, 21, 30, 31, 40].map rangeMem).reverse ++ []).countP
        (InRange typeOf timeOf (rangeMem 9) (15 : UInt64).toNat) = 3 ∧
      Returns (fun rounds => t.getRangeTime rangeMem rounds (rangeMem 9) 15) (0, [])) ∧
    ∃ t, Reached (c := rangeSample.uuid) rangeMem sampleNode t (([11].map rangeMem).reverse ++ []) ∧
      ¬ ∃ r, Returns (fun rounds => t.getRangeTime rangeMem rounds (rangeMem 15) 9) r := by
  constructor
  · have built : ((rangeRun [10, 11, 20, 21, 30, 31, 40]).map fun t =>
        t.getRangeTime (c := rangeSample) rangeMem 1 (rangeMem 9) 15) = some (some (0, [])) := by
      decide +kernel
    obtain ⟨t, run, answer⟩ := Option.map_eq_some_iff.mp built
    exact ⟨t, rangeRun_reached (by decide) run, by decide +kernel, getRangeTime_returns answer⟩
  · have built : ((rangeRun [11]).map fun t => (t.lowerBound rangeMem (rangeMem 15)).map fun it =>
        (it.currslot, t.data it)) = some (some (1, none)) := by
      decide +kernel
    obtain ⟨t, run, answers⟩ := Option.map_eq_some_iff.mp built
    obtain ⟨it, start, behind⟩ := Option.map_eq_some_iff.mp answers
    obtain ⟨slot, data⟩ := Prod.mk.inj behind
    refine ⟨t, rangeRun_reached (by decide) run, ?_⟩
    rintro ⟨r, bound, returns⟩
    have result := returns bound le_rfl
    dsimp only [HybridTree.getRangeTime] at result
    rw [start, Option.bind_some, getRangeTimeLoop_none (by rw [slot]; decide) data] at result
    cases result

end Sample

end ElasticIndex.Tree.Hybrid
