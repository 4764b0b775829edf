import ElasticIndex.Tree.BlindLeaf
import ElasticIndex.Tree.Hybrid

set_option autoImplicit false

namespace ElasticIndex.Tree.Hybrid

open Separators SeqTree SequenceEdit

/-- The builds this development covers: keys and trees as in the node theorems, leaves of some size,
and leaf types that have one index type or no tree. -/
structure Config.Fits (c : Config) : Prop where
  levels : c.treeLevels ≤ 2
  key : c.keyLen ≤ 31
  slots : 4 ≤ c.leafslotmax
  inner : 0 < c.innerslotmax
  widens : 8 * c.leafslotmax < 254 ∨ c.treeLevels = 0
  small : 8 * c.leafslotmax < 65536

variable {c : Config} {mem : Addr → c.Key} {known : List Addr}
  {blank : SeqTreeBlindiNode} {least : Nat} {type : BlindiLeafType} {node : SeqTreeBlindiNode}
  {slots : List (c.Key × Addr)} {key : Addr}

theorem slots_eq (m : Nat) (type : BlindiLeafType) : type.slots m = m * type.size := by
  cases type <;> simp only [BlindiLeafType.slots, BlindiLeafType.size] <;> omega

theorem slots_bounds (m : Nat) (type : BlindiLeafType) : m ≤ type.slots m ∧
    type.slots m ≤ 8 * m := by
  cases type <;> simp only [BlindiLeafType.slots] <;> omega

theorem Config.Fits.low (fits : c.Fits) (type : BlindiLeafType) : (c.params type).Low :=
  ⟨fits.levels, fits.key⟩

-- What a leaf of a hybrid tree is: btree leaves store each key beside its address, and all
-- addresses are known.
def HybridSound (mem : Addr → c.Key) (known : List Addr) (least slotuse : Nat) :
    HybridNode c.Key → Prop
  | .btree slots =>
    slotuse = slots.length ∧ 1 ≤ slotuse ∧ least ≤ slotuse ∧ slotuse ≤ c.leafslotmax ∧
      ∀ e ∈ slots, mem e.2 = e.1 ∧ e.2 ∈ known
  | .blindi type node => slotuse = node.validLen ∧ Stocked (c := c.params type) mem node ∧
      ∀ a ∈ entries node.validLen node.keyPtr, a ∈ known

abbrev HybridGood (mem : Addr → c.Key) (known : List Addr) (least : Nat)
    (s : Store (HybridNode c.Key)) (row : Row c.Key Ptr) : Prop :=
  Sound (HybridNode.keys mem) (HybridSound mem known least) s row

theorem counted_hybrid : Counted (HybridNode.keys mem) (HybridSound mem known least) := by
  constructor
  · intro slotuse node valid
    cases node with
    | btree slots => simpa [HybridNode.keys] using valid.1
    | blindi type node => simpa [HybridNode.keys] using valid.1
  · intro slotuse node valid none
    cases node with
    | btree slots =>
      have := valid.1
      have := valid.2.1
      have := congrArg List.length none
      simp only [HybridNode.keys, List.length_map, List.length_nil] at this
      omega
    | blindi type node =>
      have := valid.2.1.several
      have := congrArg List.length none
      simp only [HybridNode.keys, List.length_map, length_entries, List.length_nil] at this
      omega

-- A conversion keeps the keys.
theorem transferSlots_spec (blank : SeqTreeBlindiNode) (least : Nat) (fits : c.Fits)
    (type : BlindiLeafType) (increasing : (slots.map Prod.fst).Pairwise (· < ·))
    (stored : ∀ e ∈ slots, mem e.2 = e.1 ∧ e.2 ∈ known) (several : 2 ≤ slots.length)
    (room : slots.length ≤ c.leafslotmax) :
    HybridSound mem known least slots.length (transferSlots blank type slots.length slots) ∧
      HybridNode.keys mem (transferSlots blank type slots.length slots) = slots.map Prod.fst := by
  have bounds := slots_bounds c.leafslotmax type
  have keyAt (i : Nat) (lt : i < slots.length) :
      (slots[i]?.map Prod.fst).getD (.replicate _ 0) = slots[i].1 ∧
      (slots[i]?.map Prod.snd).getD 0 = slots[i].2 := by
    rw [List.getElem?_eq_getElem lt]
    exact ⟨rfl, rfl⟩
  have source : Source (c.params type) mem slots.length
    (fun i => (slots[i]?.map Prod.fst).getD (.replicate _ 0))
      fun i => (slots[i]?.map Prod.snd).getD 0 := by
    refine ⟨fun i lt => ?_, fun i lt => ?_⟩
    · have order := List.pairwise_iff_getElem.mp increasing i
        (i + 1) (by simp; omega) (by simpa using lt) (by omega)
      simp only [List.getElem_map] at order
      dsimp only
      rw [(keyAt i (by omega)).1, (keyAt (i + 1) lt).1]
      exact order
    · dsimp only
      rw [(keyAt i lt).1, (keyAt i lt).2]
      exact (stored _ (List.getElem_mem lt)).1
  have idx : slots.length ≤ (c.params type).endTree := by
    have := fits.small
    unfold Params.endTree Params.idxSize
    dsimp only
    split_ifs <;> omega
  obtain ⟨stocked, validLen, keyPtr⟩ := transferBtree2blindi_stocked (fits.low type) source several
    (by dsimp only; omega) idx blank
  have pointers := entries_congr keyPtr
  have same : entries slots.length (fun i => (slots[i]?.map Prod.snd).getD 0) =
      slots.map Prod.snd := by
    apply List.ext_getElem
    · simp
    · intro i left right
      have lt : i < slots.length := by simpa using left
      simp only [List.getElem_map, getElem_entries]
      exact (keyAt i lt).2
  refine ⟨⟨validLen.symm, stocked, ?_⟩, ?_⟩
  · rw [validLen, pointers, same]
    intro a inside
    obtain ⟨e, at_, rfl⟩ := List.mem_map.mp inside
    exact (stored e at_).2
  · rw [transferSlots, HybridNode.keys, validLen, pointers, same, List.map_map]
    exact List.map_congr_left fun e at_ => (stored e at_).1

theorem keys_entries (type : BlindiLeafType) (node : SeqTreeBlindiNode) :
    HybridNode.keys mem (.blindi type node) = entries node.validLen
      (node.keys (c := c.params type) mem) := List.map_map

theorem increasing_keys (sound : Stocked (c := c.params type) mem node) :
    (HybridNode.keys mem (.blindi type node)).Pairwise (· < ·) := by
  rw [keys_entries]
  refine List.pairwise_map.mpr (List.pairwise_lt_range.imp_of_mem fun {i j} _ bound lt => ?_)
  exact sound.wellFormed.blind.less lt (List.mem_range.mp bound)

theorem search_hybrid (fits : c.Fits) (sound : Stocked (c := c.params type) mem node) (x : c.Key) :
    let r := searchBlindiNode (c := c.params type) mem node x .predecessor .zero
    Predecessor (HybridNode.keys mem (.blindi type node)) x
      { position := r.position, hit := r.hit, smallerThanNode := r.smallerThanNode } := by
  intro r
  obtain ⟨answer, inside, first⟩ := sound.search (fits.low type) x
  rw [keys_entries]
  exact (predecessor_of_positions (K := c.Key)
    (fun i j lt bound => sound.wellFormed.blind.less lt bound) answer.hit
    answer.found inside answer.smaller first answer.largest).2

theorem insert_hybrid (least : Nat) (fits : c.Fits) {key : Addr} (inserted : key ∈ known)
    (sound : Stocked (c := c.params type) mem node ∧
      ∀ a ∈ entries node.validLen node.keyPtr, a ∈ known)
    (room : node.validLen < c.leafslotmax * type.size)
      (missing : mem key ∉ HybridNode.keys mem (.blindi type node)) :
    let r := insert2BlindiNodeWithKey (c := c.params type) mem node key
    r.1 ≠ .duplicatedKey ∧ HybridSound mem known least (node.validLen + 1) (.blindi type r.2) ∧
      ∃ p, p ≤ node.validLen ∧ HybridNode.keys mem (.blindi type r.2) =
        (HybridNode.keys mem (.blindi type node)).insertIdx p (mem key) := by
  intro r
  have bounds := slots_bounds c.leafslotmax type
  have small := fits.small
  rw [← slots_eq] at room
  rw [keys_entries] at missing
  obtain ⟨answer, stocked⟩ :=
    sound.1.insert (fits.low type) room (show type.slots c.leafslotmax < 65536 by omega)
    fun i hi same => missing (mem_entries.mpr ⟨i, hi, same⟩)
  obtain ⟨p, le, keyPtr⟩ := answer.keyPtr
  have result : r.1 = .success := answer.success
  have pointers : entries r.2.validLen r.2.keyPtr =
      (entries node.validLen node.keyPtr).insertIdx p key := by
    rw [answer.validLen, entries_congr fun i hi => keyPtr i (by omega), entries_insertAt le]
  refine ⟨by simp [result], ⟨answer.validLen.symm, stocked, fun a inside => ?_⟩, p, le, ?_⟩
  · rw [pointers, List.mem_insertIdx (by rwa [length_entries])] at inside
    rcases inside with rfl | inside
    · exact inserted
    · exact sound.2 a inside
  · rw [HybridNode.keys, pointers, List.map_insertIdx]
    rfl

theorem split_hybrid (blank : SeqTreeBlindiNode) (least : Nat) (fits : c.Fits)
    (sound : Stocked (c := c.params type) mem node ∧
      ∀ a ∈ entries node.validLen node.keyPtr, a ∈ known)
    (full : node.validLen = c.leafslotmax * type.size) :
    let r := splitBlindiNode (c.params type) node blank blank
    (HybridSound mem known least (node.validLen / 2) (.blindi type r.1) ∧
        HybridSound mem known least (node.validLen - node.validLen / 2) (.blindi type r.2)) ∧
      HybridNode.keys mem (.blindi type r.1) =
      (HybridNode.keys mem (.blindi type node)).take (node.validLen / 2) ∧
      HybridNode.keys mem (.blindi type r.2) =
      (HybridNode.keys mem (.blindi type node)).drop (node.validLen / 2) := by
  intro r
  have bounds := slots_bounds c.leafslotmax type
  have slots := fits.slots
  obtain ⟨halves, small, large⟩ := sound.1.split (fits.low type) (full.trans (slots_eq _ _).symm)
    (show 4 ≤ type.slots c.leafslotmax by omega) blank blank
  have firstLen : r.1.validLen = min (node.validLen / 2) node.validLen := by
    simpa using congrArg List.length halves.first
  have secondLen : r.2.validLen = node.validLen - node.validLen / 2 := by
    simpa using congrArg List.length halves.second
  have first : entries r.1.validLen r.1.keyPtr =
    (entries node.validLen node.keyPtr).take (node.validLen / 2) := halves.first
  have second : entries r.2.validLen r.2.keyPtr =
    (entries node.validLen node.keyPtr).drop (node.validLen / 2) := halves.second
  refine ⟨⟨⟨by omega, small, fun a inside => sound.2 a ?_⟩, secondLen.symm, large,
    fun a inside => sound.2 a ?_⟩, ?_, ?_⟩
  · rw [first] at inside
    exact List.mem_of_mem_take inside
  · rw [second] at inside
    exact List.mem_of_mem_drop inside
  · rw [HybridNode.keys, HybridNode.keys, ← List.map_take, first]
  · rw [HybridNode.keys, HybridNode.keys, ← List.map_drop, second]

theorem extended_slots (m : Nat) {wider : BlindiLeafType} (extended : type.extended = some wider) :
    wider.slots m = 2 * type.slots m ∧ wider.slots m ≤ 8 * m := by
  cases type <;> simp only [BlindiLeafType.extended, Option.some.injEq, reduceCtorEq]
    at extended <;> subst extended <;>
    exact ⟨rfl, by simp only [BlindiLeafType.slots]; omega⟩

-- Extending a full node keeps its keys.
theorem widen_hybrid (blank : SeqTreeBlindiNode) (least : Nat) (fits : c.Fits)
    {wider : BlindiLeafType} (extended : type.extended = some wider)
    (sound : Stocked (c := c.params type) mem node ∧
      ∀ a ∈ entries node.validLen node.keyPtr, a ∈ known)
    (full : node.validLen = c.leafslotmax * type.size) :
    let node' := HybridNode.blindi wider (transferBlindixtoblibdi2x (c.params type) node blank)
    HybridSound mem known least node.validLen node' ∧
      HybridNode.keys mem node' = HybridNode.keys mem (.blindi type node) := by
  intro node'
  have twice := extended_slots c.leafslotmax extended
  have widens : Widens (c.params type) node := by
    unfold Widens
    dsimp only
    rcases fits.widens with narrow | flat
    · exact .inl (by omega)
    · have size : (c.params type).treeSize = 0 := by
        rw [Params.treeSize]
        dsimp only
        rw [flat]
        rfl
      by_cases both : 2 * type.slots c.leafslotmax < 254
      · exact .inl both
      by_cases narrow : type.slots c.leafslotmax < 254
      · exact .inr (.inl ⟨narrow, by omega, fun s inside => absurd inside (by omega)⟩)
      · exact .inr (.inr ⟨by omega, .inl flat⟩)
  obtain ⟨stocked, validLen, keyPtr⟩ := sound.1.widen (full.trans (slots_eq _ _).symm) widens blank
  have pointers := entries_congr keyPtr
  refine ⟨⟨validLen.symm, ?_, ?_⟩, ?_⟩
  · cases type <;> cases extended <;> exact stocked
  · rw [validLen, pointers]
    exact sound.2
  · rw [HybridNode.keys, HybridNode.keys, validLen, pointers]

def HybridNode.Plain : HybridNode c.Key → Prop
  | .btree _ => True
  | .blindi .. => False

instance decidablePlain : (node : HybridNode c.Key) → Decidable node.Plain
  | .btree _ => .isTrue trivial
  | .blindi .. => .isFalse id

-- The keys of a leaf that are left beside a new key; only a full leaf that cannot be extended is
-- split.
def HybridNode.takingPart (mem : Addr → c.Key) (node : HybridNode c.Key) (x : c.Key) : List c.Key :=
  match node with
  | .blindi .blindi8 _ =>
    ElasticIndex.Tree.takingPart (BlindiLeafType.blindi8.slots c.leafslotmax) (node.keys mem) x
  | _ => node.keys mem

theorem takingPart_small (small : type ≠ .blindi8) (x : c.Key) :
    (HybridNode.blindi type node).takingPart mem x = HybridNode.keys mem (.blindi type node) := by
  cases type <;> first | rfl | exact absurd rfl small

def Blind (s : Store (HybridNode c.Key)) (a : Ptr) : Prop :=
  ∃ type node, s.nodeAt a = some (.blindi type node)

-- What the start of the leaf part asks about a plain leaf.
def Converts (status : HybridStatus) (leaf : Leaf (HybridNode c.Key)) : Prop :=
  status = .mustCompress ∨ status = .shouldCompress ∧ leaf.slotuse = c.leafslotmax

-- The insertion goes the way of the plain leaves.
def PlainPath (status : HybridStatus) (leaf : Leaf (HybridNode c.Key)) : Prop :=
  leaf.node.Plain ∧ ¬ Converts status leaf

section Compress

variable {s : Store (HybridNode c.Key)} {h : Heap c} {inner : InnerNode c.Key Ptr}
  {before after : Row c.Key Ptr} {sep : WithBot c.Key} {leaf : Leaf (HybridNode c.Key)}
  {slot i : Nat} {status : HybridStatus}

theorem HybridGood.increasing {row : Row c.Key Ptr} {a : Ptr}
    (good : HybridGood mem known least s row) (inside : a ∈ cells row)
    (live : s.leaf a = some leaf) : (leaf.node.keys mem).Pairwise (· < ·) := by
  obtain ⟨e, at_, rfl⟩ := List.mem_map.mp inside
  have page := good.tight.increasing _ (List.mem_map_of_mem at_)
  rwa [keysAt_of_leaf live] at page

theorem childid_mem (inside : i ≤ inner.slotuse) :
    inner.childid i ∈ cells (before ++ row sep inner ++ after) := by
  rw [cells_append, cells_append]
  exact List.mem_append_left _ (List.mem_append_right _ (mem_cells_row.mpr ⟨i, inside, rfl⟩))

theorem convert_spec (blank : SeqTreeBlindiNode) (fits : c.Fits)
    (good : HybridGood mem known 2 h.store (before ++ row sep inner ++ after))
    (inside : i ≤ inner.slotuse) (live : h.store.leaf (inner.childid i) = some leaf)
    (plain : leaf.node = .btree slots) (type : BlindiLeafType) :
    ∃ s', transferBtreeNode blank type h (some (inner, i)) (inner.childid i) leaf slots =
        some ({ store := s'
                btreeleaves := h.btreeleaves - 1
                breathingSum := h.breathingSum + transferBtree2blindiBreathing
                  (c.params type) leaf.slotuse },
          some (inner.setChild i h.store.fresh, i), h.store.fresh) ∧
      HybridNode.keys mem (transferSlots blank type leaf.slotuse slots) = slots.map Prod.fst ∧
      Replaced h.store (inner.childid i) leaf (transferSlots blank type leaf.slotuse slots) s' ∧
      ChildReplaced (HybridNode.keys mem)
        (HybridSound mem known 2) h.store before sep inner after i s' := by
  have here : inner.childid i ∈ cells (before ++ row sep inner ++ after) := childid_mem inside
  obtain ⟨leaf', live', valid⟩ := good.live _ here
  rw [live] at live'
  cases live'
  have increasing := HybridGood.increasing good here live
  rw [plain] at valid increasing
  obtain ⟨length, _, several, fits', stored⟩ := valid
  obtain ⟨sound, same⟩ :=
    transferSlots_spec blank 2 fits type increasing stored (by omega) (by omega)
  rw [← length] at sound same
  obtain ⟨s', run, replaced, changed⟩ :=
    good.replace_child inside live (same.trans (by rw [plain]; rfl)) sound
  refine ⟨s', ?_, same, replaced, changed⟩
  unfold transferBtreeNode
  rw [run]
  rfl

theorem firstBtree_spec
    (live : ∀ j, j ≤ inner.slotuse → ∃ leaf, s.leaf (inner.childid j) = some leaf) (rest i : Nat)
    (inside : i + rest ≤ inner.slotuse + 1) : ∃ r, firstBtree s inner rest i = some r ∧
      ∀ j leaf slots, r = some (j, leaf, slots) →
        j < i + rest ∧ s.leaf (inner.childid j) = some leaf ∧ leaf.node = .btree slots := by
  induction rest generalizing i with
  | zero => exact ⟨none, rfl, fun j leaf slots same => (by cases same)⟩
  | succ rest ih =>
    obtain ⟨leaf, here⟩ := live i (by omega)
    unfold firstBtree
    rw [here, Option.bind_some]
    cases node : leaf.node with
    | btree slots =>
      refine ⟨_, rfl, fun j leaf' slots' same => ?_⟩
      cases same
      exact ⟨by omega, here, node⟩
    | blindi type node' =>
      obtain ⟨r, run, some_⟩ := ih (i + 1) (by omega)
      refine ⟨r, run, fun j leaf' slots' same => ?_⟩
      obtain ⟨lt, rest⟩ := some_ j leaf' slots' same
      exact ⟨by omega, rest⟩

theorem tail_replaced {N : Type} {s s' : Store N} {leaf : Leaf N} {node : N}
    (inside : i ≤ inner.slotuse) (distinct : (cells (before ++ row sep inner ++ after)).Nodup)
    (replaced : Replaced s (inner.childid i) leaf node s')
    (tail : TailSafe s (before ++ row sep inner ++ after)) :
    TailSafe s' (before ++ row sep (inner.setChild i s.fresh) ++ after) := by
  obtain ⟨front, low, back, eq, length⟩ := row_child sep inside
  have changed := row_setChild eq s.fresh
  rw [length] at changed
  have whole : before ++ row sep inner ++ after =
      (before ++ front) ++ (low, inner.childid i) :: (back ++ after) := by
    rw [eq]
    simp
  have whole' : before ++ row sep (inner.setChild i s.fresh) ++ after =
      (before ++ front) ++ (low, s.fresh) :: (back ++ after) := by
    rw [changed]
    simp
  rw [whole] at tail distinct
  rw [whole']
  exact tail.replaced distinct replaced

/-- The start of the leaf part keeps the leaves with their keys; it may have replaced a plain
leaf. -/
structure Compressed (mem : Addr → c.Key) (known : List Addr) (status : HybridStatus)
    (s : Store (HybridNode c.Key)) (before : Row c.Key Ptr) (sep : WithBot c.Key)
    (inner : InnerNode c.Key Ptr) (after : Row c.Key Ptr) (slot : Nat)
    (leaf : Leaf (HybridNode c.Key)) (s' : Store (HybridNode c.Key)) (inner' : InnerNode c.Key Ptr)
    (leaf' : Leaf (HybridNode c.Key)) : Prop where
  good : HybridGood mem known 2 s' (before ++ row sep inner' ++ after)
  pages : s'.pages (HybridNode.keys mem) (before ++ row sep inner' ++ after) =
    s.pages (HybridNode.keys mem) (before ++ row sep inner ++ after)
  slotkey : inner'.slotkey = inner.slotkey
  tail : TailSafe s (before ++ row sep inner ++ after) →
    TailSafe s' (before ++ row sep inner' ++ after)
  live : s'.leaf (inner'.childid slot) = some leaf'
  plain : leaf'.node.Plain ↔ PlainPath status leaf
  part : ∀ x, leaf'.node.takingPart mem x = leaf.node.takingPart mem x

theorem plain_of_btree {a : Ptr} (live : s.leaf a = some leaf)
    (plain : leaf.node = .btree slots) : ¬ Blind s a := by
  rintro ⟨type, node, at_⟩
  rw [Store.nodeAt, live, Option.map_some, plain] at at_
  cases at_

theorem compress_spec (blank : SeqTreeBlindiNode) (fits : c.Fits)
    (good : HybridGood mem known 2 h.store (before ++ row sep inner ++ after))
    (inside : slot ≤ inner.slotuse) (live : h.store.leaf (inner.childid slot) = some leaf)
    (status : HybridStatus) :
    ∃ h' inner' leaf', compress blank status h (some (inner, slot)) (inner.childid slot) =
        some (h', some (inner', slot), inner'.childid slot) ∧
      Compressed mem known status h.store before sep inner after slot leaf h'.store
        inner' leaf' := by
  have same (other : leaf.node.Plain ↔ PlainPath status leaf) :
      Compressed mem known status h.store before sep inner after slot leaf h.store inner leaf :=
    ⟨good, rfl, rfl, id, live, other, fun _ => rfl⟩
  unfold compress
  rw [live, Option.bind_some]
  cases node : leaf.node with
  | btree slots =>
    dsimp only
    have isPlain : leaf.node.Plain := by rw [node]; trivial
    by_cases converts : status = .mustCompress ∨ status = .shouldCompress ∧
      leaf.slotuse = c.leafslotmax
    · have kind : (if leaf.slotuse ≠ c.leafslotmax then BlindiLeafType.blindi1 else .blindi2) ≠
          .blindi8 := by
        split_ifs <;> simp
      rw [if_pos converts]
      generalize (if leaf.slotuse ≠ c.leafslotmax then BlindiLeafType.blindi1 else .blindi2) =
        type at kind
      obtain ⟨s', run, keys, replaced, changed⟩ :=
        convert_spec blank fits good inside live node type
      have here := replaced.new
      have self : (inner.setChild slot h.store.fresh).childid slot = h.store.fresh :=
        childid_setChild_self inside
      rw [← self] at here
      rw [run]
      refine ⟨{ store := s', btreeleaves := _, breathingSum := _ },
        inner.setChild slot h.store.fresh, _,
        by rw [childid_setChild_self inside], changed.sound, changed.pages, slotkey_setChild,
        tail_replaced inside good.distinct replaced, here,
        ⟨fun plain => absurd plain id, fun path => absurd converts path.2⟩,
        fun x => ?_⟩
      have part : (transferSlots blank type leaf.slotuse slots).takingPart mem x =
          (transferSlots blank type leaf.slotuse slots).keys mem := takingPart_small kind x
      exact part.trans (keys.trans (by rw [node]; rfl))
    · rw [if_neg converts]
      exact ⟨h, inner, leaf, rfl, same ⟨fun _ => ⟨isPlain, converts⟩, And.left⟩⟩
  | blindi type n =>
    dsimp only
    have notPlain : ¬ leaf.node.Plain := by rw [node]; exact id
    have other : leaf.node.Plain ↔ PlainPath status leaf :=
      ⟨fun plain => absurd plain notPlain, And.left⟩
    have blind : Blind h.store (inner.childid slot) :=
      ⟨type, n, by rw [Store.nodeAt, live, ← node]; rfl⟩
    split_ifs with must
    · rw [Option.bind_some]
      dsimp only
      split_ifs with flag
      · exact ⟨h, inner, leaf, rfl, same other⟩
      · have lives (j : Nat) (le : j ≤ inner.slotuse) : ∃ leaf,
            h.store.leaf (inner.childid j) = some leaf :=
          (good.live _ (childid_mem le)).imp fun leaf live => live.1
        obtain ⟨r, run, some_⟩ := firstBtree_spec lives inner.slotuse 0 (by omega)
        unfold sweep
        rw [run, Option.bind_some]
        cases r with
        | none =>
          exact ⟨h, { inner with alreadycomprerss := true }, leaf, rfl, good, rfl, rfl, id, live,
            other, fun _ => rfl⟩
        | some found =>
          obtain ⟨i, plainLeaf, slots⟩ := found
          obtain ⟨lt, live', node'⟩ := some_ i plainLeaf slots rfl
          have ne : slot ≠ i := by
            rintro rfl
            exact plain_of_btree live' node' blind
          obtain ⟨s', run', _, replaced, changed⟩ :=
            convert_spec blank fits good (show i ≤ inner.slotuse by omega) live' node'
            .blindi1
          have at_ := changed.siblings slot inside ne
          rw [Store.nodeAt, Store.nodeAt, live, Option.map_some] at at_
          obtain ⟨leaf', here, nodeSame⟩ := Option.map_eq_some_iff.mp at_
          dsimp only
          rw [run']
          refine ⟨{ store := s', btreeleaves := _, breathingSum := _ },
            inner.setChild i h.store.fresh, leaf',
            by rw [childid_setChild_other inside ne]; rfl, changed.sound,
            changed.pages, slotkey_setChild,
            tail_replaced (by omega) good.distinct replaced,
            by rwa [childid_setChild_other inside ne], by rw [nodeSame]; exact other,
            fun x => by rw [nodeSame]⟩
    · exact ⟨h, inner, leaf, rfl, same other⟩

end Compress

end ElasticIndex.Tree.Hybrid
