import ElasticIndex.Tree.Bounds
import ElasticIndex.Tree.SortedMap

set_option autoImplicit false

namespace ElasticIndex.Tree

open Separators LinkedRow Loop

variable {K N : Type} [LinearOrder K] {content : N → List K} {ok : Nat → N → Prop} {s : Store N}
  {row : Row K Ptr} {low : WithBot K} {front back : List K} {it it' : Iterator} {slots : Slots}
  {mem : Addr → K} {T : NodeType K N} {Valid : N → Prop}
  {Q : Row K (List K) → Prop} {tight : Prop} {t : BTree K N} {i n : Nat} {x : K}

-- The row with each separator drawn down to the last key of the page before it.
def tightened (content : N → List K) (s : Store N) : WithBot K → Row K Ptr → Row K Ptr
  | _, [] => []
  | low, e :: rest =>
    (low, e.2) :: tightened content s ((s.keysAt content e.2).getLast?.elim low fun k =>
      (k : WithBot K)) rest

omit [LinearOrder K] in
theorem cells_tightened (content : N → List K) (s : Store N) (low : WithBot K) (row : Row K Ptr) :
    cells (tightened content s low row) = cells row := by
  induction row generalizing low with
  | nil => rfl
  | cons e rest ih => exact congrArg (e.2 :: ·) (ih _)

omit [LinearOrder K] in
theorem allKeys_tightened (low : WithBot K) (row : Row K Ptr) :
    allKeys (s.pages content (tightened content s low row)) = allKeys (s.pages content row) := by
  induction row generalizing low with
  | nil => rfl
  | cons e rest ih =>
    change s.keysAt content e.2 ++ allKeys (s.pages content (tightened content s _ rest)) =
      s.keysAt content e.2 ++ allKeys (s.pages content rest)
    rw [ih]

theorem tightened_tight (low : WithBot K) (row : Row K Ptr) (loose : Loose (s.pages content row))
    (some_ : ∀ e ∈ row, s.keysAt content e.2 ≠ []) (below : ∀ e ∈ row.head?, low ≤ e.1) :
    Tight (s.pages content (tightened content s low row)) := by
  induction row generalizing low with
  | nil => exact ⟨⟨by simp [tightened, Store.pages], by simp [tightened, Store.pages], .nil⟩, .nil⟩
  | cons e rest ih =>
    obtain ⟨k, last⟩ : ∃ k, (s.keysAt content e.2).getLast? = some k :=
      ⟨_, List.getLast?_eq_some_getLast (some_ e List.mem_cons_self)⟩
    have first := loose.page _ List.mem_cons_self
    have inside : k ∈ s.keysAt content e.2 := List.mem_of_getLast? last
    have rest' : Loose (s.pages content rest) :=
      (show Loose ([(e.1, s.keysAt content e.2)] ++ s.pages content rest) from loose).of_append.2
    have apart := (List.pairwise_cons.mp loose.apart).1
    have next := ih (k : WithBot K) rest'
        (fun e' mem => some_ e' (List.mem_cons_of_mem _ mem)) fun e' head => by
      have mem : e' ∈ rest := List.mem_of_mem_head? head
      exact (apart _ (List.mem_map_of_mem mem)).2 k inside
    have shape : s.pages content (tightened content s low (e :: rest)) =
        (low, s.keysAt content e.2) ::
        s.pages content (tightened content s (k : WithBot K) rest) := by
      rw [tightened, last]
      rfl
    rw [shape]
    have upto : ∀ k' ∈ s.keysAt content e.2, k' ≤ k := fun k' mem => le_getLast first.1 last mem
    have head : ∀ b ∈ (s.pages content (tightened content s (k : WithBot K) rest)).head?, b.1 =
        (k : WithBot K) := by
      cases rest with
      | nil => simp [tightened, Store.pages]
      | cons e' rest => simp [tightened, Store.pages]
    refine ⟨⟨fun e' mem => ?_, fun e' mem => ?_, ?_⟩, ?_⟩
    · rcases List.mem_cons.mp mem with rfl | mem
      · exact first.1
      · exact next.increasing e' mem
    · rcases List.mem_cons.mp mem with rfl | mem
      · exact fun k' mem' => lt_of_le_of_lt (below e rfl) (first.2 k' mem')
      · exact next.above e' mem
    · exact List.isChain_cons.mpr
        ⟨fun b hb k' mem' => by rw [head b hb]; exact WithBot.coe_le_coe.mpr (upto k' mem'),
        next.upto⟩
    · exact List.isChain_cons.mpr ⟨fun b hb => ⟨k, last, head b hb⟩, next.last⟩

-- What the walks need of a tree whose separators may be stale.
theorem Intact.sound (lawful : T.Lawful mem slots.leaf Valid) (discipline : Discipline tight Q)
    (intact : Intact T slots mem Valid Q t) :
    Sound (T.keys mem) (LeafSound T slots Valid) t.store
      (tightened (T.keys mem) t.store ⊥ t.leaves) := by
  have strung := intact.strung
  refine ⟨?_, ?_, ?_, ?_,
    tightened_tight ⊥ _ (discipline.loose intact.pages) (fun e inside => ?_) fun _ _ => bot_le⟩
  · rw [cells_tightened]
    exact strung.live
  · rw [cells_tightened]
    exact strung.distinct
  · rw [cells_tightened]
    exact strung.old
  · rw [cells_tightened]
    exact strung.linked
  · obtain ⟨leaf, live, sound⟩ := strung.live e.2 (List.mem_map_of_mem inside)
    rw [keysAt_of_leaf live]
    exact (counted_leaves lawful).nonempty sound

-- ++ a number of times.
def Iterator.after (s : Store N) (it : Iterator) : Nat → Option Iterator
  | 0 => some it
  | n + 1 => (it.after s n).bind (Iterator.next s)

-- Walking on, key by key, and then staying behind the last entry of the last leaf.
theorem Sound.after (sound : Sound content ok s row) (counted : Counted content ok)
    (stands : Stands content s row it front back) (n : Nat) :
    ∃ it', it.after s n = some it' ∧
    (n < back.length → ∃ front', Stands content s row it' front' (back.drop n)) ∧
      (back.length ≤ n → ∃ a leaf, (cells row).getLast? = some a ∧ s.leaf a = some leaf ∧
        it' = ⟨some a, leaf.slotuse⟩) := by
  induction n with
  | zero =>
    have more : 0 < back.length := List.length_pos_iff.mpr stands.nonempty
    exact ⟨it, rfl, fun _ => ⟨front, stands⟩, fun le => by omega⟩
  | succ n ih =>
    obtain ⟨it', after, inside, behind⟩ := ih
    have step : it.after s (n + 1) = Iterator.next s it' := by
      rw [Iterator.after, after, Option.bind_some]
    rw [step]
    rcases Nat.lt_or_ge n back.length with lt | le
    · obtain ⟨front', here⟩ := inside lt
      obtain ⟨before, later, sep, a, leaf, i, rfl, eq, live, lt', rest⟩ := here.entry
      rw [List.drop_eq_getElem_cons lt, List.drop_eq_getElem_cons lt', List.cons_append] at rest
      obtain ⟨it'', next, stands' | ⟨last, whole, rfl⟩⟩ :=
        sound.advance Leaf.slotuse counted eq live lt'
      · have same := (List.cons.inj rest).2
        rw [← same] at stands'
        refine ⟨it'', next, fun _ => ⟨_, stands'⟩, fun le => absurd stands'.nonempty ?_⟩
        rw [List.drop_eq_nil_of_le le]
        exact fun ne => ne rfl
      · have none : back.drop (n + 1) = [] := by
          rw [(List.cons.inj rest).2, whole, List.drop_length, last]
          rfl
        refine ⟨_, next, fun more => absurd none ?_, fun _ => ⟨a, leaf, ?_, live, rfl⟩⟩
        · rw [List.drop_eq_nil_iff]
          omega
        · rw [eq, last]
          simp [cells]
    · obtain ⟨a, leaf, last, live, rfl⟩ := behind le
      refine ⟨⟨some a, leaf.slotuse⟩, ?_, fun lt => by omega, fun _ => ⟨a, leaf, last, live, rfl⟩⟩
      obtain ⟨before, sep, eq⟩ : ∃ before sep, row = before ++ [(sep, a)] := by
        obtain ⟨⟨sep, a'⟩, last', same⟩ :=
          Option.map_eq_some_iff.mp ((List.getLast?_map (f := Prod.snd) (l := row)).symm.trans last)
        obtain rfl : a' = a := same
        have ne : row ≠ [] := fun none => by simp [none] at last'
        rw [List.getLast?_eq_some_getLast ne, Option.some.injEq] at last'
        exact ⟨row.dropLast, sep, by rw [← last', List.dropLast_append_getLast]⟩
      rw [eq] at sound
      obtain ⟨leaf', live', valid, _, next⟩ := sound.leaf_at
      rw [live] at live'
      cases live'
      unfold Iterator.next Iterator.advance
      rw [Option.bind_some, live, Option.map_some]
      dsimp only
      rw [if_neg (by omega), next]
      rfl

/-- The walk from the i-th key on: each key in turn, then the place behind the last one. -/
structure WalksFrom (content : N → List K) (s : Store N) (keys : List K) (i : Nat)
    (it : Iterator) : Prop where
  reads : ∀ n, i + n < keys.length →
    ∃ it', it.after s n = some it' ∧ s.keyOf content it' = keys[i + n]?
  past : ∀ n, keys.length ≤ i + n → ∃ a leaf, s.tailleaf = some a ∧ s.leaf a = some leaf ∧
    it.after s n = some ⟨some a, leaf.slotuse⟩

-- An iterator with a key stands at an entry of a leaf of the tree.
omit [LinearOrder K] in
theorem Intact.stands (intact : Intact T slots mem Valid Q t)
    (key : t.store.keyOf (T.keys mem) it = some x) :
    ∃ front back, Stands (T.keys mem) t.store
      (tightened (T.keys mem) t.store ⊥ t.leaves) it front (x :: back) := by
  obtain ⟨currnode, slot⟩ := it
  cases currnode with
  | none => cases key
  | some a =>
    rw [Store.keyOf, Option.bind_some] at key
    obtain ⟨leaf, live, here⟩ := Option.bind_eq_some_iff.mp key
    obtain ⟨lt, at_⟩ := List.getElem?_eq_some_iff.mp here
    have inside : a ∈ cells (tightened (T.keys mem) t.store ⊥ t.leaves) := by
      rw [cells_tightened]
      exact intact.strung.only a (by simp [live])
    obtain ⟨⟨sep, a'⟩, mem', same⟩ := List.mem_map.mp inside
    obtain rfl : a' = a := same
    obtain ⟨before, after, eq⟩ := List.append_of_mem mem'
    have stands : Stands (T.keys mem) t.store _ ⟨some a', slot⟩ _ _ := .inside eq live lt
    rw [List.drop_eq_getElem_cons lt, at_, List.cons_append] at stands
    exact ⟨_, _, stands⟩

theorem Intact.walksFrom (lawful : T.Lawful mem slots.leaf Valid) (discipline : Discipline tight Q)
    (intact : Intact T slots mem Valid Q t) (key : t.store.keyOf (T.keys mem) it = some x) :
    WalksFrom (T.keys mem) t.store (t.content T mem) ((t.content T mem).idxOf x) it := by
  have sound := intact.sound lawful discipline
  have counted := counted_leaves lawful
  have tail := intact.strung.tail
  have content : t.content T mem =
      allKeys (t.store.pages (T.keys mem) (tightened (T.keys mem) t.store ⊥ t.leaves)) :=
    (allKeys_tightened ⊥ t.leaves).symm
  have sorted := intact.sorted discipline
  obtain ⟨front, back, stands⟩ := intact.stands key
  rw [← cells_tightened (T.keys mem) t.store ⊥ t.leaves] at tail
  rw [content, stands.split] at sorted ⊢
  have below := (List.pairwise_append.mp sorted).2.2
  have index : (front ++ x :: back).idxOf x = front.length := by
    have absent : x ∉ front := fun inside => lt_irrefl x (below x inside x List.mem_cons_self)
    rw [List.idxOf_append_of_notMem absent, List.idxOf_cons_self, Nat.add_zero]
  rw [index]
  constructor
  · intro n lt
    rw [List.length_append] at lt
    obtain ⟨it', after, inside, _⟩ := sound.after counted stands n
    obtain ⟨front', here⟩ := inside (by omega)
    refine ⟨it', after, ?_⟩
    rw [here.keyOf, List.head?_drop, List.getElem?_append_right (Nat.le_add_right _ _),
      Nat.add_sub_cancel_left]
  · intro n le
    rw [List.length_append] at le
    obtain ⟨it', after, _, behind⟩ := sound.after counted stands n
    obtain ⟨a, leaf, last, live, rfl⟩ := behind (by omega)
    exact ⟨a, leaf, tail.trans last, live, after⟩

-- The walk is at end() from the last key on, if end() is where ++ stays.
theorem Intact.meets_end {T : EraseType K N} {endSlot : Leaf N → Nat}
    (lawful : T.toNodeType.Lawful mem slots.leaf Valid) (discipline : Discipline tight Q)
    (behind : EndsBehind (LeafSound T.toNodeType slots Valid) endSlot)
    (intact : Intact T.toNodeType slots mem Valid Q t)
    (key : t.store.keyOf (T.keys mem) it = some x) (n : Nat) :
    it.after t.store n = t.store.endAt endSlot ↔
      (t.content T.toNodeType mem).length ≤ (t.content T.toNodeType mem).idxOf x + n ∧
      ∀ a leaf, t.store.tailleaf = some a → t.store.leaf a = some leaf →
      endSlot leaf = leaf.slotuse := by
  have walks := intact.walksFrom lawful discipline key
  have sound := intact.sound lawful discipline
  have counted := counted_leaves lawful
  rcases Nat.lt_or_ge ((t.content T.toNodeType mem).idxOf x + n) (t.content T.toNodeType mem).length
    with lt | le
  · obtain ⟨it', after, key'⟩ := walks.reads n lt
    rw [List.getElem?_eq_getElem lt] at key'
    obtain ⟨front, back, stands⟩ := intact.stands key'
    rw [after]
    refine ⟨fun same => ?_, fun right => absurd right.1 (by omega)⟩
    exact absurd same.symm (stands.not_end sound counted behind)
  · obtain ⟨a, leaf, last, live, after⟩ := walks.past n le
    have end_ : t.store.endAt endSlot = some ⟨some a, endSlot leaf⟩ := by
      rw [Store.endAt, last]
      dsimp only
      rw [live, Option.map_some]
    rw [after, end_]
    constructor
    · intro same
      refine ⟨le, fun b leaf' last' live' => ?_⟩
      rw [last, Option.some.injEq] at last'
      subst last'
      rw [live] at live'
      cases live'
      simpa using same.symm
    · rintro ⟨_, same⟩
      rw [same a leaf last live]

end ElasticIndex.Tree
