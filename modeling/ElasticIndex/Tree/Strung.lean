import ElasticIndex.Tree.Erase
import ElasticIndex.Shared.Pages

set_option autoImplicit false

namespace LinkedRow

variable {P : Type} {links links' : P → Option (Option P × Option P)} {prev next : Option P}
  {front back : List P} {a b : P}

-- The cell behind a goes.
theorem Linked.remove_after (linked : Linked links prev (front ++ a :: b :: back) next)
    (distinct : (front ++ a :: b :: back).Nodup)
    (here : links' a = some (front.getLast?.or prev, back.head?.or next))
    (behind : ∀ h, back.head? = some h → ∀ p q, links h = some (p, q) → links' h = some (some a, q))
    (others : ∀ x ∈ front ++ back, back.head? ≠ some x → links' x = links x) :
    Linked links' prev (front ++ a :: back) next := by
  obtain ⟨first, second⟩ := linked_append.mp linked
  have apart := List.nodup_append.mp distinct
  refine linked_append.mpr ⟨first.congr fun x mem => ?_, here, ?_⟩
  · refine others x (List.mem_append_left _ mem) fun head => ?_
    exact apart.2.2 x mem x
      (List.mem_cons_of_mem _ (List.mem_cons_of_mem _ (List.mem_of_head? head))) rfl
  · cases back with
    | nil => trivial
    | cons h back =>
      have tail := List.nodup_cons.mp (List.nodup_cons.mp (List.nodup_cons.mp apart.2.1).2).2
      refine ⟨behind h rfl _ _ second.2.2.1, second.2.2.2.congr fun x mem => ?_⟩
      refine others x (List.mem_append_right _ (List.mem_cons_of_mem _ mem)) fun head => ?_
      simp only [List.head?_cons, Option.some.injEq] at head
      exact tail.1 (head ▸ mem)

end LinkedRow

namespace ElasticIndex.Tree

open Separators LinkedRow Loop

variable {K N : Type} [LinearOrder K] {content : N → List K} {ok : Nat → N → Prop} {s s' : Store N}
  {l before after : List Ptr} {a b : Ptr} {leaf leaf' : Leaf N} {small large : N}

/-- The leaves of a tree: live, distinct, linked from m_headleaf to m_tailleaf, and the only ones
there are. -/
structure Strung (ok : Nat → N → Prop) (s : Store N) (l : List Ptr) : Prop where
  live : ∀ a ∈ l, ∃ leaf, s.leaf a = some leaf ∧ ok leaf.slotuse leaf.node
  only : ∀ a, s.leaf a ≠ none → a ∈ l
  distinct : l.Nodup
  old : ∀ a ∈ l, a < s.fresh
  linked : Linked s.links none l none
  head : s.headleaf = l.head?
  tail : s.tailleaf = l.getLast?

theorem strung_empty : Strung ok (.empty : Store N) [] :=
  ⟨fun _ inside => absurd inside List.not_mem_nil, fun _ some_ => absurd rfl some_, .nil,
    fun _ inside => absurd inside List.not_mem_nil,
    trivial, rfl, rfl⟩

theorem Strung.leaf_at (strung : Strung ok s (before ++ a :: after)) :
    ∃ leaf, s.leaf a = some leaf ∧ ok leaf.slotuse leaf.node ∧
    leaf.prevleaf = before.getLast? ∧ leaf.nextleaf = after.head? := by
  obtain ⟨leaf, live, valid⟩ := strung.live a (by simp)
  have middle := strung.linked.middle
  rw [Store.links, live, Option.map_some] at middle
  simp only [Option.some.injEq, Prod.mk.injEq, Option.or_none] at middle
  exact ⟨leaf, live, valid, middle.1, middle.2⟩

theorem Strung.apart (strung : Strung ok s (before ++ a :: after)) : a ∉ before ∧ a ∉ after := by
  have parts := List.nodup_append.mp strung.distinct
  exact ⟨fun mem => parts.2.2 a mem a List.mem_cons_self rfl, (List.nodup_cons.mp parts.2.1).1⟩

theorem Strung.alive (strung : Strung ok s l) (mem : a ∈ l) : s.leaf a ≠ none := by
  obtain ⟨leaf, live, _⟩ := strung.live a mem
  simp [live]

-- A leaf is written where it stands.
theorem Strung.write (strung : Strung ok s (before ++ a :: after)) (live : s.leaf a = some leaf)
    (prev : leaf'.prevleaf = leaf.prevleaf) (next : leaf'.nextleaf = leaf.nextleaf)
    (valid : ok leaf'.slotuse leaf'.node) :
    Strung ok (s.put a leaf') (before ++ a :: after) := by
  refine ⟨fun x mem => ?_, fun x some_ => ?_, strung.distinct, strung.old,
    strung.linked.congr fun x _ => ?_, strung.head, strung.tail⟩
  · by_cases same : x = a
    · subst same
      exact ⟨leaf', put_self, valid⟩
    · rw [put_other same]
      exact strung.live x mem
  · by_cases same : x = a
    · simp [same]
    · rw [put_other same] at some_
      exact strung.only x some_
  · by_cases same : x = a
    · subst same
      rw [links_put_self, Store.links, live, prev, next]
      rfl
    · exact links_put_other same

theorem Strung.next_live (strung : Strung ok s (before ++ a :: after))
    (live : s.leaf a = some leaf) {h : Ptr} (behind : leaf.nextleaf = some h) :
    h ∈ after ∧ h ≠ a ∧ h < s.fresh ∧
      ∃ right, s.leaf h = some right ∧ ok right.slotuse right.node := by
  obtain ⟨leaf', live', _, _, next⟩ := strung.leaf_at
  rw [live] at live'
  cases live'
  rw [next] at behind
  have mem := List.mem_of_head? behind
  have inside : h ∈ before ++ a :: after := by simp [mem]
  exact ⟨mem, fun same => strung.apart.2 (same ▸ mem), strung.old h inside, strung.live h inside⟩

theorem Strung.divide (strung : Strung ok s (before ++ a :: after)) (live : s.leaf a = some leaf)
    (divided : Divided s a leaf small large s') (okSmall : ok (leaf.slotuse / 2) small)
    (okLarge : ok (leaf.slotuse - leaf.slotuse / 2) large) :
    Strung ok s' (before ++ a :: s.fresh :: after) := by
  obtain ⟨leaf', live', _, prev, next⟩ := strung.leaf_at
  rw [live] at live'
  cases live'
  have older (x : Ptr) (mem : x ∈ before ++ a :: after) : x ≠ s.fresh := (strung.old x mem).ne
  have cases_ (x : Ptr) (ne : x ≠ a) (new : x ≠ s.fresh) :
      leaf.nextleaf = some x ∧
      (∃ right : Leaf N, s.leaf x = some right ∧ s'.leaf x =
      some { right with prevleaf := some s.fresh }) ∨
        leaf.nextleaf ≠ some x ∧ s'.leaf x = s.leaf x := by
    by_cases behind : leaf.nextleaf = some x
    · obtain ⟨_, _, _, right, live', _⟩ := strung.next_live live behind
      exact .inl ⟨behind, right, live', divided.next x right behind live'⟩
    · exact .inr ⟨behind, divided.others x ne new behind⟩
  have moved : (before ++ a :: s.fresh :: after).Perm (s.fresh :: (before ++ a :: after)) := by
    rw [List.append_cons, List.append_cons before a after]
    exact List.perm_middle
  have inside (x : Ptr) : x ∈ before ++ a :: s.fresh :: after ↔ x = s.fresh ∨
      x ∈ before ++ a :: after :=
    moved.mem_iff.trans List.mem_cons
  refine ⟨fun x mem => ?_, fun x some_ => ?_,
    moved.nodup_iff.mpr (List.nodup_cons.mpr ⟨fun mem => older _ mem rfl, strung.distinct⟩),
    fun x mem => ?_, strung.linked.insert_after strung.distinct ?_ ?_ (fun h head p q link => ?_)
    (fun x mem ne head => ?_), ?_, ?_⟩
  · by_cases here : x = a
    · subst here
      exact ⟨_, divided.left, okSmall⟩
    · by_cases new : x = s.fresh
      · subst new
        exact ⟨_, divided.right, okLarge⟩
      · obtain ⟨right, live', valid⟩ := strung.live x (((inside x).mp mem).resolve_left new)
        rcases cases_ x here new with ⟨_, right', before_, after_⟩ | ⟨_, same⟩
        · rw [live'] at before_
          cases before_
          exact ⟨_, after_, valid⟩
        · exact ⟨right, same.trans live', valid⟩
  · by_cases here : x = a
    · simp [here]
    · by_cases new : x = s.fresh
      · simp [new]
      · refine (inside x).mpr (.inr (strung.only x fun none => some_ ?_))
        rcases cases_ x here new with ⟨_, right', before_, _⟩ | ⟨_, same⟩
        · rw [none] at before_
          cases before_
        · exact same.trans none
  · rw [divided.fresh]
    rcases (inside x).mp mem with rfl | mem
    · exact Nat.lt_succ_self _
    · exact Nat.lt_succ_of_lt (strung.old x mem)
  · rw [Store.links, divided.left]
    simp [prev]
  · rw [Store.links, divided.right]
    simp [next]
  · rw [← next] at head
    obtain ⟨_, _, _, right, live', _⟩ := strung.next_live live head
    rw [Store.links, live'] at link
    rw [Store.links, divided.next h right head live']
    simp only [Option.map_some, Option.some.injEq, Prod.mk.injEq] at link ⊢
    exact ⟨trivial, link.2⟩
  · rw [Store.links, Store.links, divided.others x ne (older x mem) (by rwa [next])]
  · rw [divided.head, strung.head]
    cases before <;> rfl
  · rw [divided.tail, next, strung.tail]
    cases after with
    | nil => simp
    | cons e after =>
      rw [List.getLast?_append_of_ne_nil _ (List.cons_ne_nil _ _),
        List.getLast?_append_of_ne_nil _ (List.cons_ne_nil _ _)]
      simp

omit [LinearOrder K] in
theorem Strung.divided_keysAt (strung : Strung ok s (before ++ a :: after))
    (live : s.leaf a = some leaf) (divided : Divided s a leaf small large s') {x : Ptr}
    (mem : x ∈ before ++ a :: after) (ne : x ≠ a) :
    s'.keysAt content x = s.keysAt content x := by
  by_cases behind : leaf.nextleaf = some x
  · obtain ⟨_, _, _, right, live', _⟩ := strung.next_live live behind
    rw [keysAt_of_leaf live', keysAt_of_leaf (divided.next x right behind live')]
  · rw [Store.keysAt, Store.keysAt, divided.others x ne (strung.old x mem).ne behind]

-- What a leaf holds apart from its links.
def Store.body (s : Store N) (a : Ptr) : Option (Nat × N) :=
  (s.leaf a).map fun leaf => (leaf.slotuse, leaf.node)

omit [LinearOrder K] in
theorem keysAt_of_body (same : s'.body a = s.body b) : s'.keysAt content a =
    s.keysAt content b := by
  have keys := congrArg (fun body : Option (Nat × N) =>
    (body.map fun body => content body.2).getD []) same
  simp only [Store.body, Option.map_map] at keys
  exact keys

theorem body_put_other {x : Ptr} (ne : x ≠ a) : (s.put a leaf).body x = s.body x := by
  rw [Store.body, put_other ne, Store.body]

theorem Strung.relax (strung : Strung ok s l) : Strung (fun _ _ => True) s l :=
  ⟨fun a mem => (strung.live a mem).imp fun _ h => ⟨h.1, trivial⟩, strung.only, strung.distinct,
    strung.old, strung.linked,
    strung.head, strung.tail⟩

-- The leaves keep their bodies, apart from one.
theorem Strung.restore {l' : List Ptr} (strung : Strung ok s l)
    (strung' : Strung (fun _ _ => True) s' l')
    (same : ∀ y ∈ l', y = a ∨ y ∈ l ∧ s'.body y = s.body y)
    (here : ∀ leaf, s'.leaf a = some leaf → ok leaf.slotuse leaf.node) :
    Strung ok s' l' := by
  refine ⟨fun y mem => ?_, strung'.only, strung'.distinct, strung'.old, strung'.linked,
    strung'.head, strung'.tail⟩
  obtain ⟨leaf, live, _⟩ := strung'.live y mem
  refine ⟨leaf, live, ?_⟩
  rcases same y mem with rfl | ⟨old, body⟩
  · exact here leaf live
  · obtain ⟨leaf', live', valid⟩ := strung.live y old
    rw [Store.body, live, Store.body, live'] at body
    simp only [Option.map_some, Option.some.injEq, Prod.mk.injEq] at body
    rwa [body.1, body.2]

/-- What merge_leaves leaves of the store. -/
structure Merged (s : Store N) (a b : Ptr) (L R : Leaf N) (node : N) (s' : Store N) : Prop where
  fresh : s'.fresh = s.fresh
  tail : s'.tailleaf = if R.nextleaf = none then some a else s.tailleaf
  head : s'.headleaf = s.headleaf
  left : s'.leaf a = some { L with slotuse := L.slotuse + R.slotuse, nextleaf := R.nextleaf, node }
  right : s'.leaf b = some { R with slotuse := 0 }
  next : ∀ (h : Ptr) (behind : Leaf N), R.nextleaf = some h → s.leaf h = some behind →
    s'.leaf h = some { behind with prevleaf := some a }
  others : ∀ x, x ≠ a → x ≠ b → R.nextleaf ≠ some x → s'.leaf x = s.leaf x

variable {T : EraseType K N} {mem : Addr → K} {L R : Leaf N} {node : N}

omit [LinearOrder K] in
theorem mergeLeaves_merged (left : s.leaf a = some L) (right : s.leaf b = some R) (ne : a ≠ b)
    (next : ∀ h, R.nextleaf = some h → h ≠ a ∧ h ≠ b ∧ ∃ behind, s.leaf h = some behind) :
    ∃ join : N → Store N, (∀ (T : EraseType K N) mem rounds,
      mergeLeaves T mem rounds s a b = (T.mergeBlindiNodes rounds mem L.node R.node).map join) ∧
        ∀ node, Merged s a b L R node (join node) := by
  obtain ⟨joined, eq⟩ : ∃ joined : N →
      Leaf N, ∀ node, { L with slotuse := L.slotuse + R.slotuse, nextleaf := R.nextleaf, node } =
      joined node :=
    ⟨_, fun _ => rfl⟩
  unfold mergeLeaves
  simp only [left, right, Option.bind_some, eq]
  cases behind : R.nextleaf with
  | none =>
    refine ⟨fun node => Store.put { s.put a (joined node) with tailleaf := some a } b
      { R with slotuse := 0 }, fun T mem rounds => ?_,
      fun node => ⟨rfl, by simp [behind], rfl, ?_, by rw [put_self], ?_, fun x neA neB _ => ?_⟩⟩
    · rw [behind]
      cases T.mergeBlindiNodes rounds mem L.node R.node <;> rfl
    · rw [put_other ne, eq]
      exact put_self
    · intro h right' same
      rw [behind] at same
      cases same
    · rw [put_other neB]
      exact put_other neA
  | some h =>
    obtain ⟨neA, neB, leaf, live⟩ := next h behind
    refine ⟨fun node => ((s.put a (joined node)).put h { leaf with prevleaf := some a }).put b
      { R with slotuse := 0 },
      fun T mem rounds => ?_,
      fun node => ⟨rfl, by simp [behind], rfl, ?_, by rw [put_self], ?_, fun x neA' neB' neH => ?_⟩⟩
    · cases T.mergeBlindiNodes rounds mem L.node R.node with
      | none => rfl
      | some node =>
        dsimp only [Option.bind_some, Option.map_some]
        rw [put_other neA, live, behind]
        rfl
    · rw [put_other ne, put_other neA.symm, put_self, eq]
    · intro h' leaf' same here
      rw [behind] at same
      cases same
      rw [live] at here
      cases here
      rw [put_other neB, put_self]
    · have neH : x ≠ h := fun same => neH (same ▸ behind)
      rw [put_other neB', put_other neH, put_other neA']

theorem body_of_leaf (live : s.leaf a = some leaf) : s.body a = some (leaf.slotuse, leaf.node) := by
  rw [Store.body, live]; rfl

-- merge_leaves and the free_node that follows it.
omit [LinearOrder K] in
theorem Strung.merge (strung : Strung (fun _ _ => True) s (before ++ a :: b :: after))
    (left : s.leaf a = some L) (right : s.leaf b = some R) (node : N) :
    ∃ s', (∀ (T : EraseType K N) mem rounds,
      T.mergeBlindiNodes rounds mem L.node R.node = some node →
        mergeLeaves T mem rounds s a b = some s') ∧ s'.body a = some (L.slotuse + R.slotuse, node) ∧
      s'.leaf b = some { R with slotuse := 0 } ∧ (∀ x, x ≠ a → x ≠ b → s'.body x = s.body x) ∧
      Strung (fun _ _ => True) (s'.free b) (before ++ a :: after) := by
  obtain ⟨L', live, _, prev, _⟩ := strung.leaf_at
  rw [left] at live
  cases live
  have split : before ++ a :: b :: after = (before ++ [a]) ++ b :: after := List.append_cons ..
  have moved := strung
  rw [split] at moved
  obtain ⟨R', live, _, _, next⟩ := moved.leaf_at
  rw [right] at live
  cases live
  have distinct := strung.distinct
  have parts := List.nodup_append.mp distinct
  have ne : a ≠ b := fun same => (List.nodup_cons.mp parts.2.1).1 (same ▸ List.mem_cons_self)
  have behind (h : Ptr) (eq : R.nextleaf = some h) : h ∈ after ∧ h ≠ a ∧ h ≠ b ∧
      ∃ right, s.leaf h = some right := by
    obtain ⟨inside, neB, _, leaf, here, _⟩ := moved.next_live right eq
    exact ⟨inside, fun same => strung.apart.2 (same ▸ List.mem_cons_of_mem _ inside), neB, leaf,
      here⟩
  obtain ⟨join, run, all⟩ := mergeLeaves_merged (K := K) left right ne fun h eq => (behind h eq).2
  obtain ⟨s', same⟩ : ∃ s', join node = s' := ⟨_, rfl⟩
  have merged := all node
  rw [same] at merged
  have bodies (x : Ptr) (neA : x ≠ a) (neB : x ≠ b) : s'.body x = s.body x := by
    by_cases here : R.nextleaf = some x
    · obtain ⟨_, _, _, leaf, live⟩ := behind x here
      rw [body_of_leaf live, body_of_leaf (merged.next x leaf here live)]
    · rw [Store.body, merged.others x neA neB here, Store.body]
  have freed (x : Ptr) (neB : x ≠ b) : (s'.free b).leaf x = s'.leaf x :=
    Function.update_of_ne neB ..
  have sub {x : Ptr} (mem : x ∈ before ++ a :: after) : x ∈ before ++ a :: b :: after ∧ x ≠ b := by
    refine ⟨?_, ?_⟩
    · simp only [List.mem_append, List.mem_cons] at mem ⊢
      tauto
    · rintro rfl
      rw [split] at distinct
      have apart := moved.apart
      simp only [List.mem_append, List.mem_cons, List.not_mem_nil, or_false] at mem apart
      tauto
  refine ⟨s', fun T mem rounds merge => by rw [run, merge, Option.map_some, same],
    body_of_leaf merged.left, merged.right, bodies, fun x mem => ?_, fun x some_ => ?_,
    ?_, fun x mem => ?_,
    strung.linked.remove_after distinct ?_ (fun h head p q link => ?_) (fun x mem head => ?_), ?_,
    ?_⟩
  · obtain ⟨inside, neB⟩ := sub mem
    by_cases here : x = a
    · subst here
      exact ⟨_, (freed x neB).trans merged.left, trivial⟩
    · have some_ := strung.alive inside
      have body := bodies x here neB
      rw [freed x neB]
      cases live : s'.leaf x with
      | none =>
        rw [Store.body, live] at body
        exact absurd (Option.map_eq_none_iff.mp body.symm) some_
      | some leaf => exact ⟨leaf, rfl, trivial⟩
  · by_cases neB : x = b
    · subst neB
      exact absurd (Function.update_self ..) some_
    · by_cases here : x = a
      · simp [here]
      · rw [freed x neB] at some_
        have inside := strung.only x fun none => some_ <| by
          have body := bodies x here neB
          rw [Store.body, Store.body, none] at body
          exact Option.map_eq_none_iff.mp body
        simp only [List.mem_append, List.mem_cons] at inside ⊢
        tauto
  · refine distinct.sublist ?_
    exact (List.Sublist.refl before).append ((List.sublist_cons_self b after).cons_cons a)
  · exact (strung.old x (sub mem).1).trans_eq merged.fresh.symm
  · rw [Store.links, freed a ne, merged.left]
    simp [prev, next]
  · obtain ⟨inside, neA, neB, leaf, live⟩ := behind h (next.trans head)
    rw [Store.links, live] at link
    rw [Store.links, freed h neB, merged.next h leaf (next.trans head) live]
    simp only [Option.map_some, Option.some.injEq, Prod.mk.injEq] at link ⊢
    exact ⟨trivial, link.2⟩
  · have mem' : x ∈ before ++ a :: after := by
      simp only [List.mem_append, List.mem_cons] at mem ⊢
      tauto
    have neA : x ≠ a := by
      rintro rfl
      have apart := strung.apart
      simp only [List.mem_append, List.mem_cons] at mem apart
      tauto
    rw [Store.links, freed x (sub mem').2,
      merged.others x neA (sub mem').2 (by rwa [next]), Store.links]
  · refine merged.head.trans (strung.head.trans ?_)
    cases before <;> rfl
  · refine merged.tail.trans ?_
    rw [next, strung.tail]
    cases after with
    | nil => simp
    | cons h after =>
      rw [List.getLast?_append_of_ne_nil _ (List.cons_ne_nil _ _),
        List.getLast?_append_of_ne_nil _ (List.cons_ne_nil _ _)]
      simp

end ElasticIndex.Tree
