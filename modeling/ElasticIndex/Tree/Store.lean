import ElasticIndex.Shared.LinkedRow
import ElasticIndex.Tree.Inner

set_option autoImplicit false

namespace ElasticIndex.Tree

open Separators LinkedRow

abbrev Ptr := Nat

structure Leaf (N : Type) where
  slotuse : Nat
  prevleaf : Option Ptr
  nextleaf : Option Ptr
  node : N

/-- The live leaves by address. An address that has been given out is never given out again, so that
a pointer to a freed leaf stays one. -/
structure Store (N : Type) where
  leaf : Ptr → Option (Leaf N)
  fresh : Ptr
  headleaf : Option Ptr
  tailleaf : Option Ptr

structure Iterator where
  currnode : Option Ptr
  currslot : Nat
  deriving DecidableEq, Repr

variable {K N : Type} [LinearOrder K]

namespace Store

def empty : Store N := { leaf := fun _ => none, fresh := 1, headleaf := none, tailleaf := none }

def put (s : Store N) (a : Ptr) (leaf : Leaf N) : Store N :=
  { s with leaf := Function.update s.leaf a (some leaf) }

def free (s : Store N) (a : Ptr) : Store N := { s with leaf := Function.update s.leaf a none }

-- allocate_leaf: the constructor clears the links, the node is new.
def allocateLeaf (s : Store N) (node : N) : Ptr × Store N :=
  (s.fresh, { s with
    leaf := Function.update s.leaf s.fresh
      (some { slotuse := 0, prevleaf := none, nextleaf := none, node })
    fresh := s.fresh + 1 })

def links (s : Store N) (a : Ptr) : Option (Option Ptr × Option Ptr) :=
  (s.leaf a).map fun leaf => (leaf.prevleaf, leaf.nextleaf)

def keysAt (content : N → List K) (s : Store N) (a : Ptr) : List K :=
  ((s.leaf a).map fun leaf => content leaf.node).getD []

def pages (content : N → List K) (s : Store N) (row : Row K Ptr) : Row K (List K) :=
  row.map fun e => (e.1, s.keysAt content e.2)

-- key() of an iterator; past the last entry of a leaf there is none.
def keyOf (content : N → List K) (s : Store N) (it : Iterator) : Option K :=
  it.currnode.bind fun a => (s.leaf a).bind fun leaf => (content leaf.node)[it.currslot]?

-- end(), with its slot in the last leaf.
def endAt (endSlot : Leaf N → Nat) (s : Store N) : Option Iterator :=
  match s.tailleaf with
  | none => some ⟨none, 0⟩
  | some a => (s.leaf a).map fun leaf => ⟨some a, endSlot leaf⟩

-- end() of the hybrid tree
def end_ (s : Store N) : Option Iterator := s.endAt Leaf.slotuse

end Store

-- ++, which leaves the last entry for the slot endSlot of the last leaf.
def Iterator.advance (endSlot : Leaf N → Nat) (s : Store N) (it : Iterator) : Option Iterator :=
  it.currnode.bind fun a => (s.leaf a).map fun leaf =>
    if it.currslot + 1 < leaf.slotuse then ⟨some a, it.currslot + 1⟩
    else match leaf.nextleaf with
      | some b => ⟨some b, 0⟩
      | none => ⟨some a, endSlot leaf⟩

def cells (row : Row K Ptr) : List Ptr := row.map Prod.snd

variable {content : N → List K} {ok : Nat → N → Prop} {s : Store N}
  {row before after : Row K Ptr} {sep : WithBot K} {a b x : Ptr} {leaf leaf' : Leaf N}

@[simp] theorem put_self : (s.put a leaf).leaf a = some leaf := by simp [Store.put]

theorem put_other (ne : x ≠ a) : (s.put a leaf).leaf x = s.leaf x := by simp [Store.put, ne]

@[simp] theorem put_fresh : (s.put a leaf).fresh = s.fresh := rfl

@[simp] theorem put_tailleaf : (s.put a leaf).tailleaf = s.tailleaf := rfl

@[simp] theorem links_put_self : (s.put a leaf).links a = some (leaf.prevleaf, leaf.nextleaf) := by
  simp [Store.links]

theorem links_put_other (ne : x ≠ a) : (s.put a leaf).links x = s.links x := by
  simp [Store.links, put_other ne]

omit [LinearOrder K] in
theorem keysAt_of_leaf (live : s.leaf a = some leaf) : s.keysAt content a = content leaf.node := by
  simp [Store.keysAt, live]

omit [LinearOrder K] in
theorem pages_congr {s' : Store N} (same : ∀ x ∈ cells row, s'.leaf x = s.leaf x) :
    s'.pages content row = s.pages content row := by
  refine List.map_congr_left fun e mem => ?_
  rw [Store.keysAt, Store.keysAt, same e.2 (List.mem_map_of_mem mem)]

omit [LinearOrder K] in
@[simp] theorem cells_append : cells (before ++ after) =
    cells before ++ cells after := List.map_append

omit [LinearOrder K] in
@[simp] theorem cells_cons : cells ((sep, a) :: after) = a :: cells after := rfl

omit [LinearOrder K] in
@[simp] theorem pages_append : s.pages content (before ++ after) =
    s.pages content before ++ s.pages content after :=
  List.map_append

omit [LinearOrder K] in
@[simp] theorem pages_cons : s.pages content ((sep, a) :: after) =
    (sep, s.keysAt content a) :: s.pages content after :=
  rfl

omit [LinearOrder K] in
@[simp] theorem pages_nil : s.pages content [] = [] := rfl

/-- The leaves of a row are live, distinct and linked in its order, and their keys lie between its
separators. -/
structure Sound (content : N → List K) (ok : Nat → N → Prop) (s : Store N)
    (row : Row K Ptr) : Prop where
  live : ∀ a ∈ cells row, ∃ leaf, s.leaf a = some leaf ∧ ok leaf.slotuse leaf.node
  distinct : (cells row).Nodup
  old : ∀ a ∈ cells row, a < s.fresh
  linked : Linked s.links none (cells row) none
  tight : Tight (s.pages content row)

theorem Sound.ascending (sound : Sound content ok s row) : Ascending row := by
  have pages := sound.tight.ascending
  rw [Ascending, Store.pages, List.pairwise_map] at pages
  exact pages

theorem Sound.leaf_at (sound : Sound content ok s (before ++ (sep, a) :: after)) :
    ∃ leaf, s.leaf a = some leaf ∧
    ok leaf.slotuse leaf.node ∧
    leaf.prevleaf = (cells before).getLast? ∧ leaf.nextleaf = (cells after).head? := by
  obtain ⟨leaf, live, valid⟩ := sound.live a (by simp)
  have linked := sound.linked
  rw [cells_append, cells_cons] at linked
  have middle := linked.middle
  rw [Store.links, live, Option.map_some] at middle
  simp only [Option.some.injEq, Prod.mk.injEq, Option.or_none] at middle
  exact ⟨leaf, live, valid, middle.1, middle.2⟩

theorem Sound.apart (sound : Sound content ok s (before ++ (sep, a) :: after)) :
    (∀ x ∈ cells before, x ≠ a) ∧
    (∀ x ∈ cells after, x ≠ a) := by
  have distinct := sound.distinct
  rw [cells_append, cells_cons] at distinct
  have parts := List.nodup_append.mp distinct
  refine ⟨fun x mem => parts.2.2 x mem a List.mem_cons_self, ?_⟩
  rintro x mem rfl
  exact (List.nodup_cons.mp parts.2.1).1 mem

-- A leaf is written where it stands.
theorem Sound.write (sound : Sound content ok s (before ++ (sep, a) :: after))
    (live : s.leaf a = some leaf) (prev : leaf'.prevleaf = leaf.prevleaf)
    (next : leaf'.nextleaf = leaf.nextleaf) (valid : ok leaf'.slotuse leaf'.node)
    (tight : Tight (s.pages content before ++ (sep, content leaf'.node) :: s.pages content after)) :
    Sound content ok (s.put a leaf') (before ++ (sep, a) :: after) := by
  obtain ⟨left, right⟩ := sound.apart
  refine ⟨fun x mem => ?_, sound.distinct, sound.old, sound.linked.congr fun x _ => ?_, ?_⟩
  · by_cases same : x = a
    · subst same
      exact ⟨leaf', put_self, valid⟩
    · rw [put_other same]
      exact sound.live x mem
  · by_cases same : x = a
    · subst same
      rw [links_put_self, Store.links, live, prev, next]
      rfl
    · exact links_put_other same
  · rw [pages_append, pages_cons, pages_congr fun x mem => put_other (left x mem),
      pages_congr fun x mem => put_other (right x mem), keysAt_of_leaf put_self]
    exact tight

-- The split of a leaf, the same for every kind of node: split gives the two halves of a node and
-- maxKey the last key of one. The results are *_newkey and *_newleaf.
def splitLeafNode (blank : N) (split : N → Option (N × N)) (maxKey : N → K) (s : Store N)
    (a : Ptr) (leaf : Leaf N) :
    Option (Store N × K × Ptr) :=
  let mid := leaf.slotuse / 2
  let (newleaf, s) := s.allocateLeaf blank
  (match leaf.nextleaf with
    | none => some { s with tailleaf := some newleaf }
    | some next =>
        (s.leaf next).map fun (right : Leaf N) =>
          s.put next { right with prevleaf := some newleaf }).bind fun s =>
  (split leaf.node).map fun (small, large) =>
    let s := s.put a { leaf with slotuse := mid, nextleaf := some newleaf, node := small }
    let s := s.put newleaf { slotuse := leaf.slotuse - mid, prevleaf := some a,
                             nextleaf := leaf.nextleaf, node := large }
    (s, maxKey small, newleaf)

/-- What a split leaves of the store: two new leaves, a new link back, and everything else as it
was. -/
structure Divided (s : Store N) (a : Ptr) (leaf : Leaf N) (small large : N)
    (s' : Store N) : Prop where
  fresh : s'.fresh = s.fresh + 1
  tail : s'.tailleaf = if leaf.nextleaf = none then some s.fresh else s.tailleaf
  head : s'.headleaf = s.headleaf
  left : s'.leaf a = some { leaf with slotuse := leaf.slotuse / 2,
                                      nextleaf := some s.fresh, node := small }
  right : s'.leaf s.fresh =
    some { slotuse := leaf.slotuse - leaf.slotuse / 2, prevleaf := some a,
           nextleaf := leaf.nextleaf, node := large }
  next : ∀ (b : Ptr) (right : Leaf N), leaf.nextleaf = some b → s.leaf b = some right →
    s'.leaf b = some { right with prevleaf := some s.fresh }
  others : ∀ x, x ≠ a → x ≠ s.fresh → leaf.nextleaf ≠ some x → s'.leaf x = s.leaf x

omit [LinearOrder K] in
theorem splitLeafNode_congr {blank : N} {split : N → Option (N × N)} {maxKey : N → K}
    (split' : N → Option (N × N)) (same : split leaf.node = split' leaf.node) :
    splitLeafNode blank split maxKey s a leaf = splitLeafNode blank split' maxKey s a leaf := by
  unfold splitLeafNode
  rw [same]

omit [LinearOrder K] in
theorem splitLeafNode_divided {small large : N} {split : N → Option (N × N)}
    (blank : N) (maxKey : N → K) (halves : split leaf.node = some (small, large))
    (old : a < s.fresh) (apart : leaf.nextleaf ≠ some a)
    (next : ∀ b, leaf.nextleaf = some b → b < s.fresh ∧ ∃ right, s.leaf b = some right) :
    ∃ s', splitLeafNode blank split maxKey s a leaf = some (s', maxKey small, s.fresh) ∧
    Divided s a leaf small large s' := by
  unfold splitLeafNode Store.allocateLeaf
  cases behind : leaf.nextleaf with
  | none =>
    simp only [halves, Option.map_some, Option.bind_some]
    refine ⟨_, rfl, rfl, by simp [behind], rfl, ?_, by rw [put_self, behind], ?_,
      fun x neA neNew _ => ?_⟩
    · rw [put_other old.ne, put_self]
    · intro b right eq
      rw [behind] at eq
      cases eq
    · rw [put_other neNew, put_other neA]
      simp [neNew]
  | some b =>
    obtain ⟨older, right, live⟩ := next b behind
    have ne : b ≠ a := fun same => apart (same ▸ behind)
    have live' : Function.update s.leaf s.fresh
      (some { slotuse := 0, prevleaf := none, nextleaf := none, node := blank }) b =
        some right := by rwa [Function.update_of_ne older.ne]
    simp only [live', halves, Option.map_some, Option.bind_some]
    refine ⟨_, rfl, rfl, by simp [behind], rfl, ?_, by rw [put_self, behind], ?_,
      fun x neA neNew neB => ?_⟩
    · rw [put_other old.ne, put_self]
    · rintro b' right' eq here
      rw [behind] at eq
      cases eq
      rw [live] at here
      cases here
      rw [put_other older.ne, put_other ne, put_self]
    · have neB : x ≠ b := fun same => neB (same ▸ behind)
      rw [put_other neNew, put_other neA, put_other neB]
      simp [neNew]

section Divide

variable {small large : N} {s' : Store N} {k : K}

theorem Sound.next_live (sound : Sound content ok s (before ++ (sep, a) :: after))
    (live : s.leaf a = some leaf) {h : Ptr} (head : leaf.nextleaf = some h) :
    h ∈ cells after ∧ h ≠ a ∧ h < s.fresh ∧
      ∃ right, s.leaf h = some right ∧ ok right.slotuse right.node := by
  obtain ⟨leaf', live', _, _, next⟩ := sound.leaf_at
  rw [live] at live'
  cases live'
  rw [next] at head
  have mem := List.mem_of_head? head
  have inside : h ∈ cells (before ++ (sep, a) :: after) := by simp [mem]
  exact ⟨mem, sound.apart.2 h mem, sound.old h inside, sound.live h inside⟩

-- The keys of a leaf do not depend on its links.
theorem Sound.divided_keysAt (sound : Sound content ok s (before ++ (sep, a) :: after))
    (live : s.leaf a = some leaf) (divided : Divided s a leaf small large s')
    (mem : x ∈ cells (before ++ (sep, a) :: after)) (ne : x ≠ a) :
    s'.keysAt content x = s.keysAt content x := by
  by_cases head : leaf.nextleaf = some x
  · obtain ⟨_, _, _, right, live', _⟩ := sound.next_live live head
    rw [keysAt_of_leaf live', keysAt_of_leaf (divided.next x right head live')]
  · rw [Store.keysAt, Store.keysAt, divided.others x ne (sound.old x mem).ne head]

theorem Sound.divided_pages (sound : Sound content ok s (before ++ (sep, a) :: after))
    (live : s.leaf a = some leaf) (divided : Divided s a leaf small large s') (k : K) :
    s'.pages content (before ++ (sep, a) :: (↑k, s.fresh) :: after) =
      s.pages content before ++ (sep, content small) :: (↑k, content large) ::
        s.pages content after := by
  obtain ⟨left, right⟩ := sound.apart
  have front : s'.pages content before = s.pages content before :=
    List.map_congr_left fun e mem => by
      rw [sound.divided_keysAt live divided (by simp [cells, List.mem_map_of_mem mem])
        (left e.2 (List.mem_map_of_mem mem))]
  have back : s'.pages content after = s.pages content after :=
    List.map_congr_left fun e mem => by
      rw [sound.divided_keysAt live divided (by simp [cells, List.mem_map_of_mem mem])
        (right e.2 (List.mem_map_of_mem mem))]
  rw [pages_append, pages_cons, pages_cons, front, back, keysAt_of_leaf divided.left,
    keysAt_of_leaf divided.right]

theorem Sound.divide (sound : Sound content ok s (before ++ (sep, a) :: after))
    (live : s.leaf a = some leaf) (divided : Divided s a leaf small large s')
    (keys : content leaf.node = content small ++ content large)
    (last : (content small).getLast? = some k) (more : content large ≠ [])
    (okSmall : ok (leaf.slotuse / 2) small) (okLarge : ok (leaf.slotuse - leaf.slotuse / 2) large) :
    Sound content ok s' (before ++ (sep, a) :: (↑k, s.fresh) :: after) := by
  obtain ⟨leaf', live', _, prev, next⟩ := sound.leaf_at
  rw [live] at live'
  cases live'
  have distinct := sound.distinct
  have linked := sound.linked
  have older (x : Ptr) (mem : x ∈ cells (before ++ (sep, a) :: after)) : x ≠ s.fresh :=
    (sound.old x mem).ne
  have other (x : Ptr) (mem : x ∈ cells (before ++ (sep, a) :: after)) (ne : x ≠ a)
    (not : leaf.nextleaf ≠ some x) :
      s'.leaf x = s.leaf x := divided.others x ne (older x mem) not
  rw [cells_append, cells_cons] at distinct linked
  refine ⟨fun x mem => ?_, ?_, fun x mem => ?_, ?_, ?_⟩
  · simp only [cells_append, cells_cons, List.mem_append, List.mem_cons] at mem
    by_cases here : x = a
    · subst here
      exact ⟨_, divided.left, okSmall⟩
    · by_cases new : x = s.fresh
      · subst new
        exact ⟨_, divided.right, okLarge⟩
      · have mem : x ∈ cells (before ++ (sep, a) :: after) := by
          simp only [cells_append, cells_cons, List.mem_append, List.mem_cons]
          tauto
        by_cases head : leaf.nextleaf = some x
        · obtain ⟨_, _, _, right, live', valid⟩ := sound.next_live live head
          exact ⟨_, divided.next x right head live', valid⟩
        · rw [other x mem here head]
          exact sound.live x mem
  · have new : s.fresh ∉ cells before ++ a :: cells after := by
      intro mem
      exact older s.fresh (by simpa using mem) rfl
    simp only [cells_append, cells_cons]
    have moved : (cells before ++ a :: s.fresh :: cells after).Perm
        (s.fresh :: (cells before ++ a :: cells after)) := by
      rw [List.append_cons, List.append_cons (cells before) a (cells after)]
      exact List.perm_middle
    exact moved.nodup_iff.mpr (List.nodup_cons.mpr ⟨new, distinct⟩)
  · rw [divided.fresh]
    simp only [cells_append, cells_cons, List.mem_append, List.mem_cons] at mem
    by_cases new : x = s.fresh
    · exact new ▸ Nat.lt_succ_self _
    · refine Nat.lt_succ_of_lt (sound.old x ?_)
      simp only [cells_append, cells_cons, List.mem_append, List.mem_cons]
      tauto
  · simp only [cells_append, cells_cons]
    refine linked.insert_after distinct ?_ ?_ (fun h head p q link => ?_) fun x mem ne head => ?_
    · rw [Store.links, divided.left]
      simp [prev]
    · rw [Store.links, divided.right]
      simp [next]
    · rw [← next] at head
      obtain ⟨_, _, _, right, live', _⟩ := sound.next_live live head
      rw [Store.links, live'] at link
      rw [Store.links, divided.next h right head live']
      simp only [Option.map_some, Option.some.injEq, Prod.mk.injEq] at link ⊢
      exact ⟨trivial, link.2⟩
    · rw [Store.links, Store.links, other x (by simpa using mem) ne (by rwa [next])]
  · have tight := sound.tight
    rw [pages_append, pages_cons, keysAt_of_leaf live, keys] at tight
    rw [sound.divided_pages live divided]
    exact tight.cut last more

theorem Sound.divide_keys (sound : Sound content ok s (before ++ (sep, a) :: after))
    (live : s.leaf a = some leaf) (divided : Divided s a leaf small large s')
    (keys : content leaf.node = content small ++ content large) (x : K) :
    x ∈ allKeys (s'.pages content (before ++ (sep, a) :: (↑k, s.fresh) :: after)) ↔
      x ∈ allKeys (s.pages content (before ++ (sep, a) :: after)) := by
  rw [sound.divided_pages live divided, pages_append, pages_cons, keysAt_of_leaf live, keys]
  simp only [allKeys, List.flatMap_append, List.flatMap_cons, List.mem_append]
  tauto

end Divide

end ElasticIndex.Tree
