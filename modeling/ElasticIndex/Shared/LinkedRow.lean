import Mathlib.Tactic

set_option autoImplicit false

namespace LinkedRow

variable {P : Type}

-- A run of doubly linked cells: what the first one has before it and the last one behind it.
def Linked (links : P → Option (Option P × Option P)) : Option P → List P → Option P → Prop
  | _, [], _ => True
  | prev, a :: rest, next =>
    links a = some (prev, rest.head?.or next) ∧ Linked links (some a) rest next

variable {links links' : P → Option (Option P × Option P)} {prev next : Option P}
  {front back cells : List P} {a b : P}

theorem Linked.congr (same : ∀ x ∈ cells, links' x = links x)
    (linked : Linked links prev cells next) :
    Linked links' prev cells next := by
  induction cells generalizing prev with
  | nil => trivial
  | cons x cells ih =>
    exact ⟨(same x List.mem_cons_self).trans linked.1,
      ih (fun y mem => same y (List.mem_cons_of_mem _ mem)) linked.2⟩

theorem linked_append : Linked links prev (front ++ back) next ↔
    Linked links prev front (back.head?.or next) ∧ Linked links
      (front.getLast?.or prev) back next := by
  induction front generalizing prev with
  | nil => simp [Linked]
  | cons x front ih =>
    have head : (front ++ back).head?.or next = front.head?.or (back.head?.or next) := by
      cases front <;> rfl
    have last : (x :: front).getLast?.or prev = front.getLast?.or (some x) := by
      cases front with
      | nil => rfl
      | cons y front =>
        rw [List.getLast?_cons_cons, List.getLast?_eq_some_getLast (List.cons_ne_nil _ _)]
        rfl
    simp only [List.cons_append, Linked, ih, head, last, and_assoc]

theorem Linked.middle (linked : Linked links prev (front ++ a :: back) next) :
    links a = some (front.getLast?.or prev, back.head?.or next) :=
  (linked_append.mp linked).2.1

-- A new cell behind a.
theorem Linked.insert_after (linked : Linked links prev (front ++ a :: back) next)
    (distinct : (front ++ a :: back).Nodup)
    (here : links' a = some (front.getLast?.or prev, some b))
    (new : links' b = some (some a, back.head?.or next))
    (behind : ∀ h, back.head? = some h → ∀ p q, links h = some (p, q) → links' h = some (some b, q))
    (others : ∀ x ∈ front ++ a :: back, x ≠ a → back.head? ≠ some x → links' x = links x) :
    Linked links' prev (front ++ a :: b :: back) next := by
  obtain ⟨first, second⟩ := linked_append.mp linked
  have apart := List.nodup_append.mp distinct
  refine linked_append.mpr ⟨first.congr fun x mem => ?_, here, new, ?_⟩
  · refine others x (List.mem_append_left _ mem) (apart.2.2 x mem a List.mem_cons_self) fun head =>
      ?_
    exact apart.2.2 x mem x (List.mem_cons_of_mem _ (List.mem_of_head? head)) rfl
  · cases back with
    | nil => trivial
    | cons h back =>
      have tail := List.nodup_cons.mp apart.2.1
      refine ⟨behind h rfl _ _ second.2.1, second.2.2.congr fun x mem => ?_⟩
      refine others x
        (List.mem_append_right _ (List.mem_cons_of_mem _ (List.mem_cons_of_mem _ mem))) ?_ ?_
      · rintro rfl
        exact tail.1 (List.mem_cons_of_mem _ mem)
      · rintro head
        simp only [List.head?_cons, Option.some.injEq] at head
        exact (List.nodup_cons.mp tail.2).1 (head ▸ mem)

-- Another cell in the place of a.
theorem Linked.replace (linked : Linked links prev (front ++ a :: back) next)
    (distinct : (front ++ a :: back).Nodup) (new : links' b = links a)
    (before : ∀ l, front.getLast? = some l → ∀ p q, links l = some (p, q) →
      links' l = some (p, some b))
    (behind : ∀ h, back.head? = some h → ∀ p q, links h = some (p, q) → links' h = some (some b, q))
    (others : ∀ x ∈ front ++ back, front.getLast? ≠ some x → back.head? ≠ some x →
      links' x = links x) :
    Linked links' prev (front ++ b :: back) next := by
  obtain ⟨first, second⟩ := linked_append.mp linked
  have apart := List.nodup_append.mp distinct
  have right (x : P) (mem : x ∈ front) : back.head? ≠ some x := fun head =>
    apart.2.2 x mem x (List.mem_cons_of_mem _ (List.mem_of_head? head)) rfl
  refine linked_append.mpr ⟨?_, new.trans second.1, ?_⟩
  · cases front using List.reverseRecOn with
    | nil => trivial
    | append_singleton front l =>
      have inner := List.nodup_append.mp apart.1
      obtain ⟨start, last⟩ := linked_append.mp first
      refine linked_append.mpr ⟨start.congr fun x mem => ?_, ?_, trivial⟩
      · refine others x (by simp [mem]) ?_ (right x (List.mem_append_left _ mem))
        rw [List.getLast?_concat]
        rintro same
        exact inner.2.2 x mem x (by simp [Option.some.inj same]) rfl
      · exact before l List.getLast?_concat _ _ last.1
  · cases back with
    | nil => trivial
    | cons h back =>
      have tail := List.nodup_cons.mp (List.nodup_cons.mp apart.2.1).2
      refine ⟨behind h rfl _ _ second.2.1, second.2.2.congr fun x mem => ?_⟩
      refine others x (List.mem_append_right _ (List.mem_cons_of_mem _ mem)) ?_ ?_
      · intro last
        exact apart.2.2 x (List.mem_of_getLast? last) x
          (List.mem_cons_of_mem _ (List.mem_cons_of_mem _ mem)) rfl
      · intro head
        simp only [List.head?_cons, Option.some.injEq] at head
        exact tail.1 (head ▸ mem)

/-- The cells met when a link is followed until it is null. -/
inductive Visits (link : P → Option (Option P)) : Option P → List P → Prop where
  | null : Visits link none []
  | cell {a : P} {after : Option P} {rest : List P} : link a = some after → Visits link after rest →
    Visits link (some a) (a :: rest)

theorem Linked.forward (linked : Linked links prev cells none) :
    Visits (fun a => (links a).map Prod.snd) cells.head? cells := by
  induction cells generalizing prev with
  | nil => exact .null
  | cons a cells ih =>
    refine .cell ?_ (ih linked.2)
    rw [linked.1, Option.map_some, Option.or_none]

theorem Linked.backward (linked : Linked links none cells next) :
    Visits (fun a => (links a).map Prod.fst) cells.getLast? cells.reverse := by
  induction cells using List.reverseRecOn generalizing next with
  | nil => exact .null
  | append_singleton front a ih =>
    obtain ⟨start, last⟩ := linked_append.mp linked
    rw [List.getLast?_concat, List.reverse_concat]
    refine .cell ?_ (ih start)
    rw [last.1, Option.map_some, Option.or_none]

end LinkedRow
