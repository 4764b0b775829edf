import ElasticIndex.Shared.Separators

set_option autoImplicit false

namespace Separators

variable {K C D : Type} [LinearOrder K] {pages front rest back : Row K (List K)}
  {low : WithBot K} {key : K} {keys keys' first second : List K} {bound : Option K} {tight : Prop}
  {Q : Row K (List K) → Prop}

-- The first separator of a row is lowered to a key.
def resep : Option K → Row K C → Row K C
  | some k, (_, child) :: rest => (↑k, child) :: rest
  | _, row => row

omit [LinearOrder K] in
@[simp] theorem resep_none (row : Row K C) : resep none row = row := rfl

omit [LinearOrder K] in
@[simp] theorem resep_nil : resep bound ([] : Row K C) = [] := by
  cases bound <;> rfl

omit [LinearOrder K] in
@[simp] theorem resep_some (k : K) (e : WithBot K × C) (rest : Row K C) :
    resep (some k) (e :: rest) = (↑k, e.2) :: rest := rfl

omit [LinearOrder K] in
theorem resep_append {row : Row K C} (some_ : row ≠ []) (after : Row K C) :
    resep bound (row ++ after) = resep bound row ++ after := by
  obtain ⟨e, rest, rfl⟩ := List.exists_cons_of_ne_nil some_
  cases bound <;> rfl

omit [LinearOrder K] in
theorem resep_eq_nil {row : Row K C} : resep bound row = [] ↔ row = [] := by
  cases bound <;> cases row <;> simp

omit [LinearOrder K] in
theorem resep_map (f : C → D) (row : Row K C) : (resep bound row).map (fun e => (e.1, f e.2)) =
    resep bound (row.map fun e => (e.1, f e.2)) := by
  cases bound <;> cases row <;> rfl

omit [LinearOrder K] in
theorem map_snd_resep (row : Row K C) : (resep bound row).map Prod.snd = row.map Prod.snd := by
  cases bound <;> cases row <;> rfl

omit [LinearOrder K] in
theorem allKeys_resep : allKeys (resep bound back) = allKeys back := by
  cases bound <;> cases back <;> rfl

omit [LinearOrder K] in
theorem allKeys_append : allKeys (front ++ back) = allKeys front ++ allKeys back :=
  List.flatMap_append

-- One page before another.
def Apart (a b : WithBot K × List K) : Prop := a.1 < b.1 ∧ ∀ k ∈ a.2, (k : WithBot K) ≤ b.1

instance apartTrans : IsTrans (WithBot K × List K) Apart where
  trans _ _ _ h g := ⟨h.1.trans g.1, fun k mem => (h.2 k mem).trans g.1.le⟩

/-- Increasing keys in the pages, within separators that need not be keys of the pages. -/
structure Loose (pages : Row K (List K)) : Prop where
  page : ∀ e ∈ pages, e.2.Pairwise (· < ·) ∧ ∀ k ∈ e.2, e.1 < (k : WithBot K)
  apart : pages.Pairwise Apart

theorem Loose.holds (loose : Loose pages) : Holds pages :=
  ⟨fun e mem => (loose.page e mem).1, fun e mem => (loose.page e mem).2,
    loose.apart.isChain.imp fun _ _ h => h.2⟩

theorem Loose.ascending (loose : Loose pages) : Ascending pages := loose.apart.imp fun h => h.1

theorem Holds.loose (holds : Holds pages) (ascending : Ascending pages) : Loose pages := by
  refine ⟨fun e mem => ⟨holds.increasing e mem, holds.above e mem⟩, List.isChain_iff_pairwise.mp ?_⟩
  induction pages with
  | nil => exact .nil
  | cons a pages ih =>
    have inner : Holds pages := ⟨fun e mem => holds.increasing e (List.mem_cons_of_mem _ mem),
      fun e mem => holds.above e (List.mem_cons_of_mem _ mem), holds.upto.tail⟩
    have chain := ih inner ascending.of_cons
    cases pages with
    | nil => exact .singleton _
    | cons b pages =>
      have next := (List.isChain_cons_cons.mp holds.upto).1
      exact List.isChain_cons_cons.mpr
        ⟨⟨(List.pairwise_cons.mp ascending).1 b List.mem_cons_self, next⟩, chain⟩

theorem Tight.loose (tight : Tight pages) : Loose pages := tight.toHolds.loose tight.ascending

theorem Loose.of_append (loose : Loose (front ++ back)) : Loose front ∧ Loose back :=
  ⟨⟨fun e mem => loose.page e (List.mem_append_left _ mem),
    (List.pairwise_append.mp loose.apart).1⟩,
    ⟨fun e mem => loose.page e (List.mem_append_right _ mem),
    (List.pairwise_append.mp loose.apart).2.1⟩⟩

theorem Loose.sorted (loose : Loose pages) : (allKeys pages).Pairwise (· < ·) :=
  loose.holds.sorted loose.ascending

-- The keys of a run of pages lie above its first separator.
theorem Loose.above_first (loose : Loose ((low, keys) :: rest)) {k : K}
    (mem : k ∈ allKeys ((low, keys) :: rest)) : low < (k : WithBot K) := by
  obtain ⟨e, inside, here⟩ := mem_allKeys.mp mem
  have above := (loose.page e inside).2 k here
  rcases List.mem_cons.mp inside with rfl | later
  · exact above
  · exact ((List.pairwise_cons.mp loose.apart).1 e later).1.trans above

theorem Loose.le_back (loose : Loose (front ++ back)) {k : K} (mem : k ∈ allKeys front) :
    ∀ e ∈ back, (k : WithBot K) ≤ e.1 := by
  intro e inside
  obtain ⟨e', inside', here⟩ := mem_allKeys.mp mem
  exact ((List.pairwise_append.mp loose.apart).2.2 e' inside' e inside).2 k here

-- The pages that make up one row can be exchanged for others between the same neighbours.
theorem Loose.exchange {middle middle' : Row K (List K)} (loose : Loose (front ++ middle ++ back))
    (inner : Loose middle') (left : ∀ e' ∈ middle', ∃ e ∈ middle, e.1 ≤ e'.1)
    (right : ∀ e' ∈ middle', ∀ e ∈ back, Apart e' e) : Loose (front ++ middle' ++ back) := by
  obtain ⟨start, ends⟩ := loose.of_append
  have apart := List.pairwise_append.mp loose.apart
  have before := List.pairwise_append.mp start.apart
  refine ⟨fun e mem => ?_,
    List.pairwise_append.mpr
    ⟨List.pairwise_append.mpr ⟨before.1, inner.apart, fun a mem b mem' => ?_⟩,
    apart.2.1, fun a mem b mem' => ?_⟩⟩
  · rcases List.mem_append.mp mem with mem | mem
    · rcases List.mem_append.mp mem with mem | mem
      · exact start.page e (List.mem_append_left _ mem)
      · exact inner.page e mem
    · exact ends.page e mem
  · obtain ⟨e, inside, le⟩ := left b mem'
    have apart := before.2.2 a mem e inside
    exact ⟨apart.1.trans_le le, fun k here => (apart.2 k here).trans le⟩
  · rcases List.mem_append.mp mem with mem | mem
    · exact apart.2.2 a (List.mem_append_left _ mem) b mem'
    · exact right a mem b mem'

theorem Loose.lowered (loose : Loose pages)
    (below : ∀ k ∈ bound, ∀ e ∈ pages, (k : WithBot K) ≤ e.1) : Loose (resep bound pages) := by
  cases bound with
  | none => rwa [resep_none]
  | some k =>
    cases pages with
    | nil => exact loose
    | cons e pages =>
      obtain ⟨sep, keys⟩ := e
      have le := below k rfl _ List.mem_cons_self
      have apart := List.pairwise_cons.mp loose.apart
      refine ⟨fun e mem => ?_,
        List.pairwise_cons.mpr ⟨fun e mem => ⟨?_, (apart.1 e mem).2⟩, apart.2⟩⟩
      · rcases List.mem_cons.mp mem with rfl | mem
        · have page := loose.page _ (List.mem_cons_self (a := (sep, keys)))
          exact ⟨page.1, fun x here => le.trans_lt (page.2 x here)⟩
        · exact loose.page e (List.mem_cons_of_mem _ mem)
      · exact le.trans_lt (apart.1 e mem).1

theorem Loose.insert (loose : Loose pages) (routes : Routes pages key front low keys back)
    (increasing : keys'.Pairwise (· < ·)) (mem : ∀ k, k ∈ keys' ↔ k = key ∨ k ∈ keys) :
    Loose (front ++ (low, keys') :: back) := by
  obtain rfl := routes.eq
  rw [List.append_cons] at loose ⊢
  have here := loose.page (low, keys) (by simp)
  refine loose.exchange ⟨fun e inside => ?_, List.pairwise_singleton _ _⟩
    (fun e inside => ⟨_, List.mem_singleton_self _, ?_⟩)
    fun e inside b later => ⟨?_, fun k at_ => ?_⟩
  all_goals obtain rfl := List.mem_singleton.mp inside
  · refine ⟨increasing, fun k at_ => ?_⟩
    rcases (mem k).mp at_ with rfl | at_
    · exact routes.below
    · exact here.2 k at_
  · exact le_rfl
  · exact ((List.pairwise_append.mp loose.apart).2.2 (low, keys) (by simp) b later).1
  · rcases (mem k).mp at_ with rfl | at_
    · exact routes.above b later
    · exact loose.le_back
        (mem_allKeys.mpr ⟨_, List.mem_append_right _ (List.mem_singleton_self _), at_⟩) b later

theorem Loose.cut {k : K} (loose : Loose (front ++ (low, first ++ second) :: back))
    (last : first.getLast? = some k) (more : second ≠ []) :
    Loose (front ++ (low, first) :: (↑k, second) :: back) := by
  rw [List.append_cons] at loose
  have here := loose.page (low, first ++ second) (by simp)
  have increasing := List.pairwise_append.mp here.1
  have inside := List.mem_of_getLast? last
  have above : low < (k : WithBot K) := here.2 k (List.mem_append_left _ inside)
  have back_ (b : WithBot K × List K) (later : b ∈ back) :=
    (List.pairwise_append.mp loose.apart).2.2 (low, first ++ second) (by simp) b later
  have middle : front ++ (low, first) :: (↑k, second) :: back =
    front ++ [(low, first), (↑k, second)] ++ back := by simp
  rw [middle]
  refine loose.exchange ⟨fun e mem => ?_, ?_⟩ (fun e mem => ⟨_, List.mem_singleton_self _, ?_⟩)
    fun e mem b later => ?_
  · simp only [List.mem_cons, List.not_mem_nil, or_false] at mem
    rcases mem with rfl | rfl
    · exact ⟨increasing.1, fun x at_ => here.2 x (List.mem_append_left _ at_)⟩
    · exact ⟨increasing.2.1, fun x at_ => WithBot.coe_lt_coe.mpr (increasing.2.2 k inside x at_)⟩
  · refine List.pairwise_pair.mpr ⟨above, fun x at_ => ?_⟩
    exact WithBot.coe_le_coe.mpr (le_getLast increasing.1 last at_)
  · simp only [List.mem_cons, List.not_mem_nil, or_false] at mem
    rcases mem with rfl | rfl
    · exact le_rfl
    · exact above.le
  · simp only [List.mem_cons, List.not_mem_nil, or_false] at mem
    have next := back_ b later
    rcases mem with rfl | rfl
    · exact ⟨next.1, fun x at_ => next.2 x (List.mem_append_left _ at_)⟩
    · refine ⟨?_, fun x at_ => next.2 x (List.mem_append_right _ at_)⟩
      obtain ⟨y, second, rfl⟩ := List.exists_cons_of_ne_nil more
      have lt := increasing.2.2 k inside y List.mem_cons_self
      exact (WithBot.coe_lt_coe.mpr lt).trans_le (next.2 y (by simp))

-- The separator behind a page may be lowered to its last key.
theorem Loose.lower (loose : Loose (front ++ (low, keys) :: back))
    (last : ∀ k ∈ bound, keys.getLast? = some k) :
    Loose (front ++ (low, keys) :: resep bound back) := by
  cases bound with
  | none => exact loose
  | some k =>
    cases back with
    | nil => exact loose
    | cons e back =>
      have end_ := last k rfl
      rw [List.append_cons] at loose ⊢
      obtain ⟨start, ends⟩ := loose.of_append
      have page := start.page (low, keys) (by simp)
      have apart := List.pairwise_append.mp loose.apart
      have inside : k ∈ allKeys (front ++ [(low, keys)]) :=
        mem_allKeys.mpr ⟨(low, keys), by simp, List.mem_of_getLast? end_⟩
      have lowered := ends.lowered fun x (same : x ∈ some k) e' later => by
        cases same
        exact loose.le_back inside e' later
      have above : low < (k : WithBot K) := page.2 k (List.mem_of_getLast? end_)
      refine ⟨fun e' mem => ?_,
        List.pairwise_append.mpr ⟨apart.1, lowered.apart, fun a mem b mem' => ?_⟩⟩
      · rcases List.mem_append.mp mem with mem | mem
        · exact start.page e' mem
        · exact lowered.page e' mem
      · rcases List.mem_cons.mp mem' with rfl | later
        · rcases List.mem_append.mp mem with mem | mem
          · have before := (List.pairwise_append.mp start.apart).2.2 a mem (low, keys)
              (List.mem_singleton_self _)
            exact ⟨before.1.trans above, fun x here => (before.2 x here).trans above.le⟩
          · obtain rfl := List.mem_singleton.mp mem
            exact ⟨above, fun x here => WithBot.coe_le_coe.mpr (le_getLast page.1 end_ here)⟩
        · exact apart.2.2 a mem b (List.mem_cons_of_mem _ later)

-- A run of pages becomes one page with some of their keys.
theorem Loose.collapse (loose : Loose (front ++ ((low, keys) :: rest) ++ back))
    (sub : keys'.Sublist (allKeys ((low, keys) :: rest)))
    (last : ∀ k ∈ bound, keys'.getLast? = some k) :
    Loose (front ++ (low, keys') :: resep bound back) := by
  have middle := loose.of_append.1.of_append.2
  have first := (List.pairwise_append.mp loose.apart).2.2 (low, keys) (by simp)
  have joined : Loose (front ++ [(low, keys')] ++ back) := loose.exchange
    ⟨fun e mem => by
      obtain rfl := List.mem_singleton.mp mem
      exact ⟨middle.sorted.sublist sub, fun k here => middle.above_first (sub.subset here)⟩,
        List.pairwise_singleton _ _⟩
    (fun e mem => ⟨(low, keys), List.mem_cons_self, by rw [List.mem_singleton.mp mem]⟩)
    fun e mem b later => by
      obtain rfl := List.mem_singleton.mp mem
      refine ⟨(first b later).1, fun k here => ?_⟩
      have inside : k ∈ allKeys (front ++ ((low, keys) :: rest)) := by
        rw [allKeys_append]
        exact List.mem_append_right _ (sub.subset here)
      exact loose.le_back inside b later
  rw [← List.append_cons] at joined
  exact joined.lower last

theorem Tight.collapse (held : Tight (front ++ ((low, keys) :: rest) ++ back))
    (sub : keys'.Sublist (allKeys ((low, keys) :: rest)))
    (last : ∀ k ∈ bound, keys'.getLast? = some k)
    (same : bound = none → back ≠ [] → keys'.getLast? = (allKeys ((low, keys) :: rest)).getLast?) :
    Tight (front ++ (low, keys') :: resep bound back) := by
  refine ⟨(held.loose.collapse sub last).holds, ?_⟩
  have chain := held.last
  rw [List.append_assoc, List.cons_append] at chain
  obtain ⟨start, ends⟩ := List.isChain_split.mp chain
  refine List.isChain_split.mpr ⟨?_, ?_⟩
  · rw [List.isChain_append] at start ⊢
    exact ⟨start.1, .singleton _, fun a here b at_ => by
      obtain rfl := Option.some.inj at_
      exact start.2.2 a here (low, keys) rfl⟩
  · cases back with
    | nil =>
      rw [resep_nil]
      exact .singleton _
    | cons b back =>
      obtain ⟨init, e, split⟩ : ∃ init e, (low, keys) :: rest = init ++ [e] :=
        ⟨_, _, (List.dropLast_append_getLast (List.cons_ne_nil _ _)).symm⟩
      rw [← List.cons_append, split, List.append_assoc, List.singleton_append] at ends
      have tail := (List.isChain_split.mp ends).2
      obtain ⟨⟨k, end_, border⟩, behind⟩ := List.isChain_cons_cons.mp tail
      have some_ : e.2 ≠ [] := by
        intro none
        rw [none] at end_
        cases end_
      have whole : (allKeys ((low, keys) :: rest)).getLast? = some k := by
        rw [split, allKeys_append,
          List.getLast?_append_of_ne_nil _ (by simpa [allKeys] using some_)]
        simpa [allKeys] using end_
      cases bound with
      | none => exact List.isChain_cons_cons.mpr ⟨⟨k,
        (same rfl (List.cons_ne_nil _ _)).trans whole, border⟩, behind⟩
      | some k' =>
        refine List.isChain_cons_cons.mpr ⟨⟨k', last k' rfl, rfl⟩, ?_⟩
        cases back with
        | nil => exact .singleton _
        | cons c back => exact List.isChain_cons_cons.mpr (List.isChain_cons_cons.mp behind)

-- Each separator is the last key before it.
def Exact (pages : Row K (List K)) : Prop := pages.IsChain fun a b => ∃ k : K, a.2.getLast? =
    some k ∧ b.1 = (k : WithBot K)

theorem Loose.tight_iff (loose : Loose pages) : Tight pages ↔ Exact pages :=
  ⟨fun tight => tight.last, fun exact => ⟨loose.holds, exact⟩⟩

omit [LinearOrder K] in
theorem allKeys_getLast {e : WithBot K × List K} (last : pages.getLast? = some e)
    (some_ : e.2 ≠ []) :
    (allKeys pages).getLast? = e.2.getLast? := by
  obtain ⟨init, rfl⟩ : ∃ init, pages = init ++ [e] := by
    have ne : pages ≠ [] := by rintro rfl; cases last
    rw [List.getLast?_eq_some_getLast ne, Option.some.injEq] at last
    exact ⟨pages.dropLast, by rw [← last, List.dropLast_append_getLast]⟩
  rw [allKeys_append, List.getLast?_append_of_ne_nil]
  · simp [allKeys]
  · simpa [allKeys] using some_

omit [LinearOrder K] in
theorem exact_append (e : WithBot K × List K) (rest : Row K (List K))
    (some_ : ∀ e ∈ front, e.2 ≠ []) (ne : front ≠ []) :
    Exact (front ++ e :: rest) ↔ Exact front ∧ Exact (e :: rest) ∧
    ∀ k, (allKeys front).getLast? = some k → e.1 = (k : WithBot K) := by
  obtain ⟨last, eq⟩ : ∃ last, front.getLast? = some last := ⟨_, List.getLast?_eq_some_getLast ne⟩
  have full := some_ last (List.mem_of_getLast? eq)
  obtain ⟨k, top⟩ : ∃ k, last.2.getLast? = some k := ⟨_, List.getLast?_eq_some_getLast full⟩
  rw [Exact, List.isChain_append, allKeys_getLast eq full, top, eq]
  refine and_congr_right fun _ => and_congr_right fun _ => ?_
  simp only [Option.mem_def, Option.some.injEq, List.head?_cons]
  constructor
  · intro junction k' same
    subst same
    obtain ⟨k'', here, sep⟩ := junction last rfl e rfl
    rw [top] at here
    cases here
    exact sep
  · rintro sep _ rfl _ rfl
    exact ⟨k, top, sep k rfl⟩

/-- What has to be known of the pages of a tree to insert and to erase keys; tight says that each
separator is the last key before it. -/
structure Discipline (tight : Prop) (Q : Row K (List K) → Prop) : Prop where
  loose : ∀ {pages : Row K (List K)}, Q pages → Loose pages
  none : Q []
  single : ∀ k : K, Q [(⊥, [k])]
  insert : ∀ {pages front back : Row K (List K)} {low : WithBot K} {key : K}
    {keys keys' : List K}, Q pages →
    Routes pages key front low keys back → key ∉ keys → keys'.Pairwise (· < ·) →
    (∀ k, k ∈ keys' ↔ k = key ∨ k ∈ keys) →
      Q (front ++ (low, keys') :: back)
  cut : ∀ {front back : Row K (List K)} {low : WithBot K} {first second : List K} {k : K},
    Q (front ++ (low, first ++ second) :: back) → first.getLast? = some k → second ≠ [] →
      Q (front ++ (low, first) :: (↑k, second) :: back)
  collapse : ∀ {front rest back : Row K (List K)} {low : WithBot K} {keys keys' : List K}
    {bound : Option K},
    Q (front ++ ((low, keys) :: rest) ++ back) → keys'.Sublist (allKeys ((low, keys) :: rest)) →
      (∀ k ∈ bound, keys'.getLast? = some k) →
      (tight → bound = Option.none → back ≠ [] → keys'.getLast? =
      (allKeys ((low, keys) :: rest)).getLast?) →
        Q (front ++ (low, keys') :: resep bound back)

theorem loose_discipline : Discipline False (Loose (K := K)) where
  loose loose := loose
  none := ⟨by simp, .nil⟩
  single k := ⟨by simp, List.pairwise_singleton _ _⟩
  insert loose routes _ increasing mem := loose.insert routes increasing mem
  cut loose last more := loose.cut last more
  collapse loose sub last _ := loose.collapse sub last

theorem tight_discipline : Discipline True (Tight (K := K)) where
  loose := Tight.loose
  none := ⟨⟨by simp, by simp, .nil⟩, .nil⟩
  single k := ⟨⟨by simp, by simp, .singleton _⟩, .singleton _⟩
  insert tight routes missing increasing mem := tight.insert routes missing increasing mem
  cut tight last more := tight.cut last more
  collapse held sub last same := held.collapse sub last (same trivial)

end Separators
