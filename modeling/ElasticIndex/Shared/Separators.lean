import Mathlib.Data.List.Chain
import Mathlib.Order.WithBot
import Mathlib.Tactic

set_option autoImplicit false

namespace Separators

variable {K C D : Type} [LinearOrder K]

-- Children with the separators below them; the child at a separator stands for the keys above it,
-- up to the next one.
abbrev Row (K C : Type) := List (WithBot K × C)

def Ascending (row : Row K C) : Prop := row.Pairwise fun a b => a.1 < b.1

structure Routes (row : Row K C) (key : K) (before : Row K C) (low : WithBot K) (child : C)
    (after : Row K C) :
    Prop where
  eq : row = before ++ (low, child) :: after
  below : low < key
  above : ∀ e ∈ after, (key : WithBot K) ≤ e.1

-- Rows of rows: what stands below a child starts at the separator of the child.
def Starts (spread : WithBot K × C → Row K D) : Prop := ∀ e, ∃ d rest, spread e = (e.1, d) :: rest

variable {row before after : Row K C} {key : K} {low : WithBot K} {child : C}

theorem Ascending.of_append (ascending : Ascending (before ++ after)) :
    Ascending before ∧ Ascending after :=
  ⟨(List.pairwise_append.mp ascending).1, (List.pairwise_append.mp ascending).2.1⟩

theorem Ascending.left (ascending : Ascending (before ++ (low, child) :: after)) {e : WithBot K × C}
    (mem : e ∈ before) :
    e.1 < low :=
  (List.pairwise_append.mp ascending).2.2 e mem _ List.mem_cons_self

-- One comparison with the next separator decides about all that follow.
theorem Ascending.above (ascending : Ascending after)
    (next : ∀ e, after.head? = some e → (key : WithBot K) ≤ e.1) :
    ∀ e ∈ after, (key : WithBot K) ≤ e.1 := by
  intro e mem
  cases after with
  | nil => cases mem
  | cons first rest =>
    have least := next first rfl
    rcases List.mem_cons.mp mem with rfl | mem
    · exact least
    · exact least.trans ((List.pairwise_cons.mp ascending).1 e mem).le

theorem Routes.count (routes : Routes row key before low child after) (ascending : Ascending row) :
    row.countP (fun e => decide (e.1 < (key : WithBot K))) = before.length + 1 := by
  obtain rfl := routes.eq
  have front : before.countP (fun e => decide (e.1 < (key : WithBot K))) = before.length := by
    rw [List.countP_eq_length]
    intro e mem
    simpa using (ascending.left mem).trans routes.below
  have back : after.countP (fun e => decide (e.1 < (key : WithBot K))) = 0 := by
    rw [List.countP_eq_zero]
    intro e mem
    simpa using routes.above e mem
  rw [List.countP_append, List.countP_cons, front, back]
  simp [routes.below]

theorem Routes.unique {before' after' : Row K C} {low' : WithBot K} {child' : C}
    (routes : Routes row key before low child after)
    (routes' : Routes row key before' low' child' after') (ascending : Ascending row) :
    before = before' ∧ low = low' ∧ child = child' ∧ after = after' := by
  have length : before.length = before'.length := by
    have here := routes.count ascending
    rw [routes'.count ascending] at here
    omega
  have same := routes.eq.symm.trans routes'.eq
  obtain ⟨front, rest⟩ := List.append_inj same length
  simp only [List.cons.injEq, Prod.mk.injEq] at rest
  exact ⟨front, rest.1.1, rest.1.2, rest.2⟩

omit [LinearOrder K] in
theorem Starts.head {spread : WithBot K × C → Row K D} (starts : Starts spread) {e : WithBot K × D}
    (first : (after.flatMap spread).head? = some e) : ∃ e', after.head? = some e' ∧ e'.1 = e.1 := by
  cases after with
  | nil => simp at first
  | cons e' rest =>
    obtain ⟨d, tail, eq⟩ := starts e'
    rw [List.flatMap_cons, eq] at first
    simp only [List.cons_append, List.head?_cons, Option.some.injEq] at first
    exact ⟨e', rfl, by rw [← first]⟩

theorem Routes.nest {spread : WithBot K × C → Row K D} (starts : Starts spread)
    (eq : row = before ++ (low, child) :: after)
    (next : ∀ e, after.head? = some e → (key : WithBot K) ≤ e.1)
    (ascending : Ascending (row.flatMap spread)) {before' after' : Row K D}
    {low' : WithBot K} {child' : D}
    (inner : Routes (spread (low, child)) key before' low' child' after') :
    Routes (row.flatMap spread) key (before.flatMap spread ++ before') low' child'
      (after' ++ after.flatMap spread) := by
  have whole : row.flatMap spread =
      before.flatMap spread ++ before' ++ (low', child') :: (after' ++ after.flatMap spread) := by
    rw [eq, List.flatMap_append, List.flatMap_cons, inner.eq]
    simp
  refine ⟨whole, inner.below, fun e mem => ?_⟩
  rcases List.mem_append.mp mem with mem | mem
  · exact inner.above e mem
  · rw [whole] at ascending
    have last : Ascending (after.flatMap spread) := by
      have tail := (List.pairwise_cons.mp ascending.of_append.2).2
      exact (List.pairwise_append.mp tail).2.1
    refine last.above (fun e' first => ?_) e mem
    obtain ⟨e'', head, same⟩ := starts.head first
    exact same ▸ next e'' head

theorem Ascending.nested (spread : WithBot K × C → Row K D)
    (ascending : Ascending (row.flatMap spread)) (eq : row = before ++ (low, child) :: after) :
    Ascending (spread (low, child)) := by
  rw [eq, List.flatMap_append, List.flatMap_cons] at ascending
  exact ascending.of_append.2.of_append.1

theorem Ascending.outer {spread : WithBot K × C → Row K D} (starts : Starts spread)
    (ascending : Ascending (row.flatMap spread)) : Ascending row := by
  induction row with
  | nil => exact .nil
  | cons e rest ih =>
    rw [List.flatMap_cons] at ascending
    refine List.pairwise_cons.mpr ⟨fun e' mem => ?_, ih ascending.of_append.2⟩
    obtain ⟨d, tail, eq⟩ := starts e
    obtain ⟨d', tail', eq'⟩ := starts e'
    refine (List.pairwise_append.mp ascending).2.2 (e.1, d) ?_ (e'.1, d') ?_
    · rw [eq]
      exact List.mem_cons_self
    · refine List.mem_flatMap.mpr ⟨e', mem, ?_⟩
      rw [eq']
      exact List.mem_cons_self

/-- Increasing keys in the pages, within their separators. -/
structure Holds (row : Row K (List K)) : Prop where
  increasing : ∀ e ∈ row, e.2.Pairwise (· < ·)
  above : ∀ e ∈ row, ∀ k : K, k ∈ e.2 → e.1 < k
  upto : row.IsChain fun a b => ∀ k : K, k ∈ a.2 → (k : WithBot K) ≤ b.1

/-- Each separator is the last key of the page before it. -/
structure Tight (row : Row K (List K)) : Prop extends Holds row where
  last : row.IsChain fun a b => ∃ k : K, a.2.getLast? = some k ∧ b.1 = (k : WithBot K)

def allKeys (row : Row K (List K)) : List K := row.flatMap Prod.snd

variable {pages : Row K (List K)} {front back : Row K (List K)} {keys keys' : List K}

theorem Tight.ascending (tight : Tight pages) : Ascending pages := by
  refine List.isChain_iff_pairwise.mp (tight.last.imp_of_mem_imp fun a b mem _ last => ?_)
  obtain ⟨k, last, eq⟩ := last
  rw [eq]
  exact tight.above a mem k (List.mem_of_getLast? last)

omit [LinearOrder K] in
theorem mem_allKeys {k : K} : k ∈ allKeys pages ↔ ∃ e ∈ pages, k ∈ e.2 := List.mem_flatMap

theorem Holds.le_separator (holds : Holds (front ++ (low, keys) :: back))
    (ascending : Ascending (front ++ (low, keys) :: back)) {k : K} (mem : k ∈ allKeys front) :
    (k : WithBot K) ≤ low := by
  obtain ⟨e, mem, inside⟩ := mem_allKeys.mp mem
  obtain ⟨front, rest, rfl⟩ := List.append_of_mem mem
  have upto := holds.upto
  rw [List.append_assoc, List.cons_append] at upto ascending
  have chain := (List.isChain_split.mp upto).2
  cases rest with
  | nil => exact (List.isChain_cons_cons.mp chain).1 k inside
  | cons next rest =>
    have first := (List.isChain_cons_cons.mp chain).1 k inside
    have tail : Ascending ((next :: rest) ++ (low, keys) :: back) := ascending.of_append.2.of_cons
    exact first.trans (tail.left List.mem_cons_self).le

omit [LinearOrder K] in
theorem allKeys_middle : allKeys (front ++ (low, keys) :: back) =
    allKeys front ++ (keys ++ allKeys back) := by
  simp [allKeys]

theorem Routes.front_lt (routes : Routes pages key front low keys back) (holds : Holds pages)
    (ascending : Ascending pages) {k : K} (mem : k ∈ allKeys front) : k < key := by
  obtain rfl := routes.eq
  exact WithBot.coe_lt_coe.mp ((holds.le_separator ascending mem).trans_lt routes.below)

theorem Routes.lt_back (routes : Routes pages key front low keys back) (holds : Holds pages) {k : K}
    (mem : k ∈ allKeys back) : key < k := by
  obtain rfl := routes.eq
  obtain ⟨e, mem, inside⟩ := mem_allKeys.mp mem
  have above := holds.above e (List.mem_append_right _ (List.mem_cons_of_mem _ mem)) k inside
  exact WithBot.coe_lt_coe.mp ((routes.above e mem).trans_lt above)

theorem Routes.mem_iff (routes : Routes pages key front low keys back) (holds : Holds pages)
    (ascending : Ascending pages) :
    key ∈ allKeys pages ↔ key ∈ keys := by
  constructor
  · intro mem
    have split : allKeys pages = allKeys front ++ (keys ++ allKeys back) := by
      rw [routes.eq]
      simp [allKeys]
    rw [split] at mem
    rcases List.mem_append.mp mem with mem | mem
    · exact absurd (routes.front_lt holds ascending mem) (lt_irrefl key)
    · rcases List.mem_append.mp mem with mem | mem
      · exact mem
      · exact absurd (routes.lt_back holds mem) (lt_irrefl key)
  · intro mem
    refine mem_allKeys.mpr ⟨(low, keys), ?_, mem⟩
    rw [routes.eq]
    exact List.mem_append_right _ List.mem_cons_self

theorem Holds.sorted (holds : Holds pages) (ascending : Ascending pages) :
    (allKeys pages).Pairwise (· < ·) := by
  induction pages using List.reverseRecOn with
  | nil => exact .nil
  | append_singleton front e ih =>
    obtain ⟨low, keys⟩ := e
    have inner : Holds front :=
      ⟨fun e mem => holds.increasing e (List.mem_append_left _ mem),
        fun e mem => holds.above e (List.mem_append_left _ mem),
        (List.isChain_append.mp holds.upto).1⟩
    have here : (low, keys) ∈ front ++ [(low, keys)] := by simp
    rw [allKeys_middle]
    refine List.pairwise_append.mpr ⟨ih inner ascending.of_append.1, ?_, fun k mem k' mem' => ?_⟩
    · simpa [allKeys] using holds.increasing _ here
    · have above := holds.above _ here k' (by simpa [allKeys] using mem')
      exact WithBot.coe_lt_coe.mp ((holds.le_separator ascending mem).trans_lt above)

-- The least key of a sorted list with a property that its upper part has and its lower part has
-- not.
theorem isLeast_suffix {front back : List K} {P : K → Prop} {k : K}
    (sorted : (front ++ back).Pairwise (· < ·)) (below : ∀ k ∈ front, ¬ P k)
    (above : ∀ k ∈ back, P k) :
    IsLeast {k | k ∈ front ++ back ∧ P k} k ↔ back.head? = some k := by
  have inside (k : K) : k ∈ {k | k ∈ front ++ back ∧ P k} ↔ k ∈ back := by
    simp only [Set.mem_ofPred_eq, List.mem_append]
    exact ⟨fun h => h.1.resolve_left fun mem => below k mem h.2, fun mem => ⟨.inr mem, above k mem⟩⟩
  have tail := (List.pairwise_append.mp sorted).2.1
  cases back with
  | nil =>
    refine ⟨fun least => absurd ((inside k).mp least.1) List.not_mem_nil, fun none => by cases none⟩
  | cons first rest =>
    have lower := (List.pairwise_cons.mp tail).1
    simp only [List.head?_cons, Option.some.injEq]
    constructor
    · rintro ⟨mem, least⟩
      rcases List.mem_cons.mp ((inside k).mp mem) with rfl | later
      · rfl
      · exact absurd (least ((inside first).mpr List.mem_cons_self)) (lower k later).not_ge
    · rintro rfl
      refine ⟨(inside first).mpr List.mem_cons_self, fun k' mem' => ?_⟩
      rcases List.mem_cons.mp ((inside k').mp mem') with rfl | later
      · exact le_rfl
      · exact (lower k' later).le

-- A key that is routed to a page with a successor is at most the last key of the page.
theorem Tight.le_last (tight : Tight pages) (routes : Routes pages key front low keys back)
    (more : back ≠ []) :
    ∃ k ∈ keys, key ≤ k := by
  obtain rfl := routes.eq
  obtain ⟨next, rest, rfl⟩ := List.exists_cons_of_ne_nil more
  obtain ⟨k, last, eq⟩ := (List.isChain_cons_cons.mp (List.isChain_split.mp tight.last).2).1
  have le := routes.above next List.mem_cons_self
  rw [eq] at le
  exact ⟨k, List.mem_of_getLast? last, WithBot.coe_le_coe.mp le⟩

theorem le_getLast {k m : K} (increasing : keys.Pairwise (· < ·)) (last : keys.getLast? = some m)
    (mem : k ∈ keys) :
    k ≤ m := by
  obtain ⟨init, rfl⟩ : ∃ init, keys = init ++ [m] := by
    have ne : keys ≠ [] := by rintro rfl; cases mem
    refine ⟨keys.dropLast, ?_⟩
    rw [List.getLast?_eq_some_getLast ne] at last
    cases last
    exact (List.dropLast_append_getLast ne).symm
  rcases List.mem_append.mp mem with mem | mem
  · exact ((List.pairwise_append.mp increasing).2.2 k mem m (List.mem_singleton.mpr rfl)).le
  · exact (List.mem_singleton.mp mem).le

theorem getLast_of_max {m : K} (increasing : keys.Pairwise (· < ·)) (mem : m ∈ keys)
    (max : ∀ k ∈ keys, k ≤ m) :
    keys.getLast? = some m := by
  have ne : keys ≠ [] := by rintro rfl; cases mem
  have last := List.getLast?_eq_some_getLast ne
  have upper := le_getLast increasing last mem
  have lower := max _ (List.getLast_mem ne)
  rw [last, le_antisymm upper lower]

-- One page changes within its separators.
theorem Tight.replace (tight : Tight (front ++ (low, keys) :: back))
    (increasing : keys'.Pairwise (· < ·)) (above : ∀ k : K, k ∈ keys' → low < k)
    (last : back ≠ [] → keys'.getLast? = keys.getLast?) :
    Tight (front ++ (low, keys') :: back) := by
  have within : ∀ e ∈ front ++ (low, keys') :: back, e = (low, keys') ∨
      e ∈ front ++ (low, keys) :: back := by
    intro e mem
    rcases List.mem_append.mp mem with mem | mem
    · exact .inr (List.mem_append_left _ mem)
    · rcases List.mem_cons.mp mem with rfl | mem
      · exact .inl rfl
      · exact .inr (List.mem_append_right _ (List.mem_cons_of_mem _ mem))
  have chain {R : WithBot K × List K → WithBot K × List K → Prop}
      (left : ∀ a, R a (low, keys) → R a (low, keys'))
        (right : ∀ b ∈ back.head?, R (low, keys) b → R (low, keys') b)
      (old : (front ++ (low, keys) :: back).IsChain R) :
          (front ++ (low, keys') :: back).IsChain R := by
    obtain ⟨first, second⟩ := List.isChain_split.mp old
    refine List.isChain_split.mpr ⟨?_, ?_⟩
    · rw [List.isChain_append] at first ⊢
      exact ⟨first.1, .singleton _, fun a ha b hb => by
        simp only [List.head?_cons, Option.mem_def, Option.some.injEq] at hb
        exact hb ▸ left a (first.2.2 a ha _ rfl)⟩
    · cases back with
      | nil => exact .singleton _
      | cons b back =>
        rw [List.isChain_cons_cons] at second ⊢
        exact ⟨right b rfl second.1, second.2⟩
  have bounded : ∀ b ∈ back.head?, ∀ k : K, k ∈ keys' → (k : WithBot K) ≤ b.1 := by
    intro b hb k mem
    have more : back ≠ [] := by rintro rfl; cases hb
    obtain ⟨rest, rfl⟩ : ∃ rest, back = b :: rest := by
      cases back with
      | nil => cases hb
      | cons b' rest => exact ⟨rest, by simpa using hb⟩
    obtain ⟨m, end_, eq⟩ := (List.isChain_cons_cons.mp (List.isChain_split.mp tight.last).2).1
    rw [eq]
    exact WithBot.coe_le_coe.mpr (le_getLast increasing ((last more).trans end_) mem)
  refine ⟨⟨fun e mem => ?_, fun e mem => ?_, ?_⟩, ?_⟩
  · rcases within e mem with rfl | mem
    · exact increasing
    · exact tight.increasing e mem
  · rcases within e mem with rfl | mem
    · exact above
    · exact tight.above e mem
  · exact chain (fun a h => h) (fun b hb _ => bounded b hb) tight.upto
  · refine chain (fun a h => h) (fun b hb h => ?_) tight.last
    have more : back ≠ [] := by rintro rfl; cases hb
    obtain ⟨k, end_, eq⟩ := h
    exact ⟨k, (last more).trans end_, eq⟩

theorem Tight.insert (tight : Tight pages) (routes : Routes pages key front low keys back)
    (missing : key ∉ keys) (increasing : keys'.Pairwise (· < ·))
    (mem : ∀ k, k ∈ keys' ↔ k = key ∨ k ∈ keys) :
    Tight (front ++ (low, keys') :: back) := by
  have bounded := tight.le_last routes
  obtain rfl := routes.eq
  have here : (low, keys) ∈ front ++ (low, keys) :: back :=
    List.mem_append_right _ List.mem_cons_self
  refine tight.replace increasing (fun k hk => ?_) fun more => ?_
  · rcases (mem k).mp hk with rfl | hk
    · exact routes.below
    · exact tight.above _ here k hk
  · obtain ⟨k, inside, le⟩ := bounded more
    have ne : keys ≠ [] := by rintro rfl; cases inside
    have last := List.getLast?_eq_some_getLast ne
    have old := tight.increasing _ here
    rw [last]
    refine getLast_of_max increasing ((mem _).mpr (.inr (List.getLast_mem ne))) fun k' hk' => ?_
    rcases (mem k').mp hk' with rfl | hk'
    · exact le.trans (le_getLast old last inside)
    · exact le_getLast old last hk'

-- A page is cut in two at the last key of the first part.
theorem Tight.cut {first second : List K} {k : K}
    (tight : Tight (front ++ (low, first ++ second) :: back)) (last : first.getLast? = some k)
    (some : second ≠ []) :
    Tight (front ++ (low, first) :: (↑k, second) :: back) := by
  have here : (low, first ++ second) ∈ front ++ (low, first ++ second) :: back :=
    List.mem_append_right _ List.mem_cons_self
  have increasing := List.pairwise_append.mp (tight.increasing _ here)
  have above := tight.above _ here
  have kept : second.getLast? = (first ++ second).getLast? := by
    rw [List.getLast?_append_of_ne_nil _ some]
  have within : ∀ e ∈ front ++ (low, first) :: (↑k, second) :: back,
      e = (low, first) ∨ e = (↑k, second) ∨ e ∈ front ++ (low, first ++ second) :: back := by
    intro e mem
    rcases List.mem_append.mp mem with mem | mem
    · exact .inr (.inr (List.mem_append_left _ mem))
    · rcases List.mem_cons.mp mem with rfl | mem
      · exact .inl rfl
      · rcases List.mem_cons.mp mem with rfl | mem
        · exact .inr (.inl rfl)
        · exact .inr (.inr (List.mem_append_right _ (List.mem_cons_of_mem _ mem)))
  have chain {R : WithBot K × List K → WithBot K × List K → Prop}
      (left : ∀ a, R a (low, first ++ second) → R a (low, first))
        (middle : R (low, first) (↑k, second))
      (right : ∀ b, R (low, first ++ second) b → R (↑k, second) b)
      (old : (front ++ (low, first ++ second) :: back).IsChain R) :
      (front ++ (low, first) :: (↑k, second) :: back).IsChain R := by
    obtain ⟨head, tail⟩ := List.isChain_split.mp old
    refine List.isChain_split.mpr ⟨?_, List.isChain_cons_cons.mpr ⟨middle, ?_⟩⟩
    · rw [List.isChain_append] at head ⊢
      exact ⟨head.1, .singleton _, fun a ha b hb => by
        simp only [List.head?_cons, Option.mem_def, Option.some.injEq] at hb
        exact hb ▸ left a (head.2.2 a ha _ rfl)⟩
    · cases back with
      | nil => exact .singleton _
      | cons b back =>
        rw [List.isChain_cons_cons] at tail ⊢
        exact ⟨right b tail.1, tail.2⟩
  refine ⟨⟨fun e mem => ?_, fun e mem => ?_, ?_⟩, ?_⟩
  · rcases within e mem with rfl | rfl | mem
    · exact increasing.1
    · exact increasing.2.1
    · exact tight.increasing e mem
  · rcases within e mem with rfl | rfl | mem
    · exact fun k' mem => above k' (List.mem_append_left _ mem)
    · exact fun k' mem =>
        WithBot.coe_lt_coe.mpr (increasing.2.2 k (List.mem_of_getLast? last) k' mem)
    · exact tight.above e mem
  · refine chain (fun a h => h) ?_ (fun b h k' mem => h k' (List.mem_append_right _ mem)) tight.upto
    exact fun k' mem => WithBot.coe_le_coe.mpr (le_getLast increasing.1 last mem)
  · exact chain (fun a h => h) ⟨k, last, rfl⟩ (fun b h => h.imp fun k' h =>
      ⟨kept.trans h.1, h.2⟩) tight.last

end Separators
