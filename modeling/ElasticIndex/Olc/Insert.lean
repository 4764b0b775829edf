import ElasticIndex.Olc.Run

set_option autoImplicit false

namespace ElasticIndex.Olc

open Interleaving Runs

variable {T K P : Type} [LinearOrder K] {c : Config} {blank : BTreeInner K} {key : P → K}
  {m m' : Memory K P} {s : Shared K P} {k : K} {node : Nat} {a b : P}

-- Only inserts are called, each with a key of its own.
def DistinctInserts (key : P → K) (s : Shared K P) (_ : Local K P) : Move K P → Prop
  | .begin call => ∃ a, call = .insert a ∧ key a ∉ s.begun
  | .resume => True

def Pc.Inserted : Pc K → Prop
  | .unlockReturn _ => True
  | _ => False

/-- The keys in the leaves are those of calls that have begun, and not of calls that have yet to
insert theirs. -/
structure Distinct (key : P → K) (s : Machine T K P) : Prop where
  inserts : ∀ t call known pc, s.locals t = .busy call known pc → ∃ a, call = .insert a ∧
    key a ∈ s.shared.begun
  different : ∀ t u call call' known known' pc pc', t ≠ u → s.locals t = .busy call known pc →
    s.locals u = .busy call' known' pc' → call.key key ≠ call'.key key
  leaves : ∀ n entries, s.shared.memory.node n = .leaf entries →
    ∀ x ∈ entries, key x ∈ s.shared.begun ∧
    ∀ t call known pc, s.locals t = .busy call known pc → ¬ pc.Inserted → call.key key ≠ key x

-- What a step of an insert can find in the leaves: old entries, or its own once it is inserted.
theorem resume_insert {pc : Pc K} {outcome : Outcome K P}
    (next : resume c blank key m (.insert a) pc = some (m', outcome)) :
    (∀ n entries, m'.node n = .leaf entries → ∀ x ∈ entries,
      (∃ n' entries', m.node n' = .leaf entries' ∧ x ∈ entries') ∨
        x = a ∧ ∃ pc', outcome = .goto pc' ∧ pc'.Inserted) ∧
    ∀ pc', outcome = .goto pc' → ¬ pc'.Inserted → ¬ pc.Inserted := by
  have same : m' = m → ∀ n entries, m'.node n = .leaf entries → ∀ x ∈ entries,
      (∃ n' entries', m.node n' = .leaf entries' ∧ x ∈ entries') ∨
        x = a ∧ ∃ pc', outcome = .goto pc' ∧ pc'.Inserted := by
    rintro rfl n entries is x hx
    exact .inl ⟨n, entries, is, hx⟩
  have version : ∀ n', m' = m.addVersion n' → ∀ n entries, m'.node n =
    .leaf entries → ∀ x ∈ entries,
      (∃ n' entries', m.node n' = .leaf entries' ∧ x ∈ entries') ∨
        x = a ∧ ∃ pc', outcome = .goto pc' ∧ pc'.Inserted := by
    rintro n' rfl n entries is x hx
    exact .inl ⟨n, entries, is, hx⟩
  constructor
  · cases pc with
    | split parent node =>
      intro n es hes x hx
      cases is : m.node node with
      | inner i =>
        simp only [resume, is, Option.some.injEq, Prod.mk.injEq] at next
        obtain ⟨rfl, _⟩ := next
        simp only [Memory.allocate, Memory.write, Function.update_apply] at hes
        split_ifs at hes
        exact .inl ⟨n, es, hes, hx⟩
      | leaf entries =>
        simp only [resume, is, Option.map_eq_some_iff, Prod.mk.injEq] at next
        obtain ⟨⟨sep, ls, rs⟩, halves, rfl, _⟩ := next
        simp only [BTreeLeaf.split, Option.map_eq_some_iff, Prod.mk.injEq] at halves
        obtain ⟨_, _, _, rfl, rfl⟩ := halves
        simp only [Memory.allocate, Memory.write, Function.update_apply] at hes
        split_ifs at hes
        · cases hes
          exact .inl ⟨node, entries, is, List.mem_of_mem_drop hx⟩
        · cases hes
          exact .inl ⟨node, entries, is, List.mem_of_mem_take hx⟩
        · exact .inl ⟨n, es, hes, hx⟩
    | insertSep parent node sep new =>
      intro n es hes x hx
      cases parent with
      | none =>
        simp only [resume, Option.some.injEq, Prod.mk.injEq] at next
        obtain ⟨rfl, _⟩ := next
        simp only [Memory.allocate, Function.update_apply] at hes
        split_ifs at hes
        exact .inl ⟨n, es, hes, hx⟩
      | some p =>
        cases is : m.node p with
        | leaf entries => simp [resume, is] at next
        | inner i =>
          simp only [resume, is, Option.some.injEq, Prod.mk.injEq] at next
          obtain ⟨rfl, _⟩ := next
          simp only [Memory.write, Function.update_apply] at hes
          split_ifs at hes
          exact .inl ⟨n, es, hes, hx⟩
    | insertLeaf node =>
      intro n es hes x hx
      cases is : m.node node with
      | inner i => simp [resume, is] at next
      | leaf entries =>
        simp only [resume, is, Option.some.injEq, Prod.mk.injEq] at next
        obtain ⟨rfl, rfl⟩ := next
        simp only [Memory.write, Function.update_apply] at hes
        split_ifs at hes
        · cases hes
          rcases BTreeLeaf.mem_insert.mp hx with rfl | old
          · exact .inr ⟨rfl, _, rfl, trivial⟩
          · exact .inl ⟨node, entries, is, old⟩
        · exact .inl ⟨n, es, hes, hx⟩
    | lockParent p versionParent node version =>
      simp only [resume] at next
      split at next <;> cases next
      · exact version _ rfl
      · exact same rfl
    | lockNode parent node version' =>
      simp only [resume] at next
      split at next <;> cases next
      · exact version _ rfl
      · exact same rfl
    | lockLeaf parent node version' =>
      simp only [resume] at next
      split at next <;> cases next
      · exact version _ rfl
      · exact same rfl
    | unlockNode parent node =>
      cases next
      exact version _ rfl
    | unlockRestart node =>
      cases next
      exact version _ rfl
    | unlockReturn node =>
      cases next
      exact version _ rfl
    | store parent node version' slot => cases is : m.node node <;> simp [resume, is] at next
    | search parent node version' => cases is : m.node node <;> simp [resume, is] at next
    | loadRoot => cases next; exact same rfl
    | readRootVersion node => cases next; exact same rfl
    | checkRoot node version' => cases next; exact same rfl
    | readType parent node version' =>
      cases is : m.node node <;> simp only [resume, is] at next <;> cases next <;> exact same rfl
    | innerFull parent node version' =>
      cases is : m.node node <;> simp only [resume, is] at next <;> cases next <;> exact same rfl
    | checkParent p versionParent node version' => cases next; exact same rfl
    | findChild node version' =>
      cases is : m.node node <;> simp only [resume, is] at next <;> cases next <;> exact same rfl
    | checkInner node version' child => cases next; exact same rfl
    | readVersion p versionParent node => cases next; exact same rfl
    | leafFull parent node version' =>
      cases is : m.node node <;> simp only [resume, is] at next <;> cases next <;> exact same rfl
    | recheckRoot node => cases next; exact same rfl
    | validateParent p versionParent node => cases next; exact same rfl
  · rintro pc' rfl _ inserted
    cases pc <;> first | exact inserted.elim | cases next

section Runs

variable [DecidableEq T] {s s' : Machine T K P}

omit [LinearOrder K] [DecidableEq T] in
theorem Distinct.start (start : s.Start) : Distinct key s := by
  obtain ⟨shared, locals⟩ := start
  have idle : ∀ {t : T} {call : Call K P} {known : Bool} {pc : Pc K}, s.locals t ≠
      .busy call known pc := fun no => by
    rw [locals] at no
    cases no
  refine ⟨fun _ _ _ _ no => absurd no idle, fun _ _ _ _ _ _ _ _ _ no => absurd no idle,
    fun n es is x hx => ?_⟩
  rw [shared] at is
  cases is
  exact absurd hx List.not_mem_nil

omit [LinearOrder K] in
theorem Distinct.begin {t : T} (now : Distinct key s)
    (fresh : key a ∉ s.shared.begun) {known : Bool} :
    Distinct key (T := T) ⟨{ s.shared with begun := key a :: s.shared.begun },
      Function.update s.locals t (.busy (.insert a) known .loadRoot)⟩ := by
  have older : ∀ {u : T} {call : Call K P} {known : Bool} {pc : Pc K}, s.locals u =
    .busy call known pc →
      call.key key ≠ key a := fun busy same => by
    obtain ⟨b, rfl, begun⟩ := now.inserts _ _ _ _ busy
    exact fresh (same ▸ begun)
  refine ⟨fun u call known pc busy => ?_,
    fun u v call call' known known' pc pc' ne busy busy' => ?_,
    fun n es is x hx => ⟨List.mem_cons_of_mem _ (now.leaves n es is x hx).1,
    fun u call known pc busy early => ?_⟩⟩
  · by_cases here : u = t
    · subst here
      simp only [Function.update_self, Local.busy.injEq] at busy
      exact ⟨a, busy.1.symm, List.mem_cons_self⟩
    · simp only [Function.update_of_ne here] at busy
      obtain ⟨b, rfl, begun⟩ := now.inserts _ _ _ _ busy
      exact ⟨b, rfl, List.mem_cons_of_mem _ begun⟩
  · by_cases here : u = t
    · subst here
      simp only [Function.update_self, Local.busy.injEq] at busy
      simp only [Function.update_of_ne (Ne.symm ne)] at busy'
      obtain ⟨rfl, _⟩ := busy
      exact (older busy').symm
    · simp only [Function.update_of_ne here] at busy
      by_cases there : v = t
      · subst there
        simp only [Function.update_self, Local.busy.injEq] at busy'
        obtain ⟨rfl, _⟩ := busy'
        exact older busy
      · simp only [Function.update_of_ne there] at busy'
        exact now.different u v _ _ _ _ _ _ ne busy busy'
  · obtain ⟨begun, others⟩ := now.leaves n es is x hx
    by_cases here : u = t
    · subst here
      simp only [Function.update_self, Local.busy.injEq] at busy
      obtain ⟨rfl, _⟩ := busy
      exact fun same => fresh (show key a ∈ _ from (show key a = key x from same) ▸ begun)
    · simp only [Function.update_of_ne here] at busy
      exact others u call known pc busy early

theorem Distinct.resume {t : T} {call : Call K P} {known : Bool} {pc : Pc K}
    {outcome : Outcome K P} {l' : Local K P} {returned : List K} (now : Distinct key s)
    (stands : s.locals t = .busy call known pc)
    (next : Olc.resume c blank key s.shared.memory call pc = some (m', outcome))
    (after : ∀ call' known' pc', l' = .busy call' known' pc' → call' = call ∧ outcome = .goto pc') :
    Distinct key (T := T) ⟨{ s.shared with memory := m', returned := returned },
      Function.update s.locals t l'⟩ := by
  obtain ⟨a, rfl, begun⟩ := now.inserts t call known pc stands
  obtain ⟨leaves, early⟩ := resume_insert next
  refine ⟨fun u call' known' pc' busy => ?_,
    fun u v call' call'' known' known'' pc' pc'' ne busy busy' => ?_,
    fun n es is x hx => ?_⟩
  · by_cases here : u = t
    · subst here
      simp only [Function.update_self] at busy
      exact ⟨a, (after _ _ _ busy).1, begun⟩
    · simp only [Function.update_of_ne here] at busy
      exact now.inserts u _ _ _ busy
  · by_cases here : u = t
    · subst here
      simp only [Function.update_self] at busy
      simp only [Function.update_of_ne (Ne.symm ne)] at busy'
      rw [(after _ _ _ busy).1]
      exact now.different u v _ _ _ _ _ _ ne stands busy'
    · simp only [Function.update_of_ne here] at busy
      by_cases there : v = t
      · subst there
        simp only [Function.update_self] at busy'
        rw [(after _ _ _ busy').1]
        exact now.different u v _ _ _ _ _ _ ne busy stands
      · simp only [Function.update_of_ne there] at busy'
        exact now.different u v _ _ _ _ _ _ ne busy busy'
  · rcases leaves n es is x hx with ⟨n', es', is', hx'⟩ | ⟨rfl, pcIn, goes, inserted⟩
    · obtain ⟨old, others⟩ := now.leaves n' es' is' x hx'
      refine ⟨old, fun u call' known' pc' busy notYet => ?_⟩
      by_cases here : u = t
      · subst here
        simp only [Function.update_self] at busy
        obtain ⟨rfl, goes⟩ := after _ _ _ busy
        exact others u _ _ _ stands (early pc' goes notYet)
      · simp only [Function.update_of_ne here] at busy
        exact others u _ _ _ busy notYet
    · refine ⟨begun, fun u call' known' pc' busy notYet => ?_⟩
      by_cases here : u = t
      · subst here
        simp only [Function.update_self] at busy
        obtain ⟨rfl, goes'⟩ := after _ _ _ busy
        rw [goes] at goes'
        cases goes'
        exact absurd inserted notYet
      · simp only [Function.update_of_ne here] at busy
        exact now.different u t _ _ _ _ _ _ here busy stands

theorem Distinct.step (now : Distinct key s)
    (next : Step (Acts c blank key (DistinctInserts key)) s s') :
    Distinct key s' := by
  cases next with
  | run acts =>
    rename_i t shared l
    obtain ⟨move, answer, may, performs⟩ := acts
    rcases perform_cases performs with ⟨call, _, rfl, rfl, rfl, _⟩ | ⟨call, known,
      pc, m, stands, next⟩
    · obtain ⟨a, rfl, fresh⟩ := may
      exact now.begin fresh
    · rcases next with ⟨pc', resumed, rfl, rfl, _⟩ | ⟨a, resumed, rfl, rfl, _⟩
      · refine now.resume stands resumed fun call' known' pc'' same => ?_
        cases same
        exact ⟨rfl, rfl⟩
      · exact now.resume stands resumed fun call' known' pc'' same => by cases same

-- With distinct keys no leaf ever gets a second entry for a key.
omit [LinearOrder K] [DecidableEq T] in
theorem Distinct.careful (now : Distinct key s) (t : T) : (s.locals t).Careful key s.shared := by
  cases stands : s.locals t with
  | idle => trivial
  | busy call known pc =>
    cases pc with
    | insertLeaf node =>
      exact fun entries is x hx same =>
        (now.leaves node entries is x hx).2 t _ _ _ stands id same.symm
    | store parent node version slot =>
      rintro k v rfl
      obtain ⟨a, no, _⟩ := now.inserts t _ _ _ stands
      cases no
    | _ => trivial

theorem distinct_careful
    (run : Reachable Machine.Start (Step (Acts c blank key (DistinctInserts key))) s) :
    Distinct key s ∧
      Reachable Machine.Start (Step (Acts c blank key fun s l _ => l.Careful key s)) s := by
  obtain ⟨first, start, steps⟩ := run
  induction steps with
  | refl => exact ⟨.start start, .start start⟩
  | tail _ last ih =>
    obtain ⟨now, before⟩ := ih
    refine ⟨now.step last, before.next ?_⟩
    cases last with
    | run acts =>
      obtain ⟨move, answer, _, performs⟩ := acts
      exact .run ⟨move, answer, now.careful _, performs⟩

-- Concurrent inserts of distinct keys lose nothing.
theorem inserts_survive (four : 4 ≤ c.innerSlots) (counts : c.innerSlots ≤ 65536)
    (run : Reachable Machine.Start (Step (Acts c blank key (DistinctInserts key))) s) :
    (∀ t call known p node sep new, s.locals t =
      .busy call known (.insertSep (some p) node sep new) →
      ∃ n, s.shared.memory.node p = .inner n ∧ n.count < c.innerSlots - 1) ∧
    ((∀ t, s.locals t = .idle) → ∀ k ∈ s.shared.returned,
      (∃ fuel leaf, s.shared.memory.descend k fuel s.shared.memory.root = some leaf ∧
        s.shared.memory.Stores key leaf k) ∧
      ∃! node, node < s.shared.memory.allocated ∧ s.shared.memory.Stores key node k) := by
  have now := run_outline (by omega) (fun _ _ _ careful => careful) (distinct_careful run).2
  exact ⟨fun t call known p node sep new stands => insertSep_room now stands,
    fun quiet k hk => quiet_finds now quiet hk⟩

end Runs

def checkDistinct (s : Shared Nat Nat) (_ : Local Nat Nat) : Move Nat Nat → Bool
  | .begin (.insert a) => decide (a ∉ s.begun)
  | .begin _ => false
  | .resume => true

theorem checkDistinct_allowed (s : Shared Nat Nat) (l : Local Nat Nat) (move : Move Nat Nat)
    (checked : checkDistinct s l move = true) : DistinctInserts id s l move := by
  cases move with
  | resume => trivial
  | begin call =>
    cases call with
    | insert a => exact ⟨a, rfl, of_decide_eq_true checked⟩
    | lookup k => cases checked
    | upsert k v => cases checked

-- Two threads insert the keys 1 and 2; the second one finds the leaf locked and starts again.
theorem inserts_survive_sample : ∃ s : Machine Bool Nat Nat, (∀ t, s.locals t = .idle) ∧
    s.shared.returned = [2, 1] ∧
    ∀ k ∈ s.shared.returned,
      (∃ fuel leaf, s.shared.memory.descend k fuel s.shared.memory.root = some leaf ∧
      s.shared.memory.Stores id leaf k) ∧
    ∃! node, node < s.shared.memory.allocated ∧ s.shared.memory.Stores id node k := by
  have ends : ((play sampleConfig sampleBlank id checkDistinct
      ((false, .begin (.insert 1)) :: List.replicate 6 (false, .resume) ++
      (true, .begin (.insert 2)) ::
        List.replicate 2 (true, .resume) ++ List.replicate 2 (false, .resume) ++
        List.replicate 8 (true, .resume))
      (Machine.first : Machine Bool Nat Nat)).map fun s =>
        ((s.locals true).isIdle, (s.locals false).isIdle, s.shared.returned)) =
          some (true, true, [2, 1]) := by decide
  obtain ⟨s, plays, seen⟩ := Option.map_eq_some_iff.mp ends
  simp only [Prod.mk.injEq] at seen
  obtain ⟨idle, idle', returned⟩ := seen
  have quiet : ∀ t, s.locals t = .idle := fun t => by
    cases t with
    | true => exact Local.idle_of idle
    | false => exact Local.idle_of idle'
  have run := play_reachable checkDistinct_allowed (.start Machine.first_start) plays
  exact ⟨s, quiet, returned,
    (inserts_survive (c := sampleConfig) (by decide) (by decide) run).2 quiet⟩

end ElasticIndex.Olc
