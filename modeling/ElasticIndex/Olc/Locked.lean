import ElasticIndex.Olc.Thread

set_option autoImplicit false

namespace ElasticIndex.Olc

variable {T K P : Type} [LinearOrder K] {c : Config} {blank : BTreeInner K}
  {key : P → K} {g : View T K} {m m' : Memory K P} {t : T} {call : Call K P}
  {node n p version versionParent new : Nat} {k sep : K}

omit [LinearOrder K] in
theorem Seen.addVersion (seen : Seen m node version) : Seen (m.addVersion p) node version := by
  refine ⟨seen.lt, seen.free, le_trans seen.le ?_⟩
  by_cases here : node = p
  · subst here
    simp [Memory.addVersion]
  · simp [Memory.addVersion, Function.update_of_ne here]

omit [LinearOrder K] in
theorem Seen.back (seen : Seen m node version) (current : (m.addVersion p).version node = version) :
    m.version node = version := by
  have le := seen.le
  by_cases here : node = p
  · subst here
    simp only [Memory.addVersion, Function.update_self] at current
    omega
  · simpa only [Memory.addVersion, Function.update_of_ne here] using current

omit [LinearOrder K] in
theorem Held.own_self (whole : g.span node = g.reach node) : Held (g.own node (some t)) t node :=
  ⟨by simp [View.own], whole⟩

omit [LinearOrder K] in
theorem Held.own_other {owner : Option T} (held : Held g t p) (ne : p ≠ node) :
    Held (g.own node owner) t p :=
  ⟨by simp only [View.own, Function.update_of_ne ne, held.owner], held.whole⟩

-- What a thread owns after it has taken or given back a lock.
omit [LinearOrder K] in
theorem own_mine {owner : Option T} (mine : (g.own node owner).owner n = some t) :
    n = node ∧ owner = some t ∨ n ≠ node ∧ g.owner n = some t := by
  by_cases here : n = node
  · subst here
    simp only [View.own, Function.update_self] at mine
    exact .inl ⟨rfl, mine⟩
  · simp only [View.own, Function.update_of_ne here] at mine
    exact .inr ⟨here, mine⟩

theorem Ready.ne_parent (shape : Shape c key g m)
    (ready : Ready c g m t k (some p) node) : p ≠ node := by
  obtain ⟨held, child, _⟩ := ready
  have level := shape.child_height (held.lt shape) child
  rintro rfl
  omega

theorem unlock_idle (holds : ∀ n : Nat, g.owner n = some t → n ∈ [node]) (n : Nat) :
    (g.own node none).owner n ≠ some t := fun owns => by
  rcases own_mine owns with ⟨_, no⟩ | ⟨ne, owned⟩
  · cases no
  · exact ne (List.mem_singleton.mp (holds n owned))

-- The pointer written by an upsert addresses the key of the entry it replaces.
omit [LinearOrder K] in
theorem store_keys {entries : List P} {slot : Nat} {a v : P} (at_ : entries[slot]? = some a)
    (eq : key v = key a) :
    entries.map key = (entries.set slot v).map key := by
  rw [List.map_set, eq]
  refine List.ext_getElem? fun i => ?_
  rw [List.getElem?_set]
  split
  · rename_i same
    subst same
    rw [List.getElem?_map, at_]
    split
    · rfl
    · rename_i outside
      rw [List.length_map] at outside
      rw [List.getElem?_eq_none (not_lt.mp outside)] at at_
      cases at_
  · rfl

theorem Pending.linked (pending : Pending g m t node sep new) : Held (g.link node) t node :=
  ⟨pending.owner, by rw [link_reach_node]; rfl⟩

section Steps

variable (shape : Shape c key g m)

include shape

theorem lockParent_proceeds (idle : ∀ n : Nat, g.owner n ≠ some t)
    (asserts : (Pc.lockParent p versionParent node version).Asserts c key g m t call) :
    Proceeds c key g m t call
      (resume c blank key m call (.lockParent p versionParent node version)) := by
  obtain ⟨ins, seen, ⟨seenParent, points⟩, full⟩ := asserts
  rw [resume]
  split
  · rename_i current
    obtain ⟨child, mine, room⟩ := points current
    have free : isLocked (m.version p) = false := by
      rw [current]
      exact seenParent.free
    refine .act (lock_effect shape seenParent.lt free) (fun n owns => ?_)
        ⟨seen.addVersion, fun back =>
      full (seen.back back), fun q same => ?_⟩
    · rcases own_mine owns with ⟨rfl, _⟩ | ⟨_, owned⟩
      · exact List.mem_singleton_self n
      · exact absurd owned (idle n)
    · cases same
      exact ⟨.own_self (shape.whole seenParent current), child, mine, room ins⟩
  · exact .restart shape idle

theorem lockNode_proceeds {parent : Option Nat}
    (holds : ∀ n : Nat, g.owner n = some t → n ∈ (Pc.lockNode parent node version : Pc K).holds)
    (asserts : (Pc.lockNode parent node version).Asserts c key g m t call) :
    Proceeds c key g m t call (resume c blank key m call (.lockNode parent node version)) := by
  obtain ⟨seen, full, ready⟩ := asserts
  have effect : m.version node = version →
      Effect c key g m (g.own node (some t)) (m.addVersion node) t :=
    fun current => lock_effect shape seen.lt (by rw [current]; exact seen.free)
  have held : m.version node = version → Held (g.own node (some t)) t node := fun current =>
    .own_self (shape.whole seen current)
  cases parent with
  | none =>
    rw [resume]
    split
    · rename_i current
      refine .act (effect current) (fun n owns => ?_) ⟨held current, full current⟩
      rcases own_mine owns with ⟨rfl, _⟩ | ⟨_, owned⟩
      · exact List.mem_singleton_self n
      · exact absurd (holds n owned) List.not_mem_nil
    · exact .stay shape holds trivial
  | some p =>
    have parentReady := ready p rfl
    have ne := parentReady.ne_parent shape
    obtain ⟨heldParent, child, mine, room⟩ := parentReady
    rw [resume]
    split
    · rename_i current
      refine .act (effect current) (fun n owns => ?_)
        ⟨held current, full current, heldParent.own_other ne, child, mine, room⟩
      rcases own_mine owns with ⟨rfl, _⟩ | ⟨_, owned⟩
      · exact List.mem_cons_self
      · exact List.mem_cons_of_mem node (holds n owned)
    · exact .stay shape holds heldParent

theorem lockLeaf_proceeds {parent : Option (Nat × Nat)} (idle : ∀ n : Nat, g.owner n ≠ some t)
    (asserts : (Pc.lockLeaf parent node version).Asserts c key g m t call) :
    Proceeds c key g m t call (resume c blank key m call (.lockLeaf parent node version)) := by
  obtain ⟨ins, seen, aimed, room⟩ := asserts
  rw [resume]
  split
  · rename_i current
    have free : isLocked (m.version node) = false := by
      rw [current]
      exact seen.free
    have effect : Effect c key g m (g.own node (some t)) (m.addVersion node) t :=
      lock_effect shape seen.lt free
    have held : Held (g.own node (some t)) t node := .own_self (shape.whole seen current)
    have holds : ∀ n : Nat, (g.own node (some t)).owner n = some t → n ∈ [node] := fun n owns => by
      rcases own_mine owns with ⟨rfl, _⟩ | ⟨_, owned⟩
      · exact List.mem_singleton_self n
      · exact absurd owned (idle n)
    cases parent with
    | none => exact .act effect holds ⟨held, aimed current, room current⟩
    | some pair =>
      obtain ⟨seenParent, points⟩ := aimed
      exact .act effect holds ⟨held,
        ⟨seenParent.addVersion, fun back => points (seenParent.back back)⟩, room current⟩
  · exact .restart shape idle

theorem unlockNode_proceeds {parent : Option Nat}
    (holds : ∀ n : Nat, g.owner n = some t → n ∈ (Pc.unlockNode parent node : Pc K).holds)
    (asserts : (Pc.unlockNode parent node).Asserts c key g m t call) :
    Proceeds c key g m t call (resume c blank key m call (.unlockNode parent node)) := by
  obtain ⟨held, parentHeld⟩ := asserts
  rw [resume]
  have rest : ∀ n : Nat, (g.own node none).owner n = some t → n ∈ parent.toList := fun n owns => by
    rcases own_mine owns with ⟨_, no⟩ | ⟨ne, owned⟩
    · cases no
    · exact (List.mem_cons.mp (holds n owned)).resolve_left ne
  cases parent with
  | none => exact .act (unlock_effect shape held) rest trivial
  | some p => exact .act (unlock_effect shape held) rest (parentHeld.1.own_other parentHeld.2)

theorem unlockRestart_proceeds (holds : ∀ n : Nat, g.owner n = some t → n ∈ [node])
    (asserts : (Pc.unlockRestart node).Asserts c key g m t call) :
    Proceeds c key g m t call (resume c blank key m call (.unlockRestart node)) := by
  rw [resume]
  exact .act (unlock_effect shape asserts) (fun n mine => absurd mine (unlock_idle holds n)) trivial

theorem unlockReturn_proceeds (holds : ∀ n : Nat, g.owner n = some t → n ∈ [node])
    (asserts : (Pc.unlockReturn node).Asserts c key g m t call) :
    Proceeds c key g m t call (resume c blank key m call (.unlockReturn node)) := by
  obtain ⟨held, stored⟩ := asserts
  have effect := unlock_effect shape held
  rintro m' outcome ⟨⟩
  exact ⟨_, effect, unlock_idle holds, fun _ => effect.stored _ stored⟩

-- A split changes neither the parent nor what is sent to the node.
theorem Ready.afterSplit {parent : Option Nat} {left right : Node K P} (held : Held g t node)
    (ready : Ready c g m t k parent node) :
    Ready c (g.split node m.allocated sep) (m.afterSplit node left right) t k parent node := by
  cases parent with
  | none => exact ready
  | some p =>
    have ne := ready.ne_parent shape
    obtain ⟨heldParent, ⟨n, is, inside⟩, mine, n', is', room⟩ := ready
    have lt := heldParent.lt shape
    have same : (m.afterSplit node left right).node p = m.node p :=
      split_node_other ne (Nat.ne_of_lt lt)
    refine ⟨⟨heldParent.owner, ?_⟩, ⟨n, same.trans is, inside⟩, ?_, n', same.trans is', room⟩
    · rw [split_span_other ne (Nat.ne_of_lt lt), split_reach_old lt, heldParent.whole]
    · rw [split_reach_old (held.lt shape)]
      exact mine

theorem split_proceeds {parent : Option Nat} (slots : 3 ≤ c.innerSlots ∧ c.innerSlots ≤ 65536)
    (holds : ∀ n : Nat, g.owner n = some t → n ∈ (Pc.split parent node : Pc K).holds)
    (asserts : (Pc.split parent node).Asserts c key g m t call) :
    Proceeds c key g m t call (resume c blank key m call (.split parent node)) := by
  obtain ⟨held, full, ready⟩ := asserts
  intro m' outcome next
  cases is : m.node node with
  | inner n =>
    simp only [resume, is, Option.some.injEq, Prod.mk.injEq] at next
    obtain ⟨rfl, rfl⟩ := next
    rw [Full, is] at full
    obtain ⟨effect, pending⟩ := splitInner_effect blank slots shape held is full
    exact ⟨_, effect, holds, pending, ready.afterSplit shape held⟩
  | leaf entries =>
    simp only [resume, is, Option.map_eq_some_iff, Prod.mk.injEq] at next
    obtain ⟨⟨sep, ls, rs⟩, halves, rfl, rfl⟩ := next
    obtain ⟨effect, pending⟩ := splitLeaf_effect shape held is halves
    exact ⟨_, effect, holds, pending, ready.afterSplit shape held⟩

theorem insertSep_proceeds {parent : Option Nat} (slots : 3 ≤ c.innerSlots ∧ c.innerSlots ≤ 65536)
    (holds : ∀ n : Nat, g.owner n = some t → n ∈ (Pc.insertSep parent node sep new).holds)
    (asserts : (Pc.insertSep parent node sep new).Asserts c key g m t call) :
    Proceeds c key g m t call (resume c blank key m call (.insertSep parent node sep new)) := by
  obtain ⟨pending, ready⟩ := asserts
  have lt : node < m.allocated :=
    shape.owned node (by rw [pending.owner]; exact Option.some_ne_none t)
  intro m' outcome next
  cases parent with
  | none =>
    have isRoot : node = m.root := ready
    subst isRoot
    simp only [resume, Option.some.injEq, Prod.mk.injEq] at next
    obtain ⟨rfl, rfl⟩ := next
    refine ⟨_, makeRoot_effect blank slots.1 shape pending, holds, ⟨pending.owner, ?_⟩, trivial⟩
    rw [grow_span_old lt, grow_reach_node lt]
  | some p =>
    have ne := ready.ne_parent shape
    obtain ⟨heldParent, child, mine, n, is, room⟩ := ready
    simp only [resume, is, Option.some.injEq, Prod.mk.injEq] at next
    obtain ⟨rfl, rfl⟩ := next
    exact ⟨_, link_effect slots shape pending heldParent is child room, holds, pending.linked,
      heldParent.link ne, ne⟩

theorem insertLeaf_proceeds (holds : ∀ n : Nat, g.owner n = some t → n ∈ [node])
    (careful : Careful key m call (.insertLeaf node))
    (asserts : (Pc.insertLeaf node).Asserts c key g m t call) :
    Proceeds c key g m t call (resume c blank key m call (.insertLeaf node)) := by
  obtain ⟨held, mine, entries, is, room⟩ := asserts
  have lt := held.lt shape
  intro m' outcome next
  cases call with
  | lookup k => simp [resume, is] at next
  | upsert k v => simp [resume, is] at next
  | insert a =>
    simp only [resume, is, Option.some.injEq, Prod.mk.injEq] at next
    obtain ⟨rfl, rfl⟩ := next
    have ok := shape.leaf lt is
    have fresh : ∀ b ∈ entries, key b ≠ key a := careful entries is
    have effect : Effect c key g m g (m.write node (.leaf (BTreeLeaf.insert key a entries))) t := by
      refine writeLeaf_effect shape lt is ⟨?_, BTreeLeaf.insert_sorted ok.sorted fresh,
        fun b hb => ?_, ok.level⟩
        (.inl held.owner) fun b hb => ⟨b, BTreeLeaf.mem_insert.mpr (.inr hb), rfl⟩
      · rw [BTreeLeaf.length_insert]
        exact room
      · rcases BTreeLeaf.mem_insert.mp hb with rfl | old
        · exact mine
        · exact ok.inside b old
    refine ⟨g, effect, holds, held, fun x lx es hes hx => ?_⟩
    -- the only leaf that answers for the key is the one it has been put into
    have leafLevel := (effect.shape.leaf lx hes).level
    have here : x = node := shape.apart x node lx lt (leafLevel.trans ok.level.symm) _ hx mine
    subst here
    simp only [Memory.write, Function.update_self, Node.leaf.injEq] at hes
    exact ⟨a, hes ▸ BTreeLeaf.mem_insert.mpr (.inl rfl), rfl⟩

theorem store_proceeds {parent : Option (Nat × Nat)} {slot : Nat}
    (idle : ∀ n : Nat, g.owner n ≠ some t)
    (careful : Careful key m call (.store parent node version slot))
    (asserts : (Pc.store parent node version slot).Asserts c key g m t call) :
    Proceeds c key g m t call (resume c blank key m call (.store parent node version slot)) := by
  obtain ⟨seen, points⟩ := asserts
  intro m' outcome next
  cases call with
  | insert b => cases is : m.node node <;> simp [resume, is] at next
  | lookup k => cases is : m.node node <;> simp [resume, is] at next
  | upsert k v =>
    obtain ⟨current, own⟩ := careful k v rfl
    obtain ⟨entries, a, is, at_, eq⟩ := points current
    simp only [resume, is, Option.some.injEq, Prod.mk.injEq] at next
    obtain ⟨rfl, rfl⟩ := next
    have ok := shape.leaf seen.lt is
    have keys : entries.map key = (entries.set slot v).map key := store_keys at_ (own.trans eq.symm)
    have from_ : ∀ b ∈ entries.set slot v, ∃ b' ∈ entries, key b' = key b := fun b hb => by
      have member : key b ∈ entries.map key := keys ▸ List.mem_map_of_mem hb
      exact List.mem_map.mp member
    refine ⟨g, writeLeaf_effect shape seen.lt is ⟨?_, ?_, fun b hb => ?_, ok.level⟩ (.inr keys)
      fun b hb => ?_, idle,
      fun no => absurd no Bool.false_ne_true⟩
    · rw [List.length_set]
      exact ok.bounded
    · have sorted : (entries.map key).Pairwise (· < ·) := List.pairwise_map.mpr ok.sorted
      rw [keys] at sorted
      exact List.pairwise_map.mp sorted
    · obtain ⟨b', hb', same⟩ := from_ b hb
      exact same ▸ ok.inside b' hb'
    · have member : key b ∈ (entries.set slot v).map key := keys ▸ List.mem_map_of_mem hb
      exact List.mem_map.mp member

-- Whatever a thread does next, every thread is right again afterwards.
theorem resume_proceeds (blank : BTreeInner K)
    (slots : 3 ≤ c.innerSlots ∧ c.innerSlots ≤ 65536) (pc : Pc K)
    (holds : ∀ n : Nat, g.owner n = some t → n ∈ pc.holds) (asserts : pc.Asserts c key g m t call)
    (careful : Careful key m call pc) :
    Proceeds c key g m t call (resume c blank key m call pc) := by
  have idle : pc.holds = [] → ∀ n : Nat, g.owner n ≠ some t := fun none n mine =>
    List.not_mem_nil (none ▸ holds n mine)
  cases pc with
  | loadRoot =>
    rw [resume_loadRoot]
    exact read_proceeds shape (idle rfl) shape.root
  | readRootVersion node => exact readRootVersion_proceeds shape (idle rfl) asserts
  | checkRoot node version => exact checkRoot_proceeds shape (idle rfl) asserts
  | readType parent node version => exact readType_proceeds shape (idle rfl) asserts
  | innerFull parent node version => exact innerFull_proceeds shape (idle rfl) asserts
  | checkParent p versionParent node version => exact checkParent_proceeds shape (idle rfl) asserts
  | findChild node version => exact findChild_proceeds shape (idle rfl) asserts
  | checkInner node version child => exact checkInner_proceeds shape (idle rfl) asserts
  | readVersion p versionParent node => exact readVersion_proceeds shape (idle rfl) asserts
  | leafFull parent node version => exact leafFull_proceeds shape (idle rfl) asserts
  | lockParent p versionParent node version => exact lockParent_proceeds shape (idle rfl) asserts
  | lockNode parent node version => exact lockNode_proceeds shape holds asserts
  | recheckRoot node => exact recheckRoot_proceeds shape holds asserts
  | split parent node => exact split_proceeds shape slots holds asserts
  | insertSep parent node sep new => exact insertSep_proceeds shape slots holds asserts
  | unlockNode parent node => exact unlockNode_proceeds shape holds asserts
  | unlockRestart node => exact unlockRestart_proceeds shape holds asserts
  | lockLeaf parent node version => exact lockLeaf_proceeds shape (idle rfl) asserts
  | validateParent p versionParent node => exact validateParent_proceeds shape holds asserts
  | insertLeaf node => exact insertLeaf_proceeds shape holds careful asserts
  | unlockReturn node => exact unlockReturn_proceeds shape holds asserts
  | search parent node version => exact search_proceeds shape (idle rfl) asserts
  | store parent node version slot => exact store_proceeds shape (idle rfl) careful asserts

end Steps

end ElasticIndex.Olc
