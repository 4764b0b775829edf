import ElasticIndex.Olc.Stability

set_option autoImplicit false

namespace ElasticIndex.Olc

variable {T K P : Type} [LinearOrder K] {c : Config} {blank : BTreeInner K}
  {key : P → K} {g g' : View T K} {m m' : Memory K P} {t u : T} {node p new : Nat} {k sep : K}
  {parent : Option Nat}

/-- What one action of thread t does to the tree: its shape stays right, no stored key is lost, and
the other threads can count on what they could count on before. -/
structure Effect (c : Config) (key : P → K) (g : View T K) (m : Memory K P)
    (g' : View T K) (m' : Memory K P) (t : T) : Prop where
  shape : Shape c key g' m'
  stored : ∀ k, Stored key g m k → Stored key g' m' k
  others : ∀ u, u ≠ t → Rely key g m g' m' u

theorem InnerOk.congr {n : BTreeInner K} (ok : InnerOk c g m node n)
    (grows : m.allocated ≤ m'.allocated) (span : g'.span node = g.span node)
    (here : g'.height node = g.height node)
    (level : ∀ x : Nat, x < m.allocated → g'.height x = g.height x)
    (reach : ∀ j : Nat, j ≤ n.count → g'.reach (n.children j) = g.reach (n.children j)) :
    InnerOk c g' m' node n := by
  refine ⟨ok.bounded, ok.sorted, fun x lt => ?_, fun none k hk => ?_, fun j le => ?_,
    fun j le => ?_, fun j le => ?_⟩
  · rw [span]
    exact ok.inside x lt
  · rw [span] at hk
    exact ok.empty none k hk
  · exact lt_of_lt_of_le (ok.known j le) grows
  · rw [level _ (ok.known j le), here]
    exact ok.level j le
  · rw [reach j le, span]
    exact ok.sends j le

theorem LeafOk.congr {entries : List P} (ok : LeafOk c key g node entries)
    (span : g'.span node = g.span node) (here : g'.height node = g.height node) :
    LeafOk c key g' node entries := by
  refine ⟨ok.bounded, ok.sorted, fun a ha => ?_, ?_⟩
  · rw [span]
    exact ok.inside a ha
  · rw [here]
    exact ok.level

-- A node that nobody has written to, whose children are sent the same keys.
theorem NodeOk.congr (ok : NodeOk c key g m node) (lt : node < m.allocated)
    (grows : m.allocated ≤ m'.allocated) (same : m'.node node = m.node node)
    (span : g'.span node = g.span node)
    (level : ∀ x : Nat, x < m.allocated → g'.height x = g.height x)
    (reach : ∀ child : Nat, Child m node child → g'.reach child = g.reach child) :
    NodeOk c key g' m' node := by
  unfold NodeOk at ok ⊢
  rw [same]
  cases is : m.node node with
  | inner n =>
    rw [is] at ok
    exact InnerOk.congr ok grows span (level node lt) level fun j le => reach _ ⟨n, is, j, le, rfl⟩
  | leaf entries =>
    rw [is] at ok
    exact LeafOk.congr ok span (level node lt)

theorem Effect.refl (shape : Shape c key g m) : Effect c key g m g m t :=
  ⟨shape, fun _ stored => stored, fun _ _ =>
    { grows := le_rfl, later := fun _ _ => le_rfl, level := fun _ _ => rfl,
      owner := fun _ => Iff.rfl
      same := fun _ _ _ => ⟨.refl _, rfl⟩, ownReach := fun _ _ _ => rfl, reach :=
        fun _ _ _ _ _ _ _ => rfl
      topReach := fun _ _ _ _ _ => rfl, root := fun _ => rfl, stored := fun _ stored => stored }⟩

theorem Held.lt (shape : Shape c key g m) (held : Held g t node) : node < m.allocated :=
  shape.owned node (by rw [held.owner]; exact Option.some_ne_none t)

-- What one thread holds is not calm for another.
theorem Shape.restless (shape : Shape c key g m) (owner : g.owner node = some t) (ne : u ≠ t) :
    ¬ Calm g m m' u node := fun calm => by
  rcases calm with theirs | ⟨free, _⟩
  · exact ne (Option.some.inj (theirs.symm.trans owner))
  · have lt : node < m.allocated := shape.owned node (by rw [owner]; exact Option.some_ne_none t)
    have none := owner.symm.trans (shape.free lt free)
    cases none

-- Locking and unlocking write the version word only.
section Version

def View.own (g : View T K) (node : Nat) (owner : Option T) : View T K :=
  { g with owner := Function.update g.owner node owner }

variable (shape : Shape c key g m) (lt : node < m.allocated)

include shape lt

theorem version_effect {owner : Option T} (before : g.owner node = none ∨ g.owner node = some t)
    (after : owner = none ∨ owner = some t) (flips : g.owner node = none ↔ owner ≠ none)
    (whole : owner = none → g.span node = g.reach node) :
    Effect c key g m (g.own node owner) (m.addVersion node) t := by
  have nodes : ∀ n : Nat, n < m.allocated →
      NodeOk c key (g.own node owner) (m.addVersion node) n := fun n lt' =>
    (shape.nodes n lt').congr lt' le_rfl rfl rfl (fun _ _ => rfl) fun _ _ => rfl
  refine ⟨⟨shape.root, shape.top, shape.highest, fun n held => ?_, fun n lt' => ?_,
    fun n lt' free => ?_, shape.apart,
    nodes⟩, fun k stored => stored, fun u ne => ?_⟩
  · by_cases here : n = node
    · exact here ▸ lt
    · simp only [View.own, Function.update_of_ne here] at held
      exact shape.owned n held
  · by_cases here : n = node
    · subst here
      have old := shape.locked n lt
      simp only [View.own, Memory.addVersion, Function.update_self, isLocked_add, Bool.not_eq_true']
      rw [← Bool.not_eq_true, old, ne_eq, not_not]
      exact flips
    · simpa only [View.own, Memory.addVersion, Function.update_of_ne here] using shape.locked n lt'
  · by_cases here : n = node
    · subst here
      simp only [View.own, Function.update_self] at free
      exact whole free
    · simp only [View.own, Function.update_of_ne here] at free
      exact shape.settled n lt' free
  · have stranger : ∀ {o : Option T}, o = none ∨ o = some t → o ≠ some u := fun is same => by
      rcases is with rfl | rfl
      · cases same
      · exact ne (Option.some.inj same).symm
    refine ⟨le_rfl, fun n _ => ?_, fun _ _ => rfl, fun n => ?_,
      fun n _ _ => ⟨.refl _, rfl⟩, fun _ _ _ => rfl,
      fun _ _ _ _ _ _ _ => rfl, fun _ _ _ _ _ => rfl, fun _ => rfl, fun _ stored => stored⟩
    · by_cases here : n = node
      · subst here
        simp [Memory.addVersion]
      · simp [Memory.addVersion, Function.update_of_ne here]
    · by_cases here : n = node
      · subst here
        simp only [View.own, Function.update_self]
        exact ⟨fun same => absurd same (stranger after), fun same => absurd same (stranger before)⟩
      · simp only [View.own, Function.update_of_ne here]

theorem lock_effect (free : isLocked (m.version node) = false) :
    Effect c key g m (g.own node (some t)) (m.addVersion node) t :=
  version_effect shape lt (.inl (shape.free lt free)) (.inr rfl)
    ⟨fun _ => Option.some_ne_none t, fun _ => shape.free lt free⟩ fun none =>
      absurd none (Option.some_ne_none t)

omit lt in
theorem unlock_effect (held : Held g t node) :
    Effect c key g m (g.own node none) (m.addVersion node) t :=
  version_effect shape (held.lt shape) (.inr held.owner)
    (.inl rfl) ⟨fun none => absurd (held.owner.symm.trans none) (Option.some_ne_none t),
      fun no => absurd rfl no⟩
    fun _ => held.whole

end Version

-- Writing a leaf: under its lock, or without a change of its keys.
theorem writeLeaf_effect (shape : Shape c key g m) (lt : node < m.allocated)
    {entries entries' : List P} (is : m.node node = .leaf entries)
    (ok : LeafOk c key g node entries')
    (quiet : g.owner node = some t ∨ entries.map key = entries'.map key)
    (grows : ∀ a ∈ entries, ∃ a' ∈ entries', key a' = key a) :
    Effect c key g m g (m.write node (.leaf entries')) t := by
  have wasLeaf : ∀ child : Nat, ¬ Child m node child := fun child has => by
    obtain ⟨n, inner, _⟩ := has
    rw [is] at inner
    cases inner
  have stored : ∀ k, Stored key g m k → Stored key g (m.write node (.leaf entries')) k :=
      fun k stored n ln es hes hk => by
    by_cases here : n = node
    · subst here
      simp only [Memory.write, Function.update_self, Node.leaf.injEq] at hes
      obtain ⟨a, ha, eq⟩ := stored n ln entries is hk
      obtain ⟨a', ha', eq'⟩ := grows a ha
      exact ⟨a', hes ▸ ha', eq'.trans eq⟩
    · simp only [Memory.write, Function.update_of_ne here] at hes
      exact stored n ln es hes hk
  refine ⟨{ shape with nodes := fun n ln => ?_ }, stored, fun u ne => ?_⟩
  · by_cases here : n = node
    · subst here
      simp only [NodeOk, Memory.write, Function.update_self]
      exact ok
    · exact (shape.nodes n ln).congr ln
        le_rfl (by simp only [Memory.write, Function.update_of_ne here]) rfl
        (fun _ _ => rfl) fun _ _ => rfl
  · refine ⟨le_rfl, fun _ _ => le_rfl, fun _ _ => rfl, fun _ => Iff.rfl,
      fun n _ calm => ⟨?_, rfl⟩, fun _ _ _ => rfl,
      fun _ _ _ _ _ _ _ => rfl, fun _ _ _ _ _ => rfl, fun _ => rfl, stored⟩
    by_cases here : n = node
    · subst here
      simp only [Memory.write, Function.update_self, is]
      rcases quiet with mine | same
      · exact absurd calm (shape.restless mine ne)
      · exact same
    · simp only [Memory.write, Function.update_of_ne here]
      exact .refl _

end ElasticIndex.Olc
