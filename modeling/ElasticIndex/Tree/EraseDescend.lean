import ElasticIndex.Tree.EraseLeaf

set_option autoImplicit false

namespace ElasticIndex.Tree

open Separators LinkedRow Loop

variable {K N : Type} [LinearOrder K] {level : Nat} {slots : Slots} {mem : Addr → K}
  {T : EraseType K N} {Valid : N → Prop} {s : Store N} {x : K} {asserts : Bool}

theorem eraseOneDescend_succ (rounds : Nat) (around : Around K (level + 1))
    (inner : InnerNode K (Node K Ptr level)) :
    eraseOneDescend T slots mem asserts rounds x (level + 1) s around inner =
      (eraseOneDescend T slots mem asserts rounds x level s
        (around.below inner (findLower inner.slotkey x))
        (inner.childid (findLower inner.slotkey x))).bind fun out =>
        if out.result.notFound then
          some { store := out.store, parent := around.parent.map Prod.fst,
                 root := some ⟨level + 1, inner⟩, result := out.result }
        else
          (if out.result.fixmerge
            then fixMerge T mem level out.store (out.parent.getD inner) (findLower inner.slotkey x)
            else some (out.store, out.parent.getD inner)).bind fun (s, inner) =>
          underflowInner slots s around (forwardLast around.parent out.result.updateLastkey).1
            (forwardLast around.parent out.result.updateLastkey).2 inner := rfl

theorem eraseOneDescend_erases {removable : N → K → Prop}
    (lawful : T.Lawful mem slots.leaf Valid removable) (several : 2 ≤ slots.leaf)
    (severalInner : 2 ≤ slots.inner) {leaf : Leaf N} (level : Nat) {low sep : WithBot K}
    {around : Around K level} {parent : InnerNode K (Node K Ptr level)}
    {front back : Row K (Node K Ptr level)} {curr : Node K Ptr level} {before after : List Ptr}
    (frame : Frame T slots mem Valid s around parent low front sep curr back before after x)
    (live : s.leaf (descend x level curr) = some leaf) (stored : x ∈ T.keys mem leaf.node)
    (removes : removable leaf.node x)
    (passes : asserts = true → ¬ LastAlone (T.keys mem) s x level parent) :
    ∃ out s' parent' edit, Returns
      (fun rounds => eraseOneDescend T slots mem asserts rounds x level s around curr) out ∧
      Erases T slots mem Valid s parent low front.length before after x edit out s' parent' := by
  induction level generalizing low sep before after with
  | zero => exact eraseLeaf_erases lawful several frame live stored removes passes
  | succ level ih =>
    have here : (sep, curr) ∈ row low parent := by rw [frame.eq]; simp
    obtain ⟨least, most, below⟩ := frame.filled _ here
    have whole := cells_row frame.eq
    have strung := frame.strung
    have loose := frame.loose
    rw [whole, cells_append, cells_append] at strung
    rw [whole, pages_append, pages_append] at loose
    have deeper : descendParent x (level + 1) parent = descendParent x level curr := by
      have child := (childid_of_row frame.eq).2
      change descendParent x level
        (InnerNode.childid parent (findLower (InnerNode.slotkey parent) x)) = _
      rw [frame.slot, child]
    have alone : LastAlone (T.keys mem) s x (level + 1) parent ↔
        LastAlone (T.keys mem) s x level curr := by
      unfold LastAlone
      rw [descend_descendParent, descend_descendParent, deeper]
    dsimp only at least most below
    obtain ⟨front', sep', back', inner⟩ :=
      frame_below curr (before ++ cells (front.flatMap fun e => leaves (level + 1) e.1 e.2))
      (cells (back.flatMap fun e => leaves (level + 1) e.1 e.2) ++ after) frame.leftparent
        frame.rightparent frame.left frame.right
      (by simpa [List.append_assoc] using strung) loose.of_append.1.of_append.2 below (by omega) x
    obtain ⟨out, s', inner', edit, ⟨rounds, returns⟩, erases⟩ :=
      ih inner live (fun on => alone.not.mp (passes on))
    have leastInner := erases.least
    have mostInner := erases.most
    obtain ⟨out', parent', run, found, lastkey, fixed, same, filled, leastParent, mostParent⟩ :=
      underflowInner_row T mem out.result.updateLastkey frame.above frame.eq frame.beside
        frame.some_ frame.filled (by omega) (by omega) ((all_iff_row sep).mpr erases.filled) s'
    have edited : leaves (level + 2) low parent' =
      front.flatMap (fun e => leaves (level + 1) e.1 e.2) ++ leaves (level + 1) sep inner' ++
        resep out.result.updateLastkey (back.flatMap fun e => leaves (level + 1) e.1 e.2) := by
      rw [leaves_children, same, ← leaves_resep]
      simp only [children, List.flatMap_append, List.flatMap_cons, List.flatMap_assoc,
        List.append_assoc]
      rfl
    refine ⟨out', s', parent', edit, ⟨rounds, fun n le => ?_⟩, found, fixed, ?_, ?_, ?_, filled,
      leastParent, mostParent⟩
    · have found' : ¬ out.result.notFound = true := by rw [erases.found]; simp
      have called : eraseOneDescend T slots mem asserts n x level s
        (around.below curr (findLower (InnerNode.slotkey curr) x))
        (InnerNode.childid curr (findLower (InnerNode.slotkey curr) x)) = some out := returns n le
      refine (eraseOneDescend_succ n around curr).trans ?_
      rw [called, Option.bind_some, if_neg found', inner.slot, erases.fixed, Option.bind_some]
      exact run
    · rw [whole, edited, lastkey]
      exact erases.edits.outer _ flatMap_leaves_eq_nil.symm
    · exact ⟨erases.done.first, erases.done.inside, erases.done.keys, erases.done.others,
        erases.done.bound,
        fun not => erases.done.same (alone.not.mp not)⟩
    · have strung' := erases.strung
      rw [edited, cells_append, cells_append]
      simp only [cells, map_snd_resep] at strung' ⊢
      simpa [List.append_assoc] using strung'

end ElasticIndex.Tree
