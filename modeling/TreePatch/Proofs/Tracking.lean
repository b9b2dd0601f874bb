import TreePatch.Proofs.MatchedPairs

/-!
# Outlines are faithful

What an outline shows of a linked tree, in terms of the nodes that its numbers stand for. A number stands for
a node if the node can be reached and nothing on the way to it is ignored (`exists_stands_iff`): an ignored
node disappears with all that is below it, and so does what was unlinked. On what is left the numbers repeat
the links of the tree, and two numbers have one form if and only if their subtrees agree node by node.
-/

namespace TreePatch

namespace Outline

variable {t : Tree}

/-- Neither the node nor one above it is ignored. The root is tracked whatever it looks like. -/
def Visible (t : Tree) (n : NodeId) : Prop :=
  ∀ a ∈ n :: t.ancestors n, a ≠ Tree.root → t.isIgnored a = false

theorem visible_root (L : t.Linked) : Visible t Tree.root := by
  intro a ha hne
  rw [L.ancestors_root, List.mem_singleton] at ha
  exact absurd ha hne

theorem visible_iff_of_parent (L : t.Linked) {n p : NodeId} (h : t.parent? n = some p) :
    Visible t n ↔ t.isIgnored n = false ∧ Visible t p := by
  rw [Visible, L.ancestors_of_some h, List.forall_mem_cons]
  exact and_congr_left' ⟨fun hn => hn (L.ne_root_of_parent h), fun hn _ => hn⟩

theorem Stands.visible (L : t.Linked) {i : Nat} {n : NodeId} (h : Stands t i n) : Visible t n := by
  induction i using (forest_ofTree t).induction_up generalizing n with
  | step i ih =>
    rcases h.parent L (h.lt_size L) (h.ne_root L) with ⟨-, rfl⟩ | ⟨j, p, hj, -, hp, hpar, htracked⟩
    · exact visible_root L
    · exact (visible_iff_of_parent L hpar).mpr ⟨htracked, ih j hj hp⟩

theorem exists_stands_iff (L : t.Linked) {n : NodeId} :
    (∃ i, Stands t i n) ↔ t.isAttached n = true ∧ Visible t n := by
  constructor
  · rintro ⟨i, hi⟩
    exact ⟨hi.isAttached L, hi.visible L⟩
  · rintro ⟨hattached, hvisible⟩
    refine L.induction_attached (P := fun n => Visible t n → ∃ i, Stands t i n)
      (fun _ => ⟨1, stands_root t⟩) (fun n p hp _ ih hvisible => ?_) hattached hvisible
    obtain ⟨htracked, hparent⟩ := (visible_iff_of_parent L hp).mp hvisible
    obtain ⟨i, hi⟩ := ih hparent
    obtain ⟨j, hj, -⟩ := hi.exists_child L hp htracked
    exact ⟨j, hj⟩

theorem find?_ref_eq_some_iff (L : t.Linked) {n : NodeId} {i : Nat} :
    (ofTree t).find? (t.ref n) = some i ↔ Stands t i n := by
  rw [find?_eq_some_iff L]
  constructor
  · rintro ⟨m, hm, heq⟩
    obtain rfl : n = m := congrArg NodeRef.node heq
    exact hm
  · exact fun h => ⟨n, h, rfl⟩

/-- What the outline `o` shows of the tree `t`. -/
structure Shows (o : Outline) (t : Tree) : Prop where
  /-- Every number is the place of its node in preorder. -/
  numbered : o.preorder root = List.range o.size
  /-- The first number is the extra root, which stands for no node, as no other number does. -/
  top : (o.node root).toMark = .top ∧ o.parent? root = none ∧
    (o.children root).map some = [o.find? (t.ref Tree.root)]
  top_only : ∀ i < o.size, (o.node i).origin = none → i = root
  /-- A node has a number if and only if it can be reached and nothing on the way to it is ignored. -/
  tracked : ∀ n, (o.find? (t.ref n)).isSome = true ↔ t.isAttached n = true ∧ Visible t n
  /-- The number found for a node is the one that stands for it. -/
  origin : ∀ r i, o.find? r = some i ↔ (o.node i).origin = some r
  mark : ∀ {n i}, o.find? (t.ref n) = some i → (o.node i).toMark = .ofNode t n
  parent : ∀ {n p i}, o.find? (t.ref n) = some i → t.parent? n = some p →
    ∃ j, o.find? (t.ref p) = some j ∧ o.parent? i = some j
  /-- The children are the tracked ones of the tree, in order. -/
  children : ∀ {n i}, o.find? (t.ref n) = some i →
    (o.children i).map some =
      ((t.children n).filter fun c => !t.isIgnored c).map fun c => o.find? (t.ref c)
  weight : ∀ i < o.size, o.weight i = (o.preorder i).length

theorem map_find?_of_forall₂ (L : t.Linked) {is : List Nat} {ns : List NodeId}
    (h : List.Forall₂ (Stands t) is ns) :
    is.map some = ns.map fun n => (ofTree t).find? (t.ref n) := by
  induction h with
  | nil => rfl
  | cons hi _ ih => rw [List.map_cons, List.map_cons, ih, (find?_ref_eq_some_iff L).mpr hi]

theorem shows_ofTree (L : t.Linked) : (ofTree t).Shows t where
  numbered := preorder_root_ofTree t
  top := by
    refine ⟨toMark_root t, parent_of_root t, ?_⟩
    rw [children_root, (find?_ref_eq_some_iff L).mpr (stands_root t)]
    rfl
  top_only i hi h := by
    by_contra hne
    obtain ⟨n, hn⟩ := exists_stands L hi hne
    rw [hn.origin L] at h
    simp at h
  tracked n := by
    rw [← exists_stands_iff L, Option.isSome_iff_exists]
    exact exists_congr fun i => find?_ref_eq_some_iff L
  origin r i := by
    rw [find?_eq_some_iff L, origin_eq_some_iff L]
  mark h := ((find?_ref_eq_some_iff L).mp h).toMark L
  parent h hp := by
    obtain ⟨-, j, hj, hparent⟩ := ((find?_ref_eq_some_iff L).mp h).exists_parent L hp
    exact ⟨j, (find?_ref_eq_some_iff L).mpr hj, hparent⟩
  children h := map_find?_of_forall₂ L (((find?_ref_eq_some_iff L).mp h).children L)
  weight i hi := (Pairing.length_preorder t hi).symm

/-- **Outlines are faithful.** The outline of a linked tree numbers its nodes in preorder below one extra root.
It has exactly the nodes that can be reached without passing an ignored node, finding the number of a node and
asking for the node of a number are inverse to each other, parents and children are those of the tree without
its ignored nodes, and the weight of a number counts the numbers below it. Two numbers, of one outline or of
two, have the same form if and only if their subtrees agree in kinds, labels and children throughout. -/
theorem faithful_to_tree (L : t.Linked) :
    (ofTree t).Shows t ∧ ∀ (u : Tree) {i j : Nat}, i < (ofTree t).size → j < (ofTree u).size →
      ((Pairing.ofTrees t u).sameShape i j = true ↔ (Pairing.ofTrees t u).Congruent i j) := by
  refine ⟨shows_ofTree L, fun u i j hi hj => ?_⟩
  rw [Pairing.congruent_iff_shape hi hj]
  exact ⟨Rose.eq_of_beq _ _, fun h => by
    rw [Pairing.sameShape, h]
    exact Rose.beq_self _⟩

end Outline

/-- A block with a modifier list that was supplied, a name in it, and a name beside it, which is copied. The
copy is not linked. -/
def Tree.withCopy : Tree :=
  let name : String → Rose Content := fun text =>
    .node { kind := "identifier", label := text, role := .child } []
  let t := ofRose "t" none <| .node rootContent
    [.node { kind := "block", label := "", role := .child }
      [.node { kind := "modifiers", label := "", role := .modifier, implicit := true } [name "a"], name "b"]]
  (t.graft t 4).tree

/-- The name in the modifier list and the copy are not shown, and all else is. -/
theorem Outline.faithful_to_tree_withCopy :
    Tree.withCopy.Linked ∧
      (List.range 6).map (fun n => (Outline.ofTree Tree.withCopy).find? (Tree.withCopy.ref n)) =
        [some 1, some 2, none, none, some 3, none] ∧
      (Outline.ofTree Tree.withCopy).Shows Tree.withCopy ∧
      (Pairing.ofTrees Tree.withCopy Tree.withCopy).Congruent 3 3 := by
  have L : Tree.withCopy.Linked := Tree.linked_graft (Tree.linked_ofRose _ _ _) _
  obtain ⟨hshows, hforms⟩ := Outline.faithful_to_tree L
  exact ⟨L, by decide +kernel, hshows,
    (hforms Tree.withCopy (by decide +kernel) (by decide +kernel)).mp (by decide +kernel)⟩

end TreePatch
