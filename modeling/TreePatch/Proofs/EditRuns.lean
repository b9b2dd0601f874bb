import TreePatch.Proofs.Changes

/-!
# Runs of edits

Every run of edits keeps a tree linked, whether its edits succeed or are refused, as long as no node is
linked under itself and the root stays on top. The same goes for the application of patches, which
edits in its own order and may break off anywhere.
-/

namespace TreePatch

/-- One call of an editing operation. -/
inductive Edit where
  | addNode (content : Content)
  | pushChild (parent : NodeId) (content : Content)
  | setLabel (id : NodeId) (label : String)
  | detach (id : NodeId)
  | insertChild (parent : NodeId) (index : Nat) (child : NodeId)
  | appendChild (parent child : NodeId)
  | replace (old new : NodeId)
  | graft (donor : Tree) (id : NodeId)

namespace Edit

/-- What an edit makes of a tree. -/
def run (t : Tree) : Edit → Except TreeError Tree
  | addNode c => .ok (t.addNode c)
  | pushChild p c => .ok (t.pushChild p c)
  | setLabel n label => .ok (t.setLabel n label)
  | detach n => t.detach n
  | insertChild p i n => t.insertChild p i n
  | appendChild p n => t.appendChild p n
  | replace old new => t.replace old new
  | graft donor n => .ok (t.graft donor n).tree

/-- The tree after an edit. One that is refused leaves it as it was. -/
def after (t : Tree) (e : Edit) : Tree :=
  match e.run t with
  | .ok t' => t'
  | .error _ => t

/-- An edit links nodes of the tree, but not the root, and no node at or below itself. -/
def Admissible (t : Tree) : Edit → Prop
  | pushChild p _ => p < t.size
  | insertChild p _ n | appendChild p n =>
    p < t.size ∧ n < t.size ∧ n ≠ Tree.root ∧ n ∉ p :: t.ancestors p
  | replace old new => new < t.size ∧ new ≠ Tree.root ∧ new ∉ t.ancestors old
  | addNode _ | setLabel _ _ | detach _ | graft _ _ => True

instance (t : Tree) : (e : Edit) → Decidable (e.Admissible t)
  | pushChild _ _ => inferInstanceAs (Decidable (_ < _))
  | insertChild _ _ _ | appendChild _ _ => inferInstanceAs (Decidable (_ ∧ _ ∧ _ ∧ _))
  | replace _ _ => inferInstanceAs (Decidable (_ ∧ _ ∧ _))
  | addNode _ | setLabel _ _ | detach _ | graft _ _ => inferInstanceAs (Decidable True)

/-- Every edit of a run is admissible in the tree that it finds. -/
def AllAdmissible : Tree → List Edit → Prop
  | _, [] => True
  | t, e :: es => e.Admissible t ∧ AllAdmissible (e.after t) es

instance decidableAllAdmissible : (t : Tree) → (es : List Edit) → Decidable (AllAdmissible t es)
  | _, [] => inferInstanceAs (Decidable True)
  | t, e :: es =>
    have := decidableAllAdmissible (e.after t) es
    inferInstanceAs (Decidable (_ ∧ _))

end Edit

/-! ## Single edits -/

namespace Tree

variable {t : Tree}

theorem node_push (t : Tree) (m : Node) (x : NodeId) :
    node { t with nodes := t.nodes.push m } x = if x = t.size then m else t.node x := by
  rw [node, node, Array.getD_eq_getD_getElem?, Array.getD_eq_getD_getElem?, Array.getElem?_push]
  by_cases hx : x = t.size
  · rw [if_pos hx]
    exact congrArg (Option.getD · Node.absent) (if_pos hx)
  · rw [if_neg hx]
    exact congrArg (Option.getD · Node.absent) (if_neg hx)

theorem size_push (t : Tree) (m : Node) : size { t with nodes := t.nodes.push m } = t.size + 1 :=
  Array.size_push ..

theorem addNode_links (t : Tree) (c : Content) (x : NodeId) :
    (t.addNode c).parent? x = t.parent? x ∧ (t.addNode c).children x = t.children x := by
  rw [parent?, parent?, children, children, addNode, node_push]
  split
  · next hx =>
    rw [t.node_of_size_le (Nat.le_of_eq hx.symm)]
    exact ⟨rfl, rfl⟩
  · exact ⟨rfl, rfl⟩

theorem Linked.addNode (L : t.Linked) (c : Content) : (t.addNode c).Linked :=
  L.of_same_links (by rw [Tree.addNode, size_push]; exact Nat.le_succ _)
    (fun x => (addNode_links t c x).1) fun x => (addNode_links t c x).2

theorem Linked.setLabel (L : t.Linked) (n : NodeId) (label : String) : (t.setLabel n label).Linked := by
  refine L.of_same_links (Nat.le_of_eq (size_modify _ _ _).symm) (fun x => ?_) fun x => ?_
  · rw [parent?, parent?, Tree.setLabel, node_modify]
    split <;> rfl
  · rw [children, children, Tree.setLabel, node_modify]
    split <;> rfl

theorem pushChild_linkedIn {p : NodeId} (hp : p < t.size) (c : Content) :
    LinkedIn (t.addNode c) p (t.children p).length t.size (t.pushChild p c) := by
  have hne : p ≠ t.size := Nat.ne_of_lt hp
  have hnode : ∀ x, (t.pushChild p c).node x =
      { (t.addNode c).node x with
        parent := if x = t.size then some p else (t.addNode c).parent? x
        children := if x = p then t.children p ++ [t.size] else (t.addNode c).children x } := by
    intro x
    simp only [parent?, children, addNode, pushChild, node_modify, size_push, node_push]
    by_cases hx : x = t.size
    · subst hx
      simp [Ne.symm hne]
    · by_cases hxp : x = p
      · subst hxp
        simp [hx, Nat.lt_succ_of_lt hp]
      · simp [hx, hxp]
  refine ⟨rfl, ?_, fun x => ?_, fun x => ?_, fun x => ?_, rfl⟩
  · rw [pushChild, size_modify, size_push, addNode, size_push]
  · exact (congrArg Node.toContent (hnode x) :)
  · exact (congrArg Node.parent (hnode x) :)
  · rw [(addNode_links t c p).2, List.take_length, List.drop_length]
    exact (congrArg Node.children (hnode x) :)

theorem Linked.pushChild (L : t.Linked) {p : NodeId} (hp : p < t.size) (c : Content) :
    (t.pushChild p c).Linked := by
  have La := L.addNode c
  have htop : (t.addNode c).parent? t.size = none := by
    rw [(addNode_links t c _).1, parent?, t.node_of_size_le (Nat.le_refl _)]
    rfl
  refine (pushChild_linkedIn hp c).linked_of_notMem La htop (Nat.ne_of_gt L.root_lt) ?_
  -- a new node has nothing below it
  rw [List.mem_cons, not_or]
  refine ⟨Nat.ne_of_gt hp, fun habove => ?_⟩
  obtain ⟨child, hchild, -⟩ := La.forest.exists_child_toward p habove
  rw [(addNode_links t c child).1] at hchild
  exact Nat.lt_irrefl _ (L.parent_lt hchild)

end Tree

/-! ## Runs -/

namespace Edit

variable {t t' : Tree}

theorem linked_of_insertChild (L : t.Linked) {p n : NodeId} {i : Nat} (hp : p < t.size)
    (hn : n < t.size) (hroot : n ≠ Tree.root) (habove : n ∉ p :: t.ancestors p)
    (h : t.insertChild p i n = .ok t') : t'.Linked := by
  obtain ⟨htop, -, hl⟩ := Tree.insertChild_of_ok hp hn h
  exact hl.linked_of_notMem L htop hroot habove

theorem linked_of_replace (L : t.Linked) {old new : NodeId} (hnew : new < t.size)
    (hroot : new ≠ Tree.root) (habove : new ∉ t.ancestors old) (h : t.replace old new = .ok t') :
    t'.Linked := by
  obtain ⟨p, hp, htop, he⟩ := Tree.replace_of_ok L hnew h
  rw [L.ancestors_of_some hp] at habove
  exact he.linked_of_notMem L hp htop hroot habove

theorem Admissible.linked_of_run (L : t.Linked) {e : Edit} (h : e.Admissible t)
    (hrun : e.run t = .ok t') : t'.Linked := by
  cases e with
  | addNode c => exact Except.ok.inj hrun ▸ L.addNode c
  | pushChild p c => exact Except.ok.inj hrun ▸ L.pushChild h c
  | setLabel n label => exact Except.ok.inj hrun ▸ L.setLabel n label
  | detach n =>
    obtain ⟨p, -, hu⟩ := Tree.detach_of_ok L hrun
    exact hu.linked L
  | insertChild p i n =>
    obtain ⟨hp, hn, hroot, habove⟩ := h
    exact linked_of_insertChild L hp hn hroot habove hrun
  | appendChild p n =>
    obtain ⟨hp, hn, hroot, habove⟩ := h
    exact linked_of_insertChild L hp hn hroot habove hrun
  | replace old new =>
    obtain ⟨hnew, hroot, habove⟩ := h
    exact linked_of_replace L hnew hroot habove hrun
  | graft donor n => exact Except.ok.inj hrun ▸ Tree.linked_graft L n

theorem Admissible.linked (L : t.Linked) {e : Edit} (h : e.Admissible t) : (e.after t).Linked := by
  rw [after]
  split
  · next t' hrun => exact h.linked_of_run L hrun
  · exact L

theorem AllAdmissible.linked (L : t.Linked) {es : List Edit} (h : AllAdmissible t es) :
    (es.foldl after t).Linked := by
  induction es generalizing t with
  | nil => exact L
  | cons e es ih => exact ih (h.1.linked L) h.2

end Edit

theorem Revision.linked_apply {r : Revision} (Ls : r.src.Linked) (D : r.dst.Linked)
    (hown : r.src.DeclaresOwn) {ops : List Operation} {s : PatchSet} (h : r.generate ops = .ok s) :
    (s.apply r.src).tree.Linked := by
  have hdst := (of_generate h).1
  rcases PatchSet.apply_changes Ls (hdst ▸ D) (fun hplan => hdst ▸ within_of_generate Ls hown h hplan)
    with hsame | ⟨plan, w, -, hchanges, htree⟩
  · rw [hsame]
    exact Ls
  · rw [htree]
    exact (Changes.grown Ls (hdst ▸ D) (Grown.start Ls) hchanges).linked

/-- **Trees stay linked**, under every run of edits and under the application of every set of patches that
can be generated, whatever the operations and the correspondence, and wherever it breaks off. The units
of the source tree have to declare nodes of that tree. -/
theorem Tree.Linked.stays_linked {src dst : Tree} (hs : src.Linked) (hd : dst.Linked) :
    (∀ edits, Edit.AllAdmissible src edits → (edits.foldl Edit.after src).Linked) ∧
      (src.DeclaresOwn → ∀ nodes ops set, Revision.generate { src, dst, nodes } ops = .ok set →
        (set.apply src).tree.Linked) :=
  ⟨fun _ hadmissible => hadmissible.linked hs,
    fun hown nodes _ _ hgenerate => Revision.linked_apply (r := { src, dst, nodes }) hs hd hown hgenerate⟩

/-- Some edits of the run are refused: the node that it links a second time is linked already, and the one
that it unlinks does not exist. The patches take the name of a method away and then look for it. -/
theorem Tree.Linked.stays_linked_methods :
    let src := Tree.ofMethods "old" [("f", ["A"])]
    let dst := Tree.ofMethods "new" [("f", ["A", "B"])]
    let content : Content := { kind := "identifier", label := "x", role := .argument }
    let edits : List Edit := [.addNode content, .pushChild 4 content, .setLabel 5 "C", .detach 4,
      .insertChild 1 0 4, .appendChild 2 4, .detach 99, .replace 4 6, .graft dst 2, .appendChild 6 8]
    let ops : List Operation := [⟨.delete, src.ref 3, none⟩, ⟨.insert, dst.ref 4, none⟩]
    src.Linked ∧ dst.Linked ∧ src.DeclaresOwn ∧ Edit.AllAdmissible src edits ∧
      (edits.foldl Edit.after src).Linked ∧
      ∃ nodes set,
        Correspondence.resolve (src.diff dst 2).pairing (src.diff dst 2).pairs src dst = .ok nodes ∧
        Revision.generate { src, dst, nodes } ops = .ok set ∧
        (set.apply src).error = some .anchorNotInParent ∧ (set.apply src).tree.Linked := by
  intro src dst content edits ops
  have hs : src.Linked := linked_ofRose _ _ _
  have hd : dst.Linked := linked_ofRose _ _ _
  have hown : src.DeclaresOwn := (inSync_ofRose _ _ _).declaresOwn hs
  have hadmissible : Edit.AllAdmissible src edits := by decide +kernel
  have hstays := stays_linked hs hd
  let nodes := src.correspondence dst 2
  have hgenerate := eq_ok_of_isSome (a := PatchSet.empty dst)
    (by decide +kernel : (Revision.generate { src, dst, nodes } ops).toOption.isSome = true)
  refine ⟨hs, hd, hown, hadmissible, hstays.1 edits hadmissible, nodes, _, by decide +kernel, hgenerate,
    by decide +kernel, hstays.2 hown nodes ops _ hgenerate⟩

/-- Two ways to link a node under itself, by a number that no node has yet. A child is pushed under the
number that it gets. And the unit of a tree declares number 3: the path of the class leads there, and the
copy that is to be linked under the class gets this number. -/
theorem Tree.linked_under_itself :
    let package (label : String) : Rose Content := .node rootContent
      [.node { kind := "class_declaration", label := "", role := .containedType }
        [.node { kind := "identifier", label, role := .slot .name } []]]
    let src := { Tree.ofRose "old" none (package "A") with units := [⟨none, [3]⟩] }
    let dst := Tree.ofRose "new" none (package "B")
    src.Linked ∧ dst.Linked ∧ (∀ content, ¬ (src.pushChild src.size content).Linked) ∧
      ∃ nodes set,
        Correspondence.resolve (src.diff dst 2).pairing (src.diff dst 2).pairs src dst = .ok nodes ∧
        Revision.generate { src, dst, nodes } [⟨.insert, dst.ref 2, none⟩] = .ok set ∧
        (set.apply src).error = none ∧ (set.apply src).tree.parent? 3 = some 3 ∧
        ¬ (set.apply src).tree.Linked := by
  intro package src dst
  have hs : src.Linked :=
    (linked_ofRose "old" none (package "A")).of_same_links (Nat.le_refl _) (fun _ => rfl) fun _ => rfl
  refine ⟨hs, linked_ofRose _ _ _, fun content L => L.parent?_ne_self 3 rfl, ?_⟩
  let nodes := src.correspondence dst 2
  have hgenerate := eq_ok_of_isSome (a := PatchSet.empty dst) (by decide +kernel :
    (Revision.generate { src, dst, nodes } [⟨.insert, dst.ref 2, none⟩]).toOption.isSome = true)
  have hparent : (((Revision.generate { src, dst, nodes } [⟨.insert, dst.ref 2, none⟩]).toOption.getD
      (.empty dst)).apply src).tree.parent? 3 = some 3 := by decide +kernel
  exact ⟨nodes, _, by decide +kernel, hgenerate, by decide +kernel, hparent,
    fun L => L.parent?_ne_self 3 hparent⟩

end TreePatch
