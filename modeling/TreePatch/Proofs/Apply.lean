import TreePatch.Proofs.Thrown

/-!
# Patches apply

The stages of patching in a row: deletions, updates, the removals that moves begin with, and then one
placement after the other. Between addressable trees no stage fails, so that the way from two trees to
the patched one always comes to its end.
-/

namespace TreePatch

/-! ## One placement -/

namespace Patching

variable {w : Workpiece} (dst : Tree) {pl : Placement} {p : NodeId}

theorem place_run_of_copied (h : (w.copies.lookup pl.insertion.node).isSome = true) :
    place dst pl w = .ok () w := by
  rw [place, copyOf_bind, if_neg (by simpa [Option.isSome_iff_ne_none] using h)]
  rfl

theorem place_run_of_lookup_eq_none (h : w.copies.lookup pl.insertion.node = none) :
    place dst pl w =
      (parentOf pl >>= fun parent => copyIn dst pl.insertion.node >>= link dst pl parent) w := by
  rw [place, copyOf_bind, if_pos (Option.isNone_iff_eq_none.mpr h)]

theorem place_run_of_uncopied (h : w.copies.lookup pl.insertion.node = none)
    (hp : pl.parent = some p) :
    place dst pl w =
      link dst pl p (w.tree.graft dst pl.insertion.node).copy
        ⟨(w.tree.graft dst pl.insertion.node).tree,
          (w.tree.graft dst pl.insertion.node).copies ++ w.copies, w.stages⟩ := by
  rw [place_run_of_lookup_eq_none dst h, parentOf, hp]
  rfl

end Patching

section

variable {r : Revision} {stay : NodeId → Option NodeId} {deletes : List NodeId}
  {updates copies : List (NodeId × NodeId)} {placed : List (NodeId × Option NodeId)}
  {renamed : NodeId → String → Prop} {done : List NodeId} {t : Tree} {pl : Placement}
  {source : Option NodeId}
  (R : Reconciled r.src r.dst stay deletes updates placed) (C : Corresponds r stay)
  (As : r.src.Regular) (Ad : r.dst.Regular) (U : Unambiguous r stay deletes updates placed)

include R C As Ad U

theorem Due.link {x q p : NodeId} {before after : List NodeId} {g : Tree.Graft}
    (h : Underway r stay deletes updates placed renamed done t copies)
    (due : Due r stay updates placed copies x q p before after)
    (hpl : PlacementFor r stay (Reconciled.Brought updates placed) x source pl)
    (G : Tree.Grafted t r.dst x g) (Lg : g.tree.Linked) (stages : List Stage) :
    Patching.Succeeds (Patching.link r.dst pl p g.copy) ⟨g.tree, g.copies ++ copies, stages⟩
      fun _ w' => Underway r stay deletes updates placed renamed (done ++ [x]) w'.tree w'.copies := by
  by_cases hthrown : r.dst.role x = .thrown
  · exact due.link_thrown R C As Ad h hthrown hpl G Lg stages
  by_cases hcontained : r.dst.role x = .containedType
  · exact due.link_contained R As Ad h hpl G Lg hcontained stages
  have hcontent := G.content G.lookup_top
  obtain ⟨i, t', hstep, hl, hfits⟩ := due.lands_link R C As Ad h hpl G Lg U hthrown hcontained
    (Tree.kind_of_content hcontent) stages
  refine ⟨(), ⟨t', g.copies ++ copies, stages⟩, hstep, ?_⟩
  refine h.link_in R As Ad due G Lg hl hfits hthrown t'.units ?_
  exact (h.inSync.grafted h.sound.linked G).linkedIn
    (by rw [Tree.role_of_content hcontent]; exact hcontained) hl

theorem Underway.place {x : NodeId} {pre post : List (NodeId × Option NodeId)}
    (hsplit : placed = pre ++ (x, source) :: post)
    (hpl : PlacementFor r stay (Reconciled.Brought updates placed) x source pl) {w : Workpiece}
    (h : Underway r stay deletes updates placed renamed (pre.map (·.1)) w.tree w.copies) :
    Patching.Succeeds (Patching.place r.dst pl) w fun _ w' =>
      Underway r stay deletes updates placed renamed ((pre ++ [(x, source)]).map (·.1))
        w'.tree w'.copies := by
  obtain rfl := hpl.node
  rw [List.map_append, List.map_singleton]
  cases hx : w.copies.lookup pl.insertion.node with
  | some c =>
    have hsome : (w.copies.lookup pl.insertion.node).isSome = true := by rw [hx]; rfl
    have hmem : pl.insertion.node ∈ placed.map (·.1) := by simp [hsplit]
    refine ⟨(), w, Patching.place_run_of_copied r.dst hsome,
      { h with
        copied := fun {y} hy => ?_
        done_subset := List.append_subset.mpr ⟨h.done_subset, by simpa using hmem⟩
        fresh := fun hqp hfree hy hcopied => h.fresh_append hqp hfree hy hcopied _
        renewed := fun {q p z y} hqp hfree hy hyq hrole hz => ?_ }⟩
    · rcases List.mem_append.mp hy with hy | hy
      · exact h.copied hy
      · rw [List.mem_singleton.mp hy]
        exact hsome
    · rcases List.mem_append.mp hy with hy | hy
      · exact h.renewed hqp hfree hy hyq hrole hz
      · -- it came in with a thrown type that was placed before
        obtain rfl := List.mem_singleton.mp hy
        rcases h.fresh hqp hfree hyq hsome with hupd | hdone | ⟨-, y, hy, hyq, hrole⟩
        · obtain ⟨⟨c, y⟩, hupd, rfl : y = pl.insertion.node⟩ := List.mem_map.mp hupd
          exact absurd hmem (R.update_fresh hupd).2.2
        · exact h.renewed hqp hfree hdone hyq hrole hz
        · exact h.renewed hqp hfree hy hyq hrole hz
  | none =>
    obtain ⟨q, p, before, after, due⟩ := h.exists_due R Ad hsplit rfl hx
    obtain ⟨q', p', -, hq', hp', hparent, -⟩ := hpl.parent
    obtain rfl := Option.some.inj (due.parent.symm.trans hq')
    obtain rfl := Option.some.inj (due.stay.symm.trans hp')
    have hrun := Patching.place_run_of_uncopied r.dst hx hparent
    have G : Tree.Grafted w.tree r.dst pl.insertion.node _ := Tree.grafted Ad.linked
    have Lg : (w.tree.graft r.dst pl.insertion.node).tree.Linked :=
      Tree.linked_graft h.sound.linked _
    generalize w.tree.graft r.dst pl.insertion.node = g at G Lg hrun
    exact (due.link R C As Ad U h hpl G Lg w.stages).of_eq hrun

end

/-! ## The whole run -/

theorem sources_eq {r : Revision} {stay : NodeId → Option NodeId} {brought : NodeId → Prop}
    {placed : List (NodeId × Option NodeId)} {placements : List Placement}
    (h : List.Forall₂ (fun xs pl => PlacementFor r stay brought xs.1 xs.2 pl) placed placements) :
    placements.filterMap Placement.source = placed.filterMap (·.2) := by
  induction h with
  | nil => rfl
  | cons hhead _ ih => rw [List.filterMap_cons, List.filterMap_cons, hhead.source, ih]

section

variable {r : Revision} {stay : NodeId → Option NodeId} {deletes gone : List NodeId}
  {updates done : List (NodeId × NodeId)} {placed : List (NodeId × Option NodeId)}
  {renamed : NodeId → String → Prop} {w : Workpiece}
  (R : Reconciled r.src r.dst stay deletes updates placed)
  (As : r.src.Regular) (Ad : r.dst.Regular)

include R As Ad

theorem Cleared.deleteAll {ds : List NodeId} (hsub : gone ++ ds ⊆ goneNodes deletes placed)
    (h : Cleared r.src r.dst stay updates renamed gone done w.tree w.copies) :
    Patching.Succeeds (ds.forM Patching.delete) w fun _ w' =>
      Cleared r.src r.dst stay updates renamed (gone ++ ds) done w'.tree w'.copies := by
  refine Patching.Succeeds.forM
    (I := fun removed w' =>
      Cleared r.src r.dst stay updates renamed (gone ++ removed) done w'.tree w'.copies)
    (fun {removed c rest w'} hsplit hI => ?_) (by rw [List.append_nil]; exact h)
  rw [← List.append_assoc]
  refine hI.delete R As.linked Ad.linked (fun m hm => hsub ?_) (hsub ?_)
  · rcases List.mem_append.mp hm with hm | hm <;> simp [hsplit, hm]
  · simp [hsplit]

theorem Cleared.updateAll (hgone : gone ⊆ goneNodes deletes placed)
    (hrenamed : ∀ {c x m z}, (c, x) ∈ updates → Source.isTypeDeclaration (r.src.kind c) = true →
      r.src.parent? m = some c → r.src.role m = .slot .name → r.dst.nameNode? x = some z →
        renamed z (r.src.label m))
    (h : Cleared r.src r.dst stay updates renamed gone [] w.tree w.copies) :
    Patching.Succeeds (updates.forM fun (old, new) => Patching.update r.dst old new) w fun _ w' =>
      Cleared r.src r.dst stay updates renamed gone updates w'.tree w'.copies := by
  have hnodup : updates.Nodup := R.updates_oneToOne.nodup
  refine Patching.Succeeds.forM
    (I := fun done w' => Cleared r.src r.dst stay updates renamed gone done w'.tree w'.copies)
    (fun {done cx rest w'} hsplit hI => ?_) h
  rw [hsplit] at hnodup
  have hmem : cx ∈ updates := by simp [hsplit]
  exact hI.update R As.linked Ad.linked hgone (fun m hm => by simp [hsplit, hm]) hrenamed hmem
    fun hdone => (List.nodup_append.mp hnodup).2.2 cx hdone cx (by simp) rfl

/-- **Carrying out the plan succeeds.** -/
theorem Reconciled.carryOut (C : Corresponds r stay)
    (U : Unambiguous r stay deletes updates placed) {plan : Plan} (hdeletes : plan.deletes = deletes)
    (hupdates : plan.updates = updates)
    (hplacements : List.Forall₂ (fun xs pl => PlacementFor r stay (Reconciled.Brought updates placed)
      xs.1 xs.2 pl) placed plan.placements)
    (hrenamed : ∀ {c x m z}, (c, x) ∈ updates → Source.isTypeDeclaration (r.src.kind c) = true →
      r.src.parent? m = some c → r.src.role m = .slot .name → r.dst.nameNode? x = some z →
        renamed z (r.src.label m)) :
    Patching.Succeeds (Patching.carryOut r.dst plan) { tree := r.src } fun _ w =>
      Underway r stay deletes updates placed renamed (placed.map (·.1)) w.tree w.copies := by
  rw [Patching.carryOut, hdeletes, hupdates, sources_eq hplacements]
  refine .bind (Patching.succeeds_enter ?_)
  have h₀ : Cleared r.src r.dst stay updates renamed [] [] r.src [] := Cleared.start As
  refine .bind ((h₀.deleteAll R As Ad (fun c hc => List.mem_append_left _ hc)
    (w := { tree := r.src, stages := [.built] })).mono fun _ w₁ h₁ => ?_)
  refine .bind (Patching.succeeds_enter ?_)
  refine .bind ((h₁.updateAll R As Ad (fun c hc => List.mem_append_left _ hc) hrenamed
    (w := { w₁ with stages := w₁.stages ++ [.deletionsApplied] })).mono fun _ w₂ h₂ => ?_)
  refine .bind (Patching.succeeds_enter ?_)
  refine .bind ((h₂.deleteAll R As Ad (fun c hc => hc)
    (w := { w₂ with stages := w₂.stages ++ [.updatesApplied] })).mono fun _ w₃ h₃ => ?_)
  have hplaced : Patching.Succeeds (plan.placements.forM (Patching.place r.dst)) w₃ fun _ w' =>
      Underway r stay deletes updates placed renamed (placed.map (·.1)) w'.tree w'.copies :=
    Patching.Succeeds.forM₂
      (I := fun pre w' =>
        Underway r stay deletes updates placed renamed (pre.map (·.1)) w'.tree w'.copies)
      hplacements (fun hsplit hpl hI => hI.place R C As Ad U hsplit hpl) (h₃.underway R As Ad C)
  refine .bind (hplaced.mono fun _ w₄ h₄ => .bind (Patching.succeeds_enter ?_))
  exact Patching.succeeds_enter h₄

end

/-! ## From two trees to the patched one -/

/-- The way from the trees `src` and `dst` to the patched tree comes to its end without an error. Every
operation becomes a patch, and whatever is inserted goes under a node that the patched tree has from the
start. -/
structure Succeeds (src dst : Tree) (minMoveSize : Nat) (nodes : Correspondence) (set : PatchSet) : Prop
    extends Compared src dst minMoveSize nodes set where
  kinds : set.patches.map Patch.kind = (src.diff dst minMoveSize).operations.map Operation.kind
  existing : ∀ patch ∈ set.patches, ∀ i, patch.insertion? = some i →
    ∃ path, i.parent = .existing path
  error : (set.apply src).error = none

/-- The way to the patched tree has come to its end, and the tree is as the invariant says. -/
structure Patched (src dst : Tree) (minMoveSize : Nat) (renamed : NodeId → String → Prop)
    (nodes : Correspondence) (set : PatchSet) (copies : List (NodeId × NodeId)) : Prop
    extends Succeeds src dst minMoveSize nodes set where
  corresponds : Corresponds { src, dst, nodes }
    (Pairing.stayOf src dst ((Pairing.ofTrees src dst).matching minMoveSize))
  underway : Underway { src, dst, nodes }
    (Pairing.stayOf src dst ((Pairing.ofTrees src dst).matching minMoveSize))
    (deletedNodes (src.diff dst minMoveSize).operations)
    (updatedPairs (src.diff dst minMoveSize).operations)
    (placedNodes (src.diff dst minMoveSize).operations) renamed
    ((placedNodes (src.diff dst minMoveSize).operations).map (·.1)) (set.apply src).tree copies

namespace Tree.Regular

variable {src dst : Tree} (As : src.Regular) (Ad : dst.Regular) (hname : src.name ≠ dst.name)
  (minMoveSize : Nat)

include As Ad hname

theorem patched (renamed : NodeId → String → Prop) {nodes : Correspondence}
    (hresolve : Correspondence.resolve (src.diff dst minMoveSize).pairing
      (src.diff dst minMoveSize).pairs src dst = .ok nodes)
    (U : Unambiguous { src, dst, nodes }
      (Pairing.stayOf src dst ((Pairing.ofTrees src dst).matching minMoveSize))
      (deletedNodes (src.diff dst minMoveSize).operations)
      (updatedPairs (src.diff dst minMoveSize).operations)
      (placedNodes (src.diff dst minMoveSize).operations))
    (hrenamed : ∀ {c x m z}, (c, x) ∈ updatedPairs (src.diff dst minMoveSize).operations →
      Source.isTypeDeclaration (src.kind c) = true → src.parent? m = some c →
        src.role m = .slot .name → dst.nameNode? x = some z → renamed z (src.label m)) :
    ∃ set copies, Patched src dst minMoveSize renamed nodes set copies := by
  have hm := Pairing.matching_matches src dst minMoveSize
  have R := reconciled_diff As Ad minMoveSize
  have C := (Correspondence.resolved_of_diff As.linked Ad.linked hresolve).corresponds As.linked
    Ad.linked hname
  obtain ⟨patches, plan, hgenerate, hkinds, hexisting, hplan, hdeletes, hupdates, hplacements⟩ :=
    Reconciled.exists_plan (r := { src, dst, nodes }) R As.toRooted Ad.toRooted
      (fun op hop => Pairing.between_of_mem_editScript As.linked Ad.linked hm hop) C U
      (Pairing.nodup_editScript As.linked Ad.linked hm)
  obtain ⟨⟨⟩, w, hrun, hunderway⟩ := Reconciled.carryOut (r := { src, dst, nodes }) R As Ad C
    U hdeletes hupdates hplacements hrenamed
  have happly : PatchSet.apply ⟨dst, patches⟩ src = ⟨w.tree, w.stages, none⟩ := by
    simp only [PatchSet.apply, hplan, EStateM.run, hrun]
  refine ⟨⟨dst, patches⟩, w.copies, ⟨⟨hresolve, hgenerate⟩, hkinds, hexisting, ?_⟩, C, ?_⟩
  · rw [happly]
  · rw [happly]
    exact hunderway

theorem exists_patched (calm : Prop)
    (U : ∀ nodes, Corresponds { src, dst, nodes }
        (Pairing.stayOf src dst ((Pairing.ofTrees src dst).matching minMoveSize)) →
      Unambiguous { src, dst, nodes }
        (Pairing.stayOf src dst ((Pairing.ofTrees src dst).matching minMoveSize))
        (deletedNodes (src.diff dst minMoveSize).operations)
        (updatedPairs (src.diff dst minMoveSize).operations)
        (placedNodes (src.diff dst minMoveSize).operations))
    (hcalm : calm → ∀ {c x}, (c, x) ∈ updatedPairs (src.diff dst minMoveSize).operations →
      Source.isTypeDeclaration (src.kind c) = true →
        src.simpleName? c = none ∨ dst.nameNode? x = none) :
    ∃ nodes set copies, Patched src dst minMoveSize (fun _ _ => ¬ calm) nodes set copies := by
  obtain ⟨nodes, hresolve, hresolved⟩ := Correspondence.resolve_ok As.linked Ad.linked
    (Pairing.matching_matches src dst minMoveSize)
  have C := hresolved.corresponds As.linked Ad.linked hname
  refine ⟨nodes, As.patched Ad hname minMoveSize _ hresolve (U nodes C) ?_⟩
  intro c x m z hcx hkind hm hrole hz hcalm'
  rcases hcalm hcalm' hcx hkind with hnone | hnone
  · exact Tree.simpleName?_eq_none_iff.mp hnone m (As.linked.mem_children.mpr hm) hrole
  · rw [hz] at hnone
    simp at hnone

end Tree.Regular

/-- **Between addressable trees the whole way from comparison to the patched tree succeeds.** -/
theorem Tree.Addressable.patching_succeeds {src dst : Tree} (hs : src.Addressable)
    (hd : dst.Addressable) (hname : src.name ≠ dst.name) (minMoveSize : Nat) :
    ∃ nodes set, Succeeds src dst minMoveSize nodes set := by
  have R := reconciled_diff hs.toRegular hd.toRegular minMoveSize
  obtain ⟨nodes, set, copies, h⟩ := hs.toRegular.exists_patched hd.toRegular hname minMoveSize False
    (fun nodes C => R.unambiguous (r := { src, dst, nodes }) C hs hd) False.elim
  exact ⟨nodes, set, h.toSucceeds⟩

/-- A class with a method for each name, which throws the types listed with it. -/
def Tree.ofMethods (name : String) (methods : List (String × List String)) : Tree :=
  let method : String × List String → Rose Content := fun (method, thrown) =>
    .node { kind := "method_declaration", label := "", role := .typeMember }
      [.node { kind := "identifier", label := method, role := .slot .name } [],
        .node { kind := "throws", label := "", role := .child }
          (thrown.map fun type =>
            .node { kind := "type_identifier", label := type, role := .thrown } [])]
  ofRose name none <| .node rootContent
    [.node { kind := "class_declaration", label := "", role := .containedType }
      (methods.map method)]

/-- In a `throws` clause one type goes, one comes and two change places, and a method is renamed. -/
theorem Tree.Addressable.patching_succeeds_methods :
    let src := Tree.ofMethods "old" [("f", ["A", "B", "C"]), ("g", []), ("h", ["D"])]
    let dst := Tree.ofMethods "new" [("f", ["C", "A", "X"]), ("g", []), ("k", ["D"])]
    (src.diff dst 1).operations.map Operation.kind = [.delete, .move, .insert, .update] ∧
      src.Addressable ∧ dst.Addressable ∧ src.name ≠ dst.name ∧
      ∃ nodes set, Succeeds src dst 1 nodes set := by
  intro src dst
  have hs : src.Addressable :=
    (linked_ofRose _ _ _).addressable rfl (inSync_ofRose _ _ _) (by decide +kernel)
  have hd : dst.Addressable :=
    (linked_ofRose _ _ _).addressable rfl (inSync_ofRose _ _ _) (by decide +kernel)
  have hname : src.name ≠ dst.name := by decide
  exact ⟨by decide +kernel, hs, hd, hname, patching_succeeds hs hd hname 1⟩

end TreePatch
