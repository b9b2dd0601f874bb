import TreePatch.Proofs.Apply
import TreePatch.Proofs.Plan

/-!
# Nested insertions

An insertion is nested if its node lies below a node that is brought in anyway. What is brought in hangs
under kept nodes, so a nested node is never a sibling of one that is brought in: the anchors of the other
patches do not change, and neither do the patches (`patchFor_append`). The nested insertions become
patches behind them, whose paths resolve because every counterpart can be reached. When the turn of their
placements comes, a copy of each node has come in with a node above it, so nothing happens
(`carryOut_append`).
-/

namespace TreePatch

namespace Operation

/-- The insertion of a destination node below one that an operation brings in. -/
structure Nested (dst : Tree) (ops : List Operation) (op : Operation) : Prop where
  kind : op.kind = .insert
  owned : dst.owns op.node = true
  counterpart : ∀ n ∈ op.counterpart, dst.owns n = true
  below : ∃ other ∈ ops, ∃ x, other.brought? = some x ∧ dst.isAncestor x op.node.node = true

variable {src dst : Tree} {ops extra : List Operation} {op : Operation}

theorem Nested.check (h : op.Nested dst ops) : op.check src dst = .ok () := by
  rw [Operation.check, h.kind]
  cases hn : op.counterpart with
  | none => simp [h.owned]
  | some n => simp [h.owned, h.counterpart n hn]

theorem isSubsumed_append (h : ∀ op ∈ extra, op.kind = .insert) (op : Operation) :
    op.isSubsumed (ops ++ extra) src = op.isSubsumed ops src := by
  have hextra : (extra.any fun other =>
      other.kind == .update && src.isAncestor other.node.node op.node.node) = false :=
    List.any_eq_false.mpr fun other hother => by simp [h other hother]
  rw [isSubsumed, isSubsumed, List.any_append, hextra, Bool.or_false]

theorem outermost_append (h : ∀ op ∈ extra, op.kind = .insert) :
    outermost (ops ++ extra) src = outermost ops src ++ extra := by
  have hkeep : extra.filter (fun op => !op.isSubsumed ops src) = extra :=
    List.filter_eq_self.mpr fun op hop => by simp [isSubsumed, h op hop]
  simp only [outermost, isSubsumed_append h, List.filter_append, hkeep]

end Operation

/-! ## Patches -/

namespace Revision

variable {r : Revision} {b b' : List NodeId}

theorem anchorAmong_congr {before : List NodeId} (h : ∀ z ∈ before, z ∈ b ↔ z ∈ b') :
    r.anchorAmong b before = r.anchorAmong b' before := by
  induction before with
  | nil => rfl
  | cons z before ih =>
    have hz : b.contains z = b'.contains z := by
      rw [Bool.eq_iff_iff, List.contains_iff_mem, List.contains_iff_mem]
      exact h z List.mem_cons_self
    rw [anchorAmong, anchorAmong, hz, ih fun y hy => h y (List.mem_cons_of_mem _ hy)]

theorem insertionOf_congr {x : NodeId}
    (h : ∀ q, r.dst.parent? x = some q → ∀ z ∈ r.dst.children q, z ∈ b ↔ z ∈ b') :
    r.insertionOf b x = r.insertionOf b' x := by
  have hanchor : r.anchorOf b x = r.anchorOf b' x := by
    refine anchorAmong_congr fun z hz => ?_
    have hsibling := (List.takeWhile_prefix _).subset (List.mem_reverse.mp hz)
    cases hq : r.dst.parent? x with
    | none => simp [hq] at hsibling
    | some q =>
      rw [hq] at hsibling
      exact h q hq z hsibling
  simp only [insertionOf, hanchor]

theorem patchFor_congr {op : Operation}
    (h : ∀ x, op.brought? = some x → r.insertionOf b x = r.insertionOf b' x) :
    r.patchFor b op = r.patchFor b' op := by
  obtain ⟨kind, node, counterpart⟩ := op
  cases kind with
  | insert => simp only [patchFor, h node.node rfl]
  | delete => rfl
  | update => cases counterpart <;> rfl
  | move =>
    cases counterpart with
    | none => rfl
    | some n => simp only [patchFor, h n.node rfl]

/-- Every counterpart can be reached from the root. -/
def Grounded (r : Revision) : Prop :=
  ∀ {z e}, r.counterpart? z = some e → r.src.isAttached e = true

section

variable (As : r.src.Addressable) (G : r.Grounded)

include As G

theorem exists_anchor_of_grounded (before : List NodeId) :
    ∃ anchor at?, r.anchorAmong b before = .ok anchor ∧ Plan.locateAnchor r.src anchor = .ok at? := by
  induction before with
  | nil => exact ⟨.start, none, rfl, rfl⟩
  | cons z before ih =>
    rw [anchorAmong]
    split
    · exact ⟨.afterInserted z, none, rfl, rfl⟩
    · cases he : r.counterpart? z with
      | none => exact ih
      | some e =>
        obtain ⟨path, hpath, hresolve⟩ := As.leads (G he)
        refine ⟨.after path, some e, ?_, ?_⟩
        · simp only [pathOf, hpath]
          rfl
        · simp only [Plan.locateAnchor, Plan.locate, hresolve]
          rfl

theorem exists_parentRef_of_grounded (q : NodeId) :
    ∃ parent at?, r.parentRef q = .ok parent ∧ Plan.locateParent r.src parent = .ok at? := by
  rw [parentRef]
  cases he : r.counterpart? q with
  | none => exact ⟨.inserted q, none, rfl, rfl⟩
  | some e =>
    obtain ⟨path, hpath, hresolve⟩ := As.leads (G he)
    refine ⟨.existing path, some e, ?_, ?_⟩
    · simp only [pathOf, hpath]
      rfl
    · simp only [Plan.locateParent, Plan.locate, hresolve]
      rfl

theorem exists_insertion_of_grounded (Ad : r.dst.Rooted) {x q : NodeId} (hq : r.dst.parent? x = some q) :
    ∃ i pl, r.insertionOf b x = .ok i ∧ Plan.locateInsertion r.src none i = .ok pl := by
  obtain ⟨index, hindex⟩ := Ad.charted.exists_index hq
  obtain ⟨parent, at?, hparent, hlocate⟩ := exists_parentRef_of_grounded As G q
  obtain ⟨anchor, behind?, hanchor, hlocate'⟩ := exists_anchor_of_grounded (b := b) As G
    ((r.dst.children q).takeWhile (· != x)).reverse
  have hanchorOf : r.anchorOf b x = .ok anchor := by
    simp only [anchorOf, hq, Option.elim_some]
    exact hanchor
  let i : Insertion := ⟨index, x, r.dst.role x, parent, anchor⟩
  refine ⟨i, ⟨i, none, at?, behind?⟩, ?_, ?_⟩
  · simp only [insertionOf, hindex, hq, hparent, hanchorOf]
    rfl
  · simp only [i, Plan.locateInsertion, hlocate, hlocate']
    rfl

end

end Revision

/-! ## Sets, plans and runs -/

theorem PatchSet.exists_foldl_insert (patches : List Patch) (set : PatchSet) :
    ∃ more, patches.foldl PatchSet.insert set = { set with patches := set.patches ++ more } ∧
      more ⊆ patches := by
  induction patches generalizing set with
  | nil => exact ⟨[], by simp, List.Subset.refl _⟩
  | cons patch patches ih =>
    obtain ⟨more, hmore, hsub⟩ := ih (set.insert patch)
    rw [List.foldl_cons, hmore, PatchSet.insert]
    split
    · exact ⟨more, rfl, List.subset_cons_of_subset _ hsub⟩
    · exact ⟨patch :: more, by simp, List.cons_subset_cons _ hsub⟩

theorem Plan.exists_foldlM_insert {t : Tree} {P : Placement → Prop} {patches : List Patch}
    (h : ∀ patch ∈ patches, ∃ i pl, patch = .insert i ∧ locateInsertion t none i = .ok pl ∧ P pl)
    (plan : Plan) :
    ∃ more, patches.foldlM (add t) plan = .ok { plan with placements := plan.placements ++ more } ∧
      ∀ pl ∈ more, P pl := by
  induction patches generalizing plan with
  | nil => exact ⟨[], by simp; rfl, by simp⟩
  | cons patch patches ih =>
    obtain ⟨i, pl, rfl, hpl, hP⟩ := h patch List.mem_cons_self
    obtain ⟨more, hmore, hall⟩ := ih (fun p hp => h p (List.mem_cons_of_mem _ hp))
      { plan with placements := plan.placements ++ [pl] }
    refine ⟨pl :: more, ?_, fun pl' hpl' => ?_⟩
    · rw [List.foldlM_cons, add, hpl]
      refine hmore.trans ?_
      simp
    · rcases List.mem_cons.mp hpl' with rfl | hpl'
      · exact hP
      · exact hall pl' hpl'

namespace Patching

theorem bind_eq_ok_iff {α β : Type} {x : Patching α} {f : α → Patching β} {w w' : Workpiece} {b : β} :
    (x >>= f) w = .ok b w' ↔ ∃ a w₁, x w = .ok a w₁ ∧ f a w₁ = .ok b w' := by
  cases hx : x w with
  | ok a w₁ =>
    rw [bind_of_ok hx]
    exact ⟨fun h => ⟨a, w₁, rfl, h⟩, fun ⟨_, _, heq, h⟩ => by cases heq; exact h⟩
  | error e w₁ =>
    rw [bind_of_error hx]
    exact ⟨fun h => by simp at h, fun ⟨_, _, heq, _⟩ => by simp at heq⟩

variable {dst : Tree} {plan : Plan} {more : List Placement} {w₀ w : Workpiece}

theorem placeAll_of_copied (h : ∀ pl ∈ more, (w.copies.lookup pl.insertion.node).isSome = true) :
    more.forM (place dst) w = .ok () w := by
  induction more with
  | nil => rfl
  | cons pl more ih =>
    change (place dst pl >>= fun _ => more.forM (place dst)) w = _
    rw [bind_of_ok (place_run_of_copied dst (h pl List.mem_cons_self))]
    exact ih fun pl' hpl' => h pl' (List.mem_cons_of_mem _ hpl')

/-- **Placements of what has been copied change nothing** at the end of a plan. -/
theorem carryOut_append (hrun : carryOut dst plan w₀ = .ok () w)
    (hsource : ∀ pl ∈ more, pl.source = none)
    (hcopied : ∀ pl ∈ more, (w.copies.lookup pl.insertion.node).isSome = true) :
    carryOut dst { plan with placements := plan.placements ++ more } w₀ = .ok () w := by
  have hsources : (plan.placements ++ more).filterMap Placement.source =
      plan.placements.filterMap Placement.source := by
    rw [List.filterMap_append, List.filterMap_eq_nil_iff.mpr hsource, List.append_nil]
  simp only [carryOut, bind_eq_ok_iff] at hrun
  obtain ⟨_, w₁, hbuilt, _, w₂, hdeletes, _, w₃, hdeleted, _, w₄, hupdates, _, w₅, hupdated, _, w₆,
    hremovals, _, w₇, hplaced, _, w₈, hinserted, hdone⟩ := hrun
  -- the last two steps only take down that the stages are over
  have hcopies : w.copies = w₇.copies := by
    obtain ⟨-, rfl⟩ := EStateM.Result.ok.inj hinserted
    obtain ⟨-, rfl⟩ := EStateM.Result.ok.inj hdone
    rfl
  have hplaced' : (plan.placements ++ more).forM (place dst) w₆ = .ok () w₇ := by
    have happend : (plan.placements ++ more).forM (place dst) =
        plan.placements.forM (place dst) >>= fun _ => more.forM (place dst) := List.forM_append
    rw [happend, bind_of_ok hplaced]
    exact placeAll_of_copied fun pl hpl => hcopies ▸ hcopied pl hpl
  simp only [carryOut, hsources, bind_eq_ok_iff]
  exact ⟨_, w₁, hbuilt, _, w₂, hdeletes, _, w₃, hdeleted, _, w₄, hupdates, _, w₅, hupdated, _, w₆,
    hremovals, _, w₇, hplaced', _, w₈, hinserted, hdone⟩

end Patching

/-! ## Operations and nested insertions together -/

theorem Correspondence.Resolved.isAttached_of_mem {src dst : Tree} {m : Matching} {c : Correspondence}
    (hs : src.Linked) (hd : dst.Linked) (h : Resolved src dst m c) {a : NodeId} :
    ∀ q ∈ c.pairs, q.1.node = a → src.isAttached a = true := by
  induction a using hs.forest.induction_up with
  | step a ih =>
    rintro q hq rfl
    rcases h.cases q hq with hseed | ⟨q', hq', hmem⟩
    · obtain ⟨s, -, a, b, -, ha, -, rfl⟩ := (mem_seeds_iff hs hd).mp hseed
      exact ha.isAttached hs
    · obtain ⟨a, b, rfl, hp, -⟩ := of_mem_ignoredPairs hs hd hmem
      exact (hs.isAttached_of_parent hp).mpr (ih _ hp q' hq' rfl)

theorem Sound.copied_below {src dst t : Tree} {renamed : NodeId → String → Prop}
    {copies : List (NodeId × NodeId)} (h : Sound src dst renamed t copies) (D : dst.Linked) {x n : NodeId}
    (hx : (copies.lookup x).isSome = true) (hn : x ∈ dst.ancestors n) :
    (copies.lookup n).isSome = true := by
  induction n using D.forest.induction_up with
  | step n ih =>
    obtain ⟨q, hq, hxq⟩ := D.forest.mem_upward_iff.mp hn
    have hcopied : (copies.lookup q).isSome = true := by
      rcases hxq with rfl | hxq
      · exact hx
      · exact ih q hq hxq
    obtain ⟨c, hc⟩ := Option.isSome_iff_exists.mp hcopied
    obtain ⟨c', -, hc'⟩ := h.exists_copy_child hc (D.mem_children.mpr hq)
    rw [hc']
    rfl

/-- The patch inserts the node of one of the operations, and its paths resolve. -/
def Revision.InsertsOneOf (r : Revision) (extra : List Operation) (patch : Patch) : Prop :=
  ∃ i pl, patch = .insert i ∧ Plan.locateInsertion r.src none i = .ok pl ∧
    pl.source = none ∧ ∃ op ∈ extra, pl.insertion.node = op.node.node

section

variable {r : Revision} {stay : NodeId → Option NodeId} {ops extra : List Operation} {op : Operation}
  (hops : ∀ op ∈ ops, op.Between r.src r.dst)

include hops

theorem Operation.Nested.exists_brought (h : op.Nested r.dst ops) :
    ∃ x, Reconciled.Brought (updatedPairs ops) (placedNodes ops) x ∧
      x ∈ r.dst.ancestors op.node.node := by
  obtain ⟨other, hother, x, hx, hbelow⟩ := h.below
  exact ⟨x, (Reconciled.mem_brought_iff hops x).mp (List.mem_filterMap.mpr ⟨other, hother, hx⟩),
    Tree.Linked.isAncestor_iff.mp hbelow⟩

theorem Operation.Nested.exists_patch (As : r.src.Addressable) (Ad : r.dst.Rooted)
    (G : r.Grounded) (h : op.Nested r.dst ops) (hop : op ∈ extra) (brought : List NodeId) :
    ∃ patch, r.patchFor brought op = .ok patch ∧ r.InsertsOneOf extra patch := by
  obtain ⟨x, -, hbelow⟩ := h.exists_brought hops
  obtain ⟨q, hq, -⟩ := Ad.linked.forest.mem_upward_iff.mp hbelow
  obtain ⟨i, pl, hi, hpl⟩ := Revision.exists_insertion_of_grounded (b := brought) As G Ad hq
  obtain ⟨hinsertion, hsource, -⟩ := Plan.of_locateInsertion hpl
  have hnode : pl.insertion.node = op.node.node := by rw [hinsertion, (Revision.of_insertionOf hi).1]
  refine ⟨.insert i, ?_, i, pl, rfl, hpl, hsource, op, hop, hnode⟩
  rw [Revision.patchFor, h.kind]
  simp only [hi]
  rfl

theorem Operation.Nested.copied (Ld : r.dst.Linked) (h : op.Nested r.dst ops)
    {renamed : NodeId → String → Prop} {t : Tree} {copies : List (NodeId × NodeId)}
    (hunderway : Underway r stay (deletedNodes ops) (updatedPairs ops) (placedNodes ops) renamed
      ((placedNodes ops).map (·.1)) t copies) : (copies.lookup op.node.node).isSome = true := by
  obtain ⟨x, hx, hbelow⟩ := h.exists_brought hops
  exact hunderway.sound.copied_below Ld (hunderway.copied_of_brought hx) hbelow

variable (R : Reconciled r.src r.dst stay (deletedNodes ops) (updatedPairs ops) (placedNodes ops))
  (Ls : r.src.Linked) (Ld : r.dst.Linked)

include R Ls Ld

theorem Operation.Nested.parent_ne (h : op.Nested r.dst ops) {q p : NodeId} (hqp : stay q = some p) :
    r.dst.parent? op.node.node ≠ some q := by
  intro hq
  obtain ⟨x, hx, hbelow⟩ := h.exists_brought hops
  rw [Ld.ancestors_of_some hq] at hbelow
  exact R.notMem_above_kept Ls Ld (R.of_brought hx).1 hqp hbelow

theorem Reconciled.patchFor_append (hextra : ∀ op ∈ extra, op.Nested r.dst ops) (hop : op ∈ ops) :
    r.patchFor ((ops ++ extra).filterMap Operation.brought?) op =
      r.patchFor (ops.filterMap Operation.brought?) op := by
  refine Revision.patchFor_congr fun x hx => Revision.insertionOf_congr fun q hq z hz => ?_
  have hbrought := (mem_brought_iff hops x).mp (List.mem_filterMap.mpr ⟨op, hop, hx⟩)
  obtain ⟨-, -, q', p, hqp, hq'⟩ := R.of_brought hbrought
  obtain rfl := Option.some.inj (hq.symm.trans hq')
  rw [List.filterMap_append, List.mem_append, or_iff_left_iff_imp]
  intro hmem
  obtain ⟨nested, hnested, heq⟩ := List.mem_filterMap.mp hmem
  have hnode : nested.node.node = z := by
    simpa [Operation.brought?, (hextra nested hnested).kind] using heq
  have hparent := Ld.mem_children.mp hz
  rw [← hnode] at hparent
  exact absurd hparent ((hextra nested hnested).parent_ne hops R Ls Ld hqp)

omit Ls Ld in
theorem Reconciled.patches_append (As : r.src.Addressable) (Ad : r.dst.Rooted) (G : r.Grounded)
    (hextra : ∀ op ∈ extra, op.Nested r.dst ops) {patches : List Patch}
    (h : r.patches ops = .ok patches) :
    ∃ more, r.patches (ops ++ extra) = .ok (patches ++ more) ∧
      ∀ patch ∈ more, r.InsertsOneOf extra patch := by
  obtain ⟨_, hcheck, hmap⟩ := bind_eq_ok.mp h
  have houter : Operation.outermost ops r.src = ops := R.outermost_eq As.toRooted Ad hops
  simp only [houter] at hmap
  have hchecks : (ops ++ extra).forM (·.check r.src r.dst) = .ok () := by
    have happend : (ops ++ extra).forM (·.check r.src r.dst) =
        ops.forM (·.check r.src r.dst) >>= fun _ => extra.forM (·.check r.src r.dst) := List.forM_append
    rw [happend, hcheck]
    exact forM_eq_ok_iff.mpr fun op hop => (hextra op hop).check
  have hsame := mapM_congr_of_mem (l := ops.filter fun op => !op.isImplicit r.src r.dst)
    fun op hop => R.patchFor_append hops As.linked Ad.linked hextra (List.mem_of_mem_filter hop)
  obtain ⟨more, hmore, hinserts⟩ := mapM_ok_of_forall
    (l := extra.filter fun op => !op.isImplicit r.src r.dst) fun op hop =>
      (hextra op (List.mem_of_mem_filter hop)).exists_patch hops As Ad G (List.mem_of_mem_filter hop)
        ((ops ++ extra).filterMap Operation.brought?)
  refine ⟨more, ?_, fun patch hpatch => ?_⟩
  · simp only [Revision.patches, hchecks, Operation.outermost_append fun op hop => (hextra op hop).kind,
      houter, List.filter_append, List.mapM_append, hsame, hmap, hmore]
    rfl
  · obtain ⟨op, -, hop⟩ := exists_mem_of_forall₂ hinserts hpatch
    exact hop

omit Ls Ld in
theorem Reconciled.absorbs (As : r.src.Addressable) (Ad : r.dst.Addressable) (C : Corresponds r stay)
    (G : r.Grounded) (hnodup : ops.Nodup)
    (hextra : ∀ op ∈ extra, op.Nested r.dst ops) :
    ∃ set set', r.generate ops = .ok set ∧ r.generate (ops ++ extra) = .ok set' ∧
      (set.apply r.src).error = none ∧ set'.apply r.src = set.apply r.src := by
  have U := R.unambiguous C As Ad
  obtain ⟨patches, plan, hgenerate, -, -, hplan, hdeletes, hupdates, hplacements⟩ :=
    R.exists_plan As.toRooted Ad.toRooted hops C U hnodup
  have hcarry : Patching.Succeeds (Patching.carryOut r.dst plan) { tree := r.src } fun _ w =>
      Underway r stay (deletedNodes ops) (updatedPairs ops) (placedNodes ops) (fun _ _ => True)
        ((placedNodes ops).map (·.1)) w.tree w.copies :=
    R.carryOut As.toRegular Ad.toRegular C U hdeletes hupdates hplacements fun _ _ _ _ _ => trivial
  obtain ⟨⟨⟩, w, hrun, hunderway⟩ := hcarry
  have happly : PatchSet.apply ⟨r.dst, patches⟩ r.src = ⟨w.tree, w.stages, none⟩ := by
    simp only [PatchSet.apply, hplan, EStateM.run, hrun]
  -- the nested insertions add patches to the set and placements to the plan, all at the end
  obtain ⟨first, hfirst, hset⟩ := map_eq_ok.mp hgenerate
  obtain ⟨more, hmore, hinserts⟩ := R.patches_append hops As Ad.toRooted G hextra hfirst
  obtain ⟨added, hadded, hsub⟩ := PatchSet.exists_foldl_insert more ⟨r.dst, patches⟩
  obtain ⟨late, hlate, hall⟩ := Plan.exists_foldlM_insert
    (fun patch hpatch => hinserts patch (hsub hpatch)) plan
  have hplan' : Plan.make r.src (patches ++ added) =
      .ok { plan with placements := plan.placements ++ late } := by
    rw [Plan.make, List.foldlM_append]
    change (Plan.make r.src patches >>= fun plan => added.foldlM (Plan.add r.src) plan) = _
    rw [hplan]
    exact hlate
  have hrun' := Patching.carryOut_append hrun (fun pl hpl => (hall pl hpl).1) fun pl hpl => by
    obtain ⟨-, op, hop, hnode⟩ := hall pl hpl
    rw [hnode]
    exact (hextra op hop).copied hops Ad.linked hunderway
  have happly' : PatchSet.apply ⟨r.dst, patches ++ added⟩ r.src = ⟨w.tree, w.stages, none⟩ := by
    simp only [PatchSet.apply, hplan', EStateM.run, hrun']
  refine ⟨⟨r.dst, patches⟩, ⟨r.dst, patches ++ added⟩, hgenerate, ?_, ?_, ?_⟩
  · rw [Revision.generate, hmore, Except.map, List.foldl_append, hset, hadded]
  · rw [happly]
  · rw [happly, happly']

end

/-- The operations between `src` and `dst` make the patches `set`, and with the operations `extra` behind
them the patches `set'`, which apply without an error and leave behind what those of `set` do. -/
structure Absorbed (src dst : Tree) (minMoveSize : Nat) (extra : List Operation) (nodes : Correspondence)
    (set set' : PatchSet) : Prop extends Compared src dst minMoveSize nodes set where
  generate_append :
    Revision.generate { src, dst, nodes } ((src.diff dst minMoveSize).operations ++ extra) = .ok set'
  error : (set'.apply src).error = none
  same : set'.apply src = set.apply src

/-- **Nested insertions are absorbed.** Between addressable trees, further insertions of nodes below what
is brought in anyway, in any order and number, make patches that apply without an error and leave behind
what the operations leave behind without them. -/
theorem Tree.Addressable.nested_absorbed {src dst : Tree} (hs : src.Addressable) (hd : dst.Addressable)
    (hname : src.name ≠ dst.name) (minMoveSize : Nat) {extra : List Operation}
    (hextra : ∀ op ∈ extra, op.Nested dst (src.diff dst minMoveSize).operations) :
    ∃ nodes set set', Absorbed src dst minMoveSize extra nodes set set' := by
  have hm := Pairing.matching_matches src dst minMoveSize
  obtain ⟨nodes, hresolve, hresolved⟩ := Correspondence.resolve_ok hs.linked hd.linked hm
  obtain ⟨set, set', hgenerate, hgenerate', herror, hsame⟩ :=
    (reconciled_diff hs.toRegular hd.toRegular minMoveSize).absorbs (r := { src, dst, nodes })
      (fun op hop => Pairing.between_of_mem_editScript hs.linked hd.linked hm hop) hs hd
      (hresolved.corresponds hs.linked hd.linked hname)
      (fun hz => hresolved.isAttached_of_mem hs.linked hd.linked _
        ((hresolved.get?_eq_some_iff hs.linked hd.linked hname).mp hz) rfl)
      (Pairing.nodup_editScript hs.linked hd.linked hm) hextra
  exact ⟨nodes, set, set', ⟨hresolve, hgenerate⟩, hgenerate', hsame ▸ herror, hsame⟩

/-- A new method is reported, and so are its name and, twice, the type that it throws. -/
theorem Tree.Addressable.nested_absorbed_method :
    let src := Tree.ofMethods "old" [("f", ["A"])]
    let dst := Tree.ofMethods "new" [("f", ["A"]), ("g", ["B"])]
    let extra : List Operation := [9, 7, 9].map fun n => ⟨.insert, dst.ref n, none⟩
    (src.diff dst 2).operations = [⟨.insert, dst.ref 6, none⟩] ∧
      (∀ op ∈ extra, op.Nested dst (src.diff dst 2).operations) ∧
      ∃ nodes set set', Absorbed src dst 2 extra nodes set set' := by
  intro src dst extra
  have hs : src.Addressable :=
    (linked_ofRose _ _ _).addressable rfl (inSync_ofRose _ _ _) (by decide +kernel)
  have hd : dst.Addressable :=
    (linked_ofRose _ _ _).addressable rfl (inSync_ofRose _ _ _) (by decide +kernel)
  have hops : (src.diff dst 2).operations = [⟨.insert, dst.ref 6, none⟩] := by decide +kernel
  have hbelow : ∀ n ∈ [9, 7, 9], dst.owns (dst.ref n) = true ∧ dst.isAncestor 6 n = true := by
    decide +kernel
  have hextra : ∀ op ∈ extra, op.Nested dst (src.diff dst 2).operations := by
    intro op hop
    obtain ⟨n, hn, rfl⟩ := List.mem_map.mp hop
    obtain ⟨howned, habove⟩ := hbelow n hn
    rw [hops]
    exact ⟨rfl, howned, by simp, ⟨_, List.mem_cons_self, 6, rfl, habove⟩⟩
  exact ⟨hops, hextra, nested_absorbed hs hd (by decide) 2 hextra⟩

end TreePatch
