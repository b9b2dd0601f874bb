import TreePatch.Proofs.Absorption

/-!
# Operations as a set

Which operations become patches, and what their patches are, depends on the list of operations only
through what is in it: a list is accepted exactly if each operation passes its check and each one left
over has a patch (`exists_generate_iff`), and the patches are those made for some operation, each once
(`of_generate_ok`). So neither order nor repetition matters.

An update is left to the topmost updated node at or above its own. Only an operation on that node can
become a patch. It does not if one of its nodes is implicit, and then the updates below it are lost with
it.
-/

namespace TreePatch

/-! ## Checks and patches, one for each operation -/

theorem PatchSet.nodup_foldl_insert {patches : List Patch} {set : PatchSet} (h : set.patches.Nodup) :
    (patches.foldl PatchSet.insert set).patches.Nodup := by
  induction patches generalizing set with
  | nil => exact h
  | cons patch patches ih =>
    refine ih ?_
    rw [PatchSet.insert]
    split
    · exact h
    · next hnew =>
      rw [PatchSet.contains, List.contains_iff_mem] at hnew
      exact h.append (List.nodup_singleton patch) (by simpa using hnew)

namespace Revision

variable {r : Revision} {ops ops' : List Operation} {op : Operation} {set : PatchSet}

/-- The destination nodes that operations bring in. -/
def broughtBy (r : Revision) (ops : List Operation) : List NodeId :=
  (Operation.outermost ops r.src).filterMap Operation.brought?

/-- An operation that is neither subsumed nor on an implicit node. -/
def Effective (r : Revision) (ops : List Operation) (op : Operation) : Prop :=
  op ∈ ops ∧ op.isSubsumed ops r.src = false ∧ op.isImplicit r.src r.dst = false

/-- The patch that an operation becomes. -/
def Makes (r : Revision) (ops : List Operation) (op : Operation) (patch : Patch) : Prop :=
  r.Effective ops op ∧ r.patchFor (r.broughtBy ops) op = .ok patch

theorem mem_filter_outermost :
    op ∈ (Operation.outermost ops r.src).filter (fun op => !op.isImplicit r.src r.dst) ↔
      r.Effective ops op := by
  simp only [Operation.outermost, Effective, List.mem_filter, Bool.not_eq_true', and_assoc]

theorem exists_generate_iff :
    (∃ set, r.generate ops = .ok set) ↔
      (∀ op ∈ ops, op.check r.src r.dst = .ok ()) ∧
        ∀ op, r.Effective ops op → ∃ patch, r.Makes ops op patch := by
  constructor
  · rintro ⟨set, h⟩
    obtain ⟨patches, hpatches, -⟩ := map_eq_ok.mp h
    obtain ⟨⟨⟩, hcheck, hmap⟩ := bind_eq_ok.mp hpatches
    refine ⟨forM_eq_ok_iff.mp hcheck, fun op hop => ?_⟩
    obtain ⟨patch, -, hpatch⟩ :=
      exists_mem_of_forall₂ (forall₂_of_mapM hmap).flip (mem_filter_outermost.mpr hop)
    exact ⟨patch, hop, hpatch⟩
  · rintro ⟨hcheck, hmakes⟩
    obtain ⟨patches, hpatches, -⟩ := mapM_ok_of_forall (R := fun _ _ => True) fun op hop =>
      (hmakes op (mem_filter_outermost.mp hop)).imp fun patch h => ⟨h.2, trivial⟩
    exact ⟨_, map_eq_ok.mpr
      ⟨patches, bind_eq_ok.mpr ⟨(), forM_eq_ok_iff.mpr hcheck, hpatches⟩, rfl⟩⟩

theorem of_generate_ok (h : r.generate ops = .ok set) :
    set.patches.Nodup ∧ ∀ patch, patch ∈ set.patches ↔ ∃ op, r.Makes ops op patch := by
  obtain ⟨patches, hpatches, rfl⟩ := map_eq_ok.mp h
  obtain ⟨-, -, hmap⟩ := bind_eq_ok.mp hpatches
  refine ⟨PatchSet.nodup_foldl_insert List.nodup_nil, fun patch => ?_⟩
  rw [PatchSet.mem_foldl_insert, PatchSet.empty, or_iff_right List.not_mem_nil]
  constructor
  · intro hpatch
    obtain ⟨op, hop, hmade⟩ := exists_mem_of_forall₂ (forall₂_of_mapM hmap) hpatch
    exact ⟨op, mem_filter_outermost.mp hop, hmade⟩
  · rintro ⟨op, hop, hmade⟩
    obtain ⟨patch', hpatch', hmade'⟩ :=
      exists_mem_of_forall₂ (forall₂_of_mapM hmap).flip (mem_filter_outermost.mpr hop)
    exact Except.ok.inj (hmade.symm.trans hmade') ▸ hpatch'

/-! ## Lists of the same operations -/

section

variable (h : ∀ op, op ∈ ops ↔ op ∈ ops')
include h

theorem isSubsumed_congr (src : Tree) (op : Operation) :
    op.isSubsumed ops src = op.isSubsumed ops' src := by
  rw [Bool.eq_iff_iff]
  simp only [Operation.isSubsumed, Bool.and_eq_true, List.any_eq_true, h]

theorem effective_congr : r.Effective ops op ↔ r.Effective ops' op := by
  rw [Effective, Effective, h, isSubsumed_congr h]

theorem mem_broughtBy_congr {x : NodeId} : x ∈ r.broughtBy ops ↔ x ∈ r.broughtBy ops' := by
  simp only [broughtBy, Operation.outermost, List.mem_filterMap, List.mem_filter, h,
    isSubsumed_congr h]

theorem makes_congr {patch : Patch} : r.Makes ops op patch ↔ r.Makes ops' op patch := by
  -- an anchor asks only whether a sibling is among the nodes brought in
  have hpatch : r.patchFor (r.broughtBy ops) op = r.patchFor (r.broughtBy ops') op :=
    patchFor_congr fun _ _ => insertionOf_congr fun _ _ _ _ => mem_broughtBy_congr h
  rw [Makes, Makes, effective_congr h, hpatch]

end

/-- **Generation depends only on the set of operations.** Of two lists of the same operations, in any
order and with any repetitions, either both are refused or both make the same patches, as many of them
and each once. -/
theorem generates_from_set (r : Revision) {ops ops' : List Operation}
    (h : ∀ op, op ∈ ops ↔ op ∈ ops') :
    ((∃ set, r.generate ops = .ok set) ↔ ∃ set, r.generate ops' = .ok set) ∧
      ∀ set set', r.generate ops = .ok set → r.generate ops' = .ok set' →
        (set == set') = true ∧ set.size = set'.size ∧ set.patches.Perm set'.patches ∧
          set.patches.Nodup ∧ set'.patches.Nodup := by
  refine ⟨?_, fun set set' hset hset' => ?_⟩
  · simp only [exists_generate_iff, h, effective_congr h, makes_congr h]
  · obtain ⟨hnodup, hmem⟩ := of_generate_ok hset
    obtain ⟨hnodup', hmem'⟩ := of_generate_ok hset'
    have hsame : ∀ patch, patch ∈ set.patches ↔ patch ∈ set'.patches := fun patch => by
      rw [hmem, hmem']
      exact exists_congr fun op => makes_congr h
    have hperm := (List.perm_ext_iff_of_nodup hnodup hnodup').mpr hsame
    have hdestination : set.destination.name = set'.destination.name := by
      rw [(of_generate hset).1, (of_generate hset').1]
    refine ⟨?_, hperm.length_eq, hperm, hnodup, hnodup'⟩
    change (set.destination.name == set'.destination.name && set.patches.all set'.contains &&
      set'.patches.all set.contains) = true
    simp only [PatchSet.contains, Bool.and_eq_true, beq_iff_eq, List.all_eq_true,
      List.contains_iff_mem]
    exact ⟨⟨hdestination, fun patch => (hsame patch).mp⟩, fun patch => (hsame patch).mpr⟩

/-- A method and the `throws` clause in it are updated and another method comes behind it, in two orders
and with one of the operations repeated. The patches come in different orders. -/
theorem generates_from_set_methods :
    let src := Tree.ofMethods "old" [("f", ["A"])]
    let dst := Tree.ofMethods "new" [("f", ["A", "B"]), ("g", [])]
    let outer : Operation := ⟨.update, src.ref 2, some (dst.ref 2)⟩
    let inner : Operation := ⟨.update, src.ref 4, some (dst.ref 4)⟩
    let new : Operation := ⟨.insert, dst.ref 7, none⟩
    let ops := [outer, inner, new]
    let ops' := [new, inner, new, outer]
    (∀ op, op ∈ ops ↔ op ∈ ops') ∧
      ∃ nodes set set',
        Revision.generate { src, dst, nodes } ops = .ok set ∧
        Revision.generate { src, dst, nodes } ops' = .ok set' ∧
        set.patches.map (·.kind) = [.update, .insert] ∧
        set'.patches.map (·.kind) = [.insert, .update] ∧
        (set == set') = true ∧ set.size = set'.size ∧ set.patches.Perm set'.patches ∧
          set.patches.Nodup ∧ set'.patches.Nodup := by
  intro src dst outer inner new ops ops'
  have h : ∀ op, op ∈ ops ↔ op ∈ ops' := fun op => by
    simp only [ops, ops', List.mem_cons, List.not_mem_nil, or_false]
    tauto
  let nodes := src.correspondence dst 2
  have hset := eq_ok_of_isSome (a := PatchSet.empty dst)
    (by decide +kernel : (Revision.generate { src, dst, nodes } ops).toOption.isSome = true)
  have hset' := eq_ok_of_isSome (a := PatchSet.empty dst)
    (by decide +kernel : (Revision.generate { src, dst, nodes } ops').toOption.isSome = true)
  exact ⟨h, nodes, _, _, hset, hset', by decide +kernel, by decide +kernel,
    (generates_from_set _ h).2 _ _ hset hset'⟩

end Revision

/-! ## Updates below other updates -/

theorem Tree.Linked.exists_topmost {t : Tree} (L : t.Linked) {P : NodeId → Prop} {n : NodeId}
    (h : ∃ a ∈ n :: t.ancestors n, P a) :
    ∃ top ∈ n :: t.ancestors n, P top ∧ ∀ a ∈ t.ancestors top, ¬ P a := by
  induction n using L.forest.induction_up with
  | step n ih =>
    by_cases habove : ∃ a ∈ t.ancestors n, P a
    · -- the way up goes on at the parent
      cases hp : t.parent? n with
      | none =>
        rw [ancestors_of_none hp] at habove
        simp at habove
      | some p =>
        rw [L.ancestors_of_some hp] at habove ⊢
        obtain ⟨top, htop, hrest⟩ := ih p hp habove
        exact ⟨top, List.mem_cons_of_mem _ htop, hrest⟩
    · obtain ⟨a, ha, hPa⟩ := h
      rcases List.mem_cons.mp ha with rfl | ha
      · exact ⟨a, List.mem_cons_self, hPa, fun b hb hPb => habove ⟨b, hb, hPb⟩⟩
      · exact absurd ⟨a, ha, hPa⟩ habove

/-- The update of a source node. -/
def Operation.Updates (op : Operation) (n : NodeId) : Prop :=
  op.kind = .update ∧ op.node.node = n

namespace Revision

variable {r : Revision} {ops : List Operation} {op : Operation} {n : NodeId} {set : PatchSet}

/-- No node above `n` is updated. -/
def Topmost (r : Revision) (ops : List Operation) (n : NodeId) : Prop :=
  ∀ a ∈ r.src.ancestors n, ∀ other ∈ ops, ¬ other.Updates a

/-- A patch made for the update of the source node `n`. -/
def UpdatedBy (r : Revision) (ops : List Operation) (n : NodeId) (patch : Patch) : Prop :=
  ∃ op, r.Makes ops op patch ∧ op.Updates n

theorem of_patchFor_updates {brought : List NodeId} {patch : Patch} (hop : op.Updates n)
    (h : r.patchFor brought op = .ok patch) :
    ∃ path x, r.pathOf n = .ok path ∧ patch = .update path x := by
  obtain ⟨kind, node, counterpart⟩ := op
  obtain ⟨rfl, rfl⟩ := hop
  cases counterpart with
  | none => simp [patchFor] at h
  | some x =>
    obtain ⟨path, hpath, rfl⟩ := map_eq_ok.mp h
    exact ⟨path, x.node, hpath, rfl⟩

theorem updates_of_patchFor {brought : List NodeId} {path : Path} {x : NodeId}
    (h : r.patchFor brought op = .ok (.update path x)) : op.Updates op.node.node := by
  refine ⟨?_, rfl⟩
  rw [patchFor] at h
  split at h
  · obtain ⟨_, -, heq⟩ := map_eq_ok.mp h
    simp at heq
  · obtain ⟨_, -, heq⟩ := map_eq_ok.mp h
    simp at heq
  · assumption
  · obtain ⟨_, -, h⟩ := bind_eq_ok.mp h
    obtain ⟨_, -, h⟩ := bind_eq_ok.mp h
    simpa using Except.ok.inj h
  · simp at h

theorem isSubsumed_of_updates (hop : op.Updates n) :
    op.isSubsumed ops r.src = false ↔ r.Topmost ops n := by
  obtain ⟨hkind, rfl⟩ := hop
  rw [← Bool.not_eq_true, Operation.isSubsumed, hkind, Topmost]
  simp only [beq_self_eq_true, Bool.true_and, List.any_eq_true, Bool.and_eq_true, beq_iff_eq,
    Tree.Linked.isAncestor_iff, Operation.Updates]
  grind

theorem effective_iff_of_updates (hop : op.Updates n) :
    r.Effective ops op ↔ op ∈ ops ∧ r.Topmost ops n ∧ op.isImplicit r.src r.dst = false := by
  rw [Effective, isSubsumed_of_updates hop]

/-- What becomes of the updates in a list of operations. -/
structure KeepsOutermost (r : Revision) (ops : List Operation) (set : PatchSet) : Prop where
  /-- The update patches are those made for the update of a node, at the path of the node. -/
  made_iff : ∀ path x, Patch.update path x ∈ set.patches ↔
    ∃ n, r.pathOf n = .ok path ∧ r.UpdatedBy ops n (.update path x)
  /-- No node with an update patch is above another one. -/
  apart : ∀ n n' patch patch', r.UpdatedBy ops n patch → r.UpdatedBy ops n' patch' →
    n' ∉ r.src.ancestors n
  /-- There is a patch for a node at or above an updated one exactly if the topmost updated node there
  has an update without implicit nodes. -/
  covered_iff : ∀ op ∈ ops, op.kind = .update →
    ∃ top ∈ op.node.node :: r.src.ancestors op.node.node,
      (∃ other ∈ ops, other.Updates top) ∧ r.Topmost ops top ∧
      ((∃ n ∈ op.node.node :: r.src.ancestors op.node.node, ∃ patch ∈ set.patches,
          r.UpdatedBy ops n patch) ↔
        ∃ other ∈ ops, other.Updates top ∧ other.isImplicit r.src r.dst = false)

theorem mem_of_updatedBy (h : r.generate ops = .ok set) {patch : Patch}
    (hn : r.UpdatedBy ops n patch) : patch ∈ set.patches := by
  obtain ⟨op, hmakes, -⟩ := hn
  exact ((of_generate_ok h).2 patch).mpr ⟨op, hmakes⟩

theorem UpdatedBy.topmost {patch : Patch} (hn : r.UpdatedBy ops n patch) : r.Topmost ops n := by
  obtain ⟨op, ⟨heffective, -⟩, hop⟩ := hn
  exact ((effective_iff_of_updates hop).mp heffective).2.1

theorem UpdatedBy.eq_topmost (L : r.src.Linked) {m top : NodeId} {patch : Patch}
    (hn : n ∈ m :: r.src.ancestors m) (htop : top ∈ m :: r.src.ancestors m)
    (hmost : r.Topmost ops top) (hupdated : ∃ other ∈ ops, other.Updates top)
    (h : r.UpdatedBy ops n patch) : n = top := by
  obtain ⟨other, hother, htops⟩ := hupdated
  have habove := h.topmost
  obtain ⟨op, ⟨⟨hmem, -⟩, -⟩, hop⟩ := h
  rcases L.forest.comparable m hn htop with heq | hn | htop
  · exact heq
  · exact absurd hop (hmost n hn op hmem)
  · -- below the topmost one the update would have been subsumed
    exact absurd htops (habove top htop other hother)

/-- **Updates are left to the topmost one.** The nodes with update patches are not above one another. An
update is covered by a patch for its node or for one above exactly if the topmost updated node at or
above its own has an update on explicit nodes; no other update on the way can stand in for it. -/
theorem keeps_outermost_updates {r : Revision} {ops : List Operation} {set : PatchSet}
    (L : r.src.Linked) (h : r.generate ops = .ok set) : r.KeepsOutermost ops set := by
  obtain ⟨-, hmem⟩ := of_generate_ok h
  refine ⟨fun path x => ⟨fun hpatch => ?_, fun ⟨n, _, hn⟩ => mem_of_updatedBy h hn⟩,
    fun n n' patch patch' hn hn' habove => ?_, fun op hop hkind => ?_⟩
  · obtain ⟨op, hmakes⟩ := (hmem _).mp hpatch
    have hupdates := updates_of_patchFor hmakes.2
    obtain ⟨path', x', hpath, heq⟩ := of_patchFor_updates hupdates hmakes.2
    obtain ⟨rfl, rfl⟩ := Patch.update.inj heq
    exact ⟨op.node.node, hpath, op, hmakes, hupdates⟩
  · obtain ⟨op', ⟨⟨hop', -⟩, -⟩, hupdates'⟩ := hn'
    exact hn.topmost n' habove op' hop' hupdates'
  · obtain ⟨top, htop, hupdated, hmost⟩ := L.exists_topmost
      (P := fun a => ∃ other ∈ ops, other.Updates a)
      ⟨op.node.node, List.mem_cons_self, op, hop, hkind, rfl⟩
    have hmost : r.Topmost ops top :=
      fun a ha other hother hupdates => hmost a ha ⟨other, hother, hupdates⟩
    refine ⟨top, htop, hupdated, hmost, ?_, ?_⟩
    · rintro ⟨n, hn, patch, -, hpatch⟩
      obtain rfl := hpatch.eq_topmost L hn htop hmost hupdated
      obtain ⟨other, ⟨⟨hother, -, hexplicit⟩, -⟩, hupdates⟩ := hpatch
      exact ⟨other, hother, hupdates, hexplicit⟩
    · rintro ⟨other, hother, hupdates, hexplicit⟩
      obtain ⟨patch, hmakes⟩ := (exists_generate_iff.mp ⟨set, h⟩).2 other
        ((effective_iff_of_updates hupdates).mpr ⟨hother, hmost, hexplicit⟩)
      have hpatch : r.UpdatedBy ops top patch := ⟨other, hmakes, hupdates⟩
      exact ⟨top, htop, patch, mem_of_updatedBy h hpatch, hpatch⟩

end Revision

/-- A class with a sum of two numbers in it and a node that is absent from the text. -/
def Tree.ofSum (name left right : String) : Tree :=
  ofRose name none <| .node rootContent
    [.node { kind := "class_declaration", label := "", role := .containedType }
      [.node { kind := "identifier", label := "C", role := .slot .name } [],
        .node { kind := "binary_expression", label := "", role := .slot .value }
          [.node { kind := "decimal_integer_literal", label := left, role := .slot .left } [],
            .node { kind := "decimal_integer_literal", label := right, role := .slot .right } []],
        .node { kind := "identifier", label := "", role := .slot .init, implicit := true } []]]

/-- A sum and one of its numbers are updated: one patch replaces the sum. -/
theorem Revision.keeps_outermost_updates_sum :
    let src := Tree.ofSum "old" "1" "2"
    let dst := Tree.ofSum "new" "3" "2"
    let ops : List Operation :=
      [⟨.update, src.ref 4, some (dst.ref 4)⟩, ⟨.update, src.ref 3, some (dst.ref 3)⟩]
    src.Linked ∧
      ∃ nodes set,
        Correspondence.resolve (src.diff dst 2).pairing (src.diff dst 2).pairs src dst = .ok nodes ∧
        Revision.generate { src, dst, nodes } ops = .ok set ∧
        set.patches = [.update ⟨[⟨.containedType, some 0⟩, ⟨.slot .value, none⟩]⟩ 3] ∧
        Revision.KeepsOutermost { src, dst, nodes } ops set := by
  intro src dst ops
  have hs : src.Linked := Tree.linked_ofRose _ _ _
  let nodes := src.correspondence dst 2
  have hset := eq_ok_of_isSome (a := PatchSet.empty dst)
    (by decide +kernel : (Revision.generate { src, dst, nodes } ops).toOption.isSome = true)
  exact ⟨hs, nodes, _, by decide +kernel, hset, by decide +kernel, keeps_outermost_updates hs hset⟩

/-- One number of a sum changes, and an update of the sum to the absent node is reported as well. By
itself the update of the number is a patch; next to the other one, both are gone. -/
theorem Revision.update_lost :
    let src := Tree.ofSum "old" "1" "2"
    let dst := Tree.ofSum "new" "3" "2"
    let inner : Operation := ⟨.update, src.ref 4, some (dst.ref 4)⟩
    let outer : Operation := ⟨.update, src.ref 3, some (dst.ref 6)⟩
    src.Linked ∧ dst.Linked ∧ (src.diff dst 2).operations = [inner] ∧
      inner.isImplicit src dst = false ∧
      ∃ nodes path,
        Correspondence.resolve (src.diff dst 2).pairing (src.diff dst 2).pairs src dst = .ok nodes ∧
        (Revision.generate { src, dst, nodes } [inner]).map PatchSet.patches =
          .ok [.update path 4] ∧
        (Revision.generate { src, dst, nodes } [outer, inner]).map PatchSet.patches = .ok [] := by
  intro src dst inner outer
  exact ⟨Tree.linked_ofRose _ _ _, Tree.linked_ofRose _ _ _, by decide +kernel, by decide +kernel,
    src.correspondence dst 2,
    ⟨[⟨.containedType, some 0⟩, ⟨.slot .value, none⟩, ⟨.slot .left, none⟩]⟩,
    by decide +kernel, by decide +kernel, by decide +kernel⟩

end TreePatch
