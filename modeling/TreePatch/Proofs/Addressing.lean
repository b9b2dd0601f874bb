import TreePatch.Proofs.Converted
import TreePatch.Proofs.Generate

/-!
# Nodes addressed by patches

A patch names nodes of the source tree by their paths: the node that is taken away or replaced, the one
under which something goes, and the one behind which it goes. All of them can be reached, so they have
paths; a path leads back to its node exactly if no single slot on the way is taken by an elder sibling.
Concrete syntax does not rule that out: an intersection cast has several types in one slot.
-/

namespace TreePatch

/-- The paths in the reference to a parent. -/
def ParentRef.paths : ParentRef → List Path
  | .existing path => [path]
  | .inserted _ => []

/-- The paths in an anchor. -/
def Anchor.paths : Anchor → List Path
  | .after path => [path]
  | .start | .afterInserted _ => []

/-- The paths in an insertion: to the parent, then to the anchor. -/
def Insertion.paths (i : Insertion) : List Path :=
  i.parent.paths ++ i.anchor.paths

/-- The paths in a patch: to what is taken away or replaced, then those of the insertion. -/
def Patch.paths : Patch → List Path
  | .delete target => [target]
  | .update target _ => [target]
  | .insert i => i.paths
  | .move source i => source :: i.paths

namespace Revision

variable (r : Revision) (brought : List NodeId)

/-- The counterpart of the nearest of the siblings in `before` that is brought in or has a counterpart;
none if that one is brought in. -/
def anchorNode? (before : List NodeId) : Option NodeId :=
  (before.find? fun z => brought.contains z || (r.counterpart? z).isSome).bind fun z =>
    if brought.contains z then none else r.counterpart? z

/-- The source nodes that tell where a copy of the destination node `x` goes: the counterpart of its
parent, and that of the elder sibling behind which it goes. -/
def surroundings (x : NodeId) : List NodeId :=
  (r.dst.parent? x).elim [] fun q => (r.counterpart? q).toList ++
    (r.anchorNode? brought ((r.dst.children q).takeWhile (· != x)).reverse).toList

/-- The source nodes that the patch for an operation has to address. -/
def named (op : Operation) : List NodeId :=
  match op.kind with
  | .delete | .update => [op.node.node]
  | .insert => r.surroundings brought op.node.node
  | .move => op.node.node :: op.counterpart.elim [] fun x => r.surroundings brought x.node

end Revision

/-- The path is that of the node `n`, and leads back to it if nothing on the way is taken by an elder
sibling. -/
def Tree.Addresses (t : Tree) (path : Path) (n : NodeId) : Prop :=
  t.pathOf n = .ok path ∧ (t.resolve path = some n ↔ ∀ a ∈ n :: t.ancestors n, t.Foremost a)

theorem Tree.Rooted.exists_addresses {t : Tree} (A : t.Rooted) {n : NodeId}
    (h : t.isAttached n = true) : ∃ path, t.pathOf n = .ok path ∧ t.Addresses path n := by
  obtain ⟨path, hpath, hresolve⟩ := A.exists_path h
  exact ⟨path, hpath, hpath, hresolve⟩

namespace Reconciled

section

variable {r : Revision} (brought : List NodeId)

theorem exists_anchor_addressing (As : r.src.Rooted) : ∀ before : List NodeId,
    (∀ z ∈ before, z ∉ brought → ∀ e, r.counterpart? z = some e → r.src.isAttached e = true) →
      ∃ anchor, r.anchorAmong brought before = .ok anchor ∧
        List.Forall₂ r.src.Addresses anchor.paths (r.anchorNode? brought before).toList
  | [], _ => ⟨.start, rfl, .nil⟩
  | z :: before, hreached => by
    rw [Revision.anchorAmong, Revision.anchorNode?, List.find?_cons]
    by_cases hb : z ∈ brought
    · have hcontains : brought.contains z = true := List.contains_iff_mem.mpr hb
      refine ⟨.afterInserted z, by rw [if_pos hcontains], ?_⟩
      simp only [hcontains, Bool.true_or, Option.bind_some, if_true]
      exact .nil
    · have hcontains : brought.contains z = false := by simpa using hb
      rw [hcontains, if_neg Bool.false_ne_true, Bool.false_or]
      cases he : r.counterpart? z with
      | some e =>
        obtain ⟨path, hpath, haddresses⟩ :=
          As.exists_addresses (hreached z List.mem_cons_self hb e he)
        refine ⟨.after path, by simp only [Revision.pathOf, hpath]; rfl, ?_⟩
        simp only [Option.isSome_some, Option.bind_some, hcontains, he]
        exact .cons haddresses .nil
      | none =>
        obtain ⟨anchor, hanchor, hpaths⟩ := exists_anchor_addressing As before fun z hz =>
          hreached z (List.mem_cons_of_mem _ hz)
        exact ⟨anchor, hanchor, hpaths⟩

end

section

variable {r : Revision} {stay : NodeId → Option NodeId} {ops : List Operation}
  (h : Reconciled r.src r.dst stay (deletedNodes ops) (updatedPairs ops) (placedNodes ops))
  (As : r.src.Rooted) (Ad : r.dst.Rooted) (hops : ∀ op ∈ ops, op.Between r.src r.dst)
  (C : Corresponds r stay)

include h As Ad hops C

theorem exists_insertion_addressing {x : NodeId} {source : Option NodeId}
    (hx : (x, source) ∈ placedNodes ops) :
    ∃ i, r.insertionOf (ops.filterMap Operation.brought?) x = .ok i ∧
      List.Forall₂ r.src.Addresses i.paths (r.surroundings (ops.filterMap Operation.brought?) x) := by
  obtain ⟨-, -, q, p, hqp, hq⟩ := h.place hx
  obtain ⟨index, hindex⟩ := Ad.charted.exists_index hq
  obtain ⟨path, hpath, haddresses⟩ :=
    As.exists_addresses (h.ancestors_kept As.linked Ad.linked hqp).1
  obtain ⟨anchor, hanchor, hpaths⟩ := exists_anchor_addressing
    (ops.filterMap Operation.brought?) As ((r.dst.children q).takeWhile (· != x)).reverse
    fun z hz hb e he => by
      have hzq := Ad.linked.mem_children.mp
        ((List.takeWhile_prefix _).subset (List.mem_reverse.mp hz))
      rw [h.counterpart_eq_held C hqp hzq (fun hz => hb ((mem_brought_iff hops z).mpr hz))] at he
      exact h.isAttached_of_held C As.linked Ad.linked he
  have hparent : r.parentRef q = .ok (.existing path) := by
    simp only [Revision.parentRef, C.kept hqp, Revision.pathOf, hpath]
    rfl
  have hanchorOf : r.anchorOf (ops.filterMap Operation.brought?) x = .ok anchor := by
    simp only [Revision.anchorOf, hq, Option.elim_some]
    exact hanchor
  refine ⟨⟨index, x, r.dst.role x, .existing path, anchor⟩, ?_, ?_⟩
  · simp only [Revision.insertionOf, hindex, hq, hparent, hanchorOf]
    rfl
  · rw [Revision.surroundings, hq, Option.elim_some, C.kept hqp]
    exact .cons haddresses hpaths

theorem exists_patch_addressing {op : Operation} (hop : op ∈ ops) :
    ∃ patch, r.patchFor (ops.filterMap Operation.brought?) op = .ok patch ∧
      List.Forall₂ r.src.Addresses patch.paths (r.named (ops.filterMap Operation.brought?) op) := by
  have hpath : ∀ {c}, (c ∈ goneNodes (deletedNodes ops) (placedNodes ops) ∨
      ∃ x, (c, x) ∈ updatedPairs ops) → ∃ path, r.pathOf c = .ok path ∧
        r.src.Addresses path c := fun {c} hc => by
    obtain ⟨path, hpath, haddresses⟩ :=
      As.exists_addresses (h.of_leaving As.linked Ad.linked hc).1
    exact ⟨path, by simp only [Revision.pathOf, hpath]; rfl, haddresses⟩
  cases hops op hop with
  | delete c =>
    obtain ⟨path, hpath, hc⟩ := hpath (Or.inl (mem_goneNodes_of_mem hop (Or.inl rfl)))
    exact ⟨.delete path, by simp only [Revision.patchFor, Tree.ref, hpath]; rfl, .cons hc .nil⟩
  | update c x =>
    obtain ⟨path, hpath, hc⟩ := hpath (c := c) (Or.inr ⟨x, List.mem_filterMap.mpr ⟨_, hop, rfl⟩⟩)
    exact ⟨.update path x, by simp only [Revision.patchFor, Tree.ref, hpath]; rfl, .cons hc .nil⟩
  | insert x =>
    obtain ⟨i, hi, hpaths⟩ := h.exists_insertion_addressing As Ad hops C
      (List.mem_filterMap.mpr ⟨_, hop, rfl⟩ : (x, none) ∈ placedNodes ops)
    exact ⟨.insert i, by simp only [Revision.patchFor, Tree.ref, hi]; rfl, hpaths⟩
  | move c x =>
    obtain ⟨path, hpath, hc⟩ := hpath (Or.inl (mem_goneNodes_of_mem hop (Or.inr ⟨x, rfl⟩)))
    obtain ⟨i, hi, hpaths⟩ := h.exists_insertion_addressing As Ad hops C
      (List.mem_filterMap.mpr ⟨_, hop, rfl⟩ : (x, some c) ∈ placedNodes ops)
    exact ⟨.move path i, by simp only [Revision.patchFor, Tree.ref, hpath, hi]; rfl,
      .cons hc hpaths⟩

end

end Reconciled

/-! ## Sets of patches -/

theorem PatchSet.mem_foldl_insert {patches : List Patch} {set : PatchSet} {patch : Patch} :
    patch ∈ (patches.foldl PatchSet.insert set).patches ↔ patch ∈ set.patches ∨ patch ∈ patches := by
  induction patches generalizing set with
  | nil => simp
  | cons new patches ih =>
    rw [List.foldl_cons, ih, PatchSet.insert, List.mem_cons]
    split
    · next hnew =>
      have hmem : new ∈ set.patches := List.contains_iff_mem.mp hnew
      constructor
      · exact fun h => h.imp_right Or.inr
      · rintro (h | rfl | h)
        · exact Or.inl h
        · exact Or.inl hmem
        · exact Or.inr h
    · simp only [List.mem_append, List.mem_singleton, or_assoc]

theorem Tree.Rooted.exists_patches {src dst : Tree} (As : src.Rooted) (Ad : dst.Rooted)
    (hname : src.name ≠ dst.name) (minMoveSize : Nat) :
    ∃ nodes patches,
      Correspondence.resolve (src.diff dst minMoveSize).pairing (src.diff dst minMoveSize).pairs
        src dst = .ok nodes ∧
      Revision.generate { src, dst, nodes } (src.diff dst minMoveSize).operations =
        .ok (patches.foldl PatchSet.insert (.empty dst)) ∧
      let brought := (src.diff dst minMoveSize).operations.filterMap Operation.brought?
      List.Forall₂ (fun op patch => Revision.patchFor { src, dst, nodes } brought op = .ok patch ∧
          List.Forall₂ src.Addresses patch.paths (Revision.named { src, dst, nodes } brought op))
        (src.diff dst minMoveSize).operations patches := by
  have hm := Pairing.matching_matches src dst minMoveSize
  have R := As.reconciled Ad minMoveSize
  obtain ⟨nodes, hresolve, hresolved⟩ := Correspondence.resolve_ok As.linked Ad.linked hm
  have C := hresolved.corresponds As.linked Ad.linked hname
  have hops : ∀ op ∈ (src.diff dst minMoveSize).operations, op.Between src dst := fun op hop =>
    Pairing.between_of_mem_editScript As.linked Ad.linked hm hop
  obtain ⟨patches, hpatches, hall⟩ := mapM_ok_of_forall fun op hop => by
    obtain ⟨patch, hpatch, hpaths⟩ :=
      Reconciled.exists_patch_addressing (r := { src, dst, nodes }) R As Ad hops C hop
    exact ⟨patch, hpatch, And.intro hpatch hpaths⟩
  refine ⟨nodes, patches, hresolve, ?_, hall⟩
  rw [Revision.generate, Reconciled.patches_eq (r := { src, dst, nodes }) R As Ad hops, hpatches]
  rfl

/-- The patches between `src` and `dst` are those of the operations, and each addresses the nodes that its
operation names. -/
structure Addressed (src dst : Tree) (minMoveSize : Nat) (nodes : Correspondence) (set : PatchSet) : Prop
    extends Compared src dst minMoveSize nodes set where
  made : let brought := (src.diff dst minMoveSize).operations.filterMap Operation.brought?
    ∀ op ∈ (src.diff dst minMoveSize).operations, ∃ patch ∈ set.patches,
      Revision.patchFor { src, dst, nodes } brought op = .ok patch ∧
        List.Forall₂ src.Addresses patch.paths (Revision.named { src, dst, nodes } brought op)
  only : let brought := (src.diff dst minMoveSize).operations.filterMap Operation.brought?
    ∀ patch ∈ set.patches, ∃ op ∈ (src.diff dst minMoveSize).operations,
      Revision.patchFor { src, dst, nodes } brought op = .ok patch

/-- **Patches address the nodes that the operations name**, and each path leads back to its node exactly
if no single slot on the way is taken by an elder sibling. -/
theorem Source.patches_address {name file text name' file' text' : String} {rows rows' : List Row}
    {src dst : Tree} (hs : parse name file text rows = .ok src)
    (hd : parse name' file' text' rows' = .ok dst) (hname : name ≠ name') (minMoveSize : Nat) :
    ∃ nodes set, Addressed src dst minMoveSize nodes set := by
  obtain ⟨hsname, hs⟩ := formedTree_of_parse hs
  obtain ⟨hdname, hd⟩ := formedTree_of_parse hd
  obtain ⟨nodes, patches, hresolve, hgenerate, hall⟩ :=
    hs.rooted.exists_patches hd.rooted (by rwa [hsname, hdname]) minMoveSize
  have hmem : ∀ {patch}, patch ∈ (patches.foldl PatchSet.insert (.empty dst)).patches ↔
      patch ∈ patches := by simp [PatchSet.mem_foldl_insert, PatchSet.empty]
  refine ⟨nodes, patches.foldl PatchSet.insert (.empty dst), ⟨hresolve, hgenerate⟩, fun op hop => ?_,
    fun patch hpatch => ?_⟩
  · obtain ⟨patch, hpatch, hrel⟩ := exists_mem_of_forall₂ hall.flip hop
    exact ⟨patch, hmem.mpr hpatch, hrel⟩
  · obtain ⟨op, hop, hrel⟩ := exists_mem_of_forall₂ hall (hmem.mp hpatch)
    exact ⟨op, hop, hrel.1⟩

/-- Behind a field whose value changes a second one is added. -/
theorem Source.patches_address_cast :
    let old := Sketch.ofFields [("f", .cast "A" "B")]
    let new := Sketch.ofFields [("f", .cast "A" "D"), ("g", .cast "E" "G")]
    let src := old.tree "old"
    let dst := new.tree "new"
    (src.diff dst 1).operations =
        [⟨.update, src.ref 14, some (dst.ref 14)⟩, ⟨.insert, dst.ref 18, none⟩] ∧
      parse "old" "old" old.text (old.rows 0 0) = .ok src ∧
      parse "new" "new" new.text (new.rows 0 0) = .ok dst ∧
      ∃ nodes set, Addressed src dst 1 nodes set := by
  intro old new src dst
  have hs := Sketch.parse_eq_tree "old" old
  have hd := Sketch.parse_eq_tree "new" new
  exact ⟨by decide +kernel, hs, hd, patches_address hs hd (by decide) 1⟩

/-- The second type of an intersection cast changes, but the path in the patch leads to the first one. -/
theorem Source.cast_misaddressed :
    let src := (Sketch.ofFields [("f", .cast "A" "B")]).tree "old"
    let dst := (Sketch.ofFields [("f", .cast "A" "D")]).tree "new"
    (src.diff dst 1).operations = [⟨.update, src.ref 14, some (dst.ref 14)⟩] ∧
      ∃ nodes path,
        Correspondence.resolve (src.diff dst 1).pairing (src.diff dst 1).pairs src dst = .ok nodes ∧
        (Revision.generate { src, dst, nodes } (src.diff dst 1).operations).map PatchSet.patches =
          .ok [.update path 14] ∧
        src.pathOf 14 = .ok path ∧ src.resolve path = some 12 := by
  intro src dst
  refine ⟨by decide +kernel, src.correspondence dst 1, (src.pathOf 14).toOption.getD .empty, ?_⟩
  decide +kernel

end TreePatch
