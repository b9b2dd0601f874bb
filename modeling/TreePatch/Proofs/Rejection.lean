import TreePatch.Proofs.Lockstep
import TreePatch.Proofs.Plan

/-!
# Patches that are rejected

All paths in a set of patches are looked up before the tree changes. The first one that leads nowhere stops
the patches from being applied at all (`Plan.looksUp_make`). Later steps could complain of a path too, when
they find a parent or an anchor missing that a path was to give. In a plan that was made none is missing
(`Plan.provided_make`), so that no step ever fails this way (`Patching.finds_carryOut`).
-/

namespace TreePatch

/-- The first of the paths that leads nowhere. -/
def Tree.firstUnresolved? (t : Tree) (paths : List Path) : Option Path :=
  paths.find? fun path => (t.resolve path).isNone

namespace Plan

/-! ## Looking up paths -/

/-- The computation looks up the paths in `t`: it fails with the first one that leads nowhere, and with
nothing else. -/
def LooksUp {α : Type} (t : Tree) (paths : List Path) (x : Except PatchError α) : Prop :=
  match t.firstUnresolved? paths with
  | some path => x = .error (.unresolved path)
  | none => ∃ a, x = .ok a

section

variable {α β : Type} {t : Tree} {paths paths' : List Path}

theorem looksUp_ok (a : α) : LooksUp t [] (.ok a) :=
  ⟨a, rfl⟩

theorem LooksUp.bind {x : Except PatchError α} {f : α → Except PatchError β} (hx : LooksUp t paths x)
    (hf : ∀ a, LooksUp t paths' (f a)) : LooksUp t (paths ++ paths') (x >>= f) := by
  rw [LooksUp, Tree.firstUnresolved?, List.find?_append]
  rw [LooksUp, Tree.firstUnresolved?] at hx
  cases hfirst : paths.find? fun path => (t.resolve path).isNone with
  | some path =>
    rw [hfirst] at hx
    rw [hx]
    rfl
  | none =>
    rw [hfirst] at hx
    obtain ⟨a, rfl⟩ := hx
    exact hf a

theorem LooksUp.map {x : Except PatchError α} (hx : LooksUp t paths x) (f : α → β) :
    LooksUp t paths (x.map f) := by
  rw [LooksUp] at hx ⊢
  split at hx
  · rw [hx]
    rfl
  · obtain ⟨a, rfl⟩ := hx
    exact ⟨f a, rfl⟩

theorem looksUp_locate (path : Path) : LooksUp t [path] (locate t path) := by
  rw [LooksUp, Tree.firstUnresolved?, List.find?_singleton, locate]
  cases t.resolve path with
  | none => rfl
  | some n => exact ⟨n, rfl⟩

theorem looksUp_locateInsertion (source : Option NodeId) (i : Insertion) :
    LooksUp t i.paths (locateInsertion t source i) := by
  have hparent : LooksUp t i.parent.paths (locateParent t i.parent) := by
    cases i.parent with
    | existing path => exact (looksUp_locate path).map some
    | inserted node => exact looksUp_ok none
  have hanchor : LooksUp t i.anchor.paths (locateAnchor t i.anchor) := by
    cases i.anchor with
    | after path => exact (looksUp_locate path).map some
    | start | afterInserted => exact looksUp_ok none
  refine hparent.bind fun parent => ?_
  rw [← List.append_nil i.anchor.paths]
  exact hanchor.bind fun anchor => looksUp_ok _

theorem looksUp_add (plan : Plan) (patch : Patch) : LooksUp t patch.paths (add t plan patch) := by
  have hend : ∀ {γ : Type} {paths : List Path} {x : Except PatchError γ} (f : γ → Plan),
      LooksUp t paths x → LooksUp t paths (x >>= fun a => .ok (f a)) := by
    intro γ paths x f hx
    rw [← List.append_nil paths]
    exact hx.bind fun a => looksUp_ok (f a)
  cases patch with
  | delete target => exact hend _ (looksUp_locate target)
  | update target replacement => exact hend _ (looksUp_locate target)
  | insert i => exact hend _ (looksUp_locateInsertion none i)
  | move source i =>
    exact (looksUp_locate source).bind fun id => hend _ (looksUp_locateInsertion (some id) i)

theorem looksUp_make (t : Tree) (patches : List Patch) :
    LooksUp t (patches.flatMap Patch.paths) (make t patches) := by
  suffices hrun : ∀ plan, LooksUp t (patches.flatMap Patch.paths) (patches.foldlM (add t) plan) from
    hrun empty
  induction patches with
  | nil => exact looksUp_ok
  | cons patch patches ih =>
    intro plan
    rw [List.flatMap_cons, List.foldlM_cons]
    exact (looksUp_add plan patch).bind ih

end

end Plan

/-! ## Plans that were made -/

/-- What the insertion addresses by a path has been found. -/
structure Placement.Provided (pl : Placement) : Prop where
  parent : ∀ path, pl.insertion.parent = .existing path → pl.parent ≠ none
  anchor : ∀ path, pl.insertion.anchor = .after path → pl.anchor ≠ none

namespace Plan

variable {t : Tree}

theorem ne_none_of_map_locate {path : Path} {found : Option NodeId}
    (h : (locate t path).map some = .ok found) : found ≠ none := by
  obtain ⟨n, -, rfl⟩ := map_eq_ok.mp h
  simp

theorem provided_of_locateInsertion {source : Option NodeId} {i : Insertion} {pl : Placement}
    (h : locateInsertion t source i = .ok pl) : pl.Provided := by
  obtain ⟨parent, hparent, h⟩ := bind_eq_ok.mp h
  obtain ⟨anchor, hanchor, h⟩ := bind_eq_ok.mp h
  obtain rfl := Except.ok.inj h
  constructor
  · intro path hpath
    rw [hpath] at hparent
    exact ne_none_of_map_locate hparent
  · intro path hpath
    rw [hpath] at hanchor
    exact ne_none_of_map_locate hanchor

theorem provided_add {plan plan' : Plan} {patch : Patch} (hplan : ∀ pl ∈ plan.placements, pl.Provided)
    (h : add t plan patch = .ok plan') : ∀ pl ∈ plan'.placements, pl.Provided := by
  have hplace : ∀ {source i pl}, locateInsertion t source i = .ok pl →
      ∀ pl' ∈ plan.placements ++ [pl], pl'.Provided := fun hpl => by
    rw [List.forall_mem_append, List.forall_mem_singleton]
    exact ⟨hplan, provided_of_locateInsertion hpl⟩
  cases patch with
  | delete target | update target replacement =>
    obtain ⟨id, -, h⟩ := bind_eq_ok.mp h
    obtain rfl := Except.ok.inj h
    exact hplan
  | insert i =>
    obtain ⟨pl, hpl, h⟩ := bind_eq_ok.mp h
    obtain rfl := Except.ok.inj h
    exact hplace hpl
  | move source i =>
    obtain ⟨id, -, h⟩ := bind_eq_ok.mp h
    obtain ⟨pl, hpl, h⟩ := bind_eq_ok.mp h
    obtain rfl := Except.ok.inj h
    exact hplace hpl

theorem provided_make {patches : List Patch} {plan : Plan} (h : make t patches = .ok plan) :
    ∀ pl ∈ plan.placements, pl.Provided := by
  suffices hrun : ∀ (patches : List Patch) (start : Plan), (∀ pl ∈ start.placements, pl.Provided) →
      patches.foldlM (add t) start = .ok plan → ∀ pl ∈ plan.placements, pl.Provided from
    hrun patches empty (by simp [empty]) h
  intro patches
  induction patches with
  | nil =>
    intro start hstart hrun
    rwa [← Except.ok.inj hrun]
  | cons patch patches ih =>
    intro start hstart hrun
    rw [List.foldlM_cons, bind_eq_ok] at hrun
    obtain ⟨next, hadd, hrun⟩ := hrun
    exact ih next (provided_add hstart hadd) hrun

end Plan

/-! ## Steps that find their way -/

namespace Patching

/-- The step never complains of a path. -/
def Finds {α : Type} (x : Patching α) : Prop :=
  ∀ w path w', x w ≠ .error (.unresolved path) w'

section

variable {α β : Type}

theorem finds_pure (a : α) : Finds (pure a : Patching α) :=
  fun _ _ _ h => nomatch h

theorem finds_throw {e : PatchError} (he : ∀ path, e ≠ .unresolved path) :
    Finds (throw e : Patching α) := by
  intro w path w' h
  injection h with h
  exact he path h

theorem finds_get : Finds (get : Patching Workpiece) :=
  fun _ _ _ h => nomatch h

theorem finds_modify (f : Workpiece → Workpiece) : Finds (modify f : Patching PUnit) :=
  fun _ _ _ h => nomatch h

theorem finds_edit (f : Tree → Except TreeError Tree) : Finds (edit f) := by
  intro w path w' h
  rw [edit] at h
  split at h <;> simp at h

theorem Finds.bind {x : Patching α} {f : α → Patching β} (hx : Finds x) (hf : ∀ a, Finds (f a)) :
    Finds (x >>= f) := by
  intro w path w' h
  cases hrun : x w with
  | ok a w₁ =>
    rw [bind_of_ok hrun] at h
    exact hf a w₁ path w' h
  | error e w₁ =>
    rw [bind_of_error hrun] at h
    injection h with he hw
    exact hx w path w₁ (he ▸ hrun)

theorem Finds.ite {c : Prop} [Decidable c] {x y : Patching α} (hx : Finds x) (hy : Finds y) :
    Finds (if c then x else y) := by
  split
  · exact hx
  · exact hy

theorem finds_forM {l : List α} {f : α → Patching Unit} (h : ∀ a ∈ l, Finds (f a)) :
    Finds (l.forM f) := by
  induction l with
  | nil => exact finds_pure ()
  | cons a l ih =>
    exact (h a List.mem_cons_self).bind fun _ => ih fun b hb => h b (List.mem_cons_of_mem _ hb)

end

theorem finds_copyOf (n : NodeId) : Finds (copyOf? n) :=
  finds_get.bind fun _ => finds_pure _

theorem finds_copyIn (dst : Tree) (n : NodeId) : Finds (copyIn dst n) :=
  fun _ _ _ h => nomatch h

theorem finds_delete (n : NodeId) : Finds (delete n) :=
  finds_get.bind fun _ => (finds_edit _).ite (finds_pure _)

theorem finds_update (dst : Tree) (old new : NodeId) : Finds (update dst old new) :=
  finds_get.bind fun _ => .ite ((finds_copyIn _ _).bind fun _ => (finds_modify _).bind fun _ =>
    finds_edit _) (finds_pure _)

theorem finds_linkThrown (dst : Tree) (parent n : NodeId) : Finds (linkThrown dst parent n) := by
  intro w path w'
  rw [linkThrown_run]
  split
  · exact finds_edit _ _ _ _
  · exact finds_edit _ _ _ _

theorem finds_renewThrown (dst : Tree) (parent n : NodeId) : Finds (renewThrown dst parent n) := by
  refine finds_get.bind fun w => (finds_forM fun old _ => finds_edit _).bind fun _ => ?_
  cases dst.parent? n with
  | none => exact finds_pure _
  | some q => exact finds_forM fun z _ => finds_linkThrown dst parent z

section

variable {pl : Placement} (h : pl.Provided) (dst : Tree) (parent n : NodeId)

include h

theorem finds_anchorOf : Finds (anchorOf pl) := by
  rw [anchorOf]
  split
  · exact finds_pure _
  · exact finds_pure _
  · next path hanchor hnone => exact absurd hnone (h.anchor path hanchor)
  · refine (finds_copyOf _).bind fun copy => ?_
    split
    · exact finds_pure _
    · exact finds_throw (by simp)

theorem finds_parentOf : Finds (parentOf pl) := by
  rw [parentOf]
  split
  · exact finds_pure _
  · next path hnone hparent => exact absurd hnone (h.parent path hparent)
  · refine (finds_copyOf _).bind fun copy => ?_
    split
    · exact finds_pure _
    · exact finds_throw (by simp)

theorem finds_linkAtAnchor : Finds (linkAtAnchor pl parent n) := by
  refine (finds_anchorOf h).bind fun anchor => finds_get.bind fun w => ?_
  cases hposition : positionBehind w.tree parent anchor with
  | ok i => exact finds_edit _
  | error e =>
    rw [error_of_positionBehind hposition]
    exact finds_throw (by simp)

theorem finds_linkAtIndex : Finds (linkAtIndex pl parent n) := by
  rw [linkAtIndex]
  split
  · exact finds_throw (by simp)
  · refine finds_get.bind fun w => ?_
    split
    · exact finds_edit _
    · exact finds_linkAtAnchor h parent n

theorem finds_linkOver (occupant : Option NodeId) : Finds (linkOver pl parent n occupant) := by
  cases occupant with
  | some occupant => exact finds_edit (·.replace occupant n)
  | none => exact finds_linkAtAnchor h parent n

theorem finds_link : Finds (link dst pl parent n) := by
  refine finds_get.bind fun w => ?_
  cases hrole : pl.insertion.role with
  | statement | argument | typeMember | typeParameter | parameter | case | annotationUse | imported =>
    exact finds_linkAtIndex h parent n
  | caseExpression => exact .ite (finds_edit _) (finds_linkAtIndex h parent n)
  | thrown => exact finds_renewThrown dst parent _
  | containedType => exact (finds_linkAtIndex h parent n).bind fun _ => finds_edit _
  | modifier | packageDeclaration | caseLabel | slot | child | token =>
    exact finds_linkOver h parent n _
  | root => exact finds_throw (by simp)

theorem finds_place : Finds (place dst pl) := by
  refine (finds_copyOf _).bind fun copy => .ite ?_ (finds_pure _)
  exact (finds_parentOf h).bind fun parent => (finds_copyIn dst _).bind fun n =>
    finds_link h dst parent n

end

theorem finds_carryOut (dst : Tree) {plan : Plan} (h : ∀ pl ∈ plan.placements, pl.Provided) :
    Finds (carryOut dst plan) :=
  (finds_modify _).bind fun _ => (finds_forM fun n _ => finds_delete n).bind fun _ =>
    (finds_modify _).bind fun _ => (finds_forM fun q _ => finds_update dst q.1 q.2).bind fun _ =>
      (finds_modify _).bind fun _ => (finds_forM fun n _ => finds_delete n).bind fun _ =>
        (finds_forM fun pl hpl => finds_place (h pl hpl) dst).bind fun _ =>
          (finds_modify _).bind fun _ => finds_modify _

end Patching

/-! ## Sets of patches -/

namespace PatchSet

variable {s : PatchSet} {t : Tree}

theorem apply_of_unresolved {path : Path}
    (h : t.firstUnresolved? (s.patches.flatMap Patch.paths) = some path) :
    s.apply t = { tree := t, stages := [], error := some (.unresolved path) } := by
  have hmake := Plan.looksUp_make t s.patches
  rw [Plan.LooksUp, h] at hmake
  rw [apply, hmake]

theorem error_ne_unresolved (h : t.firstUnresolved? (s.patches.flatMap Patch.paths) = none)
    (path : Path) : (s.apply t).error ≠ some (.unresolved path) := by
  have hmake := Plan.looksUp_make t s.patches
  rw [Plan.LooksUp, h] at hmake
  obtain ⟨plan, hplan⟩ := hmake
  have hfinds := Patching.finds_carryOut s.destination (Plan.provided_make hplan) { tree := t }
  simp only [apply, hplan]
  split
  · simp
  · next e w hrun =>
    intro herror
    exact hfinds path w (Option.some.inj herror ▸ hrun)

/-- **Patches are rejected as unresolved exactly if one of their paths leads nowhere** in the tree as given.
The tree is then left as it was, with no stage entered, and the path complained of is the first such one. -/
theorem rejected_iff (s : PatchSet) (t : Tree) :
    ((∃ path, (s.apply t).error = some (.unresolved path)) ↔
      ∃ patch ∈ s.patches, ∃ path ∈ patch.paths, t.resolve path = none) ∧
    ∀ path, (s.apply t).error = some (.unresolved path) →
      s.apply t = { tree := t, stages := [], error := some (.unresolved path) } ∧
        t.firstUnresolved? (s.patches.flatMap Patch.paths) = some path := by
  have hfirst : (∃ patch ∈ s.patches, ∃ path ∈ patch.paths, t.resolve path = none) ↔
      t.firstUnresolved? (s.patches.flatMap Patch.paths) ≠ none := by
    simp [Tree.firstUnresolved?, List.find?_eq_none]
  rw [hfirst]
  cases hpath : t.firstUnresolved? (s.patches.flatMap Patch.paths) with
  | none =>
    have hno := error_ne_unresolved hpath
    exact ⟨iff_of_false (fun ⟨path, hpath⟩ => hno path hpath) (by simp),
      fun path hpath => absurd hpath (hno path)⟩
  | some path =>
    have happly := apply_of_unresolved hpath
    rw [happly]
    refine ⟨iff_of_true ⟨path, rfl⟩ (by simp), fun path' hpath' => ?_⟩
    obtain rfl : path = path' := by simpa using hpath'
    exact ⟨rfl, rfl⟩

/-- The class is there to be deleted, replaced and moved, but the last anchor leads nowhere. -/
theorem rejected_iff_anchor :
    let t := Tree.ofRose "old" none (.node Tree.rootContent
      [.node { kind := "class_declaration", label := "C", role := .containedType } []])
    let here : Path := ⟨[⟨.containedType, some 0⟩]⟩
    let nowhere : Path := ⟨[⟨.containedType, some 1⟩]⟩
    let insertion (anchor : Path) : Insertion :=
      { index := some 0, node := 1, role := .containedType, parent := .existing .empty,
        anchor := .after anchor }
    let s : PatchSet :=
      ⟨t, [.delete here, .update here 1, .move here (insertion here), .insert (insertion nowhere)]⟩
    (s.apply t).error = some (.unresolved nowhere) ∧ (s.apply t).tree = t ∧ (s.apply t).stages = [] := by
  intro t here nowhere insertion s
  have herror : (s.apply t).error = some (.unresolved nowhere) := by decide +kernel
  have happly := ((rejected_iff s t).2 nowhere herror).1
  exact ⟨herror, by rw [happly], by rw [happly]⟩

end PatchSet

end TreePatch
