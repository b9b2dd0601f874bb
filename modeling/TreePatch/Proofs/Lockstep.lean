import TreePatch.Proofs.Parallel
import TreePatch.Proofs.Patching

/-!
# Patching in step

Two runs of the same patches on trees in parallel. From workpieces in parallel every step leads to workpieces
in parallel, with related results or with the same error (`Patching.InStep`), so the runs go in step from the
first path that is looked up to the last node that is placed (`PatchSet.parallel_apply`).
-/

namespace TreePatch

/-- Two errors that differ in the number of a node at most. -/
inductive PatchError.Alike : PatchError → PatchError → Prop
  | tree {e e' : TreeError} (h : e.Alike e') : Alike (.tree e) (.tree e')
  | same {e : PatchError} (h : ∀ e', e ≠ .tree e') : Alike e e

/-- Two workpieces that are the same up to numbers. -/
structure Workpiece.Parallel (R : NodeId → NodeId → Prop) (w w' : Workpiece) : Prop where
  tree : Tree.Parallel R w.tree w'.tree
  copies : List.Forall₂ (fun x y => x.1 = y.1 ∧ R x.2 y.2) w.copies w'.copies
  stages : w.stages = w'.stages

/-- Two placements of the same insertion. -/
structure Placement.Parallel (R : NodeId → NodeId → Prop) (pl pl' : Placement) : Prop where
  insertion : pl.insertion = pl'.insertion
  source : Option.Rel R pl.source pl'.source
  parent : Option.Rel R pl.parent pl'.parent
  anchor : Option.Rel R pl.anchor pl'.anchor

/-- Two plans for the same patches. -/
structure Plan.Parallel (R : NodeId → NodeId → Prop) (plan plan' : Plan) : Prop where
  deletes : List.Forall₂ R plan.deletes plan'.deletes
  updates : List.Forall₂ (fun x y => R x.1 y.1 ∧ x.2 = y.2) plan.updates plan'.updates
  placements : List.Forall₂ (Placement.Parallel R) plan.placements plan'.placements

/-! ## Plans in parallel -/

/-- Looking paths up went well in two trees, with related results, or the same path led nowhere. -/
inductive Plan.Agree {α β : Type} (Q : α → β → Prop) : Except PatchError α → Except PatchError β → Prop
  | ok {a : α} {b : β} (h : Q a b) : Agree Q (.ok a) (.ok b)
  | unresolved (path : Path) : Agree Q (.error (.unresolved path)) (.error (.unresolved path))

theorem Plan.Agree.bind {α β γ δ : Type} {Q : α → β → Prop} {P : γ → δ → Prop}
    {x : Except PatchError α} {y : Except PatchError β} {f : α → Except PatchError γ}
    {g : β → Except PatchError δ} (h : Agree Q x y) (hf : ∀ {a b}, Q a b → Agree P (f a) (g b)) :
    Agree P (x >>= f) (y >>= g) := by
  cases h with
  | ok hab => exact hf hab
  | unresolved path => exact .unresolved path

theorem Plan.Agree.map_some {R : NodeId → NodeId → Prop} {x y : Except PatchError NodeId}
    (h : Agree R x y) : Agree (Option.Rel R) (x.map some) (y.map some) := by
  cases h with
  | ok hab => exact .ok (.some hab)
  | unresolved path => exact .unresolved path

namespace Tree.Parallel

variable {R : NodeId → NodeId → Prop} {t t' : Tree} (h : Tree.Parallel R t t')

include h

theorem locate (path : Path) : Plan.Agree R (Plan.locate t path) (Plan.locate t' path) := by
  rw [Plan.locate, Plan.locate]
  rcases cases_of_rel (h.resolve path) with ⟨ha, hb⟩ | ⟨a, b, ha, hb, hab⟩ <;> rw [ha, hb]
  · exact .unresolved path
  · exact .ok hab

theorem locateInsertion {source source' : Option NodeId} (hsource : Option.Rel R source source')
    (i : Insertion) :
    Plan.Agree (Placement.Parallel R) (Plan.locateInsertion t source i)
      (Plan.locateInsertion t' source' i) := by
  have hparent : Plan.Agree (Option.Rel R) (Plan.locateParent t i.parent)
      (Plan.locateParent t' i.parent) := by
    cases i.parent with
    | existing path => exact (h.locate path).map_some
    | inserted node => exact .ok .none
  have hanchor : Plan.Agree (Option.Rel R) (Plan.locateAnchor t i.anchor)
      (Plan.locateAnchor t' i.anchor) := by
    cases i.anchor with
    | after path => exact (h.locate path).map_some
    | start | afterInserted => exact .ok .none
  exact hparent.bind fun hp => hanchor.bind fun ha => .ok ⟨rfl, hsource, hp, ha⟩

theorem add {plan plan' : Plan} (hplan : Plan.Parallel R plan plan') (patch : Patch) :
    Plan.Agree (Plan.Parallel R) (plan.add t patch) (plan'.add t' patch) := by
  have hplace : ∀ {pl pl'}, Placement.Parallel R pl pl' →
      Plan.Parallel R { plan with placements := plan.placements ++ [pl] }
        { plan' with placements := plan'.placements ++ [pl'] } := fun hpl =>
    ⟨hplan.deletes, hplan.updates, List.rel_append hplan.placements (.cons hpl .nil)⟩
  cases patch with
  | delete target =>
    refine (h.locate target).bind fun hab => .ok ⟨?_, hplan.updates, hplan.placements⟩
    exact List.rel_append hplan.deletes (.cons hab .nil)
  | update target replacement =>
    refine (h.locate target).bind fun hab => .ok ⟨hplan.deletes, ?_, hplan.placements⟩
    exact List.rel_append hplan.updates (.cons ⟨hab, rfl⟩ .nil)
  | insert i => exact (h.locateInsertion .none i).bind fun hpl => .ok (hplace hpl)
  | move source i =>
    exact (h.locate source).bind fun hab =>
      (h.locateInsertion (.some hab) i).bind fun hpl => .ok (hplace hpl)

theorem make (patches : List Patch) :
    Plan.Agree (Plan.Parallel R) (Plan.make t patches) (Plan.make t' patches) := by
  suffices hrun : ∀ {plan plan'}, Plan.Parallel R plan plan' →
      Plan.Agree (Plan.Parallel R) (patches.foldlM (Plan.add t) plan)
        (patches.foldlM (Plan.add t') plan') from hrun ⟨.nil, .nil, .nil⟩
  induction patches with
  | nil => exact fun hplan => .ok hplan
  | cons patch patches ih =>
    intro plan plan' hplan
    rw [List.foldlM_cons, List.foldlM_cons]
    exact (h.add hplan patch).bind ih

end Tree.Parallel

/-! ## Steps in step -/

namespace Patching

/-- Two steps ended well with related results, or broke off with the same error, and left workpieces in
parallel. -/
inductive Agree {α β : Type} (R : NodeId → NodeId → Prop) (Q : α → β → Prop) :
    EStateM.Result PatchError Workpiece α → EStateM.Result PatchError Workpiece β → Prop
  | ok {a : α} {b : β} {w w' : Workpiece} (hab : Q a b) (h : Workpiece.Parallel R w w') :
    Agree R Q (.ok a w) (.ok b w')
  | error {e e' : PatchError} {w w' : Workpiece} (he : e.Alike e') (h : Workpiece.Parallel R w w') :
    Agree R Q (.error e w) (.error e' w')

/-- Two steps that agree wherever they start from workpieces in parallel. -/
def InStep {α β : Type} (R : NodeId → NodeId → Prop) (Q : α → β → Prop) (x : Patching α)
    (y : Patching β) : Prop :=
  ∀ ⦃w w'⦄, Workpiece.Parallel R w w' → Agree R Q (x w) (y w')

/-- Two steps without a result that agree. -/
abbrev InStep₀ (R : NodeId → NodeId → Prop) (x y : Patching Unit) : Prop :=
  InStep R (fun _ _ => True) x y

section

variable {α β γ δ : Type} {R : NodeId → NodeId → Prop} {Q : α → β → Prop} {P : γ → δ → Prop}

theorem inStep_pure {a : α} {b : β} (h : Q a b) : InStep R Q (pure a) (pure b) :=
  fun _ _ hw => .ok h hw

theorem inStep_throw {e : PatchError} (he : ∀ e', e ≠ .tree e') :
    InStep R Q (throw e) (throw e) :=
  fun _ _ hw => .error (.same he) hw

theorem inStep_get : InStep R (Workpiece.Parallel R) get get :=
  fun _ _ hw => .ok hw hw

theorem InStep.bind {x : Patching α} {y : Patching β} {f : α → Patching γ} {g : β → Patching δ}
    (h : InStep R Q x y) (hf : ∀ {a b}, Q a b → InStep R P (f a) (g b)) :
    InStep R P (x >>= f) (y >>= g) := by
  intro w w' hw
  have hagree := h hw
  generalize hx : x w = r, hy : y w' = r' at hagree
  cases hagree with
  | ok hab hw' =>
    rw [bind_of_ok hx, bind_of_ok hy]
    exact hf hab hw'
  | error he hw' =>
    rw [bind_of_error hx, bind_of_error hy]
    exact .error he hw'

theorem InStep.forM {as : List α} {bs : List β} {f : α → Patching Unit} {g : β → Patching Unit}
    (h : List.Forall₂ Q as bs) (hf : ∀ {a b}, Q a b → InStep₀ R (f a) (g b)) :
    InStep₀ R (as.forM f) (bs.forM g) := by
  induction h with
  | nil => exact inStep_pure trivial
  | cons hab _ ih => exact (hf hab).bind fun _ => ih

theorem inStep_modify {f g : Workpiece → Workpiece}
    (h : ∀ {w w'}, Workpiece.Parallel R w w' → Workpiece.Parallel R (f w) (g w')) :
    InStep₀ R (modify f) (modify g) :=
  fun _ _ hw => .ok trivial (h hw)

theorem inStep_edit {f g : Tree → Except TreeError Tree}
    (h : ∀ {t t'}, Tree.Parallel R t t' → Tree.Agree R (f t) (g t')) :
    InStep₀ R (edit f) (edit g) := by
  intro w w' hw
  have hagree := h hw.tree
  rw [edit, edit]
  generalize f w.tree = r, g w'.tree = r' at hagree
  cases hagree with
  | ok ht => exact .ok trivial ⟨ht, hw.copies, hw.stages⟩
  | error he => exact .error (.tree he) hw

theorem inStep_enter (stage : Stage) : InStep₀ R (enter stage) (enter stage) := by
  refine inStep_modify fun {w w'} hw => ⟨hw.tree, hw.copies, ?_⟩
  exact congrArg (· ++ [stage]) hw.stages

theorem inStep_copyOf (n : NodeId) : InStep R (Option.Rel R) (copyOf? n) (copyOf? n) :=
  inStep_get.bind fun hw => inStep_pure (rel_lookup hw.copies n)

theorem inStep_copyIn (dst : Tree) (n : NodeId) : InStep R R (copyIn dst n) (copyIn dst n) :=
  fun _ _ hw => .ok (hw.tree.next 0)
    ⟨hw.tree.graft dst n, List.rel_append (hw.tree.copies dst n) hw.copies, hw.stages⟩

end

/-! ## The steps of a plan, in step -/

section

variable {R : NodeId → NodeId → Prop} {a b : NodeId}

theorem inStep_delete (hab : R a b) : InStep₀ R (delete a) (delete b) := by
  refine inStep_get.bind fun {w w'} hw => ?_
  rw [hw.tree.isAttached hab]
  split
  · exact inStep_edit fun ht => ht.detach hab
  · exact inStep_pure trivial

theorem parallel_keepName {t t' : Tree} (h : Tree.Parallel R t t') {c d : NodeId} (hab : R a b)
    (hcd : R c d) : Tree.Parallel R (keepName a c t) (keepName b d t') := by
  rw [keepName, keepName, h.kind hab, h.simpleName? hab]
  split
  · cases t'.simpleName? b with
    | none => exact h
    | some name =>
      rcases cases_of_rel (h.nameNode? hcd) with ⟨hn, hn'⟩ | ⟨x, y, hn, hn', hxy⟩ <;> rw [hn, hn']
      · exact h
      · exact h.setLabel hxy name
  · exact h

theorem inStep_update (dst : Tree) (hab : R a b) (y : NodeId) :
    InStep₀ R (update dst a y) (update dst b y) := by
  refine inStep_get.bind fun {w w'} hw => ?_
  rw [hw.tree.isAttached hab]
  split
  · refine (inStep_copyIn dst y).bind fun {c d} hcd => InStep.bind (inStep_modify fun hw => ?_)
      fun _ => inStep_edit fun ht => ht.replace hab hcd
    exact ⟨parallel_keepName hw.tree hab hcd, hw.copies, hw.stages⟩
  · exact inStep_pure trivial

theorem positionBehind_eq {t t' : Tree} (h : Tree.Parallel R t t') (hab : R a b) {o o' : Option NodeId}
    (ho : Option.Rel R o o') : positionBehind t a o = positionBehind t' b o' := by
  cases ho with
  | none => rfl
  | some hcd =>
    rw [positionBehind, positionBehind, h.childPosition? hcd]
    simp only [h.parent?_eq_iff hcd hab]

theorem error_of_positionBehind {t : Tree} {o : Option NodeId} {e : PatchError}
    (h : positionBehind t a o = .error e) : e = .anchorNotInParent := by
  cases o with
  | none => simp [positionBehind] at h
  | some anchor =>
    rw [positionBehind] at h
    split at h
    · split at h
      · simp at h
      · exact (Except.error.inj h).symm
    · exact (Except.error.inj h).symm

theorem positionInCollection_eq {t t' : Tree} (h : Tree.Parallel R t t') (hab : R a b) (r : Role)
    (index : Nat) : positionInCollection? t a r index = positionInCollection? t' b r index := by
  have hmembers := h.childrenWithRole hab r
  rw [positionInCollection?, positionInCollection?]
  rcases cases_of_rel (rel_getElem? hmembers index) with ⟨hc, hd⟩ | ⟨c, d, hc, hd, hcd⟩
  · simp only [hc, hd]
    rcases cases_of_rel (rel_getLast? hmembers) with ⟨hc, hd⟩ | ⟨c, d, hc, hd, hcd⟩ <;> rw [hc, hd]
    · rfl
    · simp only [Option.bind_some, h.childPosition? hcd]
  · simp only [hc, hd, h.childPosition? hcd]

theorem inStep_linkThrown (dst : Tree) (hab : R a b) (z : NodeId) :
    InStep₀ R (linkThrown dst a z) (linkThrown dst b z) := by
  intro w w' hw
  have hlink : ∀ {c d}, R c d → InStep₀ R (edit (·.appendChild a c)) (edit (·.appendChild b d)) :=
    fun hcd => inStep_edit fun ht => ht.appendChild hab hcd
  have hcopy : InStep₀ R (copyIn dst z >>= fun c => edit (·.appendChild a c))
      (copyIn dst z >>= fun c => edit (·.appendChild b c)) := (inStep_copyIn dst z).bind hlink
  rw [linkThrown_run, linkThrown_run]
  rcases cases_of_rel (rel_lookup hw.copies z) with ⟨hc, hd⟩ | ⟨c, d, hc, hd, hcd⟩ <;> rw [hc, hd]
  · exact hcopy hw
  · rw [Option.filter_some, Option.filter_some, hw.tree.isAttached hcd]
    by_cases hatt : (!w'.tree.isAttached d) = true
    · rw [if_pos hatt, if_pos hatt]
      exact hlink hcd hw
    · rw [if_neg hatt, if_neg hatt]
      exact hcopy hw

theorem inStep_renewThrown (dst : Tree) (hab : R a b) (y : NodeId) :
    InStep₀ R (renewThrown dst a y) (renewThrown dst b y) := by
  refine inStep_get.bind fun {w w'} hw => ?_
  refine (InStep.forM (hw.tree.childrenWithRole hab .thrown) fun hxy =>
    inStep_edit fun ht => ht.detach hxy).bind fun _ => ?_
  cases dst.parent? y with
  | none => exact inStep_pure trivial
  | some q =>
    refine InStep.forM (Q := Eq) (List.forall₂_refl _) fun {z z'} hz => ?_
    rw [hz]
    exact inStep_linkThrown dst hab z'

theorem inStep_declare (hab : R a b) (index : Option Nat) :
    InStep₀ R (declare index a) (declare index b) := by
  refine inStep_edit fun {t t'} ht => ?_
  rw [Tree.modifyOnlyUnit, Tree.modifyOnlyUnit]
  rcases ht.onlyUnit with ⟨u, u', hu, hu', hrel⟩ | ⟨n, hn, hn'⟩
  · rw [hu, hu']
    refine .ok (ht.with_units (.cons ?_ .nil))
    rw [CompilationUnit.insert, CompilationUnit.insert, hrel.length_eq]
    exact rel_insertIdx hrel hab _
  · rw [hn, hn']
    exact .error (.compilationUnitCount n)

variable {pl pl' : Placement} (hpl : Placement.Parallel R pl pl')

include hpl

theorem inStep_anchorOf : InStep R (Option.Rel R) (anchorOf pl) (anchorOf pl') := by
  rw [anchorOf, anchorOf, hpl.insertion]
  cases pl'.insertion.anchor with
  | start => exact inStep_pure .none
  | after path =>
    rcases cases_of_rel hpl.anchor with ⟨ha, hb⟩ | ⟨a, b, ha, hb, hab⟩ <;> rw [ha, hb]
    · exact inStep_throw (by simp)
    · exact inStep_pure (.some hab)
  | afterInserted node =>
    refine (inStep_copyOf node).bind fun {o o'} ho => ?_
    cases ho with
    | none => exact inStep_throw (by simp)
    | some hab => exact inStep_pure (.some hab)

theorem inStep_parentOf : InStep R R (parentOf pl) (parentOf pl') := by
  rw [parentOf, parentOf, hpl.insertion]
  rcases cases_of_rel hpl.parent with ⟨ha, hb⟩ | ⟨a, b, ha, hb, hab⟩ <;> rw [ha, hb]
  · cases pl'.insertion.parent with
    | existing path => exact inStep_throw (by simp)
    | inserted node =>
      refine (inStep_copyOf node).bind fun {o o'} ho => ?_
      cases ho with
      | none => exact inStep_throw (by simp)
      | some hab => exact inStep_pure hab
  · exact inStep_pure hab

variable {c d : NodeId}

theorem inStep_linkAtAnchor (hab : R a b) (hcd : R c d) :
    InStep₀ R (linkAtAnchor pl a c) (linkAtAnchor pl' b d) := by
  refine (inStep_anchorOf hpl).bind fun {o o'} ho => inStep_get.bind fun {w w'} hw => ?_
  rw [positionBehind_eq hw.tree hab ho]
  cases hposition : positionBehind w'.tree b o' with
  | ok i => exact inStep_edit fun ht => ht.insertChild hab hcd i
  | error e =>
    rw [error_of_positionBehind hposition]
    exact inStep_throw (by simp)

theorem inStep_linkAtIndex (hab : R a b) (hcd : R c d) :
    InStep₀ R (linkAtIndex pl a c) (linkAtIndex pl' b d) := by
  rw [linkAtIndex, linkAtIndex, hpl.insertion]
  cases pl'.insertion.index with
  | none => exact inStep_throw (by simp)
  | some index =>
    refine inStep_get.bind fun {w w'} hw => ?_
    rw [positionInCollection_eq hw.tree hab]
    cases positionInCollection? w'.tree b pl'.insertion.role index with
    | some i => exact inStep_edit fun ht => ht.insertChild hab hcd i
    | none => exact inStep_linkAtAnchor hpl hab hcd

theorem inStep_linkOver (hab : R a b) (hcd : R c d) {o o' : Option NodeId} (ho : Option.Rel R o o') :
    InStep₀ R (linkOver pl a c o) (linkOver pl' b d o') := by
  cases ho with
  | none => exact inStep_linkAtAnchor hpl hab hcd
  | some hxy => exact inStep_edit fun ht => ht.replace hxy hcd

theorem inStep_link (dst : Tree) (hab : R a b) (hcd : R c d) :
    InStep₀ R (link dst pl a c) (link dst pl' b d) := by
  refine inStep_get.bind fun {w w'} hw => ?_
  have hkind : w.tree.kind c = w'.tree.kind d := hw.tree.kind hcd
  rw [hpl.insertion]
  cases hrole : pl'.insertion.role with
  | statement | argument | typeMember | typeParameter | parameter | case | annotationUse | imported =>
    exact inStep_linkAtIndex hpl hab hcd
  | caseExpression =>
    have hempty := isEmpty_eq_of_forall₂ (hw.tree.childrenWithRole hab .caseExpression)
    simp only [hempty]
    split
    · exact inStep_edit fun ht => ht.appendChild hab hcd
    · exact inStep_linkAtIndex hpl hab hcd
  | thrown => exact inStep_renewThrown dst hab _
  | containedType =>
    exact (inStep_linkAtIndex hpl hab hcd).bind fun _ => inStep_declare hcd _
  | modifier =>
    refine inStep_linkOver hpl hab hcd ?_
    rw [hkind]
    split
    · refine rel_head? (List.rel_filter (fun x y hxy => ?_) (hw.tree.childrenWithRole hab _))
      change (w.tree.kind x == _) = true ↔ (w'.tree.kind y == _) = true
      rw [hw.tree.kind hxy]
    · exact .none
  | packageDeclaration | caseLabel | slot | child | token =>
    refine inStep_linkOver hpl hab hcd ?_
    split
    · exact rel_head? (hw.tree.childrenWithRole hab _)
    · exact .none
  | root => exact inStep_throw (by simp)

theorem inStep_place (dst : Tree) : InStep₀ R (place dst pl) (place dst pl') := by
  rw [place, place, hpl.insertion]
  refine (inStep_copyOf _).bind fun {o o'} ho => ?_
  have hnone : o.isNone = o'.isNone := by cases ho <;> rfl
  rw [hnone]
  split
  · exact (inStep_parentOf hpl).bind fun hab => (inStep_copyIn dst _).bind fun hcd =>
      inStep_link hpl dst hab hcd
  · exact inStep_pure trivial

end

theorem inStep_carryOut {R : NodeId → NodeId → Prop} (dst : Tree) {plan plan' : Plan}
    (h : Plan.Parallel R plan plan') : InStep₀ R (carryOut dst plan) (carryOut dst plan') := by
  refine (inStep_enter _).bind fun _ => ?_
  refine (InStep.forM h.deletes inStep_delete).bind fun _ => ?_
  refine (inStep_enter _).bind fun _ => ?_
  refine (InStep.forM h.updates fun {q q'} hq => ?_).bind fun _ => ?_
  · change InStep₀ R (update dst q.1 q.2) (update dst q'.1 q'.2)
    rw [hq.2]
    exact inStep_update dst hq.1 _
  refine (inStep_enter _).bind fun _ => ?_
  have hsources : List.Forall₂ R (plan.placements.filterMap Placement.source)
      (plan'.placements.filterMap Placement.source) :=
    List.rel_filterMap (fun _ _ hpl => hpl.source) h.placements
  refine (InStep.forM hsources inStep_delete).bind fun _ => ?_
  refine (InStep.forM h.placements fun hpl => inStep_place hpl dst).bind fun _ => ?_
  exact (inStep_enter _).bind fun _ => inStep_enter _

end Patching

/-- **Runs on trees in parallel end in parallel**, with the same error if any. -/
theorem PatchSet.parallel_apply {R : NodeId → NodeId → Prop} {t t' : Tree} (h : Tree.Parallel R t t')
    (s : PatchSet) :
    Tree.Parallel R (s.apply t).tree (s.apply t').tree ∧ (s.apply t).stages = (s.apply t').stages ∧
      Option.Rel PatchError.Alike (s.apply t).error (s.apply t').error := by
  have hmake := h.make s.patches
  rw [apply, apply]
  generalize Plan.make t s.patches = r, Plan.make t' s.patches = r' at hmake
  cases hmake with
  | unresolved path => exact ⟨h, rfl, .some (.same (by simp))⟩
  | @ok plan plan' hplan =>
    have hstart : Workpiece.Parallel R { tree := t } { tree := t' } := ⟨h, .nil, rfl⟩
    have hagree := Patching.inStep_carryOut s.destination hplan hstart
    simp only [EStateM.run]
    generalize Patching.carryOut s.destination plan { tree := t } = r,
      Patching.carryOut s.destination plan' { tree := t' } = r' at hagree
    cases hagree with
    | ok _ hw => exact ⟨hw.tree, hw.stages, .none⟩
    | error he hw => exact ⟨hw.tree, hw.stages, .some he⟩

end TreePatch
