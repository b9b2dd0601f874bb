import TreePatch.Layout.Program
import TreePatch.Proofs.Changes

/-!
# The deletion stage

A target is unlinked only if it is still attached when the stage reaches it, so which links are cut depends
on the order of the targets: of two nested ones the lower is spared if the upper comes first. What is left
within reach does not. A tree is described by the links that were cut (`Tree.Cut`); every target that could
be reached is cut off, at itself or above (`Patching.exists_reached`), and this makes the attached part
depend on the set of targets only (`Tree.Pruned`).
-/

namespace TreePatch

namespace CompilationUnit

/-- Forgets several declared types. -/
def eraseAll (u : CompilationUnit) (ids : List NodeId) : CompilationUnit :=
  { u with declaredTypes := u.declaredTypes.filter fun n => decide (n ∉ ids) }

@[simp] theorem eraseAll_nil (u : CompilationUnit) : u.eraseAll [] = u := by
  simp [eraseAll]

theorem eraseAll_singleton (u : CompilationUnit) (id : NodeId) : u.eraseAll [id] = u.erase id := by
  rw [eraseAll, erase]
  congr 1
  refine List.filter_congr fun n _ => ?_
  rw [Bool.eq_iff_iff]
  simp

theorem eraseAll_eraseAll (u : CompilationUnit) (ids ids' : List NodeId) :
    (u.eraseAll ids).eraseAll ids' = u.eraseAll (ids ++ ids') := by
  rw [eraseAll, eraseAll, eraseAll]
  congr 1
  rw [List.filter_filter]
  refine List.filter_congr fun n _ => ?_
  rw [Bool.eq_iff_iff]
  simp [and_comm]

end CompilationUnit

namespace Tree

/-! ## Cut links -/

/-- `t'` is `t` without the links of the nodes of `taken` to their parents. -/
structure Cut (t : Tree) (taken : List NodeId) (t' : Tree) : Prop where
  size : t'.size = t.size
  content : ∀ n, t'.content n = t.content n
  parent? : ∀ n, t'.parent? n = if n ∈ taken then none else t.parent? n
  children : ∀ p, t'.children p = (t.children p).filter fun c => decide (c ∉ taken)
  units : t'.units = t.units.map (·.eraseAll (taken.filter fun n => t.role n == .containedType))

variable {t t' t'' : Tree} {taken taken' : List NodeId}

theorem Cut.refl (t : Tree) : Cut t [] t where
  size := rfl
  content _ := rfl
  parent? _ := by simp
  children _ := by simp
  units := by simp

theorem Unlinked.cut {n : NodeId} (h : Unlinked t n t') : Cut t [n] t' where
  size := h.size
  content := h.content
  parent? x := by simpa using h.parent? x
  children x := by
    rw [h.children]
    refine List.filter_congr fun c _ => ?_
    rw [Bool.eq_iff_iff]
    simp
  units := by
    rw [h.units]
    split
    · next hrole => simp [hrole, CompilationUnit.eraseAll_singleton]
    · next hrole => simp [hrole]

namespace Cut

theorem trans (h : Cut t taken t') (h' : Cut t' taken' t'') : Cut t (taken ++ taken') t'' where
  size := h'.size.trans h.size
  content n := (h'.content n).trans (h.content n)
  parent? n := by
    rw [h'.parent?, h.parent?]
    by_cases hn : n ∈ taken <;> simp [hn]
  children p := by
    rw [h'.children, h.children, List.filter_filter]
    refine List.filter_congr fun c _ => ?_
    rw [Bool.eq_iff_iff]
    simp [and_comm]
  units := by
    have hrole : ∀ n, t'.role n = t.role n := fun n => role_of_content (h.content n)
    rw [h'.units, h.units, List.map_map, List.filter_append]
    simp only [hrole]
    exact List.map_congr_left fun u _ => u.eraseAll_eraseAll _ _

theorem linked (L : t.Linked) (h : Cut t taken t') : t'.Linked where
  root_lt := h.size ▸ L.root_lt
  root_top := by
    rw [h.parent?, L.root_top, ite_self]
  mem_children {p c} := by
    rw [h.children, h.parent?, List.mem_filter, L.mem_children]
    by_cases hc : c ∈ taken <;> simp [hc]
  nodup p := h.children p ▸ (L.nodup p).filter _
  acyclic := by
    obtain ⟨rank, hrank⟩ := L.acyclic
    refine ⟨rank, fun {p c} hpar => hrank ?_⟩
    rw [h.parent?] at hpar
    split at hpar
    · simp at hpar
    · exact hpar

theorem parent_of_some (h : Cut t taken t') {n p : NodeId} (hp : t'.parent? n = some p) :
    n ∉ taken ∧ t.parent? n = some p := by
  rw [h.parent?] at hp
  split at hp
  · simp at hp
  · next hn => exact ⟨hn, hp⟩

theorem isAttached_iff (L : t.Linked) (h : Cut t taken t') (hroot : root ∉ taken) {n : NodeId} :
    t'.isAttached n = true ↔ t.isAttached n = true ∧ ∀ a ∈ n :: t.ancestors n, a ∉ taken := by
  have L' := h.linked L
  constructor
  · refine L'.induction_attached (P := fun n => t.isAttached n = true ∧
      ∀ a ∈ n :: t.ancestors n, a ∉ taken) ?_ fun n p hp _ ih => ?_
    · rw [L.ancestors_root, List.forall_mem_singleton]
      exact ⟨Linked.isAttached_root, hroot⟩
    · obtain ⟨hn, hp⟩ := h.parent_of_some hp
      rw [L.ancestors_of_some hp, List.forall_mem_cons]
      exact ⟨(L.isAttached_of_parent hp).mpr ih.1, hn, ih.2⟩
  · rintro ⟨hn, hchain⟩
    refine L.induction_attached (P := fun n => (∀ a ∈ n :: t.ancestors n, a ∉ taken) →
      t'.isAttached n = true) (fun _ => Linked.isAttached_root) (fun n p hp _ ih hchain => ?_) hn hchain
    rw [L.ancestors_of_some hp, List.forall_mem_cons] at hchain
    have hp' : t'.parent? n = some p := by rw [h.parent?, if_neg hchain.1, hp]
    exact (L'.isAttached_of_parent hp').mpr (ih hchain.2)

theorem ancestors_subset (L : t.Linked) (h : Cut t taken t') (n : NodeId) :
    t'.ancestors n ⊆ t.ancestors n := by
  have L' := h.linked L
  induction n using L'.forest.induction_up with
  | step n ih =>
    cases hp : t'.parent? n with
    | none =>
      rw [Linked.ancestors_of_none hp]
      exact List.nil_subset _
    | some p =>
      rw [L'.ancestors_of_some hp, L.ancestors_of_some (h.parent_of_some hp).2]
      exact List.cons_subset_cons p (ih p hp)

end Cut

/-! ## The attached part -/

theorem Linked.mem_above_trans (L : t.Linked) {a b n : NodeId} (hb : b ∈ a :: t.ancestors a)
    (ha : a ∈ n :: t.ancestors n) : b ∈ n :: t.ancestors n := by
  rcases List.mem_cons.mp ha with rfl | ha
  · exact hb
  · rcases List.mem_cons.mp hb with rfl | hb
    · exact List.mem_cons_of_mem _ ha
    · exact List.mem_cons_of_mem _ (L.forest.mem_upward_trans n hb ha)

theorem Linked.isAttached_of_above (L : t.Linked) {a n : NodeId} (hn : t.isAttached n = true)
    (ha : a ∈ n :: t.ancestors n) : t.isAttached a = true := by
  refine L.induction_attached (P := fun n => ∀ a ∈ n :: t.ancestors n, t.isAttached a = true) ?_
    (fun n p hp hatt ih => ?_) hn a ha
  · rw [L.ancestors_root, List.forall_mem_singleton]
    exact isAttached_root
  · rw [L.ancestors_of_some hp, List.forall_mem_cons]
    exact ⟨(L.isAttached_of_parent hp).mpr hatt, ih⟩

/-- `t'` is what is left within reach of `t` without the targets and all below them. -/
structure Pruned (t : Tree) (targets : List NodeId) (t' : Tree) : Prop where
  size : t'.size = t.size
  content : ∀ n, t'.content n = t.content n
  attached : ∀ n, t'.isAttached n = true ↔
    t.isAttached n = true ∧ ∀ a ∈ n :: t.ancestors n, a ∉ targets
  parent? : ∀ n, t'.isAttached n = true → t'.parent? n = t.parent? n
  children : ∀ p, t'.isAttached p = true →
    t'.children p = (t.children p).filter fun c => decide (c ∉ targets)

theorem Cut.pruned (L : t.Linked) (h : Cut t taken t') {targets : List NodeId} (hroot : root ∉ targets)
    (hsub : taken ⊆ targets) (hcovers : ∀ d ∈ targets, t.isAttached d = true →
      ∃ a ∈ d :: t.ancestors d, a ∈ taken) : Pruned t targets t' := by
  have hattached : ∀ n, t'.isAttached n = true ↔
      t.isAttached n = true ∧ ∀ a ∈ n :: t.ancestors n, a ∉ targets := by
    intro n
    rw [h.isAttached_iff L (fun hmem => hroot (hsub hmem))]
    refine and_congr_right fun hn => ⟨fun hchain a ha htarget => ?_, fun hchain a ha hmem =>
      hchain a ha (hsub hmem)⟩
    obtain ⟨b, hb, htaken⟩ := hcovers a htarget (L.isAttached_of_above hn ha)
    exact hchain b (L.mem_above_trans hb ha) htaken
  refine ⟨h.size, h.content, hattached, fun n hn => ?_, fun p hp => ?_⟩
  · rw [h.parent?, if_neg fun hmem => ((hattached n).mp hn).2 n List.mem_cons_self (hsub hmem)]
  · rw [h.children]
    refine List.filter_congr fun c hc => decide_eq_decide.mpr (not_congr ⟨fun hmem => hsub hmem, ?_⟩)
    -- a target below a node within reach has no other cut above it than its own
    intro htarget
    have hpar := L.mem_children.mp hc
    have hp' := (hattached p).mp hp
    obtain ⟨a, ha, htaken⟩ := hcovers c htarget ((L.isAttached_of_parent hpar).mpr hp'.1)
    rw [L.ancestors_of_some hpar] at ha
    rcases List.mem_cons.mp ha with rfl | ha
    · exact htaken
    · exact absurd (hsub htaken) (hp'.2 a ha)

theorem Pruned.unique (L' : t'.Linked) (L'' : t''.Linked) {targets targets' : List NodeId}
    (h : Pruned t targets t') (h' : Pruned t targets' t'') (hsame : ∀ n, n ∈ targets ↔ n ∈ targets') :
    (∀ n, t'.isAttached n = t''.isAttached n) ∧ t'.subtree root = t''.subtree root ∧
      t'.contents root = t''.contents root := by
  have hattached : ∀ n, t'.isAttached n = t''.isAttached n := fun n => by
    rw [Bool.eq_iff_iff, h.attached, h'.attached]
    simp only [hsame]
  have hchildren : ∀ p, t'.isAttached p = true → t'.children p = t''.children p := fun p hp => by
    rw [h.children p hp, h'.children p (hattached p ▸ hp)]
    simp only [hsame]
  have hsubtree : ∀ n, t'.isAttached n = true → t'.subtree n = t''.subtree n := by
    intro n
    induction n using L'.induction_down with
    | step n ih =>
      intro hn
      rw [L'.subtree_eq, L''.subtree_eq, ← hchildren n hn]
      congr 1
      exact List.map_congr_left fun c hc =>
        ih c hc ((L'.isAttached_of_parent (L'.mem_children.mp hc)).mpr hn)
  have hroot := hsubtree root Linked.isAttached_root
  refine ⟨hattached, hroot, ?_⟩
  rw [contents, contents, hroot]
  congr 1
  exact funext fun n => (h.content n).trans (h'.content n).symm

end Tree

/-! ## Runs of the stage -/

namespace Patching

/-- The targets that are attached when the stage reaches them. -/
def reached (w : Workpiece) : List NodeId → List NodeId
  | [] => []
  | n :: targets =>
    (if w.tree.isAttached n then [n] else []) ++ reached ((delete n).left w) targets

theorem reached_subset : ∀ (targets : List NodeId) (w : Workpiece), reached w targets ⊆ targets
  | [], _ => List.Subset.refl _
  | n :: targets, w => by
    rw [reached]
    refine List.append_subset.mpr ⟨?_, fun m hm => List.mem_cons_of_mem _ (reached_subset targets _ hm)⟩
    split <;> simp

variable {w : Workpiece}

theorem exists_delete (L : w.tree.Linked) {n : NodeId} (hn : n ≠ Tree.root) :
    ∃ t', delete n w = .ok () { w with tree := t' } ∧
      Tree.Cut w.tree (if w.tree.isAttached n then [n] else []) t' := by
  rw [delete_run]
  by_cases hatt : w.tree.isAttached n = true
  · obtain ⟨p, hp, -⟩ := L.exists_parent_of_isAttached hatt hn
    obtain ⟨t', ht', hu⟩ := Tree.detach_ok L hp
    refine ⟨t', ?_, ?_⟩
    · rw [if_pos hatt, edit, ht']
    · rw [if_pos hatt]
      exact hu.cut
  · refine ⟨w.tree, if_neg hatt, ?_⟩
    rw [if_neg hatt]
    exact .refl _

theorem exists_deleteAll {targets : List NodeId} (hroot : Tree.root ∉ targets) (L : w.tree.Linked) :
    ∃ t', targets.forM delete w = .ok () { w with tree := t' } ∧
      Tree.Cut w.tree (reached w targets) t' := by
  induction targets generalizing w with
  | nil => exact ⟨w.tree, rfl, .refl _⟩
  | cons n targets ih =>
    rw [List.mem_cons, not_or] at hroot
    obtain ⟨t₁, hrun, hcut⟩ := exists_delete L (Ne.symm hroot.1)
    obtain ⟨t', hrest, hcut'⟩ := ih (w := { w with tree := t₁ }) hroot.2 (hcut.linked L)
    refine ⟨t', (bind_of_ok hrun).trans hrest, ?_⟩
    rw [reached, left, hrun]
    exact hcut.trans hcut'

theorem deleteAll_root {targets : List NodeId} (hroot : Tree.root ∈ targets) (L : w.tree.Linked) :
    ∃ w', targets.forM delete w = .error (.tree (.detached Tree.root)) w' := by
  induction targets generalizing w with
  | nil => simp at hroot
  | cons n targets ih =>
    by_cases hn : n = Tree.root
    · subst hn
      refine ⟨w, bind_of_error ?_⟩
      rw [delete_run, if_pos Tree.Linked.isAttached_root, edit, Tree.detach, L.root_top]
    · obtain ⟨t₁, hrun, hcut⟩ := exists_delete L hn
      obtain ⟨w', hrest⟩ := ih (w := { w with tree := t₁ })
        ((List.mem_cons.mp hroot).resolve_left (Ne.symm hn)) (hcut.linked L)
      exact ⟨w', (bind_of_ok hrun).trans hrest⟩

theorem exists_reached {targets : List NodeId} (hroot : Tree.root ∉ targets) (L : w.tree.Linked)
    {d : NodeId} (hd : d ∈ targets) (hatt : w.tree.isAttached d = true) :
    ∃ a ∈ d :: w.tree.ancestors d, a ∈ reached w targets := by
  induction targets generalizing w with
  | nil => simp at hd
  | cons n targets ih =>
    rw [List.mem_cons, not_or] at hroot
    obtain ⟨t₁, hrun, hcut⟩ := exists_delete L (Ne.symm hroot.1)
    have hfirst : Tree.root ∉ if w.tree.isAttached n then [n] else [] := by
      split <;> simp [hroot.1]
    have hstill := hcut.isAttached_iff L hfirst (n := d)
    rw [reached, left, hrun]
    by_cases hcutoff : ∀ a ∈ d :: w.tree.ancestors d, a ∉ if w.tree.isAttached n then [n] else []
    · -- nothing above is cut yet, so the target is still to come
      have hne : d ≠ n := by
        rintro rfl
        simpa [hatt] using hcutoff d List.mem_cons_self
      obtain ⟨a, ha, hmem⟩ := ih (w := { w with tree := t₁ }) hroot.2 (hcut.linked L)
        ((List.mem_cons.mp hd).resolve_left hne) (hstill.mpr ⟨hatt, hcutoff⟩)
      exact ⟨a, List.cons_subset_cons d (hcut.ancestors_subset L d) ha, List.mem_append_right _ hmem⟩
    · obtain ⟨a, ha, hmem⟩ : ∃ a ∈ d :: w.tree.ancestors d,
          a ∈ if w.tree.isAttached n then [n] else [] := by
        simpa only [not_forall, not_not, exists_prop] using hcutoff
      exact ⟨a, ha, List.mem_append_left _ hmem⟩

theorem exists_pruned {targets : List NodeId} (hroot : Tree.root ∉ targets) (L : w.tree.Linked) :
    ∃ t', targets.forM delete w = .ok () { w with tree := t' } ∧ t'.Linked ∧
      Tree.Cut w.tree (reached w targets) t' ∧ Tree.Pruned w.tree targets t' := by
  obtain ⟨t', hrun, hcut⟩ := exists_deleteAll hroot L
  exact ⟨t', hrun, hcut.linked L, hcut, hcut.pruned L hroot (reached_subset targets w) fun d hd hatt =>
    exists_reached hroot L hd hatt⟩

/-- **The deletion stage fails exactly if the root is a target.** Otherwise it leaves the nodes within reach
that are not targets and have no target above them, with their links and in their order, whatever the order
of the targets. The units lose the top-level types that were attached when the stage reached them. -/
theorem deletes_exactly (w : Workpiece) (L : w.tree.Linked) (targets : List NodeId) :
    ((∃ e w', targets.forM delete w = .error e w') ↔ Tree.root ∈ targets) ∧
    (Tree.root ∉ targets → ∃ t', targets.forM delete w = .ok () { w with tree := t' } ∧
      Tree.Pruned w.tree targets t' ∧
      t'.units = w.tree.units.map (·.eraseAll
        ((reached w targets).filter fun n => w.tree.role n == .containedType)) ∧
      ∀ targets' : List NodeId, (∀ n, n ∈ targets ↔ n ∈ targets') →
        ∃ t'', targets'.forM delete w = .ok () { w with tree := t'' } ∧
          (∀ n, t'.isAttached n = t''.isAttached n) ∧ t'.subtree Tree.root = t''.subtree Tree.root ∧
          t'.contents Tree.root = t''.contents Tree.root) := by
  refine ⟨⟨fun ⟨e, w', herror⟩ => ?_, fun hroot => ?_⟩, fun hroot => ?_⟩
  · by_contra hroot
    obtain ⟨t', hrun, -⟩ := exists_pruned hroot L
    rw [hrun] at herror
    simp at herror
  · obtain ⟨w', hrun⟩ := deleteAll_root hroot L
    exact ⟨_, w', hrun⟩
  · obtain ⟨t', hrun, L', hcut, hpruned⟩ := exists_pruned hroot L
    refine ⟨t', hrun, hpruned, hcut.units, fun targets' hsame => ?_⟩
    have hroot' : Tree.root ∉ targets' := fun hmem => hroot ((hsame _).mpr hmem)
    obtain ⟨t'', hrun', L'', -, hpruned'⟩ := exists_pruned hroot' L
    exact ⟨t'', hrun', hpruned.unique L' L'' hpruned' hsame⟩

/-- Two members of a class, the body that holds them, and a second class go. In the other order the members
are gone with the body before they are reached. -/
theorem deletes_exactly_nested :
    let inner (kind : String) (role : Role) : List (Rose Content) → Rose Content :=
      .node { kind, label := "", role }
    let w : Workpiece := { tree := .ofRose "old" none (.node Tree.rootContent
      [inner "class_declaration" .containedType [inner "class_body" (.slot .body)
        [inner "field_declaration" .typeMember [], inner "field_declaration" .typeMember []]],
      inner "class_declaration" .containedType []]) }
    w.tree.Linked ∧ Tree.root ∉ [3, 4, 2, 5, 3] ∧ (∀ n, n ∈ [3, 4, 2, 5, 3] ↔ n ∈ [5, 2, 4, 3]) ∧
      reached w [3, 4, 2, 5, 3] = [3, 4, 2, 5] ∧ reached w [5, 2, 4, 3] = [5, 2] ∧
      ∃ t' t'', [3, 4, 2, 5, 3].forM delete w = .ok () { w with tree := t' } ∧
        [5, 2, 4, 3].forM delete w = .ok () { w with tree := t'' } ∧
        t'.isAttached 1 = true ∧ t'.isAttached 4 = false ∧ t'.units = [⟨none, [1]⟩] ∧
        t'.subtree Tree.root = t''.subtree Tree.root := by
  intro inner w
  have L : w.tree.Linked := Tree.linked_ofRose _ _ _
  have hroot : Tree.root ∉ [3, 4, 2, 5, 3] := by decide
  have hsame : ∀ n, n ∈ [3, 4, 2, 5, 3] ↔ n ∈ [5, 2, 4, 3] := fun n => by
    simp only [List.mem_cons, List.not_mem_nil]
    tauto
  have hreached : reached w [3, 4, 2, 5, 3] = [3, 4, 2, 5] := by decide +kernel
  obtain ⟨t', hrun, hpruned, hunits, hother⟩ := (deletes_exactly w L [3, 4, 2, 5, 3]).2 hroot
  obtain ⟨t'', hrun', -, hsubtree, -⟩ := hother [5, 2, 4, 3] hsame
  refine ⟨L, hroot, hsame, hreached, by decide +kernel, t', t'', hrun, hrun', ?_, ?_, ?_, hsubtree⟩
  · exact (hpruned.attached 1).mpr (by decide +kernel)
  · rw [Bool.eq_false_iff, ne_eq, hpruned.attached 4]
    decide +kernel
  · rw [hunits, hreached]
    decide +kernel

end Patching

end TreePatch
