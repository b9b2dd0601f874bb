import TreePatch.Proofs.Changes
import TreePatch.Proofs.Closure

/-!
# The two views of the top-level types

The top-level types are listed twice, among the children of the root and in the compilation unit.
Whatever operations patches are generated from, and however far their application gets, the two lists
agree. Deletions and replacements edit both lists alike. What is linked without being declared is no
top-level type: a copy only takes over that role when it replaces one, and then it stays where it is. A
type that is brought in goes under the root, because the roots correspond.
-/

namespace TreePatch

theorem CompilationUnit.insert_min (u : CompilationUnit) (index : Nat) (n : NodeId) :
    u.insert (min index u.declaredTypes.length) n = u.insert index n := by
  rw [insert, insert, Nat.min_assoc, Nat.min_self]

/-- Top-level types stand under the root only. -/
def Tree.ContainsAtRoot (t : Tree) : Prop :=
  ∀ n p, t.parent? n = some p → t.role n = .containedType → p = Tree.root

theorem Tree.Linked.containsAtRoot {t : Tree} (L : t.Linked)
    (h : ∀ p < t.size, ∀ n ∈ t.children p, t.role n = .containedType → p = Tree.root) :
    t.ContainsAtRoot := fun n p hp =>
  h p (L.parent_lt hp) n (L.mem_children.mpr hp)

/-- Placements carry the roles of the placed nodes, and top-level types go under the root. -/
structure Plan.Faithful (dst : Tree) (plan : Plan) : Prop where
  role : ∀ pl ∈ plan.placements, pl.insertion.role = dst.role pl.insertion.node
  root : ∀ pl ∈ plan.placements, pl.insertion.role = .containedType → ∀ p, pl.parent = some p →
    p = Tree.root

/-- The two views agree, and a copy that plays the role of a top-level type is a copy of one or stands
under the root. -/
structure Synced (src dst : Tree) (w : Workpiece) : Prop where
  inSync : w.tree.InSync
  role_of_old : ∀ n < src.size, w.tree.role n = src.role n
  copy_role : ∀ {y c}, w.copies.lookup y = some c → w.tree.role c = .containedType →
    dst.role y = .containedType ∨ w.tree.parent? c = some Tree.root

namespace Synced

variable {src dst : Tree} {plan : Plan} {w w' : Workpiece}

theorem start (h : src.InSync) : Synced src dst { tree := src } where
  inSync := h
  role_of_old _ _ := rfl
  copy_role h := by simp at h

theorem unlink (G : Grown src dst w) (S : Synced src dst w) {n : NodeId} {t' : Tree}
    (hn : n < src.size ∨ w.tree.role n = .thrown) (hu : Tree.Unlinked w.tree n t') :
    Synced src dst { w with tree := t' } := by
  have hrole : ∀ x, t'.role x = w.tree.role x := fun x => Tree.role_of_content (hu.content x)
  refine ⟨S.inSync.unlinked hu, fun x hx => (hrole x).trans (S.role_of_old x hx), fun {y c} hc hr => ?_⟩
  rw [hrole] at hr
  refine (S.copy_role hc hr).imp_right fun hparent => ?_
  have hne : c ≠ n := by
    intro heq
    rcases hn with hold | hthrown
    · exact Nat.lt_irrefl _ (Nat.lt_of_lt_of_le (heq ▸ hold) (G.copy_bounds hc).1)
    · rw [heq, hthrown] at hr
      simp at hr
  rw [hu.parent?, if_neg hne]
  exact hparent

theorem copy (D : dst.Linked) (G : Grown src dst w) (S : Synced src dst w) (y : NodeId) :
    Synced src dst
      { w with
        tree := (w.tree.graft dst y).tree
        copies := (w.tree.graft dst y).copies ++ w.copies } := by
  have hgrafted : Tree.Grafted w.tree dst y (w.tree.graft dst y) := Tree.grafted D
  generalize w.tree.graft dst y = g at hgrafted
  have hrole : ∀ x < w.tree.size, g.tree.role x = w.tree.role x := fun x hx =>
    congrArg (·.toContent.role) (hgrafted.node_old x hx)
  refine ⟨S.inSync.grafted G.linked hgrafted, fun x hx => ?_, fun {z c} hc hr => ?_⟩
  · rw [hrole x (Nat.lt_of_lt_of_le hx G.size_le)]
    exact S.role_of_old x hx
  · rw [List.lookup_append, Option.or_eq_some_iff] at hc
    rcases hc with hc | ⟨-, hc⟩
    · rw [Tree.role_of_content (hgrafted.content hc)] at hr
      exact Or.inl hr
    · have hlt := (G.copy_bounds hc).2
      rw [hrole c hlt] at hr
      refine (S.copy_role hc hr).imp_right fun hparent => ?_
      exact (congrArg Node.parent (hgrafted.node_old c hlt)).trans hparent

theorem rename (S : Synced src dst w) (old new : NodeId) :
    Synced src dst { w with tree := Patching.keepName old new w.tree } where
  inSync := S.inSync.keepName old new
  role_of_old n hn := (Patching.role_keepName old new w.tree n).trans (S.role_of_old n hn)
  copy_role {y c} hc hr := by
    rw [Patching.role_keepName] at hr
    exact (S.copy_role hc hr).imp_right (Patching.parent?_keepName old new w.tree c).trans

theorem exchange (hsrc : src.ContainsAtRoot) (G : Grown src dst w) (S : Synced src dst w)
    {p old y new : NodeId} {t' : Tree} (hold : w.tree.parent? old = some p)
    (hnew : w.copies.lookup y = some new) (htop : w.tree.parent? new = none)
    (hrole : old < src.size ∨ w.tree.role old ≠ .containedType)
    (he : Tree.Exchanged w.tree p old new t') : Synced src dst { w with tree := t' } := by
  have hnewold : new ≠ old := by
    rintro rfl
    rw [htop] at hold
    simp at hold
  have hrole_new : t'.role new = w.tree.role old := by
    refine (congrArg Content.role (he.content new)).trans ?_
    rw [if_pos rfl]
  have hrole_of_ne : ∀ x, x ≠ new → t'.role x = w.tree.role x := fun x hx =>
    Tree.role_of_content (by rw [he.content, if_neg hx])
  refine ⟨S.inSync.exchanged G.linked hold htop he, fun x hx => ?_, fun {z c} hc hr => ?_⟩
  · rw [hrole_of_ne x (Nat.ne_of_lt (Nat.lt_of_lt_of_le hx (G.copy_bounds hnew).1))]
    exact S.role_of_old x hx
  · by_cases hcn : c = new
    · -- the copy takes over the role and the place of a top-level type of the source
      subst hcn
      rw [hrole_new] at hr
      have hlt := hrole.resolve_right fun hne => hne hr
      have hroot := hsrc old p (G.parent_of_old hlt hold) ((S.role_of_old old hlt).symm.trans hr)
      refine Or.inr ?_
      rw [he.parent?, if_neg hnewold, if_pos rfl, hroot]
    · rw [hrole_of_ne c hcn] at hr
      refine (S.copy_role hc hr).imp_right fun hparent => ?_
      have hco : c ≠ old := by
        intro heq
        rcases hrole with hlt | hne
        · exact Nat.lt_irrefl _ (Nat.lt_of_lt_of_le (heq ▸ hlt) (G.copy_bounds hc).1)
        · exact hne (heq ▸ hr)
      rw [he.parent?, if_neg hco, if_neg hcn]
      exact hparent

theorem of_linkedIn (S : Synced src dst w) {p n : NodeId} {i : Nat} {t' t'' : Tree}
    (htop : w.tree.parent? n = none) (hl : Tree.LinkedIn w.tree p i n t') (hnodes : t''.nodes = t'.nodes)
    (hsync : t''.InSync) : Synced src dst { w with tree := t'' } := by
  have hnode : ∀ x, t''.node x = t'.node x := fun x => by rw [Tree.node, Tree.node, hnodes]
  have hrole : ∀ x, t''.role x = w.tree.role x := fun x => by
    rw [Tree.role, hnode]
    exact Tree.role_of_content (hl.content x)
  refine ⟨hsync, fun x hx => (hrole x).trans (S.role_of_old x hx), fun {y c} hc hr => ?_⟩
  rw [hrole] at hr
  refine (S.copy_role hc hr).imp_right fun hparent => ?_
  have hcn : c ≠ n := by
    rintro rfl
    rw [htop] at hparent
    simp at hparent
  rw [Tree.parent?, hnode]
  refine (hl.parent? c).trans ?_
  rw [if_neg hcn]
  exact hparent

theorem link (F : plan.Faithful dst) (S : Synced src dst w) {p y n : NodeId} {i : Nat} {t' : Tree}
    (hn : w.copies.lookup y = some n) (htop : w.tree.parent? n = none)
    (hrole : dst.role y = .thrown ∨
      (∃ pl ∈ plan.placements, pl.insertion.node = y ∧ pl.insertion.role ≠ .containedType) ∨
        ∀ u, w.tree.units ≠ [u])
    (hl : Tree.LinkedIn w.tree p i n t') : Synced src dst { w with tree := t' } := by
  have hne : w.tree.role n ≠ .containedType := by
    intro hr
    rcases S.copy_role hn hr with hy | hparent
    · rcases hrole with hthrown | ⟨pl, hpl, rfl, hne⟩ | hunits
      · rw [hthrown] at hy
        simp at hy
      · exact hne ((F.role pl hpl).trans hy)
      · obtain ⟨u, hu, -⟩ := S.inSync
        exact hunits u hu
    · rw [htop] at hparent
      simp at hparent
  exact S.of_linkedIn htop hl rfl (S.inSync.linkedIn hne hl)

theorem declare (S : Synced src dst w) {n : NodeId} {i index : Nat} {u : CompilationUnit} {t' : Tree}
    (hn : w.tree.role n = .containedType) (htop : w.tree.parent? n = none) (hunits : w.tree.units = [u])
    (hcount : (((w.tree.children Tree.root).take i).filter (w.tree.role · == .containedType)).length =
      min index (w.tree.childrenWithRole Tree.root .containedType).length)
    (hl : Tree.LinkedIn w.tree Tree.root i n t') :
    Synced src dst { w with tree := { t' with units := [u.insert index n] } } := by
  obtain ⟨v, hv, hdeclared⟩ := S.inSync
  obtain rfl : u = v := List.singleton_inj.mp (hunits.symm.trans hv)
  rw [← hdeclared] at hcount
  obtain ⟨units, hmodify, hsync⟩ := S.inSync.declared hn hl hcount
  -- both views take the type in at the same place
  have hresult : units = [u.insert index n] := by
    simp only [Tree.modifyOnlyUnit, Tree.onlyUnit, hl.units, hunits] at hmodify
    rw [← u.insert_min index n]
    exact (congrArg Tree.units (Except.ok.inj hmodify)).symm
  exact S.of_linkedIn htop hl rfl (hresult ▸ hsync)

end Synced

section

variable {src dst : Tree} {plan : Plan} {w w' : Workpiece} (Ls : src.Linked) (D : dst.Linked)
  (hsrc : src.ContainsAtRoot) (F : plan.Faithful dst)

include D hsrc F

theorem Change.synced (G : Grown src dst w) (S : Synced src dst w) (hc : Change src dst plan w w') :
    Synced src dst w' := by
  cases hc with
  | enter stage => exact ⟨S.inSync, S.role_of_old, S.copy_role⟩
  | unlink hn hu => exact S.unlink G hn hu
  | copy y => exact S.copy D G y
  | rename old new => exact S.rename old new
  | exchange _ hold hnew htop hrole he => exact S.exchange hsrc G hold hnew htop hrole he
  | link _ hn htop hrole hl => exact S.link F hn htop hrole hl
  | declare hpl hparent hrole _ _ hsame htop hunits hcount hl =>
    obtain rfl := F.root _ hpl hrole _ hparent
    exact S.declare (hsame.trans ((F.role _ hpl).symm.trans hrole)) htop hunits hcount hl

include Ls

theorem Changes.synced (G : Grown src dst w) (S : Synced src dst w)
    (hc : Changes src dst plan w w') : Synced src dst w' := by
  induction hc with
  | refl => exact S
  | tail hrun hstep ih => exact hstep.synced D hsrc F (Changes.grown Ls D G hrun) ih

end

/-! ## Generated patches -/

theorem Tree.pathOf_root {t : Tree} (L : t.Linked) : t.pathOf Tree.root = .ok Path.empty := by
  rw [pathOf, L.ancestors_root]
  rfl

theorem Revision.faithful_of_generate {r : Revision} (L : r.src.Linked) (hdst : r.dst.ContainsAtRoot)
    (hroots : r.counterpart? Tree.root = some Tree.root) {ops : List Operation} {s : PatchSet}
    {plan : Plan} (h : r.generate ops = .ok s) (hplan : Plan.make r.src s.patches = .ok plan) :
    plan.Faithful r.dst := by
  have hinsertion : ∀ pl ∈ plan.placements, ∃ brought,
      r.insertionOf brought pl.insertion.node = .ok pl.insertion := by
    intro pl hpl
    obtain ⟨⟨patch, hpatch, hi⟩, -⟩ := (Plan.madeOf_make hplan).placements pl hpl
    exact (of_generate h).2 patch hpatch _ hi
  refine ⟨fun pl hpl => ?_, fun pl hpl hrole p hp => ?_⟩
  · obtain ⟨brought, hi⟩ := hinsertion pl hpl
    exact (of_insertionOf hi).2.1
  · obtain ⟨brought, hi⟩ := hinsertion pl hpl
    obtain ⟨-, hsame, q, hq, hparent⟩ := of_insertionOf hi
    obtain rfl := hdst _ q hq (hsame.symm.trans hrole)
    have hexisting : pl.insertion.parent = .existing Path.empty := by
      simp only [parentRef, hroots, pathOf, Tree.pathOf_root L] at hparent
      exact (Except.ok.inj hparent).symm
    have hlocated := ((Plan.madeOf_make hplan).placements pl hpl).2.2
    rw [hexisting, hp] at hlocated
    exact (Option.some.inj (Except.ok.inj hlocated)).symm

/-- **The two views of the top-level types never diverge.** -/
theorem Tree.InSync.survives_patching {src dst : Tree} (hs : src.Linked) (hd : dst.Linked)
    (hname : src.name ≠ dst.name) (hkind : src.kind root = dst.kind root)
    (hlabel : src.label root = "") (hlabel' : dst.label root = "") (hsync : src.InSync)
    (hsrc : src.ContainsAtRoot) (hdst : dst.ContainsAtRoot) (minMoveSize : Nat)
    {nodes : Correspondence}
    (hnodes : Correspondence.resolve (src.diff dst minMoveSize).pairing
      (src.diff dst minMoveSize).pairs src dst = .ok nodes)
    (ops : List Operation) {set : PatchSet}
    (hset : Revision.generate { src, dst, nodes } ops = .ok set) :
    ∃ u, (set.apply src).tree.units = [u] ∧
      u.declaredTypes = (set.apply src).tree.childrenWithRole root .containedType ∧
        u.declaredTypes.Nodup := by
  have hresolved := Correspondence.resolved_of_diff hs hd hnodes
  have hroots : Revision.counterpart? { src, dst, nodes } root = some root :=
    (hresolved.get?_eq_some_iff hs hd hname).mpr (hresolved.roots_mem hs hd hkind hlabel hlabel')
  have hdestination : set.destination = dst := (Revision.of_generate hset).1
  have hfinal : (set.apply src).tree.Linked ∧ (set.apply src).tree.InSync := by
    rcases PatchSet.apply_changes hs (hdestination ▸ hd) (fun hplan => hdestination ▸
      Revision.within_of_generate (r := { src, dst, nodes }) hs (hsync.declaresOwn hs) hset hplan)
      with hsame | ⟨plan, w, hplan, hchanges, htree⟩
    · rw [hsame]
      exact ⟨hs, hsync⟩
    · rw [hdestination] at hchanges
      rw [htree]
      have hfaithful := Revision.faithful_of_generate (r := { src, dst, nodes }) hs hdst hroots hset hplan
      have hstart : Grown src dst { tree := src } := Grown.start hs
      exact ⟨(Changes.grown hs hd hstart hchanges).linked,
        (Changes.synced hs hd hsrc hfaithful hstart (Synced.start hsync) hchanges).inSync⟩
  obtain ⟨hlinked, u, hunits, hdeclared⟩ := hfinal
  refine ⟨u, hunits, hdeclared, ?_⟩
  rw [hdeclared]
  exact (hlinked.nodup root).filter _

/-- A package with classes of the given names. -/
def Tree.ofClasses (name : String) (classes : List String) : Tree :=
  ofRose name none <| .node rootContent <| classes.map fun label =>
    .node { kind := "class_declaration", label := "", role := .containedType }
      [.node { kind := "identifier", label, role := .slot .name } []]

/-- One class is replaced, one is taken away and one is brought in, at an index beyond the end. Then the
name of another one is to go under a class that has not been brought in yet. -/
theorem Tree.InSync.survives_patching_classes :
    let src := Tree.ofClasses "old" ["A", "B"]
    let dst := Tree.ofClasses "new" ["C", "A", "D", "B"]
    let ops : List Operation := [⟨.insert, dst.ref 5, none⟩, ⟨.update, src.ref 1, some (dst.ref 7)⟩,
      ⟨.insert, dst.ref 2, none⟩, ⟨.delete, src.ref 3, none⟩, ⟨.insert, dst.ref 1, none⟩]
    src.Linked ∧ dst.Linked ∧ src.name ≠ dst.name ∧ src.kind root = dst.kind root ∧
      src.label root = "" ∧ dst.label root = "" ∧ src.InSync ∧ src.ContainsAtRoot ∧
      dst.ContainsAtRoot ∧
      ∃ nodes set,
        Correspondence.resolve (src.diff dst 2).pairing (src.diff dst 2).pairs src dst = .ok nodes ∧
        Revision.generate { src, dst, nodes } ops = .ok set ∧
        (set.apply src).error = some (.unmappedParent 1) ∧
        (set.apply src).tree.childrenWithRole root .containedType = [5, 7] ∧
        ∃ u, (set.apply src).tree.units = [u] ∧
          u.declaredTypes = (set.apply src).tree.childrenWithRole root .containedType ∧
            u.declaredTypes.Nodup := by
  intro src dst ops
  have hs : src.Linked := linked_ofRose _ _ _
  have hd : dst.Linked := linked_ofRose _ _ _
  have hname : src.name ≠ dst.name := by decide
  have hsync : src.InSync := inSync_ofRose _ _ _
  have hsrc : src.ContainsAtRoot := hs.containsAtRoot (by decide +kernel)
  have hdst : dst.ContainsAtRoot := hd.containsAtRoot (by decide +kernel)
  let nodes := src.correspondence dst 2
  have hnodes : Correspondence.resolve (src.diff dst 2).pairing (src.diff dst 2).pairs src dst =
      .ok nodes := by decide +kernel
  have hset := eq_ok_of_isSome (a := PatchSet.empty dst)
    (by decide +kernel : (Revision.generate { src, dst, nodes } ops).toOption.isSome = true)
  exact ⟨hs, hd, hname, rfl, rfl, rfl, hsync, hsrc, hdst, nodes, _, hnodes, hset, by decide +kernel,
    by decide +kernel, survives_patching hs hd hname rfl rfl rfl hsync hsrc hdst 2 hnodes ops hset⟩

end TreePatch
