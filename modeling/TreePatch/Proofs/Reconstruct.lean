import TreePatch.Proofs.Mirror

/-!
# Exact reconstruction of plain trees

In a plain tree all nodes are tracked and every collection has its parent to itself. Patching one plain
tree into another leaves nothing open but the order of the children of the root, where imports, types and
the rest may be mixed.
-/

namespace TreePatch

/-- A linked tree without punctuation, in which the children of a node below the root are the members of
one collection or belong to none. -/
structure Tree.Plain (t : Tree) : Prop where
  linked : t.Linked
  root_kind : t.kind root = "package"
  root_label : t.label root = ""
  root_role : t.role root = .root
  inSync : t.InSync
  contained : ∀ {n p}, t.parent? n = some p → t.role n = .containedType → p = root
  role_ne_root : ∀ {n p}, t.parent? n = some p → t.role n ≠ .root
  root_children : ∀ {n}, t.parent? n = some root →
    t.role n ∈ [.packageDeclaration, .imported, .containedType, .child]
  tracked : ∀ {n p}, t.isAttached p = true → t.parent? n = some p → t.isIgnored n = false
  single : ∀ {n n' p}, t.parent? n = some p → t.parent? n' = some p → t.role n = t.role n' →
    (t.role n).isSingleSlot = true → n = n'
  modifiers : ∀ {n n' p}, t.parent? n = some p → t.parent? n' = some p → t.role n = .modifier →
    t.role n' = .modifier → t.kind n = "modifiers" → t.kind n' = "modifiers" → n = n'
  uniform : ∀ {n n' p}, p ≠ root → t.parent? n = some p → t.parent? n' = some p →
    (t.role n).isCollection = true → t.role n' = t.role n
  types_unlabelled : ∀ {n}, Source.isTypeDeclaration (t.kind n) = true → t.label n = ""

namespace Tree.Plain

variable {t : Tree}

theorem addressable (P : t.Plain) : t.Addressable where
  linked := P.linked
  root_kind := P.root_kind
  root_label := P.root_label
  root_role := P.root_role
  inSync := P.inSync
  contained := P.contained
  role_ne_root := P.role_ne_root
  explicit hatt hp := by
    have h := P.tracked hatt hp
    rw [isIgnored, Bool.or_eq_false_iff] at h
    exact h.1
  thrown {n n' p} hp hp' hrole := by
    by_cases hroot : p = root
    · subst hroot
      have hmem := P.root_children hp
      simp [hrole] at hmem
    · rw [P.uniform hroot hp hp' (by rw [hrole]; rfl), hrole]
  single := P.single
  modifiers := P.modifiers

theorem trackedChildren_eq (P : t.Plain) {p : NodeId} (hatt : t.isAttached p = true) :
    Outline.trackedChildren t p = t.children p :=
  List.filter_eq_self.mpr fun n hn => by
    rw [P.tracked hatt (P.linked.mem_children.mp hn)]
    rfl

end Tree.Plain

theorem Reconciled.faithful {r : Revision} {stay : NodeId → Option NodeId} {deletes : List NodeId}
    {updates : List (NodeId × NodeId)} {placed : List (NodeId × Option NodeId)}
    (R : Reconciled r.src r.dst stay deletes updates placed) (Ps : r.src.Plain) (Pd : r.dst.Plain) :
    Faithful r stay deletes updates placed where
  src_leaf hatt hp hignored := by
    rw [Ps.tracked hatt hp] at hignored
    simp at hignored
  dst_leaf hatt hp hignored := by
    rw [Pd.tracked hatt hp] at hignored
    simp at hignored
  token hqp hx hignored := by
    rw [Pd.tracked (R.ancestors_kept Ps.linked Pd.linked hqp).2.1 hx] at hignored
    simp at hignored
  aligned {q p} hqp hroot := by
    have hkept := R.ancestors_kept Ps.linked Pd.linked hqp
    have huniform : ∀ {x y}, x ∈ r.dst.children q → y ∈ r.dst.children q →
        (r.dst.role x).isCollection = true → r.dst.role y = r.dst.role x := fun hx hy hR =>
      Pd.uniform hroot (Pd.linked.mem_children.mp hx) (Pd.linked.mem_children.mp hy) hR
    refine ⟨?_, fun {x before after} _ hsplit hR => ?_, fun _ hx hrole y hy => ?_⟩
    · rw [← Ps.trackedChildren_eq hkept.1, ← Pd.trackedChildren_eq hkept.2.1]
      exact (R.order hqp).imp fun c x hcx => hcx.imp_right Or.inl
    · have hx : x ∈ r.dst.children q := by simp [hsplit]
      refine beside_of_all (fun y hy => huniform hx (by simp [hsplit, hy]) hR) fun y hy => ?_
      exact huniform hx (by simp [hsplit, List.mem_of_mem_filter hy]) hR
    · rw [huniform (Pd.linked.mem_children.mpr hx) ((List.dropWhile_suffix _).subset hy)
        (by rw [hrole]; rfl), hrole]

/-- Patching `src` into `dst` comes to its end without an error, and the nodes of the patched tree that can
be reached are images of those of the destination: with kind, label, role and parent, in the order of the
destination below every node but the root, and below the root in that order within every role but the
general one. -/
structure Reconstructed (src dst : Tree) (minMoveSize : Nat) (nodes : Correspondence) (set : PatchSet)
    (image : NodeId → NodeId) : Prop extends Compared src dst minMoveSize nodes set where
  error : (set.apply src).error = none
  bijOn : Set.BijOn image {x | dst.isAttached x = true} {n | (set.apply src).tree.isAttached n = true}
  mirrors : Mirrors dst (set.apply src).tree image
  parent : ∀ {x q}, dst.isAttached q = true → dst.parent? x = some q →
    (set.apply src).tree.parent? (image x) = some (image q)
  members : ∀ R, R ≠ .child →
    (set.apply src).tree.childrenWithRole Tree.root R = (dst.childrenWithRole Tree.root R).map image
  units : (set.apply src).tree.units.map (·.declaredTypes) =
    dst.units.map fun u => u.declaredTypes.map image

/-- **Patching a plain tree into another one reconstructs it.** -/
theorem Tree.Plain.reconstructs {src dst : Tree} (hs : src.Plain) (hd : dst.Plain)
    (hname : src.name ≠ dst.name) (minMoveSize : Nat) :
    ∃ nodes set image, Reconstructed src dst minMoveSize nodes set image := by
  have As := hs.addressable
  have Ad := hd.addressable
  have R := reconciled_diff As.toRegular Ad.toRegular minMoveSize
  obtain ⟨nodes, set, copies, h⟩ := As.toRegular.exists_patched Ad.toRegular hname minMoveSize True
    (fun nodes C => R.unambiguous (r := { src, dst, nodes }) C As Ad) fun _ {c x} hcx hkind => by
      obtain ⟨-, -, -, -, -, -, -, -, hkinds, hlabels⟩ := R.update hcx
      exact absurd ((hs.types_unlabelled hkind).trans (hd.types_unlabelled (hkinds ▸ hkind)).symm) hlabels
  have F := R.faithful (r := { src, dst, nodes }) hs hd
  have M := h.underway.mirrors R h.corresponds As.toRegular Ad.toRegular F trivial
  have L := h.underway.sound.linked
  refine ⟨nodes, set, _, h.toCompared, h.error, M.bijOn, M,
    fun hq hx => M.parent L hd.linked hq hx, fun S hS => ?_,
    M.declaredTypes h.underway.inSync hd.inSync⟩
  by_cases hcollection : S.isCollection = true
  · exact M.members hcollection
  · refine M.root_of_alone L hd.linked fun x hx y hy => ?_
    obtain ⟨hxroot, rfl⟩ := hd.linked.mem_childrenWithRole.mp hx
    obtain ⟨hyroot, hrole⟩ := hd.linked.mem_childrenWithRole.mp hy
    refine hd.single hxroot hyroot hrole.symm ?_
    have hmem := hd.root_children hxroot
    simp only [List.mem_cons, List.not_mem_nil, or_false] at hmem
    rcases hmem with hrole | hrole | hrole | hrole
    · rw [hrole]
      rfl
    · rw [hrole] at hcollection
      exact absurd rfl hcollection
    · rw [hrole] at hcollection
      exact absurd rfl hcollection
    · exact absurd hrole hS

/-- The children of `p` are as in a plain tree. -/
def Tree.PlainBelow (t : Tree) (p : NodeId) : Prop :=
  t.Distinguishes p ∧ ∀ n ∈ t.children p, t.isIgnored n = false ∧
    (p = root → t.role n ∈ [.packageDeclaration, .imported, .containedType, .child]) ∧
      (p ≠ root → (t.role n).isCollection = true → ∀ n' ∈ t.children p, t.role n' = t.role n)

instance (t : Tree) (p : NodeId) : Decidable (t.PlainBelow p) :=
  inferInstanceAs (Decidable (_ ∧ _))

theorem Tree.Linked.plain {t : Tree} (L : t.Linked) (hroot : (t.node root).toContent = rootContent)
    (hsync : t.InSync) (h : ∀ p < t.size, t.PlainBelow p)
    (htypes : ∀ n < t.size, Source.isTypeDeclaration (t.kind n) = true → t.label n = "") :
    t.Plain := by
  have A := L.addressable hroot hsync fun p hp => (h p hp).1
  have hchild : ∀ {n p}, t.parent? n = some p → _ := fun {n p} hp =>
    (h p (L.parent_lt hp)).2 n (L.mem_children.mpr hp)
  exact
    { A with
      root_children := fun hp => (hchild hp).2.1 rfl
      tracked := fun _ hp => (hchild hp).1
      uniform := fun hne hp hp' hR => (hchild hp).2.2 hne hR _ (L.mem_children.mpr hp')
      types_unlabelled := fun {n} hkind => by
        by_cases hlt : n < t.size
        · exact htypes n hlt hkind
        · rw [label, t.node_of_size_le (Nat.not_lt.mp hlt)]
          rfl }

/-- In a `throws` clause one type goes, one comes and two change places, and a method is renamed. -/
theorem Tree.Plain.reconstructs_methods :
    let src := Tree.ofMethods "old" [("f", ["A", "B", "C"]), ("g", []), ("h", ["D"])]
    let dst := Tree.ofMethods "new" [("f", ["C", "A", "X"]), ("g", []), ("k", ["D"])]
    src.Plain ∧ dst.Plain ∧ src.name ≠ dst.name ∧
      ∃ nodes set image, Reconstructed src dst 1 nodes set image := by
  intro src dst
  have hs : src.Plain := (linked_ofRose _ _ _).plain rfl (inSync_ofRose _ _ _) (by decide +kernel)
    (by decide +kernel)
  have hd : dst.Plain := (linked_ofRose _ _ _).plain rfl (inSync_ofRose _ _ _) (by decide +kernel)
    (by decide +kernel)
  have hname : src.name ≠ dst.name := by decide
  exact ⟨hs, hd, hname, reconstructs hs hd hname 1⟩

end TreePatch
