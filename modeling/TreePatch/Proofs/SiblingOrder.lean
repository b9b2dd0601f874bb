import TreePatch.Proofs.Apply

/-!
# The order of siblings

After patching, the members of a collection below a kept node are those of the destination, in its order:
the counterpart of a member that is kept, and a copy of any other one. Thrown types are a set, which is
rebuilt from the destination as soon as one of them is placed. Then kept types, with all that is below
them, give way to copies, and it is the copies that have the members of the destination.
-/

namespace TreePatch

/-- A thrown type at or above `d` stands beside one that is placed. -/
def Tree.Renewed (t : Tree) (placed : List NodeId) (d : NodeId) : Prop :=
  ∃ a ∈ d :: t.ancestors d, t.role a = .thrown ∧
    ∃ x ∈ placed, t.role x = .thrown ∧ t.parent? x = t.parent? a

instance (t : Tree) (placed : List NodeId) (d : NodeId) : Decidable (t.Renewed placed d) :=
  inferInstanceAs (Decidable (∃ a ∈ d :: t.ancestors d, _))

/-- The node `c` of `t` is new, and a copy of the destination node `x` with all that is below it. It has
the label of `x`, but a type declaration that replaces another one may have kept the name of the other. -/
structure IsCopy (src dst t : Tree) (updates copies : List (NodeId × NodeId)) (x c : NodeId) : Prop where
  new : src.size ≤ c ∧ c < t.size
  kind : t.kind c = dst.kind x
  role : t.role c = dst.role x
  children : ((dst.children x).map fun z => copies.lookup z) = (t.children c).map some
  label : t.label c = dst.label x ∨ ∃ old y, (old, y) ∈ updates ∧
    Source.isTypeDeclaration (src.kind old) = true ∧ dst.nameNode? y = some x ∧
      src.simpleName? old = some (t.label c)

/-- The node `c` stands for the destination node `x`: as the counterpart of a node that is kept, or as a
copy of one that is not, or that is renewed. -/
def Tree.StandsFor (dst : Tree) (kept : List (NodeId × NodeId)) (placed : List NodeId)
    (copies : List (NodeId × NodeId)) (c x : NodeId) : Prop :=
  ((c, x) ∈ kept ∧ ¬ dst.Renewed placed x) ∨
    (((∀ s, (s, x) ∉ kept) ∨ dst.Renewed placed x) ∧ copies.lookup x = some c)

theorem Tree.Linked.renewed_of_parent {t : Tree} (L : t.Linked) {placed : List NodeId} {d q : NodeId}
    (hq : t.parent? d = some q) (h : t.Renewed placed q) : t.Renewed placed d := by
  obtain ⟨a, ha, hthrown⟩ := h
  refine ⟨a, List.mem_cons_of_mem _ ?_, hthrown⟩
  rw [L.ancestors_of_some hq]
  exact ha

theorem Tree.Linked.thrown_of_renewed {t : Tree} (L : t.Linked) {placed : List NodeId} {d q : NodeId}
    (hq : t.parent? d = some q) (h : t.Renewed placed d) (hparent : ¬ t.Renewed placed q) :
    t.role d = .thrown := by
  obtain ⟨a, ha, hthrown⟩ := h
  rw [L.ancestors_of_some hq] at ha
  rcases List.mem_cons.mp ha with rfl | ha
  · exact hthrown.1
  · exact absurd ⟨a, ha, hthrown⟩ hparent

section

variable {r : Revision} {stay : NodeId → Option NodeId} {deletes : List NodeId}
  {updates copies kept : List (NodeId × NodeId)} {placed : List (NodeId × Option NodeId)}
  {renamed : NodeId → String → Prop} {t : Tree}
  (hkept : ∀ {p q}, (p, q) ∈ kept ↔ stay q = some p)
  (R : Reconciled r.src r.dst stay deletes updates placed) (As : r.src.Regular) (Ad : r.dst.Regular)
  (h : Underway r stay deletes updates placed renamed (placed.map (·.1)) t copies)

namespace Underway

include R Ad h

theorem copied_iff_renewed {d s : NodeId} (hds : stay d = some s) :
    (copies.lookup d).isSome = true ↔ r.dst.Renewed (placed.map (·.1)) d := by
  have D := Ad.linked
  induction d using D.forest.induction_up generalizing s with
  | step d ih =>
    by_cases hroot : d = Tree.root
    · subst hroot
      rw [h.root_free]
      refine iff_of_false (by simp) ?_
      rintro ⟨a, ha, hthrown, -⟩
      rw [D.ancestors_root, List.mem_singleton] at ha
      rw [ha, Ad.root_role] at hthrown
      simp at hthrown
    obtain ⟨q, p, hq, -, hqp⟩ := R.parent hds hroot
    have hunkept : ∀ {x}, stay x = none → x ≠ d := by
      rintro _ hnone rfl
      rw [hnone] at hds
      simp at hds
    cases hcopy : copies.lookup q with
    | some c =>
      obtain ⟨c', -, hc'⟩ := h.sound.exists_copy_child hcopy (D.mem_children.mpr hq)
      rw [hc']
      exact iff_of_true rfl (D.renewed_of_parent hq ((ih q hq hqp).mp (by rw [hcopy]; rfl)))
    | none =>
      have hnot : ¬ r.dst.Renewed (placed.map (·.1)) q := fun hrenewed => by
        have hsome := (ih q hq hqp).mpr hrenewed
        rw [hcopy] at hsome
        simp at hsome
      constructor
      · intro hsome
        rcases h.fresh hqp hcopy hq hsome with hupd | hplaced | ⟨hrole, x, hx, hxq, hxrole⟩
        · exact absurd rfl (hunkept (R.of_brought (Or.inl hupd)).1)
        · exact absurd rfl (hunkept (R.of_brought (Or.inr hplaced)).1)
        · exact ⟨d, List.mem_cons_self, hrole, x, hx, hxrole, hxq.trans hq.symm⟩
      · rintro ⟨a, ha, hrole, x, hx, hxrole, hxa⟩
        rcases List.mem_cons.mp ha with rfl | ha
        · exact h.renewed hqp hcopy hx (hxa.trans hq) hxrole hq
        · rw [D.ancestors_of_some hq] at ha
          exact absurd ⟨a, ha, hrole, x, hx, hxrole, hxa⟩ hnot

/-- A kept node that is copied can no longer be reached. It is not linked under the counterpart of its
parent, where the copy has taken its place, or that counterpart cannot be reached itself. -/
theorem not_isAttached_of_copied (C : Corresponds r stay) {d s : NodeId} (hds : stay d = some s)
    (hcopied : (copies.lookup d).isSome = true) : t.isAttached s = false := by
  have D := Ad.linked
  induction d using D.forest.induction_up generalizing s with
  | step d ih =>
    have hroot : d ≠ Tree.root := by
      rintro rfl
      rw [h.root_free] at hcopied
      simp at hcopied
    obtain ⟨q, p, hq, hp, hqp⟩ := R.parent hds hroot
    have hlt : s < r.src.size := r.src.lt_size_of_parent hp
    by_contra hatt
    rw [Bool.not_eq_false] at hatt
    have hs : s ≠ Tree.root := by
      rintro rfl
      exact hroot (R.injective hds R.root)
    obtain ⟨p', hp', hattached⟩ := h.sound.linked.exists_parent_of_isAttached hatt hs
    obtain rfl : p' = p := Option.some.inj ((h.sound.parent_of_old hlt hp').symm.trans hp)
    cases hcopy : copies.lookup q with
    | some c =>
      rw [ih q hq hqp (by rw [hcopy]; rfl)] at hattached
      simp at hattached
    | none =>
      rcases (h.arranged hqp hcopy).mem.mp (h.sound.linked.mem_children.mpr hp') with
        ⟨x, -, hx⟩ | ⟨-, hignored⟩
      · rw [Revision.image] at hx
        cases hcopyx : copies.lookup x with
        | some c =>
          rw [hcopyx, Option.some_or] at hx
          obtain rfl := Option.some.inj hx
          exact absurd hlt (Nat.not_lt.mpr (h.sound.copy_bounds hcopyx).1)
        | none =>
          rw [hcopyx, Option.none_or] at hx
          obtain rfl := C.held_injective hx (Revision.held_of_stay hds)
          rw [hcopyx] at hcopied
          simp at hcopied
      · rw [(R.tracked hds).2 _ hp] at hignored
        simp at hignored

include hkept

theorem standsFor_of_kept {d s : NodeId} (hds : stay d = some s) :
    r.image stay copies d = some ((copies.lookup d).getD s) ∧
      r.dst.StandsFor kept (placed.map (·.1)) copies ((copies.lookup d).getD s) d := by
  have hiff := h.copied_iff_renewed R Ad hds
  rw [Revision.image, Revision.held_of_stay hds]
  cases hcopy : copies.lookup d with
  | some c =>
    rw [hcopy] at hiff
    exact ⟨rfl, Or.inr ⟨Or.inr (hiff.mp rfl), hcopy⟩⟩
  | none =>
    rw [hcopy] at hiff
    exact ⟨rfl, Or.inl ⟨hkept.mpr hds, fun hrenewed => by simpa using hiff.mpr hrenewed⟩⟩

theorem exists_standsFor {q p x : NodeId} (hqp : stay q = some p) (hx : r.dst.parent? x = some q)
    (htracked : r.dst.isIgnored x = false) :
    ∃ c, r.image stay copies x = some c ∧ r.dst.StandsFor kept (placed.map (·.1)) copies c x := by
  rcases R.kept_or_brought hqp hx htracked with ⟨s, hs⟩ | hbrought
  · exact ⟨_, h.standsFor_of_kept hkept R Ad hs⟩
  · have hnone := (R.of_brought hbrought).1
    obtain ⟨c, hc⟩ := Option.isSome_iff_exists.mp (h.copied_of_brought hbrought)
    refine ⟨c, by rw [Revision.image, hc, Option.some_or], Or.inr ⟨Or.inl fun s hs => ?_, hc⟩⟩
    rw [hkept, hnone] at hs
    simp at hs

theorem parent_standsFor {d s q : NodeId} (hds : stay d = some s) (hq : r.dst.parent? d = some q) :
    ∃ m, r.dst.StandsFor kept (placed.map (·.1)) copies m q ∧
      t.parent? ((copies.lookup d).getD s) = some m := by
  have D := Ad.linked
  obtain ⟨q', p, hq', -, hqp⟩ := R.parent hds (D.ne_root_of_parent hq)
  obtain rfl := Option.some.inj (hq.symm.trans hq')
  refine ⟨_, (h.standsFor_of_kept hkept R Ad hqp).2, h.sound.linked.mem_children.mp ?_⟩
  cases hcopy : copies.lookup q with
  | some c =>
    obtain ⟨c', hmem, hc'⟩ := h.sound.exists_copy_child hcopy (D.mem_children.mpr hq)
    rw [hc']
    exact hmem
  | none =>
    exact (h.arranged hqp hcopy).mem.mpr
      (Or.inl ⟨d, D.mem_children.mpr hq, (h.standsFor_of_kept hkept R Ad hds).1⟩)

include As in
/-- **The members of a collection below what stands for a kept node stand for those of the
destination**, in order. -/
theorem members_standFor {d s : NodeId} (hds : stay d = some s) {S : Role}
    (hS : S.isCollection = true) :
    List.Forall₂ (r.dst.StandsFor kept (placed.map (·.1)) copies)
      (t.childrenWithRole ((copies.lookup d).getD s) S) (r.dst.childrenWithRole d S) := by
  have D := Ad.linked
  cases hcopy : copies.lookup d with
  | some c =>
    have hrenewed := (h.copied_iff_renewed R Ad hds).mp (by rw [hcopy]; rfl)
    have hmembers := h.sound.copy_childrenWithRole hcopy S
    rw [Option.getD_some, ← filterMap_of_map_eq hmembers]
    refine forall₂_filterMap fun x hx => ?_
    have hmem : copies.lookup x ∈ (t.childrenWithRole c S).map some :=
      hmembers ▸ List.mem_map.mpr ⟨x, hx, rfl⟩
    obtain ⟨c', -, hc'⟩ := List.mem_map.mp hmem
    exact ⟨c', hc'.symm, Or.inr ⟨Or.inr (D.renewed_of_parent (D.mem_childrenWithRole.mp hx).1 hrenewed),
      hc'.symm⟩⟩
  | none =>
    rw [Option.getD_none, (h.arranged hds hcopy).collection hS]
    refine forall₂_filterMap fun x hx => ?_
    obtain ⟨hxd, hrole⟩ := D.mem_childrenWithRole.mp hx
    exact h.exists_standsFor hkept R Ad hds hxd (Ad.tracked_of_collection
      (R.ancestors_kept As.linked D hds).2.1 hxd (hrole ▸ hS))

end Underway

end

theorem Tree.Addressable.simpleName?_eq {t : Tree} (A : t.Addressable) {m n : NodeId}
    (hm : t.parent? m = some n) (hrole : t.role m = .slot .name) :
    t.simpleName? n = some (t.label m) := by
  have hmem := A.linked.mem_childrenWithRole.mpr ⟨hm, hrole⟩
  obtain ⟨m', l, hl⟩ := List.exists_cons_of_ne_nil (List.ne_nil_of_mem hmem)
  obtain ⟨hm', hrole'⟩ := A.linked.mem_childrenWithRole.mp (hl ▸ List.mem_cons_self : m' ∈ _)
  obtain rfl := A.single hm' hm (hrole'.trans hrole.symm) (by rw [hrole']; rfl)
  rw [simpleName?, nameNode?, hl]
  rfl

/-- The node `n` of the patched tree `t` stands for the kept node `d` with the counterpart `s`, below what
stands for its parent, and has the members of each collection of `d`, in order. It is `s` itself, unless
`d` is renewed: then `s` can no longer be reached. -/
structure KeptInOrder (dst t : Tree) (kept : List (NodeId × NodeId)) (placed : List NodeId)
    (copies : List (NodeId × NodeId)) (s d n : NodeId) : Prop where
  standsFor : dst.StandsFor kept placed copies n d
  same : ¬ dst.Renewed placed d → n = s
  thrown : ¬ dst.Renewed placed d → ∀ x ∈ dst.children d, dst.Renewed placed x → dst.role x = .thrown
  detached : dst.Renewed placed d → t.isAttached s = false
  parent : ∀ q, dst.parent? d = some q →
    ∃ m, dst.StandsFor kept placed copies m q ∧ t.parent? n = some m
  members : ∀ R : Role, R.isCollection = true →
    List.Forall₂ (dst.StandsFor kept placed copies) (t.childrenWithRole n R) (dst.childrenWithRole d R)

/-- Patching `src` into `dst` comes to its end without an error and makes `copies` of destination nodes.
Below what stands for a kept node, and among the declared types, siblings stand in the order of the
destination. -/
structure SiblingsInOrder (src dst : Tree) (minMoveSize : Nat) (nodes : Correspondence) (set : PatchSet)
    (copies : List (NodeId × NodeId)) : Prop extends Compared src dst minMoveSize nodes set where
  error : (set.apply src).error = none
  copy : ∀ x c, copies.lookup x = some c → IsCopy src dst (set.apply src).tree
    (updatedPairs (src.diff dst minMoveSize).operations) copies x c
  kept : let placed := (placedNodes (src.diff dst minMoveSize).operations).map (·.1)
    ∀ s d, (s, d) ∈ (src.diff dst minMoveSize).kept → ∃ n, KeptInOrder dst (set.apply src).tree
      (src.diff dst minMoveSize).kept placed copies s d n
  units : let placed := (placedNodes (src.diff dst minMoveSize).operations).map (·.1)
    ∃ u v, (set.apply src).tree.units = [u] ∧ dst.units = [v] ∧
      List.Forall₂ (dst.StandsFor (src.diff dst minMoveSize).kept placed copies)
        u.declaredTypes v.declaredTypes

/-- **Siblings stand in the order of the destination.** -/
theorem Tree.Addressable.siblings_in_order {src dst : Tree} (hs : src.Addressable)
    (hd : dst.Addressable) (hname : src.name ≠ dst.name) (minMoveSize : Nat) :
    ∃ nodes set copies, SiblingsInOrder src dst minMoveSize nodes set copies := by
  have As := hs.toRegular
  have Ad := hd.toRegular
  have R := reconciled_diff As Ad minMoveSize
  have hkept : ∀ {p q}, (p, q) ∈ (src.diff dst minMoveSize).kept ↔ _ := mem_kept_iff hs.linked hd.linked
  obtain ⟨nodes, hresolve, hresolved⟩ := Correspondence.resolve_ok hs.linked hd.linked
    (Pairing.matching_matches src dst minMoveSize)
  have U := R.unambiguous (r := { src, dst, nodes })
    (hresolved.corresponds hs.linked hd.linked hname) hs hd
  obtain ⟨set, copies, h⟩ := As.patched Ad hname minMoveSize
    (fun z name => ∃ old y, (old, y) ∈ updatedPairs (src.diff dst minMoveSize).operations ∧
      Source.isTypeDeclaration (src.kind old) = true ∧ dst.nameNode? y = some z ∧
        src.simpleName? old = some name) hresolve U
    fun {old y m z} hupd hkind hm hrole hz => ⟨old, y, hupd, hkind, hz, hs.simpleName?_eq hm hrole⟩
  have S := h.underway.sound
  have hmembers := fun {s d} (hds : (s, d) ∈ (src.diff dst minMoveSize).kept) (R' : Role) hR' =>
    h.underway.members_standFor hkept R As Ad (hkept.mp hds) (S := R') hR'
  refine ⟨nodes, set, copies, h.toCompared, h.error, fun x c hc =>
    ⟨S.copy_bounds hc, S.copy_kind hc, S.copy_role hc, S.copy_children hc, S.copy_label hc⟩,
    fun s d hds => ?_, ?_⟩
  · have hstay := hkept.mp hds
    have hiff := h.underway.copied_iff_renewed R Ad hstay
    exact ⟨_, {
      standsFor := (h.underway.standsFor_of_kept hkept R Ad hstay).2
      same := fun hnot => by
        rw [Option.not_isSome_iff_eq_none.mp (mt hiff.mp hnot), Option.getD_none]
      thrown := fun hnot x hx hrenewed =>
        hd.linked.thrown_of_renewed (hd.linked.mem_children.mp hx) hrenewed hnot
      detached := fun hrenewed =>
        h.underway.not_isAttached_of_copied R Ad h.corresponds hstay (hiff.mpr hrenewed)
      parent := fun q hq => h.underway.parent_standsFor hkept R Ad hstay hq
      members := fun R' hR' => hmembers hds R' hR' }⟩
  · obtain ⟨u, hu, hdeclared⟩ := h.underway.inSync
    obtain ⟨v, hv, hdeclared'⟩ := hd.inSync
    refine ⟨u, v, hu, hv, ?_⟩
    have hroot := hmembers (hkept.mpr R.root) .containedType rfl
    rw [h.underway.root_free, Option.getD_none] at hroot
    rw [hdeclared, hdeclared']
    exact hroot

/-- A class with a method for each name, which throws the types listed with it, given by their names and
arguments. -/
def Tree.ofSignatures (name : String) (methods : List (String × List (String × List String))) : Tree :=
  let type : String × List String → Rose Content := fun (label, arguments) =>
    .node { kind := "generic_type", label, role := .thrown } (arguments.map fun argument =>
      .node { kind := "identifier", label := argument, role := .argument } [])
  let method : String × List (String × List String) → Rose Content := fun (method, types) =>
    .node { kind := "method_declaration", label := "", role := .typeMember }
      [.node { kind := "identifier", label := method, role := .slot .name } [],
        .node { kind := "throws", label := "", role := .child } (types.map type)]
  ofRose name none <| .node rootContent
    [.node { kind := "class_declaration", label := "", role := .containedType } (methods.map method)]

/-- A method comes in, and another one throws one more type and changes the type that it threw. -/
theorem Tree.Addressable.siblings_in_order_methods :
    let src := Tree.ofSignatures "old" [("f", [("", ["a"])])]
    let dst := Tree.ofSignatures "new" [("g", []), ("f", [("X", []), ("", ["b", "a"])])]
    (src.diff dst 2).operations.map Operation.kind = [.insert, .insert, .insert] ∧
      src.Addressable ∧ dst.Addressable ∧ src.name ≠ dst.name ∧
      ∃ nodes set copies, SiblingsInOrder src dst 2 nodes set copies := by
  intro src dst
  have hs : src.Addressable :=
    (linked_ofRose _ _ _).addressable rfl (inSync_ofRose _ _ _) (by decide +kernel)
  have hd : dst.Addressable :=
    (linked_ofRose _ _ _).addressable rfl (inSync_ofRose _ _ _) (by decide +kernel)
  have hname : src.name ≠ dst.name := by decide
  exact ⟨by decide +kernel, hs, hd, hname, siblings_in_order hs hd hname 2⟩

/-- A method throws one more type, and the one that it threw gets a second argument. The latter is kept,
but it can no longer be reached, and what has the two arguments is a copy of it. -/
theorem Tree.thrown_left_behind :
    let src := Tree.ofSignatures "old" [("f", [("", ["a"])])]
    let dst := Tree.ofSignatures "new" [("f", [("X", []), ("", ["a", "b"])])]
    src.Addressable ∧ dst.Addressable ∧ (5, 6) ∈ (src.diff dst 2).kept ∧
      ∃ nodes set,
        Correspondence.resolve (src.diff dst 2).pairing (src.diff dst 2).pairs src dst = .ok nodes ∧
        Revision.generate { src, dst, nodes } (src.diff dst 2).operations = .ok set ∧
        (set.apply src).error = none ∧
        dst.childrenWithRole 6 .argument = [7, 8] ∧ (set.apply src).tree.isAttached 5 = false ∧
        (set.apply src).tree.childrenWithRole 5 .argument = [6] ∧
        (set.apply src).tree.childrenWithRole 4 .thrown = [7, 8] ∧
        (set.apply src).tree.childrenWithRole 8 .argument = [9, 10] := by
  intro src dst
  have hs : src.Addressable :=
    (linked_ofRose _ _ _).addressable rfl (inSync_ofRose _ _ _) (by decide +kernel)
  have hd : dst.Addressable :=
    (linked_ofRose _ _ _).addressable rfl (inSync_ofRose _ _ _) (by decide +kernel)
  refine ⟨hs, hd, by decide +kernel, ?_⟩
  obtain ⟨nodes, set, copies, h⟩ := hs.toRegular.exists_patched hd.toRegular (by decide) 2 False
    (fun nodes C => (reconciled_diff hs.toRegular hd.toRegular 2).unambiguous
      (r := { src, dst, nodes }) C hs hd) False.elim
  refine ⟨nodes, set, h.resolve, h.generate, ?_⟩
  rw [eq_patchSet h.resolve h.generate]
  decide +kernel

end TreePatch
