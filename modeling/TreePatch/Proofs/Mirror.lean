import Mathlib.Data.Set.Function
import TreePatch.Proofs.Apply
import TreePatch.Proofs.Likeness

/-!
# The patched tree mirrors the destination

When everything has been placed, every node of the destination is represented in the patched tree: by the
counterpart that was kept, or by a copy. Where the places of all children are given, the children of what
represents a node are what represents its children, in the same order. Trees that mirror each other print
alike: below the root all children keep their order, and of the children of the root only the package
declaration, the imports and the types are printed.
-/

namespace TreePatch

/-- The nodes of `t` that can be reached are images of those of `dst`, one to one, with kinds, labels and
roles, and below the root with the order of children. Below the root itself only the members of a
collection keep their order. -/
structure Mirrors (dst t : Tree) (image : NodeId → NodeId) : Prop where
  root : image Tree.root = Tree.root
  injective : ∀ {x y}, dst.isAttached x = true → dst.isAttached y = true → image x = image y → x = y
  attached : ∀ {n}, t.isAttached n = true ↔ ∃ x, dst.isAttached x = true ∧ image x = n
  kind : ∀ {x}, dst.isAttached x = true → t.kind (image x) = dst.kind x
  label : ∀ {x}, dst.isAttached x = true → t.label (image x) = dst.label x
  role : ∀ {x}, dst.isAttached x = true → t.role (image x) = dst.role x
  children : ∀ {q}, dst.isAttached q = true → q ≠ Tree.root →
    t.children (image q) = (dst.children q).map image
  mem_root : ∀ {c}, c ∈ t.children Tree.root ↔ ∃ x ∈ dst.children Tree.root, image x = c
  members : ∀ {R : Role}, R.isCollection = true →
    t.childrenWithRole Tree.root R = (dst.childrenWithRole Tree.root R).map image

namespace Mirrors

variable {dst t : Tree} {image : NodeId → NodeId} (M : Mirrors dst t image) (L : t.Linked)
  (D : dst.Linked)

include M

theorem bijOn : Set.BijOn image {x | dst.isAttached x = true} {n | t.isAttached n = true} := by
  refine ⟨fun x hx => M.attached.mpr ⟨x, hx, rfl⟩, fun x hx y hy heq => M.injective hx hy heq,
    fun n hn => ?_⟩
  obtain ⟨x, hx, rfl⟩ := M.attached.mp hn
  exact ⟨x, hx, rfl⟩

include L D

theorem parent {x q : NodeId} (hq : dst.isAttached q = true) (hx : dst.parent? x = some q) :
    t.parent? (image x) = some (image q) := by
  have hmem := D.mem_children.mpr hx
  by_cases hroot : q = Tree.root
  · subst hroot
    rw [M.root]
    exact L.mem_children.mp (M.mem_root.mpr ⟨x, hmem, rfl⟩)
  · refine L.mem_children.mp ?_
    rw [M.children hq hroot]
    exact List.mem_map.mpr ⟨x, hmem, rfl⟩

theorem perm_root (R : Role) :
    (t.childrenWithRole Tree.root R).Perm ((dst.childrenWithRole Tree.root R).map image) := by
  have hatt : ∀ {x}, x ∈ dst.children Tree.root → dst.isAttached x = true := fun hx =>
    (D.isAttached_of_parent (D.mem_children.mp hx)).mpr Tree.Linked.isAttached_root
  refine (List.perm_ext_iff_of_nodup ((L.nodup _).filter _) ?_).mpr fun c => ?_
  · refine ((D.nodup _).filter _).map_on fun x hx y hy heq => ?_
    exact M.injective (hatt (List.mem_of_mem_filter hx)) (hatt (List.mem_of_mem_filter hy)) heq
  · rw [Tree.childrenWithRole, List.mem_filter, M.mem_root, List.mem_map]
    constructor
    · rintro ⟨⟨x, hx, rfl⟩, hrole⟩
      rw [M.role (hatt hx)] at hrole
      exact ⟨x, List.mem_filter.mpr ⟨hx, hrole⟩, rfl⟩
    · rintro ⟨x, hx, rfl⟩
      obtain ⟨hx, hrole⟩ := List.mem_filter.mp hx
      exact ⟨⟨x, hx, rfl⟩, by rw [M.role (hatt hx)]; exact hrole⟩

theorem root_of_alone {R : Role}
    (h : ∀ x ∈ dst.childrenWithRole Tree.root R, ∀ y ∈ dst.childrenWithRole Tree.root R, x = y) :
    t.childrenWithRole Tree.root R = (dst.childrenWithRole Tree.root R).map image := by
  have hperm := M.perm_root L D R
  have hnodup : (dst.childrenWithRole Tree.root R).Nodup := (D.nodup _).filter _
  cases hl : dst.childrenWithRole Tree.root R with
  | nil =>
    rw [hl] at hperm
    exact List.perm_nil.mp hperm
  | cons x l =>
    rw [hl] at h hnodup hperm
    have hnil : l = [] := List.eq_nil_iff_forall_not_mem.mpr fun y hy => by
      obtain rfl := h x List.mem_cons_self y (List.mem_cons_of_mem _ hy)
      exact (List.nodup_cons.mp hnodup).1 hy
    rw [hnil] at hperm ⊢
    exact List.perm_singleton.mp hperm

omit L D in
theorem declaredTypes (ht : t.InSync) (hd : dst.InSync) :
    t.units.map (·.declaredTypes) = dst.units.map fun u => u.declaredTypes.map image := by
  obtain ⟨u, hu, hdeclared⟩ := ht
  obtain ⟨u', hu', hdeclared'⟩ := hd
  rw [hu, hu', List.map_singleton, List.map_singleton, hdeclared, hdeclared', M.members rfl]

end Mirrors

/-- Nothing stands in the way of an exact copy: fixed punctuation has nothing below it and does not stand
below the root, a token is kept for a token that reads the same, and below the root all places are
given. -/
structure Faithful (r : Revision) (stay : NodeId → Option NodeId) (deletes : List NodeId)
    (updates : List (NodeId × NodeId)) (placed : List (NodeId × Option NodeId)) : Prop where
  src_leaf : ∀ {n p}, r.src.isAttached p = true → r.src.parent? n = some p →
    r.src.isIgnored n = true → r.src.children n = [] ∧ p ≠ Tree.root
  dst_leaf : ∀ {n p}, r.dst.isAttached p = true → r.dst.parent? n = some p →
    r.dst.isIgnored n = true → r.dst.children n = [] ∧ p ≠ Tree.root
  token : ∀ {q p c x}, stay q = some p → r.dst.parent? x = some q → r.dst.isIgnored x = true →
    r.held stay x = some c → r.src.kind c = r.dst.kind x ∧ r.src.label c = r.dst.label x
  aligned : ∀ {q p}, stay q = some p → q ≠ Tree.root → Aligned r stay deletes updates placed q p

section

variable {r : Revision} {stay : NodeId → Option NodeId} {deletes : List NodeId}
  {updates copies : List (NodeId × NodeId)} {placed : List (NodeId × Option NodeId)} {calm : Prop}
  {t : Tree} (R : Reconciled r.src r.dst stay deletes updates placed) (C : Corresponds r stay)
  (As : r.src.Regular) (Ad : r.dst.Regular) (F : Faithful r stay deletes updates placed)
  (h : Underway r stay deletes updates placed (fun _ _ => ¬ calm) (placed.map (·.1)) t copies)

namespace Underway

include R As Ad F h

theorem exists_image_of_child {q p x : NodeId} (hqp : stay q = some p) (hx : r.dst.parent? x = some q) :
    ∃ c, r.image stay copies x = some c := by
  have hqatt := (R.ancestors_kept As.linked Ad.linked hqp).2.1
  rw [← Option.isSome_iff_exists, Revision.image, Option.isSome_or, Bool.or_eq_true]
  cases hignored : r.dst.isIgnored x with
  | false =>
    rcases R.kept_or_brought hqp hx hignored with ⟨c, hc⟩ | hbrought
    · exact Or.inr (by rw [Revision.held_of_stay hc]; rfl)
    · exact Or.inl (h.copied_of_brought hbrought)
  | true =>
    -- punctuation has a mate in its place
    have hunplaced : x ∉ placed.map (·.1) := fun hplaced => by
      rw [(R.of_brought (Or.inr hplaced)).2.1] at hignored
      simp at hignored
    obtain ⟨-, hroot⟩ := F.dst_leaf hqatt hx hignored
    obtain ⟨c, -, hmate⟩ := exists_mem_of_forall₂ (F.aligned hqp hroot).in_place
      (List.mem_filter.mpr ⟨Ad.linked.mem_children.mpr hx, decide_eq_true hunplaced⟩)
    rcases hmate with hstay | hupd | ⟨-, -, hheld⟩
    · exact Or.inr (by rw [Revision.held_of_stay hstay]; rfl)
    · exact Or.inl (h.replaced hupd)
    · exact Or.inr (by rw [hheld]; rfl)

omit As in
theorem live_of_uncopied {x : NodeId} (hx : r.dst.isAttached x = true)
    (hnone : copies.lookup x = none) :
    (∃ p, stay x = some p) ∨ (r.dst.isIgnored x = true ∧ r.dst.children x = [] ∧
      ∃ q p, r.dst.parent? x = some q ∧ stay q = some p ∧ copies.lookup q = none) := by
  induction x using Ad.linked.forest.induction_up with
  | step x ih =>
    by_cases hroot : x = Tree.root
    · exact Or.inl ⟨Tree.root, hroot ▸ R.root⟩
    obtain ⟨q, hxq, hqatt⟩ := Ad.linked.exists_parent_of_isAttached hx hroot
    have hfree := h.free_of_child Ad.linked hxq hnone
    rcases ih q hxq hqatt hfree with ⟨p, hqp⟩ | ⟨-, hnil, -⟩
    · cases hignored : r.dst.isIgnored x with
      | true => exact Or.inr ⟨rfl, (F.dst_leaf hqatt hxq hignored).1, q, p, hxq, hqp, hfree⟩
      | false =>
        refine Or.inl ((R.kept_or_brought hqp hxq hignored).resolve_right fun hbrought => ?_)
        have hsome := h.copied_of_brought hbrought
        rw [hnone] at hsome
        simp at hsome
    · have hmem := Ad.linked.mem_children.mpr hxq
      rw [hnil] at hmem
      simp at hmem

theorem exists_image {x : NodeId} (hx : r.dst.isAttached x = true) :
    ∃ c, r.image stay copies x = some c ∧ t.isAttached c = true := by
  refine Ad.linked.induction_attached
    (P := fun x => ∃ c, r.image stay copies x = some c ∧ t.isAttached c = true) ?_ ?_ hx
  · refine ⟨Tree.root, ?_, Tree.Linked.isAttached_root⟩
    rw [Revision.image, h.root_free, Option.none_or, Revision.held_of_stay R.root]
  · rintro x q hxq hqatt ⟨c, hc, hcatt⟩
    have hmem := Ad.linked.mem_children.mpr hxq
    cases hcopy : copies.lookup q with
    | some c' =>
      rw [Revision.image, hcopy, Option.some_or] at hc
      obtain ⟨d, hd, hxd⟩ := h.sound.exists_copy_child (hcopy.trans hc) hmem
      refine ⟨d, by rw [Revision.image, hxd, Option.some_or], ?_⟩
      exact (h.sound.linked.isAttached_of_parent (h.sound.linked.mem_children.mp hd)).mpr hcatt
    | none =>
      rcases h.live_of_uncopied R Ad F hqatt hcopy with ⟨p, hqp⟩ | ⟨-, hnil, -⟩
      · obtain ⟨d, hd⟩ := h.exists_image_of_child R As Ad F hqp hxq
        have hdp : d ∈ t.children p := (h.arranged hqp hcopy).mem.mpr (Or.inl ⟨x, hmem, hd⟩)
        refine ⟨d, hd, ?_⟩
        exact (h.sound.linked.isAttached_of_parent (h.sound.linked.mem_children.mp hdp)).mpr
          (h.isAttached Ad.linked R hqp hcopy)
      · rw [hnil] at hmem
        simp at hmem

omit F in
include C in
theorem image_injective {x y c : NodeId} (hx : r.image stay copies x = some c)
    (hy : r.image stay copies y = some c) : x = y := by
  have hheld : ∀ {z}, r.held stay z = some c → c < r.src.size := fun hz =>
    As.linked.lt_size_of_isAttached (R.isAttached_of_held C As.linked Ad.linked hz)
  rw [Revision.image] at hx hy
  cases hcx : copies.lookup x with
  | some c₁ =>
    rw [hcx, Option.some_or] at hx
    cases hcy : copies.lookup y with
    | some c₂ =>
      rw [hcy, Option.some_or] at hy
      exact h.sound.copy_injective (hcx.trans hx) (hcy.trans hy)
    | none =>
      rw [hcy, Option.none_or] at hy
      exact absurd (hheld hy) (Nat.not_lt.mpr (h.sound.copy_bounds (hcx.trans hx)).1)
  | none =>
    rw [hcx, Option.none_or] at hx
    cases hcy : copies.lookup y with
    | some c₂ =>
      rw [hcy, Option.some_or] at hy
      exact absurd (hheld hx) (Nat.not_lt.mpr (h.sound.copy_bounds (hcy.trans hy)).1)
    | none =>
      rw [hcy, Option.none_or] at hy
      exact C.held_injective hx hy

include C in
theorem image_content (hcalm : calm) {x c : NodeId} (hx : r.image stay copies x = some c) :
    t.kind c = r.dst.kind x ∧ t.label c = r.dst.label x ∧ t.role c = r.dst.role x := by
  rw [Revision.image] at hx
  cases hcx : copies.lookup x with
  | some c₁ =>
    rw [hcx, Option.some_or] at hx
    have hc := hcx.trans hx
    exact ⟨h.sound.copy_kind hc, (h.sound.copy_label hc).resolve_right fun hno => hno hcalm,
      h.sound.copy_role hc⟩
  | none =>
    rw [hcx, Option.none_or] at hx
    have hlt := As.linked.lt_size_of_isAttached (R.isAttached_of_held C As.linked Ad.linked hx)
    have hcontent := h.sound.content c hlt
    rw [Tree.kind_of_content hcontent, Tree.label_of_content hcontent, Tree.role_of_content hcontent]
    rcases C.of_held hx with hkept | ⟨hxi, hci, q, p, hqp, hxq, hcp⟩
    · exact ⟨R.kind hkept, R.label hkept, R.role hkept⟩
    · have hkept := R.ancestors_kept As.linked Ad.linked hqp
      obtain ⟨hkind, hlabel⟩ := F.token hqp hxq hxi hx
      refine ⟨hkind, hlabel, ?_⟩
      rw [As.role_of_ignored hkept.1 hcp hci, Ad.role_of_ignored hkept.2.1 hxq hxi]

omit Ad in
theorem children_of_ignored {c p : NodeId} (hp : r.src.parent? c = some p)
    (hatt : r.src.isAttached p = true) (hignored : r.src.isIgnored c = true) : t.children c = [] := by
  refine List.eq_nil_iff_forall_not_mem.mpr fun c' hc' => ?_
  have hunkept : ∀ q, stay q ≠ some c := fun q hq => by
    rw [(R.tracked hq).2 p hp] at hignored
    simp at hignored
  have hlt := h.unkept hunkept (r.src.lt_size_of_parent hp) hc'
  have hmem := As.linked.mem_children.mpr (h.sound.parent_of_old hlt (h.sound.linked.mem_children.mp hc'))
  rw [(F.src_leaf hatt hp hignored).1] at hmem
  simp at hmem

include C in
theorem image_children {q c : NodeId} (hq : r.dst.isAttached q = true) (hroot : q ≠ Tree.root)
    (hc : r.image stay copies q = some c) :
    t.children c = (r.dst.children q).filterMap (r.image stay copies) := by
  rw [Revision.image] at hc
  cases hcopy : copies.lookup q with
  | some c' =>
    rw [hcopy, Option.some_or] at hc
    refine (filterMap_of_map_eq (Eq.trans ?_ (h.sound.copy_children (hcopy.trans hc)))).symm
    refine List.map_congr_left fun x hx => ?_
    obtain ⟨d, -, hd⟩ := h.sound.exists_copy_child (hcopy.trans hc) hx
    rw [Revision.image, hd, Option.some_or]
  | none =>
    rw [hcopy, Option.none_or] at hc
    rcases h.live_of_uncopied R Ad F hq hcopy with ⟨p, hqp⟩ | ⟨hignored, hnil, q', p', hq', hqp', -⟩
    · obtain rfl := Option.some.inj ((Revision.held_of_stay hqp).symm.trans hc)
      exact (h.arranged hqp hcopy).exact (F.aligned hqp hroot)
    · rcases C.of_held hc with hstay | ⟨-, hci, q'', p'', hqp'', -, hcp⟩
      · rw [(R.tracked hstay).1 q' hq'] at hignored
        simp at hignored
      · rw [hnil, h.children_of_ignored R As F hcp (R.ancestors_kept As.linked Ad.linked hqp'').1 hci]
        rfl

include C in
theorem exists_preimage {n : NodeId} (hn : t.isAttached n = true) :
    ∃ x, r.dst.isAttached x = true ∧ r.image stay copies x = some n := by
  have hrootimage : r.image stay copies Tree.root = some Tree.root := by
    rw [Revision.image, h.root_free, Option.none_or, Revision.held_of_stay R.root]
  refine h.sound.linked.induction_attached
    (P := fun n => ∃ x, r.dst.isAttached x = true ∧ r.image stay copies x = some n) ?_ ?_ hn
  · exact ⟨Tree.root, Tree.Linked.isAttached_root, hrootimage⟩
  · rintro n m hnm - ⟨y, hy, hym⟩
    have hmem := h.sound.linked.mem_children.mpr hnm
    have hchild : ∃ x ∈ r.dst.children y, r.image stay copies x = some n := by
      by_cases hroot : y = Tree.root
      · subst hroot
        obtain rfl := Option.some.inj (hrootimage.symm.trans hym)
        rcases (h.arranged R.root h.root_free).mem.mp hmem with hx | ⟨hsrc, hignored⟩
        · exact hx
        · exact absurd rfl (F.src_leaf Tree.Linked.isAttached_root
            (As.linked.mem_children.mp hsrc) hignored).2
      · rw [h.image_children R C As Ad F hy hroot hym] at hmem
        exact List.mem_filterMap.mp hmem
    obtain ⟨x, hx, hxn⟩ := hchild
    exact ⟨x, (Ad.linked.isAttached_of_parent (Ad.linked.mem_children.mp hx)).mpr hy, hxn⟩

/-! ## The mirror -/

include C in
/-- **The patched tree mirrors the destination.** -/
theorem mirrors (hcalm : calm) : Mirrors r.dst t fun x => (r.image stay copies x).getD x := by
  have himage : ∀ {x}, r.dst.isAttached x = true →
      r.image stay copies x = some ((r.image stay copies x).getD x) := fun hx => by
    obtain ⟨c, hc, -⟩ := h.exists_image R As Ad F hx
    rw [hc, Option.getD_some]
  have hbelow : ∀ {q x}, r.dst.isAttached q = true → x ∈ r.dst.children q →
      r.image stay copies x = some ((r.image stay copies x).getD x) := fun hq hx =>
    himage ((Ad.linked.isAttached_of_parent (Ad.linked.mem_children.mp hx)).mpr hq)
  have hroot : r.dst.isAttached Tree.root = true := Tree.Linked.isAttached_root
  have hA := h.arranged R.root h.root_free
  exact
    { root := by
        rw [Revision.image, h.root_free, Option.none_or, Revision.held_of_stay R.root,
          Option.getD_some]
      injective := fun {x y} hx hy heq =>
        h.image_injective R C As Ad (himage hx) ((himage hy).trans (congrArg some heq.symm))
      attached := fun {n} => by
        constructor
        · intro hn
          obtain ⟨x, hx, hxn⟩ := h.exists_preimage R C As Ad F hn
          exact ⟨x, hx, by rw [hxn, Option.getD_some]⟩
        · rintro ⟨x, hx, rfl⟩
          obtain ⟨c, hc, hatt⟩ := h.exists_image R As Ad F hx
          rw [hc]
          exact hatt
      kind := fun hx => (h.image_content R C As Ad F hcalm (himage hx)).1
      label := fun hx => (h.image_content R C As Ad F hcalm (himage hx)).2.1
      role := fun hx => (h.image_content R C As Ad F hcalm (himage hx)).2.2
      children := fun {q} hq hne => by
        rw [h.image_children R C As Ad F hq hne (himage hq)]
        exact filterMap_eq_map_getD fun x hx => hbelow hq hx
      mem_root := fun {c} => by
        rw [hA.mem]
        constructor
        · rintro (⟨x, hx, hxc⟩ | ⟨hsrc, hignored⟩)
          · exact ⟨x, hx, by rw [hxc, Option.getD_some]⟩
          · exact absurd rfl (F.src_leaf Tree.Linked.isAttached_root
              (As.linked.mem_children.mp hsrc) hignored).2
        · rintro ⟨x, hx, rfl⟩
          exact Or.inl ⟨x, hx, hbelow hroot hx⟩
      members := fun {S} hS => by
        rw [hA.collection hS]
        exact filterMap_eq_map_getD fun x hx => hbelow hroot (List.mem_of_mem_filter hx) }

end Underway

end

/-! ### Mirror images in print -/

namespace Tree

variable {t : Tree}

theorem InSync.print_eq (h : t.InSync) (width : Nat) :
    t.print width =
      .ok (Layout.render width (t.programItems (t.childrenWithRole root .containedType))) := by
  obtain ⟨u, hunits, hdeclared⟩ := h
  rw [print, onlyUnit, hunits, ← hdeclared]
  rfl

end Tree

namespace Mirrors

variable {dst t : Tree} {image : NodeId → NodeId} (M : Mirrors dst t image) (L : t.Linked)
  (D : dst.Linked)

include M D

theorem likeness : Tree.Likeness t dst fun n x => n = image x ∧ dst.isAttached x = true ∧ x ≠ Tree.root where
  kind := fun ⟨hn, hx, _⟩ => hn ▸ M.kind hx
  label := fun ⟨hn, hx, _⟩ => hn ▸ M.label hx
  role := fun ⟨hn, hx, _⟩ => hn ▸ M.role hx
  children := fun {_ x} ⟨hn, hx, hroot⟩ => by
    rw [hn, M.children hx hroot, List.forall₂_map_left_iff, List.forall₂_same]
    intro c hc
    have hp := D.mem_children.mp hc
    exact ⟨rfl, (D.isAttached_of_parent hp).mpr hx, D.ne_root_of_parent hp⟩

include L

/-- **A tree and its mirror image print alike.** -/
theorem print_eq (hpackage : ∀ x ∈ dst.childrenWithRole Tree.root .packageDeclaration,
      ∀ y ∈ dst.childrenWithRole Tree.root .packageDeclaration, x = y)
    (ht : t.InSync) (hd : dst.InSync) (width : Nat) : t.print width = dst.print width := by
  have htop : ∀ R, List.Forall₂ (fun n x => n = image x ∧ dst.isAttached x = true ∧ x ≠ Tree.root)
      ((dst.childrenWithRole Tree.root R).map image) (dst.childrenWithRole Tree.root R) := fun R => by
    rw [List.forall₂_map_left_iff, List.forall₂_same]
    intro x hx
    have hp := (D.mem_childrenWithRole.mp hx).1
    exact ⟨rfl, (D.isAttached_of_parent hp).mpr Tree.Linked.isAttached_root, D.ne_root_of_parent hp⟩
  obtain ⟨unit, hunits, hdeclared⟩ := ht
  obtain ⟨unit', hunits', hdeclared'⟩ := hd
  have hunit : t.onlyUnit = .ok unit := by rw [Tree.onlyUnit, hunits]
  have hunit' : dst.onlyUnit = .ok unit' := by rw [Tree.onlyUnit, hunits']
  refine (M.likeness D).print_eq L D hunit hunit' ?_ ?_ ?_ width
  · rw [hdeclared, hdeclared', M.members rfl]
    exact htop _
  · rw [M.root_of_alone L D hpackage]
    exact htop _
  · rw [M.members rfl]
    exact htop _

end Mirrors

end TreePatch
