import TreePatch.Proofs.Placing

/-!
# Linking copies in

Every placement succeeds and keeps the children arranged. The anchor of a placement has been placed
before it or is held, so it stands under the parent; the index of a member counts elder members that are
all there; a slot or modifier list that is placed has no occupant left; and thrown types are renewed as a
whole.
-/

namespace TreePatch

theorem Sound.with_units {src dst t : Tree} {renamed : NodeId → String → Prop}
    {copies : List (NodeId × NodeId)} (h : Sound src dst renamed t copies) (units : List CompilationUnit) :
    Sound src dst renamed { t with units := units } copies where
  linked :=
    { root_lt := h.linked.root_lt
      root_top := h.linked.root_top
      mem_children := h.linked.mem_children
      nodup := h.linked.nodup
      acyclic := h.linked.acyclic }
  size_le := h.size_le
  content := h.content
  parent_of_old := h.parent_of_old
  copy_bounds := h.copy_bounds
  copy_injective := h.copy_injective
  copy_children := h.copy_children
  copy_content := h.copy_content
  copy_label := h.copy_label

theorem lookup_append_of_free {t dst : Tree} {copies : List (NodeId × NodeId)} {x q y : NodeId}
    {g : Tree.Graft} (G : Tree.Grafted t dst x g) (D : dst.Linked)
    (hfree : (g.copies ++ copies).lookup q = none) (hy : dst.parent? y = some q) (hne : y ≠ x) :
    (g.copies ++ copies).lookup y = copies.lookup y := by
  rw [List.lookup_append, Option.or_eq_none_iff] at hfree
  have hout : g.copies.lookup y = none := by
    by_contra hcopied
    have hin := (G.lookup_isSome y).mp (Option.isSome_iff_ne_none.mpr hcopied)
    rw [D.ancestors_of_some hy, List.mem_cons] at hin
    have hq := (G.lookup_isSome q).mpr ((hin.resolve_left hne).imp_left Eq.symm)
    rw [hfree.1] at hq
    simp at hq
  rw [List.lookup_append, hout, Option.none_or]

theorem lookup_append_parent {t dst : Tree} {copies : List (NodeId × NodeId)} {x q : NodeId}
    {g : Tree.Graft} (G : Tree.Grafted t dst x g) (D : dst.Linked) (hx : dst.parent? x = some q)
    (hfree : copies.lookup q = none) : (g.copies ++ copies).lookup q = none := by
  have hout : g.copies.lookup q = none := by
    by_contra hcopied
    have hin := (G.lookup_isSome q).mp (Option.isSome_iff_ne_none.mpr hcopied)
    refine D.forest.not_mem_upward_self x ?_
    rw [D.forest.upward_of_some hx]
    exact List.mem_cons.mpr (hin.imp_left Eq.symm)
  rw [List.lookup_append, hout, Option.none_or, hfree]

theorem lookup_append_root {t dst : Tree} {copies : List (NodeId × NodeId)} {x q : NodeId}
    {g : Tree.Graft} (G : Tree.Grafted t dst x g) (D : dst.Linked) (hx : dst.parent? x = some q)
    (hfree : copies.lookup Tree.root = none) : (g.copies ++ copies).lookup Tree.root = none := by
  have hout : g.copies.lookup Tree.root = none := by
    by_contra hcopied
    have hin := (G.lookup_isSome _).mp (Option.isSome_iff_ne_none.mpr hcopied)
    rw [D.ancestors_root] at hin
    have hroot := D.ne_root_of_parent hx
    simp [Ne.symm hroot] at hin
  rw [List.lookup_append, hout, Option.none_or, hfree]

section

variable {r : Revision} {stay : NodeId → Option NodeId} {deletes : List NodeId}
  {updates copies : List (NodeId × NodeId)} {placed : List (NodeId × Option NodeId)}
  {renamed : NodeId → String → Prop} {done : List NodeId} {t : Tree}

namespace Underway

section

variable (h : Underway r stay deletes updates placed renamed done t copies) (D : r.dst.Linked)

include h

theorem fresh_append {q p x : NodeId} (hqp : stay q = some p) (hfree : copies.lookup q = none)
    (hx : r.dst.parent? x = some q) (hcopied : (copies.lookup x).isSome = true)
    (more : List NodeId) :
    x ∈ updates.map (·.2) ∨ x ∈ done ++ more ∨ (r.dst.role x = .thrown ∧
      ∃ y ∈ done ++ more, r.dst.parent? y = some q ∧ r.dst.role y = .thrown) := by
  rcases h.fresh hqp hfree hx hcopied with hupd | hdone | ⟨hrole, y, hy, hthrown⟩
  · exact Or.inl hupd
  · exact Or.inr (Or.inl (List.mem_append_left _ hdone))
  · exact Or.inr (Or.inr ⟨hrole, y, List.mem_append_left _ hy, hthrown⟩)

include D

theorem free_of_child {q x : NodeId} (hx : r.dst.parent? x = some q)
    (hnone : copies.lookup x = none) : copies.lookup q = none := by
  cases hq : copies.lookup q with
  | none => rfl
  | some c =>
    obtain ⟨c', -, hc'⟩ := h.sound.exists_copy_child hq (D.mem_children.mpr hx)
    rw [hnone] at hc'
    simp at hc'

variable (R : Reconciled r.src r.dst stay deletes updates placed)

include R

theorem isAttached {q p : NodeId} (hqp : stay q = some p) (hfree : copies.lookup q = none) :
    t.isAttached p = true := by
  induction q using D.forest.induction_up generalizing p with
  | step q ih =>
    by_cases hroot : q = Tree.root
    · subst hroot
      obtain rfl := Option.some.inj (R.root.symm.trans hqp)
      exact Tree.Linked.isAttached_root
    · obtain ⟨q', p', hq, hp, hstay⟩ := R.parent hqp hroot
      have hfree' := h.free_of_child D hq hfree
      have hmem : p ∈ t.children p' := (h.arranged hstay hfree').mem.mpr <| Or.inl
        ⟨q, D.mem_children.mpr hq, by
          rw [Revision.image, hfree, Option.none_or, Revision.held_of_stay hqp]⟩
      exact (h.sound.linked.isAttached_of_parent (h.sound.linked.mem_children.mp hmem)).mpr
        (ih q' hq hstay hfree')

end

section

variable (R : Reconciled r.src r.dst stay deletes updates placed) (C : Corresponds r stay)
  (As : r.src.Regular) (Ad : r.dst.Regular)
  (h : Underway r stay deletes updates placed renamed done t copies)

include R C As Ad h

theorem role_of_image {q p x c : NodeId} (hqp : stay q = some p) (hx : r.dst.parent? x = some q)
    (hc : r.image stay copies x = some c) : t.role c = r.dst.role x := by
  rw [Revision.image] at hc
  cases hcopy : copies.lookup x with
  | some c' =>
    rw [hcopy, Option.some_or] at hc
    exact h.sound.copy_role (hcopy.trans hc)
  | none =>
    rw [hcopy, Option.none_or] at hc
    obtain ⟨hp, hmate⟩ := R.mate_of_held C Ad.linked hqp hx hc
    rw [Tree.role_of_content (h.sound.content c (r.src.lt_size_of_parent hp)),
      hmate.role R As Ad hqp hp hx]

theorem kind_of_image {q p x c : NodeId} (hqp : stay q = some p) (hx : r.dst.parent? x = some q)
    (htoken : r.dst.role x ≠ .token) (hc : r.image stay copies x = some c) :
    t.kind c = r.dst.kind x := by
  rw [Revision.image] at hc
  cases hcopy : copies.lookup x with
  | some c' =>
    rw [hcopy, Option.some_or] at hc
    exact h.sound.copy_kind (hcopy.trans hc)
  | none =>
    rw [hcopy, Option.none_or] at hc
    rcases C.of_held hc with hkept | ⟨hignored, -⟩
    · have hlt := As.linked.lt_size_of_isAttached (R.ancestors_kept As.linked Ad.linked hkept).1
      rw [Tree.kind_of_content (h.sound.content c hlt), R.kind hkept]
    · exact absurd (Ad.role_of_ignored (R.ancestors_kept As.linked Ad.linked hqp).2.1 hx hignored) htoken

theorem exists_original {q p c : NodeId} (hqp : stay q = some p) (hfree : copies.lookup q = none)
    (hc : c ∈ t.children p) (htoken : t.role c ≠ .token) :
    ∃ x, r.dst.parent? x = some q ∧ r.image stay copies x = some c ∧ r.dst.role x = t.role c ∧
      r.dst.kind x = t.kind c := by
  rcases (h.arranged hqp hfree).mem.mp hc with ⟨x, hx, himage⟩ | ⟨hc', hignored⟩
  · have hx := Ad.linked.mem_children.mp hx
    have hrole := h.role_of_image R C As Ad hqp hx himage
    exact ⟨x, hx, himage, hrole.symm, (h.kind_of_image R C As Ad hqp hx (hrole ▸ htoken) himage).symm⟩
  · have hp := As.linked.mem_children.mp hc'
    rw [Tree.role_of_content (h.sound.content c (r.src.lt_size_of_parent hp)),
      As.role_of_ignored (R.ancestors_kept As.linked Ad.linked hqp).1 hp hignored] at htoken
    exact absurd rfl htoken

end

end Underway

/-! ## Nodes that are due -/

/-- The destination node `x` is to be placed next: it is a child of the live node `q`, between `before`
and `after`, its elder siblings are represented, and it has no copy yet, nor have the younger siblings that
are placed after it. -/
structure Due (r : Revision) (stay : NodeId → Option NodeId) (updates : List (NodeId × NodeId))
    (placed : List (NodeId × Option NodeId)) (copies : List (NodeId × NodeId)) (x q p : NodeId)
    (before after : List NodeId) : Prop where
  mem : x ∈ placed.map (·.1)
  parent : r.dst.parent? x = some q
  stay : stay q = some p
  uncopied : copies.lookup x = none
  split : r.dst.children q = before ++ x :: after
  elder : ∀ y ∈ before, Reconciled.Brought updates placed y → (copies.lookup y).isSome = true
  younger : ∀ y ∈ after, y ∈ placed.map (·.1) → r.dst.role x ≠ .thrown → copies.lookup y = none

theorem Reconciled.notMem_before (R : Reconciled r.src r.dst stay deletes updates placed)
    (D : r.dst.Linked) {x y q : NodeId} {source : Option NodeId}
    {pre post : List (NodeId × Option NodeId)} {before after : List NodeId}
    (hsplit : placed = pre ++ (x, source) :: post)
    (hchildren : r.dst.children q = before ++ x :: after) (hy : y ∈ after) : y ∉ pre.map (·.1) := by
  intro hmem
  obtain ⟨⟨y', source'⟩, hy', rfl⟩ := List.mem_map.mp hmem
  obtain ⟨pre₁, post₁, rfl⟩ := List.append_of_mem hy'
  obtain ⟨after₁, after₂, rfl⟩ := List.append_of_mem hy
  have hparent : r.dst.parent? y' = some q := D.mem_children.mp (by simp [hchildren])
  have hchildren' : r.dst.children q = (before ++ x :: after₁) ++ y' :: after₂ := by
    simp [hchildren]
  have helder : x ∈ (r.dst.children q).takeWhile (· != y') := by
    rw [takeWhile_of_split (D.nodup q) hchildren']
    simp
  have hsplit' : placed = pre₁ ++ (y', source') :: (post₁ ++ (x, source) :: post) := by
    rw [hsplit, List.append_assoc, List.cons_append]
  have hx := R.placed_before hsplit' hparent helder (by rw [hsplit]; simp)
  have hnodup := R.placed_nodup
  rw [hsplit, List.append_assoc, List.map_append] at hnodup
  exact List.disjoint_of_nodup_append hnodup hx (by simp)

theorem Underway.exists_due (R : Reconciled r.src r.dst stay deletes updates placed)
    (Ad : r.dst.Regular) (h : Underway r stay deletes updates placed renamed done t copies) {x : NodeId}
    {source : Option NodeId} {pre post : List (NodeId × Option NodeId)}
    (hsplit : placed = pre ++ (x, source) :: post) (hdone : done = pre.map (·.1))
    (hnone : copies.lookup x = none) :
    ∃ q p before after, Due r stay updates placed copies x q p before after := by
  have D := Ad.linked
  have hmem : (x, source) ∈ placed := by simp [hsplit]
  obtain ⟨-, -, q, p, hqp, hx⟩ := R.place hmem
  obtain ⟨before, after, hchildren⟩ := List.append_of_mem (D.mem_children.mpr hx)
  refine ⟨q, p, before, after, List.mem_map.mpr ⟨_, hmem, rfl⟩, hx, hqp, hnone, hchildren, ?_, ?_⟩
  · rintro y hy (hupd | hplaced)
    · obtain ⟨⟨c, y'⟩, hmem, rfl⟩ := List.mem_map.mp hupd
      exact h.replaced hmem
    · rw [← takeWhile_of_split (D.nodup q) hchildren] at hy
      exact h.copied (hdone ▸ R.placed_before hsplit hx hy hplaced)
  · intro y hy hplaced hthrown
    by_contra hcopied
    have hyq : r.dst.parent? y = some q := D.mem_children.mp (by simp [hchildren, hy])
    rcases h.fresh hqp (h.free_of_child D hx hnone) hyq (Option.isSome_iff_ne_none.mpr hcopied) with
      hupd | hbefore | ⟨hrole, -⟩
    · obtain ⟨⟨c, y'⟩, hmem, rfl⟩ := List.mem_map.mp hupd
      exact (R.update_fresh hmem).2.2 hplaced
    · exact R.notMem_before D hsplit hchildren hy (hdone ▸ hbefore)
    · exact hthrown (Ad.thrown hyq hx hrole)

namespace Due

variable {x q p : NodeId} {before after : List NodeId}

theorem brought (due : Due r stay updates placed copies x q p before after) :
    Reconciled.Brought updates placed x :=
  Or.inr due.mem

section

variable (R : Reconciled r.src r.dst stay deletes updates placed)
  (due : Due r stay updates placed copies x q p before after)

include R due

theorem image_eq_none : r.image stay copies x = none := by
  rw [Revision.image, due.uncopied, Option.none_or, R.held_of_brought due.brought]

theorem elder_isSome (D : r.dst.Linked) {y : NodeId} (hy : y ∈ before)
    (htracked : r.dst.isIgnored y = false) : (r.image stay copies y).isSome = true := by
  have hyq : r.dst.parent? y = some q := D.mem_children.mp (by simp [due.split, hy])
  rw [Revision.image, Option.isSome_or]
  rcases R.kept_or_brought due.stay hyq htracked with ⟨c, hc⟩ | hbrought
  · rw [Revision.held_of_stay hc, Option.isSome_some, Bool.or_true]
  · rw [due.elder y hy hbrought, Bool.true_or]

theorem image_of_younger (hthrown : r.dst.role x ≠ .thrown) {y : NodeId} (hy : y ∈ after)
    (hplaced : y ∈ placed.map (·.1)) : r.image stay copies y = none := by
  rw [Revision.image, due.younger y hy hplaced hthrown, Option.none_or,
    R.held_of_brought (Or.inr hplaced)]

theorem isSome_of_member (Ad : r.dst.Regular)
    (h : Underway r stay deletes updates placed renamed done t copies)
    (hqatt : r.dst.isAttached q = true) {y : NodeId}
    (hy : y ∈ before ++ after.filter fun y => decide (y ∉ placed.map (·.1)))
    (hR : (r.dst.role y).isCollection = true) : (r.image stay copies y).isSome = true := by
  have htracked : ∀ {y}, y ∈ r.dst.children q → (r.dst.role y).isCollection = true →
      r.dst.isIgnored y = false := fun hy hR =>
    Ad.tracked_of_collection hqatt (Ad.linked.mem_children.mp hy) hR
  rcases List.mem_append.mp hy with hy | hy
  · have hmem : y ∈ r.dst.children q := by simp [due.split, hy]
    exact due.elder_isSome R Ad.linked hy (htracked hmem hR)
  · obtain ⟨hy, hunplaced⟩ := List.mem_filter.mp hy
    have hmem : y ∈ r.dst.children q := by simp [due.split, hy]
    rw [Revision.image, Option.isSome_or, Bool.or_eq_true]
    rcases R.kept_or_brought due.stay (Ad.linked.mem_children.mp hmem) (htracked hmem hR) with
      ⟨c, hc⟩ | hupd | hplaced
    · exact Or.inr (by rw [Revision.held_of_stay hc]; rfl)
    · obtain ⟨⟨c, y'⟩, hcy, rfl⟩ := List.mem_map.mp hupd
      exact Or.inl (h.replaced hcy)
    · exact absurd hplaced (of_decide_eq_true hunplaced)

end

end Due

namespace Underway

variable {x q p : NodeId} {before after : List NodeId} {g : Tree.Graft}

section

variable (R : Reconciled r.src r.dst stay deletes updates placed) (As : r.src.Regular)
  (Ad : r.dst.Regular) (h : Underway r stay deletes updates placed renamed done t copies)

include R As Ad h

theorem lt_size {q p : NodeId} (hqp : stay q = some p) : p < t.size :=
  Nat.lt_of_lt_of_le (Cleared.lt_size_of_stay R As.linked Ad.linked hqp) h.sound.size_le

theorem arranged_grafted {q p : NodeId} (hqp : stay q = some p) (hfree : copies.lookup q = none)
    (G : Tree.Grafted t r.dst x g) :
    Arranged r.src r.dst g.tree (r.image stay copies) (Aligned r stay deletes updates placed q p)
      q p := by
  have hchildren : g.tree.children p = t.children p :=
    congrArg Node.children (G.node_old _ (h.lt_size R As Ad hqp))
  refine (h.arranged hqp hfree).congr hchildren (fun c hc => ?_) fun _ _ => rfl
  exact congrArg (·.toContent.role)
    (G.node_old _ (t.lt_size_of_parent (h.sound.linked.mem_children.mp hc)))

omit R As in
theorem sound_grafted (due : Due r stay updates placed copies x q p before after)
    (G : Tree.Grafted t r.dst x g) (Lg : g.tree.Linked) :
    Sound r.src r.dst renamed g.tree (g.copies ++ copies) := by
  refine h.sound.grafted Ad.linked G Lg fun q' hq' => ?_
  obtain rfl := Option.some.inj (due.parent.symm.trans hq')
  exact h.free_of_child Ad.linked due.parent due.uncopied

omit As in
theorem isAttached_grafted (due : Due r stay updates placed copies x q p before after)
    (G : Tree.Grafted t r.dst x g) (Lg : g.tree.Linked) : g.tree.isAttached p = true :=
  h.sound.linked.isAttached_mono Lg
    (fun hnp => (congrArg Node.parent (G.node_old _ (t.lt_size_of_parent hnp))).trans hnp)
    (h.isAttached Ad.linked R due.stay (h.free_of_child Ad.linked due.parent due.uncopied))

theorem link_in (due : Due r stay updates placed copies x q p before after)
    (G : Tree.Grafted t r.dst x g) (Lg : g.tree.Linked) {i : Nat} {t' : Tree}
    (hl : Tree.LinkedIn g.tree p i g.copy t')
    (hfits : Fits r.dst g.tree (r.image stay copies) (Aligned r stay deletes updates placed q p) p x
      before i) (hthrown : r.dst.role x ≠ .thrown) (units : List CompilationUnit)
    (hsync : Tree.InSync { t' with units := units }) :
    Underway r stay deletes updates placed renamed (done ++ [x]) { t' with units := units }
      (g.copies ++ copies) := by
  have hlt := Cleared.lt_size_of_stay R As.linked Ad.linked due.stay
  have hcopy : (g.copies ++ copies).lookup x = some g.copy := by
    rw [List.lookup_append, G.lookup_top, Option.some_or]
  have S := h.sound_grafted Ad due G Lg
  have hattached := h.isAttached_grafted R Ad due G Lg
  have hrole : ∀ c, t'.role c = g.tree.role c := fun c => Tree.role_of_content (hl.content c)
  have hold : ∀ {y}, (copies.lookup y).isSome = true →
      ((g.copies ++ copies).lookup y).isSome = true := fun hy => by
    rw [List.lookup_append, Option.isSome_or, hy, Bool.or_true]
  -- nodes other than `x` are represented as before
  have hsame : ∀ {q' y}, (g.copies ++ copies).lookup q' = none → r.dst.parent? y = some q' →
      y ≠ x → r.image stay (g.copies ++ copies) y = r.image stay copies y := fun hfree' hy hne => by
    rw [Revision.image, lookup_append_of_free G Ad.linked hfree' hy hne, Revision.image]
  have hfree_of : ∀ {q'}, (g.copies ++ copies).lookup q' = none → copies.lookup q' = none :=
    fun hnone => by
      rw [List.lookup_append, Option.or_eq_none_iff] at hnone
      exact hnone.2
  refine
    { sound := (S.linkedIn hlt (S.copy_bounds hcopy).1 G.top hattached hl).with_units units
      inSync := hsync
      root_free := lookup_append_root G Ad.linked due.parent h.root_free
      unkept := fun {c c'} hkept hc hmem => ?_
      replaced := fun hmem => hold (h.replaced hmem)
      copied := fun {y} hy => ?_
      done_subset := List.append_subset.mpr ⟨h.done_subset, by simpa using due.mem⟩
      fresh := fun {q' p' y} hqp hfree' hy hsome => ?_
      renewed := fun {q' p' z y} hqp hfree' hy hyq hrole hz => ?_
      arranged := fun {q' p'} hqp hfree' => ?_ }
  · have hcp : c ≠ p := by
      rintro rfl
      exact hkept q due.stay
    have hchildren : t'.children c = t.children c := by
      rw [hl.children, if_neg hcp]
      exact congrArg Node.children (G.node_old _ (Nat.lt_of_lt_of_le hc h.sound.size_le))
    exact h.unkept hkept hc (hchildren ▸ hmem)
  · rcases List.mem_append.mp hy with hy | hy
    · exact hold (h.copied hy)
    · rw [List.mem_singleton.mp hy, hcopy]
      rfl
  · by_cases hyx : y = x
    · exact Or.inr (Or.inl (by simp [hyx]))
    · rw [lookup_append_of_free G Ad.linked hfree' hy hyx] at hsome
      exact h.fresh_append hqp (hfree_of hfree') hy hsome [x]
  · rcases List.mem_append.mp hy with hy | hy
    · exact hold (h.renewed hqp (hfree_of hfree') hy hyq hrole hz)
    · rw [List.mem_singleton.mp hy] at hrole
      exact absurd hrole hthrown
  · have hA := h.arranged_grafted R As Ad hqp (hfree_of hfree') G
    by_cases hq : q' = q
    · subst hq
      obtain rfl := Option.some.inj (due.stay.symm.trans hqp)
      have hchildren : t'.children p = (g.tree.children p).take i ++
          g.copy :: (g.tree.children p).drop i := by rw [hl.children, if_pos rfl]
      refine hA.insert (Ad.linked.nodup q') due.split (due.image_eq_none R) ?_
        (fun y hy hne => hsame hfree' (Ad.linked.mem_children.mp hy) hne) hchildren
        (fun c _ => hrole c) ((hrole g.copy).trans (S.copy_role hcopy)) hfits
      rw [Revision.image, hcopy, Option.some_or]
    · have hp : p' ≠ p := by
        rintro rfl
        exact hq (R.injective hqp due.stay)
      have hchildren : t'.children p' = g.tree.children p' := by rw [hl.children, if_neg hp]
      refine hA.congr hchildren (fun c _ => hrole c) fun y hy => ?_
      have hy := Ad.linked.mem_children.mp hy
      refine hsame hfree' hy ?_
      rintro rfl
      exact hq (Option.some.inj (hy.symm.trans due.parent))

end

end Underway

/-! ## Where a placement leads -/

/-- The step links `n`, a copy of `x`, under `p` at a position that fits. -/
def Lands (dst : Tree) (image : NodeId → Option NodeId) (aligned : Prop) (p x n : NodeId)
    (before : List NodeId) (step : Patching Unit) (w : Workpiece) : Prop :=
  ∃ i t', step w = .ok () { w with tree := t' } ∧ Tree.LinkedIn w.tree p i n t' ∧
    Fits dst w.tree image aligned p x before i

theorem Lands.of_eq {dst : Tree} {image : NodeId → Option NodeId} {aligned : Prop} {p x n : NodeId}
    {before : List NodeId} {step step' : Patching Unit} {w : Workpiece}
    (h : Lands dst image aligned p x n before step w) (heq : step' w = step w) :
    Lands dst image aligned p x n before step' w := by
  obtain ⟨i, t', hstep, hland⟩ := h
  exact ⟨i, t', heq.trans hstep, hland⟩

theorem lands_insertChild {dst : Tree} {image : NodeId → Option NodeId} {aligned : Prop}
    {p x n : NodeId} {before : List NodeId} {i : Nat} {step : Patching Unit} {w : Workpiece}
    (hp : p < w.tree.size) (hn : n < w.tree.size) (htop : w.tree.parent? n = none)
    (hfits : Fits dst w.tree image aligned p x before i)
    (hstep : step w = Patching.edit (·.insertChild p i n) w) :
    Lands dst image aligned p x n before step w := by
  obtain ⟨t', ht', hl⟩ := Tree.insertChild_ok hp hn htop hfits.le
  exact ⟨i, t', by rw [hstep, Patching.edit, ht'], hl, hfits⟩

namespace Due

variable {x q p : NodeId} {before after : List NodeId} {g : Tree.Graft} {w : Workpiece}
  {pl : Placement} {source : Option NodeId}
  (R : Reconciled r.src r.dst stay deletes updates placed) (C : Corresponds r stay)
  (As : r.src.Regular) (Ad : r.dst.Regular)
  (h : Underway r stay deletes updates placed renamed done t copies)
  (due : Due r stay updates placed copies x q p before after)
  (hpl : PlacementFor r stay (Reconciled.Brought updates placed) x source pl)

include Ad h due

theorem free : copies.lookup q = none :=
  h.free_of_child Ad.linked due.parent due.uncopied

theorem uncopied_sibling {y : NodeId} (hthrown : r.dst.role x ≠ .thrown)
    (hy : y ∈ r.dst.children q) (hbrought : ¬ Reconciled.Brought updates placed y) :
    copies.lookup y = none := by
  have hyq := Ad.linked.mem_children.mp hy
  by_contra hcopied
  rcases h.fresh due.stay (due.free Ad h) hyq (Option.isSome_iff_ne_none.mpr hcopied) with
    hupd | hdone | ⟨hy, -⟩
  · exact hbrought (Or.inl hupd)
  · exact hbrought (Or.inr (h.done_subset hdone))
  · exact hthrown (Ad.thrown hyq due.parent hy)

include hpl

theorem anchorOf_eq (hthrown : r.dst.role x ≠ .thrown)
    (hcopies : ∀ y ∈ before, w.copies.lookup y = copies.lookup y) :
    Patching.anchorOf pl w = .ok (before.filterMap (r.image stay copies)).getLast? w := by
  have hchild : ∀ y ∈ before, y ∈ r.dst.children q := fun y hy => by simp [due.split, hy]
  have hnone : ∀ y ∈ before, ¬ Reconciled.Brought updates placed y ∧ r.held stay y = none →
      r.image stay copies y = none := fun y hy hno => by
    rw [Revision.image, due.uncopied_sibling Ad h hthrown (hchild y hy) hno.1, hno.2]
    rfl
  have hanchor := hpl.anchor due.parent
  rw [takeWhile_of_split (Ad.linked.nodup q) due.split] at hanchor
  rcases hanchor with ⟨hstart, hall⟩ | ⟨nearer, z, further, hreverse, hnearer, hz⟩
  · have hempty : before.filterMap (r.image stay copies) = [] :=
      List.filterMap_eq_nil_iff.mpr fun y hy => hnone y hy (hall y (List.mem_reverse.mpr hy))
    rw [hempty, Patching.anchorOf, hstart]
    rfl
  · have hbefore : before = further.reverse ++ z :: nearer.reverse := by
      rw [← List.reverse_reverse before, hreverse]
      simp
    have hzmem : z ∈ before := by simp [hbefore]
    have hempty : nearer.reverse.filterMap (r.image stay copies) = [] :=
      List.filterMap_eq_nil_iff.mpr fun y hy =>
        hnone y (by rw [hbefore]; simp [List.mem_reverse.mp hy]) (hnearer y (List.mem_reverse.mp hy))
    have hlast : ∀ {e}, r.image stay copies z = some e →
        (before.filterMap (r.image stay copies)).getLast? = some e := fun he => by
      rw [hbefore, List.filterMap_append, List.filterMap_cons_some he, hempty]
      simp
    rcases hz with ⟨hbrought, hafter⟩ | ⟨hbrought, path, e, hafter, hat, hheld⟩
    · obtain ⟨e, he⟩ := Option.isSome_iff_exists.mp (due.elder z hzmem hbrought)
      rw [hlast (by rw [Revision.image, he, Option.some_or])]
      simp only [Patching.anchorOf, hafter, Patching.copyOf_bind, hcopies z hzmem, he]
      rfl
    · have huncopied := due.uncopied_sibling Ad h hthrown (hchild z hzmem) hbrought
      rw [hlast (by rw [Revision.image, huncopied, Option.none_or, hheld]), Patching.anchorOf, hafter,
        hat]
      rfl

omit h in
theorem index_eq (hR : (r.dst.role x).isCollection = true) :
    pl.insertion.index = some (before.filter (r.dst.role · == r.dst.role x)).length := by
  obtain ⟨k, hk, hget⟩ := Ad.charted.exists_indexInCollection due.parent hR
  have hmembers : r.dst.childrenWithRole q (r.dst.role x) =
      before.filter (r.dst.role · == r.dst.role x) ++
        x :: after.filter (r.dst.role · == r.dst.role x) := by
    rw [Tree.childrenWithRole, due.split, List.filter_append, List.filter_cons_of_pos (by simp)]
  have hnodup : (r.dst.childrenWithRole q (r.dst.role x)).Nodup := (Ad.linked.nodup q).filter _
  have hlt := (List.getElem?_eq_some_iff.mp hget).1
  rw [← Except.ok.inj (hk.symm.trans hpl.index), (List.getElem?_inj hlt hnodup).mp]
  rw [hget, hmembers]
  simp

variable {n : NodeId} (hA : Arranged r.src r.dst w.tree (r.image stay copies)
    (Aligned r stay deletes updates placed q p) q p)
  (L : w.tree.Linked) (hp : p < w.tree.size) (hn : n < w.tree.size) (htop : w.tree.parent? n = none)
  (hcopies : ∀ y ∈ before, w.copies.lookup y = copies.lookup y)

include R hA L hp hn htop hcopies

theorem lands_linkAtAnchor (hthrown : r.dst.role x ≠ .thrown)
    (hnil : (r.dst.role x).isCollection = true →
      w.tree.childrenWithRole p (r.dst.role x) = []) :
    Lands r.dst (r.image stay copies) (Aligned r stay deletes updates placed q p) p x n before
      (Patching.linkAtAnchor pl p n) w := by
  obtain ⟨i, hi, hfits⟩ := hA.position_behind L due.split (due.image_eq_none R) hnil
  refine lands_insertChild hp hn htop hfits ?_
  rw [Patching.linkAtAnchor_run (due.anchorOf_eq Ad h hpl hthrown hcopies), hi]

include As in
theorem lands_linkAtIndex (hthrown : r.dst.role x ≠ .thrown)
    (hR : (r.dst.role x).isCollection = true) :
    Lands r.dst (r.image stay copies) (Aligned r stay deletes updates placed q p) p x n before
      (Patching.linkAtIndex pl p n) w := by
  have hqatt := (R.ancestors_kept As.linked Ad.linked due.stay).2.1
  have hrun := Patching.linkAtIndex_run (w := w) (due.index_eq Ad hpl hR) p n
  rw [hpl.role] at hrun
  rcases hA.position_in_collection L due.split (due.image_eq_none R) hR
    (fun y hy hplaced => due.image_of_younger R hthrown hy (by simpa using hplaced))
    (fun y hy hrole => due.isSome_of_member R Ad h hqatt hy (hrole ▸ hR))
    (fun haligned => haligned.beside due.mem due.split hR) with ⟨hnil, hnone⟩ | ⟨i, hi, hfits⟩
  · obtain ⟨i, t', hstep, hland⟩ := due.lands_linkAtAnchor R Ad h hpl hA L hp hn htop hcopies hthrown
      fun _ => hnil
    exact ⟨i, t', by rw [hrun, hnone]; exact hstep, hland⟩
  · refine lands_insertChild hp hn htop hfits ?_
    rw [hrun, hi]

omit Ad h hcopies hpl L in
theorem lands_appendChild (hrole : r.dst.role x = .caseExpression)
    (hnil : w.tree.childrenWithRole p (r.dst.role x) = []) :
    Lands r.dst (r.image stay copies) (Aligned r stay deletes updates placed q p) p x n before
      (Patching.edit (·.appendChild p n)) w := by
  have hR : (r.dst.role x).isCollection = true := by rw [hrole]; rfl
  refine lands_insertChild hp hn htop ?_ rfl
  exact hA.position_last due.split (due.image_eq_none R) hR hnil fun haligned => by
    rw [hrole]
    exact haligned.cases_last due.mem due.parent hrole

end Due

/-! ## Occupants -/

namespace Due

variable {x q p : NodeId} {before after : List NodeId} {g : Tree.Graft}
  (R : Reconciled r.src r.dst stay deletes updates placed) (C : Corresponds r stay)
  (As : r.src.Regular) (Ad : r.dst.Regular)
  (h : Underway r stay deletes updates placed renamed done t copies)
  (due : Due r stay updates placed copies x q p before after)
  (G : Tree.Grafted t r.dst x g)

include R C As Ad h due G

theorem exists_sibling {c : NodeId} (hc : c ∈ g.tree.children p) (htoken : g.tree.role c ≠ .token) :
    ∃ y, y ≠ x ∧ r.dst.parent? y = some q ∧ r.dst.role y = g.tree.role c ∧
      r.dst.kind y = g.tree.kind c := by
  have hchildren : g.tree.children p = t.children p :=
    congrArg Node.children (G.node_old _ (h.lt_size R As Ad due.stay))
  rw [hchildren] at hc
  have hcontent : g.tree.content c = t.content c :=
    congrArg Node.toContent (G.node_old _ (t.lt_size_of_parent (h.sound.linked.mem_children.mp hc)))
  rw [Tree.role_of_content hcontent] at htoken ⊢
  rw [Tree.kind_of_content hcontent]
  obtain ⟨y, hy, himage, hrole, hkind⟩ :=
    h.exists_original R C As Ad due.stay (due.free Ad h) hc htoken
  refine ⟨y, ?_, hy, hrole, hkind⟩
  rintro rfl
  rw [due.image_eq_none R] at himage
  simp at himage

variable (U : Unambiguous r stay deletes updates placed)

include U

theorem slot_empty (hrole : (r.dst.role x).isSingleSlot = true) :
    g.tree.childrenWithRole p (r.dst.role x) = [] := by
  rw [Tree.childrenWithRole, List.filter_eq_nil_iff]
  intro c hc hcrole
  have hcrole : g.tree.role c = r.dst.role x := by simpa using hcrole
  have htoken : g.tree.role c ≠ .token := by
    rw [hcrole]
    intro htoken
    simp [htoken, Role.isSingleSlot] at hrole
  obtain ⟨y, hne, hy, hyrole, -⟩ := due.exists_sibling R C As Ad h G hc htoken
  exact hne (U.slot due.mem due.parent hy (hyrole.trans hcrole) hrole)

theorem modifiers_empty (hrole : r.dst.role x = .modifier) (hkind : r.dst.kind x = "modifiers") :
    (g.tree.childrenWithRole p .modifier).filter (fun c => g.tree.kind c == "modifiers") = [] := by
  rw [List.filter_eq_nil_iff]
  intro c hc hckind
  obtain ⟨hc, hcrole⟩ := List.mem_filter.mp hc
  have hcrole : g.tree.role c = .modifier := by simpa using hcrole
  have hckind : g.tree.kind c = "modifiers" := by simpa using hckind
  obtain ⟨y, hne, hy, hyrole, hykind⟩ :=
    due.exists_sibling R C As Ad h G hc (by rw [hcrole]; simp)
  exact hne (U.modifiers due.mem due.parent hy hrole (hyrole.trans hcrole) hkind (hykind.trans hckind))

end Due

/-! ## Placing -/

namespace Due

variable {x q p : NodeId} {before after : List NodeId} {g : Tree.Graft} {w : Workpiece}
  {pl : Placement} {source : Option NodeId}
  (R : Reconciled r.src r.dst stay deletes updates placed) (C : Corresponds r stay)
  (As : r.src.Regular) (Ad : r.dst.Regular)
  (h : Underway r stay deletes updates placed renamed done t copies)
  (due : Due r stay updates placed copies x q p before after)
  (hpl : PlacementFor r stay (Reconciled.Brought updates placed) x source pl)
  (G : Tree.Grafted t r.dst x g) (Lg : g.tree.Linked)

include R C As Ad h due hpl G Lg

omit R C As h hpl Lg in
theorem lookup_elder (hfree : copies.lookup q = none) {y : NodeId} (hy : y ∈ before) :
    (g.copies ++ copies).lookup y = copies.lookup y := by
  have hyq := Ad.linked.mem_children.mp (by simp [due.split, hy] : y ∈ r.dst.children q)
  refine lookup_append_of_free G Ad.linked
    (lookup_append_parent G Ad.linked due.parent hfree) hyq ?_
  rintro rfl
  have hnodup := Ad.linked.nodup q
  rw [due.split] at hnodup
  exact notMem_of_nodup_append_cons hnodup hy

theorem lands_link (U : Unambiguous r stay deletes updates placed) (hthrown : r.dst.role x ≠ .thrown)
    (hcontained : r.dst.role x ≠ .containedType)
    (hkind : g.tree.kind g.copy = r.dst.kind x) (stages : List Stage) :
    Lands r.dst (r.image stay copies) (Aligned r stay deletes updates placed q p) p x g.copy before
      (Patching.link r.dst pl p g.copy) ⟨g.tree, g.copies ++ copies, stages⟩ := by
  have hA := h.arranged_grafted R As Ad due.stay (due.free Ad h) G
  have hp : p < g.tree.size := Nat.lt_trans (h.lt_size R As Ad due.stay) G.size_lt
  have hn : g.copy < g.tree.size := (G.bounds G.lookup_top).2
  have hcopies : ∀ y ∈ before, (g.copies ++ copies).lookup y = copies.lookup y := fun y hy =>
    due.lookup_elder Ad G (due.free Ad h) hy
  have anchor := fun hnil => due.lands_linkAtAnchor (w := ⟨g.tree, g.copies ++ copies, stages⟩) R Ad h
    hpl hA Lg hp hn G.top hcopies hthrown hnil
  have index := fun hR => due.lands_linkAtIndex (w := ⟨g.tree, g.copies ++ copies, stages⟩) R As Ad h
    hpl hA Lg hp hn G.top hcopies hthrown hR
  have hnot : ∀ {R}, r.dst.role x = R → R.isCollection = false →
      (r.dst.role x).isCollection = true → g.tree.childrenWithRole p (r.dst.role x) = [] :=
    fun hR hfalse htrue => by rw [hR, hfalse] at htrue; simp at htrue
  have hlink := Patching.link.eq_1 r.dst pl p g.copy
  rw [hpl.role] at hlink
  cases hrole : r.dst.role x with
  | statement | argument | typeMember | typeParameter | parameter | case | annotationUse | imported =>
    rw [hrole] at hlink index
    rw [hlink]
    exact index rfl
  | caseExpression =>
    rw [hrole] at hlink index
    by_cases hnil : g.tree.childrenWithRole p .caseExpression = []
    · refine (due.lands_appendChild R hA hp hn G.top hrole (by rw [hrole]; exact hnil)).of_eq ?_
      rw [hlink]
      change (if (g.tree.childrenWithRole p .caseExpression).isEmpty = true then _ else _ :
        Patching Unit) _ = _
      rw [hnil]
      rfl
    · refine (index rfl).of_eq ?_
      rw [hlink]
      change (if (g.tree.childrenWithRole p .caseExpression).isEmpty = true then _ else _ :
        Patching Unit) _ = _
      rw [if_neg (by simpa using hnil)]
  | modifier =>
    refine (anchor (hnot hrole rfl)).of_eq ?_
    rw [hlink, hrole]
    have hoccupant : (if g.tree.kind g.copy = "modifiers" then
        ((g.tree.childrenWithRole p .modifier).filter
          fun c => g.tree.kind c == "modifiers").head? else none) = none := by
      split
      · next hmodifiers =>
        rw [due.modifiers_empty R C As Ad h G U hrole (hkind ▸ hmodifiers)]
        rfl
      · rfl
    exact congrArg (fun o => Patching.linkOver pl p g.copy o ⟨g.tree, g.copies ++ copies, stages⟩)
      hoccupant
  | packageDeclaration | caseLabel | slot _ | child | token =>
    refine (anchor (hnot hrole rfl)).of_eq ?_
    have hoccupant : (if (r.dst.role x).isSingleSlot = true then
        (g.tree.childrenWithRole p (r.dst.role x)).head? else none) = none := by
      split
      · next hsingle =>
        rw [due.slot_empty R C As Ad h G U hsingle]
        rfl
      · rfl
    rw [hrole] at hlink hoccupant
    rw [hlink]
    exact congrArg (fun o => Patching.linkOver pl p g.copy o ⟨g.tree, g.copies ++ copies, stages⟩)
      hoccupant
  | root => exact absurd hrole (Ad.role_ne_root due.parent)
  | thrown => exact absurd hrole hthrown
  | containedType => exact absurd hrole hcontained

omit C in
theorem link_contained (hrole : r.dst.role x = .containedType) (stages : List Stage) :
    Patching.Succeeds (Patching.link r.dst pl p g.copy) ⟨g.tree, g.copies ++ copies, stages⟩
      fun _ w' => Underway r stay deletes updates placed renamed (done ++ [x]) w'.tree w'.copies := by
  have hR : (r.dst.role x).isCollection = true := by rw [hrole]; rfl
  have hthrown : r.dst.role x ≠ .thrown := by rw [hrole]; simp
  have hA := h.arranged_grafted R As Ad due.stay (due.free Ad h) G
  have hp : p < g.tree.size := Nat.lt_trans (h.lt_size R As Ad due.stay) G.size_lt
  have hn : g.copy < g.tree.size := (G.bounds G.lookup_top).2
  obtain ⟨i, t', hstep, hl, hfits⟩ := due.lands_linkAtIndex
    (w := ⟨g.tree, g.copies ++ copies, stages⟩) R As Ad h hpl hA Lg hp hn G.top
    (fun y hy => due.lookup_elder Ad G (due.free Ad h) hy) hthrown hR
  obtain rfl : q = Tree.root := Ad.contained due.parent hrole
  obtain rfl : p = Tree.root := Option.some.inj (due.stay.symm.trans R.root)
  have hindex := due.index_eq Ad hpl hR
  have helders : (((g.tree.children Tree.root).take i).filter
      (g.tree.role · == .containedType)).length =
        (before.filter (r.dst.role · == r.dst.role x)).length := by
    have hcollection := hfits.collection hR
    rw [hrole] at hcollection ⊢
    rw [hcollection]
    refine filterMap_length_of_isSome fun y hy => ?_
    obtain ⟨hy, hyrole⟩ := List.mem_filter.mp hy
    have hyrole : r.dst.role y = .containedType := by simpa using hyrole
    exact due.elder_isSome R Ad.linked hy (Ad.tracked_of_collection Tree.Linked.isAttached_root
      (Ad.linked.mem_children.mp (by simp [due.split, hy] : y ∈ r.dst.children Tree.root))
      (by rw [hyrole]; rfl))
  have hcopy : g.tree.role g.copy = .containedType :=
    (Tree.role_of_content (G.content G.lookup_top)).trans hrole
  obtain ⟨units, hdeclare, hsync⟩ :=
    (h.inSync.grafted h.sound.linked G).declared hcopy hl helders
  refine ⟨(), ⟨{ t' with units := units }, g.copies ++ copies, stages⟩, ?_,
    h.link_in R As Ad due G Lg hl hfits hthrown units hsync⟩
  have hlink := Patching.link.eq_1 r.dst pl Tree.root g.copy
  rw [hpl.role, hrole] at hlink
  rw [hlink]
  refine (Patching.bind_of_ok hstep).trans ?_
  simp only [Patching.declare, Patching.edit, hindex, Option.getD_some, hdeclare]

end Due

end

end TreePatch
