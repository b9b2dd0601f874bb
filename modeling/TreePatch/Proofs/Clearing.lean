import TreePatch.Proofs.Generate
import TreePatch.Proofs.Patching

/-!
# Deletions and updates

The first stages of patching, which empty the places of what goes and exchange what is updated. They
cannot fail, and they leave under each counterpart of a kept node what stood there before, less the nodes
that are gone and with copies in place of the updated ones.
-/

namespace TreePatch

/-- What stands in the place of a child of a counterpart: the copy that replaced it, or itself. -/
def substitute (updates copies : List (NodeId × NodeId)) (c : NodeId) : NodeId :=
  (((updates.find? (·.1 == c)).map (·.2)).bind fun x => copies.lookup x).getD c

section

variable {updates copies : List (NodeId × NodeId)} {c x : NodeId}

theorem substitute_of_notMem (h : ∀ x, (c, x) ∉ updates) : substitute updates copies c = c := by
  rw [substitute, find_fst_eq_none_iff.mpr fun q hq heq => h q.2 (heq ▸ hq)]
  rfl

theorem substitute_of_mem (hone : OneToOne updates) (h : (c, x) ∈ updates) :
    substitute updates copies c = (copies.lookup x).getD c := by
  rw [substitute, hone.find_fst_eq_some_iff.mpr h]
  rfl

theorem substitute_cases (updates copies : List (NodeId × NodeId)) (c : NodeId) :
    substitute updates copies c = c ∨ ∃ x, (c, x) ∈ updates ∧
      copies.lookup x = some (substitute updates copies c) := by
  rw [substitute]
  cases hx : (updates.find? (·.1 == c)).map (·.2) with
  | none => exact Or.inl rfl
  | some x =>
    cases hc : copies.lookup x with
    | none => exact Or.inl (by simp [hc])
    | some c' => exact Or.inr ⟨x, mem_of_find_fst hx, by simp [hc]⟩

end

theorem Tree.nameNode?_eq_none_iff {t : Tree} {n : NodeId} :
    t.nameNode? n = none ↔ ∀ c ∈ t.children n, t.role c ≠ .slot .name := by
  rw [nameNode?, List.head?_eq_none_iff, childrenWithRole, List.filter_eq_nil_iff]
  simp

theorem Tree.simpleName?_eq_none_iff {t : Tree} {n : NodeId} :
    t.simpleName? n = none ↔ ∀ c ∈ t.children n, t.role c ≠ .slot .name := by
  rw [simpleName?, Option.map_eq_none_iff, nameNode?_eq_none_iff]

theorem Tree.Linked.isAttached_mono {t t' : Tree} (L : t.Linked) (L' : t'.Linked)
    (hparent : ∀ {n p}, t.parent? n = some p → t'.parent? n = some p) {n : NodeId}
    (h : t.isAttached n = true) : t'.isAttached n = true :=
  L.induction_attached (P := fun n => t'.isAttached n = true) isAttached_root
    (fun _ _ hp _ hatt => (L'.isAttached_of_parent (hparent hp)).mpr hatt) h

theorem Reconciled.notMem_above_kept {src dst : Tree} {stay : NodeId → Option NodeId}
    {deletes : List NodeId} {updates : List (NodeId × NodeId)}
    {placed : List (NodeId × Option NodeId)} (R : Reconciled src dst stay deletes updates placed)
    (L : src.Linked) (D : dst.Linked) {x q p : NodeId} (hx : stay x = none)
    (hqp : stay q = some p) : x ∉ q :: dst.ancestors q := by
  intro hmem
  have hkept : ∃ a, stay x = some a := by
    rcases List.mem_cons.mp hmem with rfl | hmem
    · exact ⟨p, hqp⟩
    · exact (R.ancestors_kept L D hqp).2.2.2 x hmem
  obtain ⟨a, ha⟩ := hkept
  rw [hx] at ha
  simp at ha

/-- The workpiece after the nodes of `gone` are removed and the updates of `done` are made. -/
structure Cleared (src dst : Tree) (stay : NodeId → Option NodeId)
    (updates : List (NodeId × NodeId)) (renamed : NodeId → String → Prop) (gone : List NodeId)
    (done : List (NodeId × NodeId)) (t : Tree) (copies : List (NodeId × NodeId)) : Prop where
  sound : Sound src dst renamed t copies
  inSync : t.InSync
  kept_free : ∀ {q p}, stay q = some p → copies.lookup q = none
  replaced : ∀ {c x}, (c, x) ∈ done → (copies.lookup x).isSome = true
  fresh : ∀ {q p x}, stay q = some p → dst.parent? x = some q →
    (copies.lookup x).isSome = true → x ∈ done.map (·.2)
  children : ∀ {q p}, stay q = some p → t.children p =
    ((src.children p).filter fun c => decide (c ∉ gone)).map (substitute updates copies)
  unkept : ∀ {c c'}, (∀ q, stay q ≠ some c) → c < src.size → c' ∈ t.children c → c' < src.size

namespace Cleared

variable {src dst t t' : Tree} {stay : NodeId → Option NodeId} {deletes gone : List NodeId}
  {updates done copies : List (NodeId × NodeId)} {placed : List (NodeId × Option NodeId)}
  {renamed : NodeId → String → Prop}

theorem start (A : src.Regular) : Cleared src dst stay updates renamed [] [] src [] where
  sound := .start A.linked
  inSync := A.inSync
  kept_free _ := rfl
  replaced h := by simp at h
  fresh _ _ h := by simp at h
  children {q p} _ := by
    have hself : ∀ c, substitute updates [] c = c := fun c => by
      rcases substitute_cases updates [] c with h | ⟨x, -, h⟩
      · exact h
      · simp at h
    simp [funext (g := id) hself]
  unkept _ _ h := src.lt_size_of_parent (A.linked.mem_children.mp h)

section

variable (R : Reconciled src dst stay deletes updates placed)
  (hgone : gone ⊆ goneNodes deletes placed)

include R hgone

theorem mem_children (h : Cleared src dst stay updates renamed gone done t copies) (L : src.Linked)
    {q p c : NodeId} (hqp : stay q = some p) (hc : src.parent? c = some p)
    (hstay : (∃ x, stay x = some c) ∨ ∃ x, (c, x) ∈ updates) :
    substitute updates copies c ∈ t.children p := by
  rw [h.children hqp]
  refine List.mem_map.mpr ⟨c, List.mem_filter.mpr ⟨L.mem_children.mpr hc, ?_⟩, rfl⟩
  refine decide_eq_true fun hmem => ?_
  obtain ⟨-, -, -, hkept, hupdated⟩ := R.gone (hgone hmem)
  rcases hstay with ⟨x, hx⟩ | ⟨x, hx⟩
  · exact hkept x hx
  · exact hupdated x hx

theorem isAttached (h : Cleared src dst stay updates renamed gone done t copies) (L : src.Linked)
    (D : dst.Linked) {q p : NodeId} (hqp : stay q = some p) : t.isAttached p = true := by
  induction q using D.forest.induction_up generalizing p with
  | step q ih =>
    by_cases hroot : q = Tree.root
    · subst hroot
      obtain rfl := Option.some.inj (R.root.symm.trans hqp)
      exact Tree.Linked.isAttached_root
    · obtain ⟨q', p', hq, hp, hstay⟩ := R.parent hqp hroot
      have hmem := h.mem_children R hgone L hstay hp (Or.inl ⟨q, hqp⟩)
      rw [substitute_of_notMem fun x hx => (R.update_fresh hx).2.1 q hqp] at hmem
      exact (h.sound.linked.isAttached_of_parent (h.sound.linked.mem_children.mp hmem)).mpr
        (ih q' hq hstay)

end

theorem lt_size_of_stay (R : Reconciled src dst stay deletes updates placed) (L : src.Linked)
    (D : dst.Linked) {q p : NodeId} (hqp : stay q = some p) : p < src.size :=
  L.lt_size_of_isAttached (R.ancestors_kept L D hqp).1

theorem delete (R : Reconciled src dst stay deletes updates placed) (L : src.Linked) (D : dst.Linked)
    (hgone : gone ⊆ goneNodes deletes placed) {c : NodeId} (hc : c ∈ goneNodes deletes placed)
    {w : Workpiece} (h : Cleared src dst stay updates renamed gone done w.tree w.copies) :
    Patching.Succeeds (Patching.delete c) w fun _ w' =>
      Cleared src dst stay updates renamed (gone ++ [c]) done w'.tree w'.copies := by
  obtain ⟨hroot, hattached, -, -, hupdated⟩ := R.gone hc
  have hlt : c < src.size := L.lt_size_of_isAttached hattached
  -- what stands under a counterpart now, with `c` taken out
  have hfilter : ∀ {q p}, stay q = some p → (w.tree.children p).filter (· != c) =
      ((src.children p).filter fun m => decide (m ∉ gone ++ [c])).map
        (substitute updates w.copies) := by
    intro q p hqp
    rw [h.children hqp, List.filter_map, List.filter_filter]
    congr 1
    refine List.filter_congr fun m hm => ?_
    have hsub : substitute updates w.copies m = c ↔ m = c := by
      rcases substitute_cases updates w.copies m with heq | ⟨x, hx, hcopy⟩
      · rw [heq]
      · refine iff_of_false (fun heq => ?_) fun heq => hupdated x (heq ▸ hx)
        rw [heq] at hcopy
        exact absurd hlt (Nat.not_lt.mpr (h.sound.copy_bounds hcopy).1)
    rw [Bool.eq_iff_iff]
    simp [hsub, and_comm]
  by_cases hatt : w.tree.isAttached c = true
  · obtain ⟨p, hp, -⟩ := h.sound.linked.exists_parent_of_isAttached hatt hroot
    obtain ⟨t', ht', hu⟩ := Tree.detach_ok h.sound.linked hp
    have hplt : p < src.size := L.parent_lt (h.sound.parent_of_old hlt hp)
    refine ⟨(), { w with tree := t' }, ?_, ?_⟩
    · rw [Patching.delete_run, if_pos hatt, Patching.edit, ht']
    · exact
        { sound := h.sound.unlinked hp hplt hu
          inSync := h.inSync.unlinked hu
          kept_free := h.kept_free
          replaced := h.replaced
          fresh := h.fresh
          children := fun hqp => (hu.children _).trans (hfilter hqp)
          unkept := fun hkept hn hmem => by
            rw [hu.children] at hmem
            exact h.unkept hkept hn (List.mem_of_mem_filter hmem) }
  · refine ⟨(), w, ?_, ?_⟩
    · rw [Patching.delete_run, if_neg hatt]
    · refine { h with children := fun {q p} hqp => ?_ }
      rw [← hfilter hqp]
      refine (List.filter_eq_self.mpr fun m hm => ?_).symm
      have hne : m ≠ c := by
        rintro rfl
        exact hatt ((h.sound.linked.isAttached_of_parent (h.sound.linked.mem_children.mp hm)).mpr
          (h.isAttached R hgone L D hqp))
      simpa using hne

section

variable (R : Reconciled src dst stay deletes updates placed) (L : src.Linked) (D : dst.Linked)

include R L D

theorem in_place (hgone : gone ⊆ goneNodes deletes placed) (hdone : done ⊆ updates) {c x p : NodeId}
    (hc : (c, x) ∈ updates) (hnew : (c, x) ∉ done) (hp : src.parent? c = some p)
    (h : Cleared src dst stay updates renamed gone done t copies) :
    copies.lookup x = none ∧ t.parent? c = some p ∧ t.isAttached p = true := by
  obtain ⟨q, p', hqp, hp', hq, -⟩ := R.update hc
  obtain rfl := Option.some.inj (hp.symm.trans hp')
  have hnone : copies.lookup x = none := by
    by_contra hsome
    obtain ⟨⟨c', x'⟩, hmem, rfl⟩ := List.mem_map.mp
      (h.fresh hqp hq (Option.isSome_iff_ne_none.mpr hsome))
    exact hnew (R.updates_oneToOne.eq_of_snd (hdone hmem) hc rfl ▸ hmem)
  have hmem := h.mem_children R hgone L hqp hp (Or.inr ⟨x, hc⟩)
  rw [substitute_of_mem R.updates_oneToOne hc, hnone, Option.getD_none] at hmem
  exact ⟨hnone, h.sound.linked.mem_children.mp hmem, h.isAttached R hgone L D hqp⟩

theorem lookup_grafted {x : NodeId} (hx : stay x = none) {g : Tree.Graft}
    (G : Tree.Grafted t dst x g) {q p y : NodeId} (hqp : stay q = some p)
    (hy : y = q ∨ dst.parent? y = some q ∧ y ≠ x) : g.copies.lookup y = none := by
  by_contra hsome
  have hin := (G.lookup_isSome y).mp (Option.isSome_iff_ne_none.mpr hsome)
  refine R.notMem_above_kept L D hx hqp ?_
  rcases hy with rfl | ⟨hparent, hne⟩
  · exact List.mem_cons.mpr (hin.imp_left Eq.symm)
  · rw [D.ancestors_of_some hparent] at hin
    exact hin.resolve_left hne

omit L D in
theorem exists_name (h : Cleared src dst stay updates renamed gone done t copies) {c x : NodeId}
    (hc : (c, x) ∈ updates) {g : Tree.Graft} (G : Tree.Grafted t dst x g)
    (S : Sound src dst renamed g.tree (g.copies ++ copies)) {name : String}
    (hname : g.tree.simpleName? c = some name) :
    ∃ m, src.parent? m = some c ∧ src.role m = .slot .name ∧ src.label m = name := by
  obtain ⟨q, p, -, hp, -⟩ := R.update hc
  have hlt : c < src.size := src.lt_size_of_parent hp
  obtain ⟨m, hm, rfl⟩ := Option.map_eq_some_iff.mp hname
  obtain ⟨hm, hrole⟩ := List.mem_filter.mp (List.mem_of_mem_head? hm)
  have hchildren : g.tree.children c = t.children c :=
    congrArg Node.children (G.node_old _ (Nat.lt_of_lt_of_le hlt h.sound.size_le))
  rw [hchildren] at hm
  have hmlt := h.unkept (R.update_fresh hc).2.1 hlt hm
  have hcontent := S.content m hmlt
  refine ⟨m, h.sound.parent_of_old hmlt (h.sound.linked.mem_children.mp hm), ?_,
    (Tree.label_of_content hcontent).symm⟩
  rw [← Tree.role_of_content hcontent]
  exact beq_iff_eq.mp hrole

theorem substitute_grafted {c x : NodeId} (hc : (c, x) ∈ updates) {g : Tree.Graft}
    (G : Tree.Grafted t dst x g) (m : NodeId) :
    substitute updates (g.copies ++ copies) m =
      if m = c then g.copy else substitute updates copies m := by
  by_cases hmc : m = c
  · subst hmc
    rw [if_pos rfl, substitute_of_mem R.updates_oneToOne hc, List.lookup_append, G.lookup_top]
    rfl
  · rw [if_neg hmc]
    by_cases hupd : ∃ y, (m, y) ∈ updates
    · obtain ⟨y, hy⟩ := hupd
      obtain ⟨q, p, hqp, -, hq, -⟩ := R.update hy
      have hne : y ≠ x := by
        rintro rfl
        exact hmc (congrArg Prod.fst (R.updates_oneToOne.eq_of_snd hy hc rfl))
      rw [substitute_of_mem R.updates_oneToOne hy, substitute_of_mem R.updates_oneToOne hy,
        List.lookup_append, lookup_grafted R L D (R.update_fresh hc).1 G hqp (Or.inr ⟨hq, hne⟩),
        Option.none_or]
    · rw [substitute_of_notMem fun y hy => hupd ⟨y, hy⟩,
        substitute_of_notMem fun y hy => hupd ⟨y, hy⟩]

theorem children_exchanged (h : Cleared src dst stay updates renamed gone done t copies)
    {c x p₀ : NodeId} (hc : (c, x) ∈ updates) (hp₀ : src.parent? c = some p₀)
    (hnone : copies.lookup x = none)
    {g : Tree.Graft} (G : Tree.Grafted t dst x g) {t₁ : Tree}
    (hchildren : ∀ {n}, n < t.size → t₁.children n = t.children n)
    (he : Tree.Exchanged t₁ p₀ c g.copy t') {q p : NodeId} (hqp : stay q = some p) :
    t'.children p = ((src.children p).filter fun m => decide (m ∉ gone)).map
      (substitute updates (g.copies ++ copies)) := by
  have hlt : c < src.size := src.lt_size_of_parent hp₀
  have hself : ∀ m, substitute updates copies m = c ↔ m = c := by
    intro m
    rcases substitute_cases updates copies m with heq | ⟨y, hy, hcopy⟩
    · rw [heq]
    · refine iff_of_false (fun heq => ?_) ?_
      · exact absurd hlt (Nat.not_lt.mpr (heq ▸ (h.sound.copy_bounds hcopy).1))
      · rintro rfl
        obtain rfl := congrArg Prod.snd (R.updates_oneToOne.eq_of_fst hy hc rfl)
        simp [hnone] at hcopy
  rw [he.children, hchildren (Nat.lt_of_lt_of_le (lt_size_of_stay R L D hqp) h.sound.size_le),
    hchildren (Nat.lt_of_lt_of_le (L.parent_lt hp₀) h.sound.size_le)]
  split
  · next hp =>
    rw [← hp, h.children hqp, List.map_map]
    refine List.map_congr_left fun m _ => ?_
    rw [substitute_grafted R L D hc G, Function.comp_apply]
    by_cases hmc : m = c
    · rw [if_pos ((hself m).mpr hmc), if_pos hmc]
    · rw [if_neg (mt (hself m).mp hmc), if_neg hmc]
  · next hp =>
    rw [h.children hqp]
    refine List.map_congr_left fun m hm => ?_
    rw [substitute_grafted R L D hc G, if_neg]
    rintro rfl
    have hm := L.mem_children.mp (List.mem_of_mem_filter hm)
    exact hp (Option.some.inj (hm.symm.trans hp₀))

theorem update (hgone : gone ⊆ goneNodes deletes placed) (hdone : done ⊆ updates)
    (hrenamed : ∀ {c x m z}, (c, x) ∈ updates → Source.isTypeDeclaration (src.kind c) = true →
      src.parent? m = some c → src.role m = .slot .name → dst.nameNode? x = some z →
        renamed z (src.label m))
    {c x : NodeId} (hc : (c, x) ∈ updates) (hnew : (c, x) ∉ done) {w : Workpiece}
    (h : Cleared src dst stay updates renamed gone done w.tree w.copies) :
    Patching.Succeeds (Patching.update dst c x) w fun _ w' =>
      Cleared src dst stay updates renamed gone (done ++ [(c, x)]) w'.tree w'.copies := by
  obtain ⟨q, p, hqp, hp, hq, -, -, hrole, -⟩ := R.update hc
  have hunkept := (R.update_fresh hc).1
  obtain ⟨hnone, hcp, hpatt⟩ := h.in_place R L D hgone hdone hc hnew hp
  have hlt : c < src.size := src.lt_size_of_parent hp
  have hlt' : c < w.tree.size := w.tree.lt_size_of_parent hcp
  have hcatt := (h.sound.linked.isAttached_of_parent hcp).mpr hpatt
  rw [Patching.Succeeds, Patching.update_run, if_pos hcatt]
  have G : Tree.Grafted w.tree dst x (w.tree.graft dst x) := Tree.grafted D
  have hlinked : (w.tree.graft dst x).tree.Linked := Tree.linked_graft h.sound.linked x
  generalize w.tree.graft dst x = g at G hlinked
  have hcopy : (g.copies ++ w.copies).lookup x = some g.copy := by
    rw [List.lookup_append, G.lookup_top, Option.some_or]
  have hgrafted : Sound src dst renamed g.tree (g.copies ++ w.copies) :=
    h.sound.grafted D G hlinked fun q' hq' => by
      obtain rfl := Option.some.inj (hq.symm.trans hq')
      exact h.kept_free hqp
  have S : Sound src dst renamed (Patching.keepName c g.copy g.tree) (g.copies ++ w.copies) := by
    refine hgrafted.keepName hcopy fun {z name} hkind hname hz => ?_
    rw [Tree.kind_of_content (hgrafted.content c hlt)] at hkind
    obtain ⟨m, hm, hrole, rfl⟩ := h.exists_name R hc G hgrafted hname
    exact hrenamed hc hkind hm hrole hz
  have hsync := (h.inSync.grafted h.sound.linked G).keepName c g.copy
  -- links of the nodes that were there before
  have hparent : ∀ {n}, n < w.tree.size →
      (Patching.keepName c g.copy g.tree).parent? n = w.tree.parent? n := fun {n} hn =>
    (Patching.parent?_keepName _ _ _ n).trans (congrArg Node.parent (G.node_old n hn))
  have hchildren : ∀ {n}, n < w.tree.size →
      (Patching.keepName c g.copy g.tree).children n = w.tree.children n := fun {n} hn =>
    (Patching.children_keepName _ _ _ n).trans (congrArg Node.children (G.node_old n hn))
  have htop : (Patching.keepName c g.copy g.tree).parent? g.copy = none :=
    (Patching.parent?_keepName _ _ _ _).trans G.top
  generalize Patching.keepName c g.copy g.tree = t₁ at S hsync hparent hchildren htop
  have hcp₁ : t₁.parent? c = some p := (hparent hlt').trans hcp
  have hpatt₁ : t₁.isAttached p = true := h.sound.linked.isAttached_mono S.linked
    (fun hnp => (hparent (w.tree.lt_size_of_parent hnp)).trans hnp) hpatt
  have hrole₁ : t₁.role c = t₁.role g.copy := by
    rw [Tree.role_of_content (S.content c hlt), S.copy_role hcopy]
    exact hrole
  obtain ⟨t', ht', he⟩ := Tree.replace_ok S.linked hcp₁ (S.copy_bounds hcopy).2 htop
  refine ⟨(), { w with tree := t', copies := g.copies ++ w.copies }, by rw [Patching.edit, ht'], ?_⟩
  have houtside : ∀ {y q' p'}, stay q' = some p' → (y = q' ∨ dst.parent? y = some q' ∧ y ≠ x) →
      (g.copies ++ w.copies).lookup y = w.copies.lookup y := fun hstay hy => by
    rw [List.lookup_append, lookup_grafted R L D hunkept G hstay hy, Option.none_or]
  refine
    { sound := S.exchanged (lt_size_of_stay R L D hqp) hcp₁ (S.copy_bounds hcopy).1 htop hpatt₁
        hrole₁ he
      inSync := hsync.exchanged S.linked hcp₁ htop he
      kept_free := fun hstay => (houtside hstay (Or.inl rfl)).trans (h.kept_free hstay)
      replaced := fun {c' x'} hmem => ?_
      fresh := fun {q' p' x'} hstay hx' hsome => ?_
      children := fun hstay => h.children_exchanged R L D hc hp hnone G hchildren he hstay
      unkept := fun {m m'} hkept hm hmem => ?_ }
  · rcases List.mem_append.mp hmem with hmem | hmem
    · rw [List.lookup_append, Option.isSome_or, h.replaced hmem, Bool.or_true]
    · obtain ⟨rfl, rfl⟩ : c' = c ∧ x' = x := by simpa using hmem
      rw [hcopy]
      rfl
  · rw [List.map_append]
    by_cases hne : x' = x
    · simp [hne]
    · exact List.mem_append_left _
        (h.fresh hstay hx' (houtside hstay (Or.inr ⟨hx', hne⟩) ▸ hsome))
  · have hmp : m ≠ p := by
      rintro rfl
      exact hkept q hqp
    rw [he.children, if_neg hmp, hchildren (Nat.lt_of_lt_of_le hm h.sound.size_le)] at hmem
    exact h.unkept hkept hm hmem

end

end Cleared

end TreePatch
