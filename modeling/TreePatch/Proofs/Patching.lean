import TreePatch.Patch.Apply
import TreePatch.Proofs.Edit
import TreePatch.Proofs.Graft
import TreePatch.Proofs.Path

/-!
# Steps of patching

What a single step of patching does to a workpiece, whatever the patches are. A step is described by
`Patching.Succeeds`: it ends without an error, in a workpiece that satisfies a condition. All steps keep
`Sound`: the tree stays linked, the nodes of the source keep their contents, and the copies on record are
faithful to the destination, children and all. Only the label of a copy may differ from the original,
and only where a declaration kept its name.
-/

namespace TreePatch

namespace Patching

/-- The step ends well, and `Q` holds of its result and the workpiece it leaves. -/
def Succeeds {α : Type} (x : Patching α) (w : Workpiece) (Q : α → Workpiece → Prop) : Prop :=
  ∃ a w', x w = .ok a w' ∧ Q a w'

section

variable {α β : Type} {w : Workpiece}

theorem bind_of_ok {x : Patching α} {f : α → Patching β} {a : α} {w' : Workpiece}
    (h : x w = .ok a w') : (x >>= f) w = f a w' := by
  change EStateM.bind x f w = _
  rw [EStateM.bind, h]

theorem bind_of_error {x : Patching α} {f : α → Patching β} {e : PatchError} {w' : Workpiece}
    (h : x w = .error e w') : (x >>= f) w = .error e w' := by
  change EStateM.bind x f w = _
  rw [EStateM.bind, h]

theorem get_bind (f : Workpiece → Patching α) : (get >>= f) w = f w w := rfl

theorem copyOf_bind (n : NodeId) (f : Option NodeId → Patching α) :
    (copyOf? n >>= f) w = f (w.copies.lookup n) w := rfl

theorem Succeeds.bind {x : Patching α} {f : α → Patching β} {Q : β → Workpiece → Prop}
    (h : Succeeds x w fun a w' => Succeeds (f a) w' Q) : Succeeds (x >>= f) w Q := by
  obtain ⟨a, w', hx, b, w'', hf, hQ⟩ := h
  exact ⟨b, w'', (bind_of_ok hx).trans hf, hQ⟩

theorem Succeeds.mono {x : Patching α} {P Q : α → Workpiece → Prop} (h : Succeeds x w P)
    (hPQ : ∀ a w', P a w' → Q a w') : Succeeds x w Q := by
  obtain ⟨a, w', hx, hP⟩ := h
  exact ⟨a, w', hx, hPQ a w' hP⟩

theorem Succeeds.of_eq {x y : Patching α} {w' : Workpiece} {Q : α → Workpiece → Prop}
    (h : Succeeds y w' Q) (heq : x w = y w') : Succeeds x w Q := by
  rw [Succeeds, heq]
  exact h

/-- A loop over `l` ends well if each round does and keeps an invariant of the members of `bs`, which
stand in parallel to those of `l`. -/
theorem Succeeds.forM₂ {P : β → α → Prop} {bs : List β} {l : List α} {f : α → Patching Unit}
    {I : List β → Workpiece → Prop} (hzip : List.Forall₂ P bs l)
    (step : ∀ {done b rest a w}, bs = done ++ b :: rest → P b a → I done w →
      Succeeds (f a) w fun _ w' => I (done ++ [b]) w') (h : I [] w) :
    Succeeds (l.forM f) w fun _ w' => I bs w' := by
  suffices run : ∀ {todo rest}, List.Forall₂ P todo rest → ∀ done w, bs = done ++ todo → I done w →
      Succeeds (rest.forM f) w fun _ w' => I bs w' from run hzip [] w rfl h
  intro todo rest htodo
  induction htodo with
  | nil =>
    intro done w hbs hI
    exact ⟨(), w, rfl, by rw [hbs, List.append_nil]; exact hI⟩
  | @cons b a todo rest hba _ ih =>
    intro done w hbs hI
    change Succeeds (f a >>= fun _ => rest.forM f) w _
    refine Succeeds.bind ((step hbs hba hI).mono fun _ w' hI' => ?_)
    exact ih (done ++ [b]) w' (by simp [hbs]) hI'

/-- A loop ends well if each round does and keeps an invariant of the members done. -/
theorem Succeeds.forM {l : List α} {f : α → Patching Unit} {I : List α → Workpiece → Prop}
    (step : ∀ {done a rest w}, l = done ++ a :: rest → I done w →
      Succeeds (f a) w fun _ w' => I (done ++ [a]) w') (h : I [] w) :
    Succeeds (l.forM f) w fun _ w' => I l w' :=
  forM₂ (P := Eq) (List.forall₂_refl l) (fun hl heq hI => heq ▸ step hl hI) h

theorem succeeds_edit {f : Tree → Except TreeError Tree} {t : Tree} {Q : Unit → Workpiece → Prop}
    (h : f w.tree = .ok t) (hQ : Q () { w with tree := t }) : Succeeds (edit f) w Q :=
  ⟨(), { w with tree := t }, by rw [edit, h], hQ⟩

theorem succeeds_enter {s : Stage} {Q : Unit → Workpiece → Prop}
    (hQ : Q () { w with stages := w.stages ++ [s] }) : Succeeds (enter s) w Q :=
  ⟨(), _, rfl, hQ⟩

end

/-! ## What the steps run -/

section

variable (w : Workpiece) (dst : Tree)

theorem delete_run (n : NodeId) :
    delete n w = if w.tree.isAttached n then edit (·.detach n) w else .ok () w := by
  rw [delete, get_bind]
  split <;> rfl

theorem update_run (old new : NodeId) :
    update dst old new w =
      if w.tree.isAttached old then
        edit (·.replace old (w.tree.graft dst new).copy)
          { w with
            tree := keepName old (w.tree.graft dst new).copy (w.tree.graft dst new).tree
            copies := (w.tree.graft dst new).copies ++ w.copies }
      else .ok () w := by
  rw [update, get_bind]
  split <;> rfl

theorem linkThrown_run (parent n : NodeId) :
    linkThrown dst parent n w =
      match (w.copies.lookup n).filter fun c => !w.tree.isAttached c with
      | some copy => edit (·.appendChild parent copy) w
      | none =>
        edit (·.appendChild parent (w.tree.graft dst n).copy)
          { w with
            tree := (w.tree.graft dst n).tree
            copies := (w.tree.graft dst n).copies ++ w.copies } := by
  rw [linkThrown, copyOf_bind, get_bind]
  cases (w.copies.lookup n).filter fun c => !w.tree.isAttached c <;> rfl

variable {w} {pl : Placement}

theorem linkAtAnchor_run {anchor : Option NodeId} (h : anchorOf pl w = .ok anchor w)
    (parent n : NodeId) :
    linkAtAnchor pl parent n w =
      match positionBehind w.tree parent anchor with
      | .ok position => edit (·.insertChild parent position n) w
      | .error e => .error e w := by
  rw [linkAtAnchor, bind_of_ok h, get_bind]
  cases positionBehind w.tree parent anchor <;> rfl

theorem linkAtIndex_run {index : Nat} (h : pl.insertion.index = some index) (parent n : NodeId) :
    linkAtIndex pl parent n w =
      match positionInCollection? w.tree parent pl.insertion.role index with
      | some position => edit (·.insertChild parent position n) w
      | none => linkAtAnchor pl parent n w := by
  simp only [linkAtIndex, h, get_bind]
  cases positionInCollection? w.tree parent pl.insertion.role index <;> rfl

end

/-! ## Kept names -/

section

variable (old new : NodeId) (t : Tree)

theorem keepName_cases :
    keepName old new t = t ∨ Source.isTypeDeclaration (t.kind old) = true ∧
      ∃ name target, t.simpleName? old = some name ∧ t.nameNode? new = some target ∧
        keepName old new t = t.setLabel target name := by
  rw [keepName]
  split
  · next hkind =>
    split
    · next name target hname htarget => exact Or.inr ⟨hkind, name, target, hname, htarget, rfl⟩
    · exact Or.inl rfl
  · exact Or.inl rfl

theorem size_keepName : (keepName old new t).size = t.size := by
  rcases keepName_cases old new t with heq | ⟨-, name, target, -, -, heq⟩ <;> rw [heq]
  exact Tree.size_modify _ _ _

theorem units_keepName : (keepName old new t).units = t.units := by
  rcases keepName_cases old new t with heq | ⟨-, name, target, -, -, heq⟩ <;> rw [heq]
  rfl

theorem node_keepName (n : NodeId) :
    (keepName old new t).node n = { t.node n with label := (keepName old new t).label n } := by
  rcases keepName_cases old new t with heq | ⟨-, name, target, -, -, heq⟩
  · rw [heq]
    rfl
  · rw [heq, Tree.label, Tree.setLabel, Tree.node_modify]
    split <;> rfl

theorem parent?_keepName (n : NodeId) : (keepName old new t).parent? n = t.parent? n :=
  (congrArg Node.parent (node_keepName old new t n) :)

theorem children_keepName (n : NodeId) : (keepName old new t).children n = t.children n :=
  (congrArg Node.children (node_keepName old new t n) :)

theorem role_keepName (n : NodeId) : (keepName old new t).role n = t.role n :=
  (congrArg (·.toContent.role) (node_keepName old new t n) :)

theorem linked_keepName (L : t.Linked) : (keepName old new t).Linked :=
  L.of_same_links (Nat.le_of_eq (size_keepName old new t).symm) (parent?_keepName old new t)
    (children_keepName old new t)

theorem node_keepName_of_notMem {n : NodeId} (h : n ∉ t.children new) :
    (keepName old new t).node n = t.node n := by
  rcases keepName_cases old new t with heq | ⟨-, name, target, -, htarget, heq⟩
  · rw [heq]
  · have hmem := List.mem_of_mem_filter (List.mem_of_mem_head? htarget)
    rw [heq, Tree.setLabel, Tree.node_modify, if_neg]
    rintro ⟨rfl, -⟩
    exact h hmem

end

end Patching

/-! ## Faithful copies -/

theorem Tree.label_setLabel {t : Tree} {n : NodeId} (hn : n < t.size) (id : NodeId) (label : String) :
    (t.setLabel id label).label n = if n = id then label else t.label n := by
  rw [Tree.label, setLabel, node_modify]
  by_cases h : n = id
  · rw [if_pos ⟨h, h ▸ hn⟩, if_pos h]
  · rw [if_neg fun hand => h hand.1, if_neg h]
    rfl

theorem map_filter_of_map_eq {f : NodeId → Option NodeId} {p q : NodeId → Bool} :
    ∀ {ds cs : List NodeId}, ds.map f = cs.map some → (∀ z ∈ ds, ∀ c, f z = some c → p z = q c) →
      (ds.filter p).map f = (cs.filter q).map some
  | [], [], _, _ => rfl
  | z :: ds, c :: cs, h, hpq => by
    obtain ⟨hz, htail⟩ := List.cons_eq_cons.mp h
    have ih := map_filter_of_map_eq htail fun z' hz' => hpq z' (List.mem_cons_of_mem _ hz')
    rw [List.filter_cons, List.filter_cons, hpq z List.mem_cons_self c hz]
    split
    · rw [List.map_cons, List.map_cons, hz, ih]
    · exact ih

/-- The tree `t` grows out of `src` by unlinking and linking nodes and by copying subtrees of `dst`, as
recorded in `copies`. A copy may have got another label, if it is `renamed` so. -/
structure Sound (src dst : Tree) (renamed : NodeId → String → Prop) (t : Tree)
    (copies : List (NodeId × NodeId)) : Prop where
  linked : t.Linked
  size_le : src.size ≤ t.size
  content : ∀ n < src.size, t.content n = src.content n
  /-- A node of the source is linked as it was, or not at all. -/
  parent_of_old : ∀ {n p}, n < src.size → t.parent? n = some p → src.parent? n = some p
  copy_bounds : ∀ {y c}, copies.lookup y = some c → src.size ≤ c ∧ c < t.size
  copy_injective : ∀ {y y' c}, copies.lookup y = some c → copies.lookup y' = some c → y = y'
  copy_children : ∀ {y c}, copies.lookup y = some c →
    ((dst.children y).map fun z => copies.lookup z) = (t.children c).map some
  copy_content : ∀ {y c}, copies.lookup y = some c →
    t.content c = { dst.content y with label := t.label c }
  copy_label : ∀ {y c}, copies.lookup y = some c → t.label c = dst.label y ∨ renamed y (t.label c)

namespace Sound

variable {src dst t t' : Tree} {renamed : NodeId → String → Prop} {copies : List (NodeId × NodeId)}

theorem start (L : src.Linked) : Sound src dst renamed src [] where
  linked := L
  size_le := Nat.le_refl _
  content _ _ := rfl
  parent_of_old _ h := h
  copy_bounds h := by simp at h
  copy_injective h := by simp at h
  copy_children h := by simp at h
  copy_content h := by simp at h
  copy_label h := by simp at h

theorem copy_role (h : Sound src dst renamed t copies) {y c : NodeId} (hc : copies.lookup y = some c) :
    t.role c = dst.role y :=
  (congrArg Content.role (h.copy_content hc) :)

theorem copy_kind (h : Sound src dst renamed t copies) {y c : NodeId} (hc : copies.lookup y = some c) :
    t.kind c = dst.kind y :=
  (congrArg Content.kind (h.copy_content hc) :)

theorem exists_copy_child (h : Sound src dst renamed t copies) {y z c : NodeId}
    (hc : copies.lookup y = some c) (hz : z ∈ dst.children y) :
    ∃ c' ∈ t.children c, copies.lookup z = some c' := by
  have hmem : copies.lookup z ∈ (t.children c).map some := by
    rw [← h.copy_children hc]
    exact List.mem_map.mpr ⟨z, hz, rfl⟩
  obtain ⟨c', hc', heq⟩ := List.mem_map.mp hmem
  exact ⟨c', hc', heq.symm⟩

theorem exists_original_child (h : Sound src dst renamed t copies) {y c c' : NodeId}
    (hc : copies.lookup y = some c) (hc' : c' ∈ t.children c) :
    ∃ z ∈ dst.children y, copies.lookup z = some c' := by
  have hmem : some c' ∈ (dst.children y).map fun z => copies.lookup z := by
    rw [h.copy_children hc]
    exact List.mem_map.mpr ⟨c', hc', rfl⟩
  obtain ⟨z, hz, heq⟩ := List.mem_map.mp hmem
  exact ⟨z, hz, heq⟩

theorem of_frame (h : Sound src dst renamed t copies) (L : t'.Linked) (hsize : t'.size = t.size)
    (hcontent : ∀ n, t'.content n = t.content n)
    (hparent : ∀ {n p}, n < src.size → t'.parent? n = some p → t.parent? n = some p)
    (hchildren : ∀ n, src.size ≤ n → t'.children n = t.children n) : Sound src dst renamed t' copies where
  linked := L
  size_le := hsize ▸ h.size_le
  content n hn := (hcontent n).trans (h.content n hn)
  parent_of_old hn hp := h.parent_of_old hn (hparent hn hp)
  copy_bounds hc := hsize ▸ h.copy_bounds hc
  copy_injective := h.copy_injective
  copy_children {y c} hc := by rw [hchildren c (h.copy_bounds hc).1, h.copy_children hc]
  copy_content {y c} hc := by
    rw [hcontent, Tree.label_of_content (hcontent c)]
    exact h.copy_content hc
  copy_label {y c} hc := by
    rw [Tree.label_of_content (hcontent c)]
    exact h.copy_label hc

theorem unlinked (h : Sound src dst renamed t copies) {n p : NodeId} (hp : t.parent? n = some p)
    (hlt : p < src.size) (hu : Tree.Unlinked t n t') : Sound src dst renamed t' copies := by
  refine h.of_frame (hu.linked h.linked) hu.size hu.content (fun {m p'} _ hp' => ?_) fun m hm => ?_
  · rw [hu.parent?] at hp'
    split at hp'
    · simp at hp'
    · exact hp'
  · rw [hu.children]
    refine List.filter_eq_self.mpr fun c hc => ?_
    have hne : c ≠ n := by
      rintro rfl
      rw [h.linked.mem_children, hp] at hc
      exact absurd (Option.some.inj hc ▸ hlt) (Nat.not_lt.mpr hm)
    simpa using hne

theorem linkedIn (h : Sound src dst renamed t copies) {n p : NodeId} {i : Nat} (hlt : p < src.size)
    (hnew : src.size ≤ n) (htop : t.parent? n = none) (hatt : t.isAttached p = true)
    (hl : Tree.LinkedIn t p i n t') : Sound src dst renamed t' copies := by
  have hroot : n ≠ Tree.root := Nat.ne_of_gt (Nat.lt_of_lt_of_le (Nat.zero_lt_of_lt hlt) hnew)
  refine h.of_frame (hl.linked h.linked htop hroot hatt) hl.size hl.content (fun {m p'} hm hp' => ?_)
    fun m hm => ?_
  · rw [hl.parent?, if_neg (Nat.ne_of_lt (Nat.lt_of_lt_of_le hm hnew))] at hp'
    exact hp'
  · rw [hl.children, if_neg fun heq : m = p => absurd (heq ▸ hlt) (Nat.not_lt.mpr hm)]

theorem exchanged (h : Sound src dst renamed t copies) {p old new : NodeId} (hlt : p < src.size)
    (hold : t.parent? old = some p) (hnew : src.size ≤ new) (htop : t.parent? new = none)
    (hatt : t.isAttached p = true) (hrole : t.role old = t.role new)
    (he : Tree.Exchanged t p old new t') : Sound src dst renamed t' copies := by
  have hroot : new ≠ Tree.root := Nat.ne_of_gt (Nat.lt_of_lt_of_le (Nat.zero_lt_of_lt hlt) hnew)
  refine h.of_frame (he.linked h.linked hold htop hroot hatt) he.size (fun m => ?_)
    (fun {m p'} hm hp' => ?_) fun m hm => ?_
  · rw [he.content]
    split
    · next heq =>
      rw [heq, hrole]
      rfl
    · rfl
  · rw [he.parent?, if_neg (c := m = new) (Nat.ne_of_lt (Nat.lt_of_lt_of_le hm hnew))] at hp'
    split at hp'
    · simp at hp'
    · exact hp'
  · rw [he.children, if_neg fun heq : m = p => absurd (heq ▸ hlt) (Nat.not_lt.mpr hm)]

theorem copy_childrenWithRole (h : Sound src dst renamed t copies) {y c : NodeId}
    (hc : copies.lookup y = some c) (R : Role) :
    ((dst.childrenWithRole y R).map fun z => copies.lookup z) = (t.childrenWithRole c R).map some :=
  map_filter_of_map_eq (h.copy_children hc) fun z _ d hd => by rw [h.copy_role hd]

theorem nameNode?_of_copy (h : Sound src dst renamed t copies) {y z c d : NodeId}
    (hc : copies.lookup y = some c) (hname : t.nameNode? c = some d) (hd : copies.lookup z = some d) :
    dst.nameNode? y = some z := by
  have hhead := congrArg List.head? (h.copy_childrenWithRole hc (.slot .name))
  rw [List.head?_map, List.head?_map] at hhead
  rw [Tree.nameNode?] at hname ⊢
  rw [hname, Option.map_some, Option.map_eq_some_iff] at hhead
  obtain ⟨z', hz', hd'⟩ := hhead
  rw [hz', h.copy_injective hd' hd]

theorem grafted (h : Sound src dst renamed t copies) (D : dst.Linked) {id : NodeId} {g : Tree.Graft}
    (G : Tree.Grafted t dst id g) (L : g.tree.Linked)
    (hfree : ∀ q, dst.parent? id = some q → copies.lookup q = none) :
    Sound src dst renamed g.tree (g.copies ++ copies) := by
  have hlookup : ∀ y, (g.copies ++ copies).lookup y =
      (g.copies.lookup y).or (copies.lookup y) := fun y => List.lookup_append
  -- a recorded copy is a new one, or an old one of a node outside of the subtree
  have hcases : ∀ {y c}, (g.copies ++ copies).lookup y = some c →
      g.copies.lookup y = some c ∨
        (g.copies.lookup y = none ∧ copies.lookup y = some c) := by
    intro y c hc
    rw [hlookup] at hc
    cases hy : g.copies.lookup y with
    | none => exact Or.inr ⟨rfl, by simpa [hy] using hc⟩
    | some c' => exact Or.inl (by simpa [hy] using hc)
  have hnode : ∀ {c}, c < t.size → g.tree.node c = t.node c := fun hc => G.node_old _ hc
  have hinside : ∀ {y z}, z ∈ dst.children y → (g.copies.lookup y).isSome = true →
      (g.copies.lookup z).isSome = true := by
    intro y z hz hy
    have hparent := D.mem_children.mp hz
    rw [G.lookup_isSome] at hy ⊢
    rw [D.ancestors_of_some hparent, List.mem_cons]
    exact Or.inr (hy.imp_left Eq.symm)
  refine
    { linked := L
      size_le := Nat.le_of_lt (Nat.lt_of_le_of_lt h.size_le G.size_lt)
      content := fun n hn => ?_
      parent_of_old := fun {n p} hn hp => h.parent_of_old hn ?_
      copy_bounds := fun hc => ?_
      copy_injective := fun hc hc' => ?_
      copy_children := fun hc => ?_
      copy_content := fun hc => ?_
      copy_label := fun {y c} hc => ?_ }
  · rw [← h.content n hn]
    exact congrArg Node.toContent (hnode (Nat.lt_of_lt_of_le hn h.size_le))
  · rw [← hp]
    exact (congrArg Node.parent (hnode (Nat.lt_of_lt_of_le hn h.size_le))).symm
  · rcases hcases hc with hnew | ⟨-, hold⟩
    · exact ⟨Nat.le_trans h.size_le (G.bounds hnew).1, (G.bounds hnew).2⟩
    · exact ⟨(h.copy_bounds hold).1, Nat.lt_trans (h.copy_bounds hold).2 G.size_lt⟩
  · rcases hcases hc with hnew | ⟨-, hold⟩ <;> rcases hcases hc' with hnew' | ⟨-, hold'⟩
    · exact G.injective hnew hnew'
    · exact absurd (h.copy_bounds hold').2 (Nat.not_lt.mpr (G.bounds hnew).1)
    · exact absurd (h.copy_bounds hold).2 (Nat.not_lt.mpr (G.bounds hnew').1)
    · exact h.copy_injective hold hold'
  · next y c =>
    rcases hcases hc with hnew | ⟨hnone, hold⟩
    · rw [← G.children hnew]
      refine List.map_congr_left fun z hz => ?_
      obtain ⟨c', hc'⟩ := Option.isSome_iff_exists.mp (hinside hz (Option.isSome_iff_exists.mpr ⟨c, hnew⟩))
      rw [hlookup, hc', Option.some_or]
    · have hchildren : g.tree.children c = t.children c :=
        congrArg Node.children (hnode (h.copy_bounds hold).2)
      rw [hchildren, ← h.copy_children hold]
      refine List.map_congr_left fun z hz => ?_
      -- otherwise `z` would be the top of the subtree, and its parent `y` is not copied
      cases hz' : g.copies.lookup z with
      | none => rw [hlookup, hz', Option.none_or]
      | some c' =>
        have hparent := D.mem_children.mp hz
        have hin := (G.lookup_isSome z).mp (by rw [hz']; rfl)
        rcases hin with rfl | hin
        · rw [hfree y hparent] at hold
          simp at hold
        · rw [D.ancestors_of_some hparent, List.mem_cons] at hin
          have hy := (G.lookup_isSome y).mpr (hin.imp_left Eq.symm)
          rw [hnone] at hy
          simp at hy
  · next y c =>
    rcases hcases hc with hnew | ⟨-, hold⟩
    · rw [Tree.label_of_content (G.content hnew), G.content hnew]
      rfl
    · have hcontent : g.tree.content c = t.content c :=
        congrArg Node.toContent (hnode (h.copy_bounds hold).2)
      rw [Tree.label_of_content hcontent, hcontent]
      exact h.copy_content hold
  · rcases hcases hc with hnew | ⟨-, hold⟩
    · exact Or.inl (Tree.label_of_content (G.content hnew))
    · have hcontent : g.tree.content c = t.content c :=
        congrArg Node.toContent (hnode (h.copy_bounds hold).2)
      rw [Tree.label_of_content hcontent]
      exact h.copy_label hold

theorem keepName (h : Sound src dst renamed t copies) {old new y : NodeId}
    (hnew : copies.lookup y = some new)
    (hrenamed : ∀ {z name}, Source.isTypeDeclaration (t.kind old) = true →
      t.simpleName? old = some name → dst.nameNode? y = some z → renamed z name) :
    Sound src dst renamed (Patching.keepName old new t) copies := by
  have hparent := Patching.parent?_keepName old new t
  have hchildren := Patching.children_keepName old new t
  refine
    { linked := Patching.linked_keepName old new t h.linked
      size_le := by rw [Patching.size_keepName]; exact h.size_le
      content := fun n hn => ?_
      parent_of_old := fun hn hp => h.parent_of_old hn (hparent _ ▸ hp)
      copy_bounds := fun hc => by rw [Patching.size_keepName]; exact h.copy_bounds hc
      copy_injective := h.copy_injective
      copy_children := fun hc => by rw [hchildren]; exact h.copy_children hc
      copy_content := fun {z c} hc => ?_
      copy_label := fun {z c} hc => ?_ }
  · rw [← h.content n hn]
    refine congrArg Node.toContent (Patching.node_keepName_of_notMem old new t fun hmem => ?_)
    obtain ⟨z, -, hz⟩ := h.exists_original_child hnew hmem
    exact absurd hn (Nat.not_lt.mpr (h.copy_bounds hz).1)
  · refine (congrArg Node.toContent (Patching.node_keepName old new t c) :).trans ?_
    exact congrArg (fun k : Content => { k with label := (Patching.keepName old new t).label c })
      (h.copy_content hc)
  · rcases Patching.keepName_cases old new t with heq | ⟨hkind, name, target, hsimple, htarget, heq⟩
    · rw [heq]
      exact h.copy_label hc
    · rw [heq, Tree.label_setLabel (h.copy_bounds hc).2]
      split
      · next hct =>
        subst hct
        exact Or.inr (hrenamed hkind hsimple (h.nameNode?_of_copy hnew htarget hc))
      · exact h.copy_label hc

end Sound

/-! ## The two views of the top-level types -/

namespace Tree.InSync

variable {t t' : Tree}

theorem of_same (h : t.InSync) (hunits : t'.units = t.units)
    (hsame : t'.childrenWithRole root .containedType = t.childrenWithRole root .containedType) :
    t'.InSync := by
  obtain ⟨u, hu, hdeclared⟩ := h
  exact ⟨u, hunits.trans hu, hdeclared.trans hsame.symm⟩

theorem unlinked (h : t.InSync) {n : NodeId} (hu : Unlinked t n t') : t'.InSync := by
  have hrole : ∀ c, t'.role c = t.role c := fun c => role_of_content (hu.content c)
  have hfilter : t'.childrenWithRole root .containedType =
      (t.childrenWithRole root .containedType).filter (· != n) := by
    simp only [childrenWithRole, hu.children, hrole, List.filter_comm]
  by_cases hn : t.role n = .containedType
  · obtain ⟨u, hunits, hdeclared⟩ := h
    refine ⟨u.erase n, ?_, ?_⟩
    · rw [hu.units, if_pos hn, hunits]
      rfl
    · rw [hfilter, ← hdeclared]
      rfl
  · refine h.of_same (by rw [hu.units, if_neg hn]) (hfilter.trans (List.filter_eq_self.mpr ?_))
    intro c hc
    have hne : c ≠ n := by
      rintro rfl
      exact hn (by simpa using (List.mem_filter.mp hc).2)
    simpa using hne

theorem exchanged (h : t.InSync) (L : t.Linked) {p old new : NodeId} (hold : t.parent? old = some p)
    (htop : t.parent? new = none) (he : Exchanged t p old new t') : t'.InSync := by
  have hnew : ∀ q, new ∉ t.children q := fun q hmem => by
    rw [L.mem_children, htop] at hmem
    simp at hmem
  have hrole : ∀ c ∈ t.children root, t'.role c = t.role c := fun c hc => by
    have hne : c ≠ new := fun heq => hnew root (heq ▸ hc)
    exact role_of_content (by rw [he.content, if_neg hne])
  have hrole_new : t'.role new = t.role old := by
    refine (congrArg Content.role (he.content new)).trans ?_
    rw [if_pos rfl]
  -- the top-level types change as the children do
  have hmembers : t'.childrenWithRole root .containedType =
      (t.childrenWithRole root .containedType).map fun c => if c = old then new else c := by
    rw [childrenWithRole, childrenWithRole, he.children]
    split
    · next hp =>
      subst hp
      rw [List.filter_map]
      congr 1
      refine List.filter_congr fun c hc => ?_
      by_cases hco : c = old
      · simp [hco, hrole_new]
      · simp [hco, hrole c hc]
    · next hp =>
      rw [List.filter_congr fun c hc => by rw [hrole c hc]]
      refine ((List.map_congr_left fun c hc => if_neg ?_).trans (List.map_id _)).symm
      rintro rfl
      have hc := L.mem_children.mp (List.mem_of_mem_filter hc)
      exact hp (Option.some.inj (hc.symm.trans hold))
  by_cases hr : t.role old = .containedType
  · obtain ⟨u, hunits, hdeclared⟩ := h
    refine ⟨u.replace old new, ?_, ?_⟩
    · rw [he.units, if_pos hr, hunits]
      rfl
    · rw [hmembers, ← hdeclared]
      rfl
  · refine h.of_same (by rw [he.units, if_neg hr]) (hmembers.trans ?_)
    refine (List.map_congr_left fun c hc => if_neg ?_).trans (List.map_id _)
    rintro rfl
    exact hr (by simpa using (List.mem_filter.mp hc).2)

theorem grafted (h : t.InSync) (L : t.Linked) {dst : Tree} {id : NodeId} {g : Graft}
    (G : Grafted t dst id g) : g.tree.InSync := by
  have hchildren : g.tree.children root = t.children root :=
    congrArg Node.children (G.node_old _ L.root_lt)
  refine h.of_same G.units ?_
  rw [childrenWithRole, childrenWithRole, hchildren]
  refine List.filter_congr fun c hc => ?_
  have hrole : g.tree.role c = t.role c :=
    congrArg (·.toContent.role) (G.node_old _ (t.lt_size_of_parent (L.mem_children.mp hc)))
  rw [hrole]

theorem keepName (h : t.InSync) (old new : NodeId) : (Patching.keepName old new t).InSync := by
  refine h.of_same (Patching.units_keepName old new t) ?_
  simp only [childrenWithRole, Patching.children_keepName, Patching.role_keepName]

theorem linkedIn (h : t.InSync) {p n : NodeId} {i : Nat} (hn : t.role n ≠ .containedType)
    (hl : LinkedIn t p i n t') : t'.InSync := by
  have hrole : ∀ c, t'.role c = t.role c := fun c => role_of_content (hl.content c)
  refine h.of_same hl.units ?_
  simp only [childrenWithRole, hrole, hl.children]
  split
  · next hp =>
    rw [hp, List.filter_append, List.filter_cons_of_neg (by simpa using hn), ← List.filter_append,
      List.take_append_drop]
  · rfl

theorem declared (h : t.InSync) {n : NodeId} {i k : Nat} (hn : t.role n = .containedType)
    (hl : LinkedIn t root i n t')
    (hk : (((t.children root).take i).filter (t.role · == .containedType)).length = k) :
    ∃ units, t'.modifyOnlyUnit (·.insert k n) = .ok { t' with units := units } ∧
      Tree.InSync { t' with units := units } := by
  obtain ⟨u, hunits, hdeclared⟩ := h
  have hrole : ∀ c, t'.role c = t.role c := fun c => role_of_content (hl.content c)
  refine ⟨[u.insert k n], ?_, u.insert k n, rfl, ?_⟩
  · simp only [modifyOnlyUnit, onlyUnit, hl.units, hunits]
    rfl
  · change _ = (t'.children root).filter (t'.role · == .containedType)
    -- the types in front and behind, in both views
    have hsplit : u.declaredTypes = ((t.children root).take i).filter (t.role · == .containedType) ++
        ((t.children root).drop i).filter (t.role · == .containedType) := by
      rw [hdeclared, childrenWithRole, ← List.filter_append, List.take_append_drop]
    have hle : k ≤ u.declaredTypes.length := by
      rw [hsplit, List.length_append, hk]
      exact Nat.le_add_right _ _
    simp only [hrole, hl.children, if_true, CompilationUnit.insert, Nat.min_eq_left hle]
    rw [insertIdx_eq_take_append hle, hsplit, ← hk, List.take_left, List.drop_left,
      List.filter_append, List.filter_cons_of_pos (by simp [hn])]

end Tree.InSync

end TreePatch
