import Mathlib.Logic.Relation
import TreePatch.Proofs.Apply
import TreePatch.Proofs.Plan

/-!
# How patching changes a tree

Whatever a plan asks for, and whether carrying it out succeeds or breaks off, a workpiece only goes
through a few kinds of change (`Change`). In each of them a copy of a destination node is linked under a
node of the source tree, or a link is cut; the nodes of the source tree are never linked anew, so what
lies above them are nodes of the source tree. What every change preserves thus holds of whatever the
application of patches leaves behind (`PatchSet.apply_changes`).
-/

namespace TreePatch

/-- The changes that a workpiece goes through while `plan` is carried out on the tree `src`. -/
inductive Change (src dst : Tree) (plan : Plan) : Workpiece → Workpiece → Prop
  | enter {w : Workpiece} (stage : Stage) :
    Change src dst plan w { w with stages := w.stages ++ [stage] }
  | unlink {w : Workpiece} {n : NodeId} {t' : Tree}
    (hn : n < src.size ∨ w.tree.role n = .thrown) (h : Tree.Unlinked w.tree n t') :
    Change src dst plan w { w with tree := t' }
  | copy {w : Workpiece} (y : NodeId) :
    Change src dst plan w
      { w with
        tree := (w.tree.graft dst y).tree
        copies := (w.tree.graft dst y).copies ++ w.copies }
  | rename {w : Workpiece} (old new : NodeId) :
    Change src dst plan w { w with tree := Patching.keepName old new w.tree }
  /-- Replacing a node of the source, or one that stands where the copy is to go. -/
  | exchange {w : Workpiece} {p old y new : NodeId} {t' : Tree} (hp : p < src.size)
    (hold : w.tree.parent? old = some p) (hnew : w.copies.lookup y = some new)
    (htop : w.tree.parent? new = none) (hrole : old < src.size ∨ w.tree.role old ≠ .containedType)
    (h : Tree.Exchanged w.tree p old new t') : Change src dst plan w { w with tree := t' }
  /-- Linking a copy that is not declared: of a thrown type, of a placed node that is no top-level type,
  or of any node if there is no single unit that could declare it. -/
  | link {w : Workpiece} {p y n : NodeId} {i : Nat} {t' : Tree} (hp : p < src.size)
    (hn : w.copies.lookup y = some n) (htop : w.tree.parent? n = none)
    (hrole : dst.role y = .thrown ∨
      (∃ pl ∈ plan.placements, pl.insertion.node = y ∧ pl.insertion.role ≠ .containedType) ∨
        ∀ u, w.tree.units ≠ [u])
    (h : Tree.LinkedIn w.tree p i n t') : Change src dst plan w { w with tree := t' }
  /-- Linking and declaring a copy behind equally many top-level types. -/
  | declare {w : Workpiece} {pl : Placement} {p n : NodeId} {i index : Nat} {u : CompilationUnit}
    {t' : Tree} (hpl : pl ∈ plan.placements) (hparent : pl.parent = some p)
    (hrole : pl.insertion.role = .containedType) (hp : p < src.size)
    (hn : w.copies.lookup pl.insertion.node = some n)
    (hsame : w.tree.role n = dst.role pl.insertion.node) (htop : w.tree.parent? n = none)
    (hunits : w.tree.units = [u])
    (hcount : (((w.tree.children p).take i).filter (w.tree.role · == .containedType)).length =
      min index (w.tree.childrenWithRole p .containedType).length)
    (h : Tree.LinkedIn w.tree p i n t') :
    Change src dst plan w { w with tree := { t' with units := [u.insert index n] } }

/-- Any number of changes. -/
abbrev Changes (src dst : Tree) (plan : Plan) : Workpiece → Workpiece → Prop :=
  Relation.ReflTransGen (Change src dst plan)

/-! ## What changes preserve -/

/-- A workpiece whose tree grew out of `src`: the nodes of `src` are linked as they were, or not at all, and
with a node of `dst` its children are copied. -/
structure Grown (src dst : Tree) (w : Workpiece) : Prop where
  linked : w.tree.Linked
  size_le : src.size ≤ w.tree.size
  parent_of_old : ∀ {n p}, n < src.size → w.tree.parent? n = some p → src.parent? n = some p
  copy_bounds : ∀ {y c}, w.copies.lookup y = some c → src.size ≤ c ∧ c < w.tree.size
  copy_below : ∀ {y z}, dst.parent? z = some y → (w.copies.lookup y).isSome = true →
    (w.copies.lookup z).isSome = true

namespace Grown

variable {src dst : Tree} {w : Workpiece}

theorem start (L : src.Linked) : Grown src dst { tree := src } where
  linked := L
  size_le := Nat.le_refl _
  parent_of_old _ h := h
  copy_bounds h := by simp at h
  copy_below _ h := by simp at h

theorem of_edit (h : Grown src dst w) {t' : Tree} (L : t'.Linked) (hsize : t'.size = w.tree.size)
    (hparent : ∀ {n p}, n < src.size → t'.parent? n = some p → w.tree.parent? n = some p) :
    Grown src dst { w with tree := t' } where
  linked := L
  size_le := hsize ▸ h.size_le
  parent_of_old hn hp := h.parent_of_old hn (hparent hn hp)
  copy_bounds hc := hsize ▸ h.copy_bounds hc
  copy_below := h.copy_below

theorem notMem_above (Ls : src.Linked) (h : Grown src dst w) {p n : NodeId} (hp : p < src.size)
    (hn : src.size ≤ n) : n ∉ p :: w.tree.ancestors p := by
  induction p using h.linked.forest.induction_up with
  | step p ih =>
    have hne : n ≠ p := Nat.ne_of_gt (Nat.lt_of_lt_of_le hp hn)
    cases hq : w.tree.parent? p with
    | none =>
      rw [Tree.Linked.ancestors_of_none hq]
      simpa using hne
    | some q =>
      rw [h.linked.ancestors_of_some hq, List.mem_cons, not_or]
      exact ⟨hne, ih q hq (Ls.parent_lt (h.parent_of_old hp hq))⟩

theorem ne_root (Ls : src.Linked) {n : NodeId} (hn : src.size ≤ n) : n ≠ Tree.root :=
  Nat.ne_of_gt (Nat.lt_of_lt_of_le Ls.root_lt hn)

theorem unlink (h : Grown src dst w) {n : NodeId} {t' : Tree} (hu : Tree.Unlinked w.tree n t') :
    Grown src dst { w with tree := t' } := by
  refine h.of_edit (hu.linked h.linked) hu.size fun {m p} _ hp => ?_
  rw [hu.parent?] at hp
  split at hp
  · simp at hp
  · exact hp

theorem link (Ls : src.Linked) (h : Grown src dst w) {p y n : NodeId} {i : Nat} {t' : Tree}
    (hp : p < src.size) (hn : w.copies.lookup y = some n) (htop : w.tree.parent? n = none)
    (hl : Tree.LinkedIn w.tree p i n t') : Grown src dst { w with tree := t' } := by
  have hnew := (h.copy_bounds hn).1
  refine h.of_edit (hl.linked_of_notMem h.linked htop (ne_root Ls hnew) (h.notMem_above Ls hp hnew))
    hl.size fun {m q} hm hq => ?_
  rwa [hl.parent?, if_neg (Nat.ne_of_lt (Nat.lt_of_lt_of_le hm hnew))] at hq

theorem exchange (Ls : src.Linked) (h : Grown src dst w) {p old y new : NodeId} {t' : Tree}
    (hp : p < src.size) (hold : w.tree.parent? old = some p) (hn : w.copies.lookup y = some new)
    (htop : w.tree.parent? new = none) (he : Tree.Exchanged w.tree p old new t') :
    Grown src dst { w with tree := t' } := by
  have hnew := (h.copy_bounds hn).1
  refine h.of_edit
    (he.linked_of_notMem h.linked hold htop (ne_root Ls hnew) (h.notMem_above Ls hp hnew))
    he.size fun {m q} hm hq => ?_
  rw [he.parent?, if_neg (c := m = new) (Nat.ne_of_lt (Nat.lt_of_lt_of_le hm hnew))] at hq
  split at hq
  · simp at hq
  · exact hq

theorem copy (D : dst.Linked) (h : Grown src dst w) (y : NodeId) :
    Grown src dst
      { w with
        tree := (w.tree.graft dst y).tree
        copies := (w.tree.graft dst y).copies ++ w.copies } := by
  have G : Tree.Grafted w.tree dst y (w.tree.graft dst y) := Tree.grafted D
  have Lg : (w.tree.graft dst y).tree.Linked := Tree.linked_graft h.linked y
  generalize w.tree.graft dst y = g at G Lg
  refine ⟨Lg, Nat.le_of_lt (Nat.lt_of_le_of_lt h.size_le G.size_lt), fun {n p} hn hp => ?_,
    fun {z c} hc => ?_, fun {z z'} hz hcopied => ?_⟩
  · rw [Tree.parent?, G.node_old n (Nat.lt_of_lt_of_le hn h.size_le)] at hp
    exact h.parent_of_old hn hp
  · rw [List.lookup_append, Option.or_eq_some_iff] at hc
    rcases hc with hc | ⟨-, hc⟩
    · exact ⟨Nat.le_trans h.size_le (G.bounds hc).1, (G.bounds hc).2⟩
    · exact ⟨(h.copy_bounds hc).1, Nat.lt_trans (h.copy_bounds hc).2 G.size_lt⟩
  · -- what lies below a node of the subtree is in the subtree
    rw [List.lookup_append, Option.isSome_or, Bool.or_eq_true] at hcopied ⊢
    rcases hcopied with hnew | hold
    · rw [G.lookup_isSome] at hnew ⊢
      rw [D.ancestors_of_some hz, List.mem_cons]
      exact Or.inl (Or.inr (hnew.imp_left Eq.symm))
    · exact Or.inr (h.copy_below hz hold)

end Grown

section

variable {src dst : Tree} {plan : Plan} {w w' : Workpiece} (Ls : src.Linked) (D : dst.Linked)

include Ls D

theorem Change.grown (h : Grown src dst w) (hc : Change src dst plan w w') : Grown src dst w' := by
  cases hc with
  | enter stage => exact ⟨h.linked, h.size_le, h.parent_of_old, h.copy_bounds, h.copy_below⟩
  | unlink _ hu => exact h.unlink hu
  | copy y => exact h.copy D y
  | rename old new =>
    refine h.of_edit (Patching.linked_keepName old new w.tree h.linked)
      (Patching.size_keepName old new w.tree) fun {n p} _ hp => ?_
    rwa [Patching.parent?_keepName] at hp
  | exchange hp hold hnew htop _ he => exact h.exchange Ls hp hold hnew htop he
  | link hp hn htop _ hl => exact h.link Ls hp hn htop hl
  | declare _ _ _ hp hn _ htop _ _ hl =>
    have hlinked := h.link Ls hp hn htop hl
    exact hlinked.of_edit (hlinked.linked.of_same_links (Nat.le_refl _) (fun _ => rfl) fun _ => rfl)
      rfl fun _ hq => hq

theorem Changes.grown (h : Grown src dst w) (hc : Changes src dst plan w w') : Grown src dst w' := by
  induction hc with
  | refl => exact h
  | tail _ hstep ih => exact hstep.grown Ls D ih

end

/-! ## Steps that change a workpiece -/

namespace Patching

/-- The workpiece that a step leaves, whether it ends well or not. -/
def left {α : Type} (x : Patching α) (w : Workpiece) : Workpiece :=
  match x w with
  | .ok _ w' => w'
  | .error _ w' => w'

/-- The step leaves the workpiece as it was, with an error. -/
def Refuses {α : Type} (x : Patching α) (w : Workpiece) : Prop :=
  ∃ e, x w = .error e w

/-- What the step leaves is reached by changes. -/
def Evolves {α : Type} (src dst : Tree) (plan : Plan) (x : Patching α) (w : Workpiece) : Prop :=
  Changes src dst plan w (x.left w)

section

variable {α β : Type} {src dst : Tree} {plan : Plan} {w w' : Workpiece}

theorem Evolves.of_ok {x : Patching α} {a : α} (heq : x w = .ok a w')
    (h : Changes src dst plan w w') : Evolves src dst plan x w := by
  rw [Evolves, left, heq]
  exact h

theorem Refuses.evolves {x : Patching α} (h : Refuses x w) : Evolves src dst plan x w := by
  obtain ⟨e, heq⟩ := h
  rw [Evolves, left, heq]

theorem Evolves.of_eq {x y : Patching α} (heq : x w = y w') (hc : Changes src dst plan w w')
    (h : Evolves src dst plan y w') : Evolves src dst plan x w := by
  have hleft : x.left w = y.left w' := by rw [left, left, heq]
  rw [Evolves, hleft]
  exact hc.trans h

theorem Evolves.bind {x : Patching α} {f : α → Patching β} (hx : Evolves src dst plan x w)
    (hf : ∀ a w', x w = .ok a w' → Changes src dst plan w w' → Evolves src dst plan (f a) w') :
    Evolves src dst plan (x >>= f) w := by
  rw [Evolves, left] at hx
  cases hrun : x w with
  | ok a w' =>
    rw [hrun] at hx
    exact Evolves.of_eq (bind_of_ok hrun) hx (hf a w' hrun hx)
  | error e w' =>
    rw [hrun] at hx
    rw [Evolves, left, bind_of_error hrun]
    exact hx

/-- A loop whose rounds evolve as long as an invariant holds, and keep it. -/
theorem Evolves.forM {f : α → Patching Unit} {J : Workpiece → Prop} :
    ∀ {l : List α} {w : Workpiece}, J w →
      (∀ a ∈ l, ∀ w', J w' → Evolves src dst plan (f a) w' ∧ ∀ w'', f a w' = .ok () w'' → J w'') →
        Evolves src dst plan (l.forM f) w := by
  intro l
  induction l with
  | nil =>
    intro w _ _
    exact Evolves.of_ok rfl .refl
  | cons a l ih =>
    intro w hJ hround
    obtain ⟨hfirst, hkeep⟩ := hround a List.mem_cons_self w hJ
    change Evolves src dst plan (f a >>= fun _ => l.forM f) w
    refine hfirst.bind fun _ w' hok _ => ?_
    exact ih (hkeep w' hok) fun b hb => hround b (List.mem_cons_of_mem _ hb)

theorem Evolves.forM_grown (Ls : src.Linked) (D : dst.Linked) {l : List α} {f : α → Patching Unit}
    (h : Grown src dst w)
    (hround : ∀ a ∈ l, ∀ w', Grown src dst w' → Evolves src dst plan (f a) w') :
    Evolves src dst plan (l.forM f) w := by
  refine Evolves.forM h fun a ha w' hw' => ⟨hround a ha w' hw', fun w'' hok => ?_⟩
  have hchanges := hround a ha w' hw'
  rw [Evolves, left, hok] at hchanges
  exact Changes.grown Ls D hw' hchanges

theorem edit_cases (f : Tree → Except TreeError Tree) (w : Workpiece) :
    Refuses (edit f) w ∨ ∃ t', f w.tree = .ok t' ∧ edit f w = .ok () { w with tree := t' } := by
  cases hf : f w.tree with
  | error e => exact Or.inl ⟨_, by rw [edit, hf]⟩
  | ok t' => exact Or.inr ⟨t', rfl, by rw [edit, hf]⟩

theorem evolves_edit {f : Tree → Except TreeError Tree}
    (h : ∀ t', f w.tree = .ok t' → Change src dst plan w { w with tree := t' }) :
    Evolves src dst plan (edit f) w := by
  rcases edit_cases f w with hrefuses | ⟨t', hf, hok⟩
  · exact hrefuses.evolves
  · exact Evolves.of_ok hok (.single (h t' hf))

end

/-! ## What linking steps do -/

section

variable {w : Workpiece} {pl : Placement} {p n : NodeId}

theorem anchorOf_cases (pl : Placement) (w : Workpiece) :
    Refuses (anchorOf pl) w ∨ ∃ anchor, anchorOf pl w = .ok anchor w := by
  cases hi : pl.insertion.anchor with
  | start => exact Or.inr ⟨none, by rw [anchorOf, hi]; rfl⟩
  | after path =>
    cases ha : pl.anchor with
    | none => exact Or.inl ⟨.unresolved path, by rw [anchorOf, hi, ha]; rfl⟩
    | some anchor => exact Or.inr ⟨some anchor, by rw [anchorOf, hi, ha]; rfl⟩
  | afterInserted node =>
    cases hc : w.copies.lookup node with
    | some anchor => exact Or.inr ⟨some anchor, by simp only [anchorOf, hi, copyOf_bind, hc]; rfl⟩
    | none => exact Or.inl ⟨.unresolvedAnchor node, by simp only [anchorOf, hi, copyOf_bind, hc]; rfl⟩

/-- A step that links `n` under `p` at some position, and does nothing else. -/
def LinksIn (x : Patching Unit) (w : Workpiece) (p n : NodeId) (i : Nat) : Prop :=
  ∃ t', x w = .ok () { w with tree := t' } ∧ w.tree.parent? n = none ∧
    Tree.LinkedIn w.tree p i n t'

theorem insertChild_cases (hp : p < w.tree.size) (hn : n < w.tree.size) (i : Nat) :
    Refuses (edit (·.insertChild p i n)) w ∨ LinksIn (edit (·.insertChild p i n)) w p n i := by
  refine (edit_cases _ w).imp_right ?_
  rintro ⟨t', hok, hrun⟩
  obtain ⟨htop, -, hl⟩ := Tree.insertChild_of_ok hp hn hok
  exact ⟨t', hrun, htop, hl⟩

theorem linkAtAnchor_cases (hp : p < w.tree.size) (hn : n < w.tree.size) :
    Refuses (linkAtAnchor pl p n) w ∨ ∃ i, LinksIn (linkAtAnchor pl p n) w p n i := by
  rcases anchorOf_cases pl w with ⟨e, hanchor⟩ | ⟨anchor, hanchor⟩
  · exact Or.inl ⟨e, bind_of_error hanchor⟩
  · have hrun := linkAtAnchor_run hanchor p n
    cases hposition : positionBehind w.tree p anchor with
    | error e =>
      rw [hposition] at hrun
      exact Or.inl ⟨e, hrun⟩
    | ok i =>
      rw [hposition] at hrun
      rcases insertChild_cases hp hn i with ⟨e, hedit⟩ | ⟨t', hedit, hrest⟩
      · exact Or.inl ⟨e, hrun.trans hedit⟩
      · exact Or.inr ⟨i, t', hrun.trans hedit, hrest⟩

theorem positionInCollection_length_take (t : Tree) (p : NodeId) (R : Role) (index : Nat) :
    positionInCollection? t p R ((t.childrenWithRole p R).take index).length =
      positionInCollection? t p R index := by
  rw [List.length_take]
  by_cases hlt : index < (t.childrenWithRole p R).length
  · rw [Nat.min_eq_left (Nat.le_of_lt hlt)]
  · rw [Nat.min_eq_right (Nat.le_of_not_lt hlt), positionInCollection?, positionInCollection?,
      List.getElem?_eq_none (Nat.le_refl _), List.getElem?_eq_none (Nat.le_of_not_lt hlt)]

theorem count_of_positionInCollection {t : Tree} (L : t.Linked) {R : Role} {index i : Nat}
    (h : positionInCollection? t p R index = some i) :
    (((t.children p).take i).filter (t.role · == R)).length =
      min index (t.childrenWithRole p R).length := by
  have hmembers : t.childrenWithRole p R =
      (t.childrenWithRole p R).take index ++ (t.childrenWithRole p R).drop index :=
    (List.take_append_drop _ _).symm
  have hindex := (positionInCollection_length_take t p R index).trans h
  rcases L.position_in_collection hmembers with ⟨-, hnone⟩ | ⟨i', -, hsome, -, hfilter, -⟩
  · rw [hnone] at hindex
    simp at hindex
  · obtain rfl : i' = i := Option.some.inj (hsome.symm.trans hindex)
    rw [hfilter, List.length_take]

theorem positionInCollection_eq_none {t : Tree} (L : t.Linked) {R : Role} {index : Nat}
    (h : positionInCollection? t p R index = none) : t.childrenWithRole p R = [] := by
  by_contra hne
  obtain ⟨last, hlast⟩ := Option.isSome_iff_exists.mp (List.getLast?_isSome.mpr hne)
  have hposition : ∀ {c}, c ∈ t.childrenWithRole p R → ∃ k, t.childPosition? c = some k := by
    intro c hc
    obtain ⟨front, -, -, hk⟩ := L.exists_childPosition (L.mem_childrenWithRole.mp hc).1
    exact ⟨_, hk⟩
  rw [positionInCollection?] at h
  cases hget : (t.childrenWithRole p R)[index]? with
  | some next =>
    obtain ⟨k, hk⟩ := hposition (List.mem_of_getElem? hget)
    simp [hget, hk] at h
  | none =>
    obtain ⟨k, hk⟩ := hposition (List.mem_of_getLast? hlast)
    simp [hget, hlast, hk] at h

theorem linkAtIndex_cases (L : w.tree.Linked) (hp : p < w.tree.size) (hn : n < w.tree.size) :
    Refuses (linkAtIndex pl p n) w ∨ ∃ index i, pl.insertion.index = some index ∧
      LinksIn (linkAtIndex pl p n) w p n i ∧
        (((w.tree.children p).take i).filter (w.tree.role · == pl.insertion.role)).length =
          min index (w.tree.childrenWithRole p pl.insertion.role).length := by
  cases hindex : pl.insertion.index with
  | none =>
    refine Or.inl ⟨.missingIndex pl.insertion.role, ?_⟩
    rw [linkAtIndex, hindex]
    rfl
  | some index =>
    have hrun := linkAtIndex_run (w := w) hindex p n
    cases hposition : positionInCollection? w.tree p pl.insertion.role index with
    | some i =>
      rw [hposition] at hrun
      rcases insertChild_cases hp hn i with ⟨e, hedit⟩ | ⟨t', hedit, hrest⟩
      · exact Or.inl ⟨e, hrun.trans hedit⟩
      · exact Or.inr ⟨index, i, rfl, ⟨t', hrun.trans hedit, hrest⟩,
          count_of_positionInCollection L hposition⟩
    | none =>
      rw [hposition] at hrun
      rcases linkAtAnchor_cases hp hn with ⟨e, hlink⟩ | ⟨i, t', hlink, hrest⟩
      · exact Or.inl ⟨e, hrun.trans hlink⟩
      · have hempty := positionInCollection_eq_none L hposition
        refine Or.inr ⟨index, i, rfl, ⟨t', hrun.trans hlink, hrest⟩, ?_⟩
        have hsub := ((List.take_sublist i (w.tree.children p)).filter
          (w.tree.role · == pl.insertion.role)).length_le
        rw [Tree.childrenWithRole] at hempty
        rw [hempty, List.length_nil] at hsub
        rw [Tree.childrenWithRole, hempty, List.length_nil]
        omega

theorem link_cases (dst : Tree) (pl : Placement) (p n : NodeId) (w : Workpiece) :
    (pl.insertion.role = .thrown ∧ link dst pl p n w = renewThrown dst p pl.insertion.node w) ∨
    (pl.insertion.role = .containedType ∧ link dst pl p n w =
      (linkAtIndex pl p n >>= fun _ => declare pl.insertion.index n) w) ∨
    Refuses (link dst pl p n) w ∨
    (pl.insertion.role ≠ .containedType ∧
      (link dst pl p n w = linkAtIndex pl p n w ∨
        link dst pl p n w = edit (·.appendChild p n) w ∨
        ∃ occupant : Option NodeId, (∀ old, occupant = some old →
            old ∈ w.tree.children p ∧ w.tree.role old ≠ .containedType) ∧
          link dst pl p n w = linkOver pl p n occupant w)) := by
  -- an occupant is taken from the children in a role other than that of top-level types
  have hoccupant : ∀ {R : Role} {c : Prop} [Decidable c] {l : List NodeId} {old : NodeId},
      R ≠ .containedType → l ⊆ w.tree.childrenWithRole p R →
        (if c then l.head? else none) = some old →
          old ∈ w.tree.children p ∧ w.tree.role old ≠ .containedType := by
    intro R c _ l old hR hl hold
    split at hold
    · obtain ⟨hmem, hrole⟩ := List.mem_filter.mp (hl (List.mem_of_mem_head? hold))
      exact ⟨hmem, (beq_iff_eq.mp hrole) ▸ hR⟩
    · simp at hold
  cases hrole : pl.insertion.role with
  | statement | argument | typeMember | typeParameter | parameter | case | annotationUse | imported =>
    refine Or.inr (Or.inr (Or.inr ⟨by simp, Or.inl ?_⟩))
    simp only [link, hrole]
    rfl
  | caseExpression =>
    by_cases hempty : (w.tree.childrenWithRole p .caseExpression).isEmpty = true
    · refine Or.inr (Or.inr (Or.inr ⟨by simp, Or.inr (Or.inl ?_)⟩))
      simp only [link, hrole]
      change (if _ then _ else _ : Patching Unit) w = _
      rw [if_pos hempty]
    · refine Or.inr (Or.inr (Or.inr ⟨by simp, Or.inl ?_⟩))
      simp only [link, hrole]
      change (if _ then _ else _ : Patching Unit) w = _
      rw [if_neg hempty]
  | thrown =>
    refine Or.inl ⟨rfl, ?_⟩
    simp only [link, hrole]
    rfl
  | containedType =>
    refine Or.inr (Or.inl ⟨rfl, ?_⟩)
    simp only [link, hrole]
    rfl
  | modifier =>
    refine Or.inr (Or.inr (Or.inr ⟨by simp, Or.inr (Or.inr
      ⟨if w.tree.kind n = "modifiers" then
        ((w.tree.childrenWithRole p .modifier).filter fun c => w.tree.kind c == "modifiers").head?
        else none, fun old hold => ?_, ?_⟩)⟩))
    · exact hoccupant (R := .modifier) (by simp) (List.filter_subset_self _) hold
    · simp only [link, hrole]
      rfl
  | packageDeclaration | caseLabel | slot | child | token =>
    refine Or.inr (Or.inr (Or.inr ⟨by simp, Or.inr (Or.inr
      ⟨if pl.insertion.role.isSingleSlot then
        (w.tree.childrenWithRole p pl.insertion.role).head? else none, fun old hold => ?_, ?_⟩)⟩))
    · exact hoccupant (R := pl.insertion.role) (by simp [hrole]) (fun _ => id) hold
    · simp only [link, hrole]
      rfl
  | root =>
    refine Or.inr (Or.inr (Or.inl ⟨.unsupportedRole .root, ?_⟩))
    simp only [link, hrole]
    rfl

end

/-! ## The steps of a plan -/

section

variable {src dst : Tree} {plan : Plan} {w : Workpiece} (Ls : src.Linked) (D : dst.Linked)

theorem evolves_delete (h : Grown src dst w) {n : NodeId} (hn : n < src.size) :
    Evolves src dst plan (delete n) w := by
  by_cases hatt : w.tree.isAttached n = true
  · refine Evolves.of_eq ((delete_run w n).trans (if_pos hatt)) .refl (evolves_edit fun t' hok => ?_)
    obtain ⟨p, -, hu⟩ := Tree.detach_of_ok h.linked hok
    exact .unlink (Or.inl hn) hu
  · exact Evolves.of_ok ((delete_run w n).trans (if_neg hatt)) .refl

include D in
theorem lookup_copied (w : Workpiece) (y : NodeId) :
    ((w.tree.graft dst y).copies ++ w.copies).lookup y = some (w.tree.graft dst y).copy := by
  have G : Tree.Grafted w.tree dst y (w.tree.graft dst y) := Tree.grafted D
  rw [List.lookup_append, G.lookup_top, Option.some_or]

include Ls D

theorem evolves_update (h : Grown src dst w) {old y : NodeId} (hold : old < src.size) :
    Evolves src dst plan (update dst old y) w := by
  by_cases hatt : w.tree.isAttached old = true
  · let copied : Workpiece :=
      { w with
        tree := (w.tree.graft dst y).tree
        copies := (w.tree.graft dst y).copies ++ w.copies }
    have hcopy : Change src dst plan w copied := .copy y
    have hrename : Change src dst plan copied
        { copied with tree := keepName old (w.tree.graft dst y).copy copied.tree } := .rename old _
    have hchanges := (Relation.ReflTransGen.single hcopy).tail hrename
    have hgrown := Changes.grown Ls D h hchanges
    have hlookup := lookup_copied D w y
    refine Evolves.of_eq ((update_run w dst old y).trans (if_pos hatt)) hchanges
      (evolves_edit fun t' hok => ?_)
    obtain ⟨p, hp, htop, he⟩ := Tree.replace_of_ok hgrown.linked (hgrown.copy_bounds hlookup).2 hok
    exact .exchange (Ls.parent_lt (hgrown.parent_of_old hold hp)) hp hlookup htop (Or.inl hold) he
  · exact Evolves.of_ok ((update_run w dst old y).trans (if_neg hatt)) .refl

omit Ls D in
theorem evolves_of_cases {x : Patching Unit} {p y n : NodeId} (hp : p < src.size)
    (hn : w.copies.lookup y = some n)
    (hrole : dst.role y = .thrown ∨
      (∃ pl ∈ plan.placements, pl.insertion.node = y ∧ pl.insertion.role ≠ .containedType) ∨
        ∀ u, w.tree.units ≠ [u])
    (hx : Refuses x w ∨ ∃ i, LinksIn x w p n i) : Evolves src dst plan x w := by
  rcases hx with hrefuses | ⟨i, t', hok, htop, hl⟩
  · exact hrefuses.evolves
  · exact Evolves.of_ok hok (.single (.link hp hn htop hrole hl))

omit Ls in
theorem evolves_linkThrown (h : Grown src dst w) {p z : NodeId} (hp : p < src.size)
    (hz : dst.role z = .thrown) : Evolves src dst plan (linkThrown dst p z) w := by
  have hlink : ∀ {w' : Workpiece} {n : NodeId}, Grown src dst w' → w'.copies.lookup z = some n →
      Evolves src dst plan (edit (·.appendChild p n)) w' := by
    intro w' n h' hn
    refine evolves_of_cases hp hn (Or.inl hz) ?_
    exact (insertChild_cases (Nat.lt_of_lt_of_le hp h'.size_le) (h'.copy_bounds hn).2 _).imp_right
      fun hlinks => ⟨_, hlinks⟩
  cases hknown : (w.copies.lookup z).filter fun c => !w.tree.isAttached c with
  | some c =>
    have hc := Option.eq_some_of_filter_eq_some hknown
    refine Evolves.of_eq ?_ .refl (hlink h hc)
    rw [linkThrown_run, hknown]
  | none =>
    refine Evolves.of_eq ?_ (.single (.copy z)) (hlink (h.copy D z) (lookup_copied D w z))
    rw [linkThrown_run, hknown]

theorem evolves_renewThrown (h : Grown src dst w) {p y : NodeId} (hp : p < src.size) :
    Evolves src dst plan (renewThrown dst p y) w := by
  -- while the old types are taken away no node changes its role
  have hstrip : Evolves src dst plan
      ((w.tree.childrenWithRole p .thrown).forM fun old => edit (·.detach old)) w := by
    refine Evolves.forM
      (J := fun w' => Grown src dst w' ∧ ∀ x, w'.tree.role x = w.tree.role x) ⟨h, fun _ => rfl⟩
      fun old hold w' hw' => ?_
    have hthrown : w'.tree.role old = .thrown := by
      rw [hw'.2]
      exact (h.linked.mem_childrenWithRole.mp hold).2
    rcases edit_cases (·.detach old) w' with ⟨e, hrefuses⟩ | ⟨t', hok, hrun⟩
    · refine ⟨Refuses.evolves ⟨e, hrefuses⟩, fun w'' hrun => ?_⟩
      rw [hrefuses] at hrun
      simp at hrun
    · obtain ⟨q, -, hu⟩ := Tree.detach_of_ok hw'.1.linked hok
      refine ⟨Evolves.of_ok hrun (.single (.unlink (Or.inr hthrown) hu)), fun w'' hrun' => ?_⟩
      rw [hrun] at hrun'
      obtain ⟨-, rfl⟩ := EStateM.Result.ok.inj hrun'
      exact ⟨hw'.1.unlink hu, fun x => (Tree.role_of_content (hu.content x)).trans (hw'.2 x)⟩
  refine Evolves.of_eq (get_bind _) .refl (hstrip.bind fun _ w' _ hchanges => ?_)
  have hgrown := Changes.grown Ls D h hchanges
  cases dst.parent? y with
  | none => exact Evolves.of_ok rfl .refl
  | some q =>
    exact Evolves.forM_grown Ls D hgrown fun z hz w'' hw'' =>
      evolves_linkThrown D hw'' hp (D.mem_childrenWithRole.mp hz).2

omit Ls D in
theorem evolves_linkOver (h : Grown src dst w) {pl : Placement} {p y n : NodeId} (hp : p < src.size)
    (hn : w.copies.lookup y = some n)
    (hrole : ∃ pl ∈ plan.placements, pl.insertion.node = y ∧ pl.insertion.role ≠ .containedType)
    {occupant : Option NodeId}
    (hoccupant : ∀ old, occupant = some old →
      old ∈ w.tree.children p ∧ w.tree.role old ≠ .containedType) :
    Evolves src dst plan (linkOver pl p n occupant) w := by
  have hnlt := (h.copy_bounds hn).2
  cases occupant with
  | none =>
    exact evolves_of_cases hp hn (Or.inr (Or.inl hrole))
      (linkAtAnchor_cases (Nat.lt_of_lt_of_le hp h.size_le) hnlt)
  | some old =>
    obtain ⟨hmem, hold⟩ := hoccupant old rfl
    change Evolves src dst plan (edit (·.replace old n)) w
    refine evolves_edit fun t' hok => ?_
    obtain ⟨q, hq, htop, he⟩ := Tree.replace_of_ok h.linked hnlt hok
    obtain rfl : q = p := Option.some.inj (hq.symm.trans (h.linked.mem_children.mp hmem))
    exact .exchange hp hq hn htop (Or.inr hold) he

omit Ls D in
theorem evolves_declare (h : Grown src dst w) {pl : Placement} {p n : NodeId}
    (hpl : pl ∈ plan.placements) (hparent : pl.parent = some p) (hp : p < src.size)
    (hn : w.copies.lookup pl.insertion.node = some n)
    (hsame : w.tree.role n = dst.role pl.insertion.node) (hrole : pl.insertion.role = .containedType) :
    Evolves src dst plan (linkAtIndex pl p n >>= fun _ => declare pl.insertion.index n) w := by
  have hplt := Nat.lt_of_lt_of_le hp h.size_le
  rcases linkAtIndex_cases h.linked hplt (h.copy_bounds hn).2 with
    ⟨e, hrefuses⟩ | ⟨index, i, hindex, ⟨t', hok, htop, hl⟩, hcount⟩
  · exact Refuses.evolves ⟨e, bind_of_error hrefuses⟩
  · rw [hrole] at hcount
    by_cases hunits : ∃ u, w.tree.units = [u]
    · obtain ⟨u, hu⟩ := hunits
      refine Evolves.of_ok (a := ()) ?_
        (.single (.declare hpl hparent hrole hp hn hsame htop hu hcount hl))
      rw [bind_of_ok hok, hindex]
      simp only [declare, edit, Tree.modifyOnlyUnit, Tree.onlyUnit, hl.units, hu]
      rfl
    · have hnone : ∀ u, w.tree.units ≠ [u] := fun u hu => hunits ⟨u, hu⟩
      refine Evolves.of_eq (bind_of_ok hok) (.single (.link hp hn htop (Or.inr (Or.inr hnone)) hl))
        (Refuses.evolves ?_)
      rcases edit_cases (·.modifyOnlyUnit fun u =>
        u.insert (pl.insertion.index.getD u.declaredTypes.length) n) { w with tree := t' } with
        hrefuses | ⟨t'', hmodify, -⟩
      · exact hrefuses
      · obtain ⟨u, hu, -⟩ := bind_eq_ok.mp hmodify
        rw [Tree.onlyUnit] at hu
        split at hu
        · next u' hu' => exact absurd (hl.units.symm.trans hu') (hnone u')
        · simp at hu

theorem evolves_link (h : Grown src dst w) {pl : Placement} {p n : NodeId}
    (hpl : pl ∈ plan.placements) (hparent : pl.parent = some p) (hp : p < src.size)
    (hn : w.copies.lookup pl.insertion.node = some n)
    (hsame : w.tree.role n = dst.role pl.insertion.node) :
    Evolves src dst plan (link dst pl p n) w := by
  have hplt := Nat.lt_of_lt_of_le hp h.size_le
  have hnlt := (h.copy_bounds hn).2
  rcases link_cases dst pl p n w with ⟨-, hrun⟩ | ⟨hrole, hrun⟩ | hrefuses | ⟨hrole, hcases⟩
  · exact Evolves.of_eq hrun .refl (evolves_renewThrown Ls D h hp)
  · exact Evolves.of_eq hrun .refl (evolves_declare h hpl hparent hp hn hsame hrole)
  · exact hrefuses.evolves
  · have hordinary : ∃ pl' ∈ plan.placements, pl'.insertion.node = pl.insertion.node ∧
        pl'.insertion.role ≠ .containedType := ⟨pl, hpl, rfl, hrole⟩
    rcases hcases with hrun | hrun | ⟨occupant, hoccupant, hrun⟩
    · refine Evolves.of_eq hrun .refl (evolves_of_cases hp hn (Or.inr (Or.inl hordinary)) ?_)
      refine (linkAtIndex_cases h.linked hplt hnlt).imp_right ?_
      rintro ⟨index, i, -, hlinks, -⟩
      exact ⟨i, hlinks⟩
    · refine Evolves.of_eq hrun .refl (evolves_of_cases hp hn (Or.inr (Or.inl hordinary)) ?_)
      exact (insertChild_cases hplt hnlt _).imp_right fun hlinks => ⟨_, hlinks⟩
    · exact Evolves.of_eq hrun .refl (evolves_linkOver h hp hn hordinary hoccupant)

theorem evolves_place (P : plan.Within src dst) (h : Grown src dst w) {pl : Placement}
    (hpl : pl ∈ plan.placements) : Evolves src dst plan (place dst pl) w := by
  cases hcopied : w.copies.lookup pl.insertion.node with
  | some c => exact Evolves.of_ok (place_run_of_copied dst (by rw [hcopied]; rfl)) .refl
  | none =>
    have hrefuses : Refuses (parentOf pl) w → Evolves src dst plan (place dst pl) w := by
      rintro ⟨e, he⟩
      exact Refuses.evolves ⟨e, (place_run_of_lookup_eq_none dst hcopied).trans (bind_of_error he)⟩
    cases hparent : pl.parent with
    | some p =>
      have G : Tree.Grafted w.tree dst pl.insertion.node (w.tree.graft dst pl.insertion.node) :=
        Tree.grafted D
      exact Evolves.of_eq (place_run_of_uncopied dst hcopied hparent) (.single (.copy _))
        (evolves_link Ls D (h.copy D _) hpl hparent (P.parent pl hpl p hparent) (lookup_copied D w _)
          (Tree.role_of_content (G.content G.lookup_top)))
    | none =>
      cases hinsertion : pl.insertion.parent with
      | existing path => exact hrefuses ⟨.unresolved path, by rw [parentOf, hparent, hinsertion]; rfl⟩
      | inserted q =>
        have hq : w.copies.lookup q = none := by
          by_contra hne
          have hsome := h.copy_below (P.inserted pl hpl q hinsertion)
            (Option.isSome_iff_ne_none.mpr hne)
          rw [hcopied] at hsome
          simp at hsome
        refine hrefuses ⟨.unmappedParent q, ?_⟩
        simp only [parentOf, hparent, hinsertion, copyOf_bind, hq]
        rfl

theorem evolves_carryOut (P : plan.Within src dst) :
    Evolves src dst plan (carryOut dst plan) { tree := src } := by
  have henter : ∀ (s : Stage) (w : Workpiece), Evolves src dst plan (enter s) w := fun s w =>
    Evolves.of_ok rfl (.single (.enter s))
  have hstart : Grown src dst { tree := src } := Grown.start Ls
  refine (henter _ _).bind fun _ w₁ _ h₁ => ?_
  have g₁ := Changes.grown Ls D hstart h₁
  refine (Evolves.forM_grown Ls D g₁ fun n hn w' hw' =>
    evolves_delete hw' (P.deletes n hn)).bind fun _ w₂ _ h₂ => ?_
  refine (henter _ _).bind fun _ w₃ _ h₃ => ?_
  have g₃ := Changes.grown Ls D (Changes.grown Ls D g₁ h₂) h₃
  refine (Evolves.forM_grown Ls D g₃ fun q hq w' hw' =>
    evolves_update Ls D hw' (P.updates q hq)).bind fun _ w₄ _ h₄ => ?_
  refine (henter _ _).bind fun _ w₅ _ h₅ => ?_
  have g₅ := Changes.grown Ls D (Changes.grown Ls D g₃ h₄) h₅
  refine (Evolves.forM_grown Ls D g₅ fun n hn w' hw' => ?_).bind fun _ w₆ _ h₆ => ?_
  · obtain ⟨pl, hpl, hsource⟩ := List.mem_filterMap.mp hn
    exact evolves_delete hw' (P.source pl hpl n hsource)
  have g₆ := Changes.grown Ls D g₅ h₆
  refine (Evolves.forM_grown Ls D g₆ fun pl hpl w' hw' =>
    evolves_place Ls D P hw' hpl).bind fun _ w₇ _ _ => ?_
  exact (henter _ _).bind fun _ w₈ _ _ => henter _ _

end

end Patching

/-- **What the application of patches leaves behind is reached by changes**, whether it ends well or not. -/
theorem PatchSet.apply_changes {s : PatchSet} {src : Tree} (Ls : src.Linked)
    (D : s.destination.Linked)
    (hwithin : ∀ {plan}, Plan.make src s.patches = .ok plan → plan.Within src s.destination) :
    (s.apply src).tree = src ∨ ∃ plan w, Plan.make src s.patches = .ok plan ∧
      Changes src s.destination plan { tree := src } w ∧ (s.apply src).tree = w.tree := by
  rw [apply]
  cases hmake : Plan.make src s.patches with
  | error e => exact Or.inl rfl
  | ok plan =>
    have hevolves := Patching.evolves_carryOut Ls D (hwithin hmake)
    rw [Patching.Evolves, Patching.left] at hevolves
    refine Or.inr ⟨plan, _, rfl, hevolves, ?_⟩
    simp only [EStateM.run]
    cases Patching.carryOut s.destination plan { tree := src } <;> rfl

end TreePatch
