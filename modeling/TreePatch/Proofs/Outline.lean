import TreePatch.Outline
import TreePatch.Proofs.Linked

/-!
# What outlines show of their trees

An outline numbers the tracked nodes of a tree in preorder, so the subtree under a node takes up
consecutive numbers. `Stands t i n` says that number `i` of the outline of `t` stands for the node `n`:
below corresponding nodes, the children of the outline stand for the tracked children of the tree.
-/

namespace TreePatch

namespace Rose

mutual

theorem size_map {α β : Type} (f : α → β) : ∀ r : Rose α, (r.map f).size = r.size
  | node a rs => by rw [map, size, size, sizeAll_mapAll f rs]

theorem sizeAll_mapAll {α β : Type} (f : α → β) : ∀ rs : List (Rose α),
    sizeAll (mapAll f rs) = sizeAll rs
  | [] => rfl
  | r :: rs => by rw [mapAll, sizeAll, sizeAll, size_map f r, sizeAll_mapAll f rs]

end

mutual

theorem preorder_map {α β : Type} (f : α → β) : ∀ r : Rose α,
    (r.map f).preorder = r.preorder.map f
  | node a rs => by rw [map, preorder, preorder, preorderAll_mapAll f rs, List.map_cons]

theorem preorderAll_mapAll {α β : Type} (f : α → β) : ∀ rs : List (Rose α),
    preorderAll (mapAll f rs) = (preorderAll rs).map f
  | [] => rfl
  | r :: rs => by
    rw [mapAll, preorderAll, preorderAll, preorder_map f r, preorderAll_mapAll f rs,
      List.map_append]

end

mutual

theorem eq_of_beq {α : Type} [BEq α] [LawfulBEq α] : ∀ r s : Rose α, r.beq s = true → r = s
  | node a rs, node b ss, h => by
    rw [beq, Bool.and_eq_true] at h
    rw [LawfulBEq.eq_of_beq h.1, eq_of_beqAll rs ss h.2]

theorem eq_of_beqAll {α : Type} [BEq α] [LawfulBEq α] : ∀ rs ss : List (Rose α),
    beqAll rs ss = true → rs = ss
  | [], [], _ => rfl
  | r :: rs, s :: ss, h => by
    rw [beqAll, Bool.and_eq_true] at h
    rw [eq_of_beq r s h.1, eq_of_beqAll rs ss h.2]
  | [], _ :: _, h => by simp [beqAll] at h
  | _ :: _, [], h => by simp [beqAll] at h

end

theorem mapAll_eq_map {α β : Type} (f : α → β) (rs : List (Rose α)) :
    mapAll f rs = rs.map (Rose.map f) := by
  induction rs with
  | nil => rfl
  | cons r rs ih => rw [mapAll, ih, List.map_cons]

end Rose

namespace Outline

/-- What the outline of a numbered tree of marks holds for one of its nodes. -/
def entry (s : Rose Mark) (parent : Option Nat) (children : List Nat) : OutlineNode :=
  ⟨s.value, parent, children, shapeOf s⟩

theorem shapeOf_node (a : Mark) (rs : List (Rose Mark)) :
    shapeOf (.node a rs) = .node (a.kind, a.label) (rs.map shapeOf) := by
  rw [shapeOf, Rose.map, Rose.mapAll_eq_map]
  rfl

theorem size_ofRose (r : Rose Mark) : (ofRose r).size = r.size := by
  rw [size, ofRose, List.size_toArray, Rose.length_number]

theorem node_of_size_le (o : Outline) {i : Nat} (h : o.size ≤ i) : o.node i = absent := by
  rw [node, Array.getD_eq_getD_getElem?, Array.getElem?_eq_none h]
  rfl

theorem numbered_ofRose (r : Rose Mark) :
    Rose.Numbered entry (·.parent) (·.children) (ofRose r).node r where
  par_entry _ _ _ := rfl
  kids_entry _ _ _ := rfl
  laid := by
    refine Rose.laid_of_number 0 none r fun i x hx => ?_
    rw [Nat.zero_add, node, Array.getD_eq_getD_getElem?]
    have hget : (ofRose r).nodes[i]? = some x := by
      rw [ofRose, List.getElem?_toArray]
      exact hx
    rw [hget, Option.getD_some]
  outside i hi := by
    rw [node_of_size_le _ (by rw [size_ofRose]; exact hi)]
    exact ⟨rfl, rfl⟩

theorem forest_ofRose (r : Rose Mark) :
    Forest (ofRose r).parent? (ofRose r).children (ofRose r).size := by
  rw [size_ofRose]
  exact (numbered_ofRose r).forest

theorem parent_lt (r : Rose Mark) {i q : Nat} (h : (ofRose r).parent? i = some q) :
    q < i ∧ i < (ofRose r).size := by
  rw [size_ofRose]
  exact ⟨((numbered_ofRose r).of_par_eq_some h).1, ((numbered_ofRose r).of_par_eq_some h).2.1⟩

theorem weight_of_laid {o : Outline} {i : Nat} {q : Option Nat} {s : Rose Mark}
    (h : Rose.Laid entry o.node i q s) : o.weight i = s.size := by
  rw [weight, shape, h.get_eq]
  exact Rose.size_map _ s

theorem preorder_ofRose (r : Rose Mark) {i : Nat} (hi : i < (ofRose r).size) :
    (ofRose r).preorder i = List.range' i ((ofRose r).weight i) := by
  have N := numbered_ofRose r
  rw [size_ofRose] at hi
  obtain ⟨s, hs, hstop⟩ := N.exists_laid_top hi
  have hwalk := N.depthFirst_laid r.size [(i, s)]
    (fun x hx => by
      rw [List.mem_singleton] at hx
      subst hx
      exact ⟨_, hs⟩)
    (by simp only [List.map_cons, List.map_nil, Rose.sizeAll]; omega)
  rw [weight_of_laid hs, preorder, size_ofRose]
  rw [List.flatMap_singleton] at hwalk
  exact hwalk

theorem preorder_shape (r : Rose Mark) {i : Nat} (hi : i < (ofRose r).size) :
    ((ofRose r).preorder i).map (fun n => (((ofRose r).node n).kind, ((ofRose r).node n).label)) =
      ((ofRose r).shape i).preorder := by
  have N := numbered_ofRose r
  have hi' := hi
  rw [size_ofRose] at hi'
  obtain ⟨s, hs, -⟩ := N.exists_laid_top hi'
  have hshape : (ofRose r).shape i = shapeOf s := by
    rw [shape, hs.get_eq]
    rfl
  rw [preorder_ofRose r hi, weight_of_laid hs, hshape, shapeOf, Rose.preorder_map]
  exact Rose.Laid.map_values (v := fun n : OutlineNode => (n.kind, n.label))
    (f := fun m : Mark => (m.kind, m.label)) (fun _ _ _ => rfl) i _ s hs

theorem preorder_lt_size (r : Rose Mark) {i j : Nat} (hi : i < (ofRose r).size)
    (hj : j ∈ (ofRose r).preorder i) : j < (ofRose r).size := by
  rw [size_ofRose] at hi ⊢
  obtain ⟨s, hs, hstop⟩ := (numbered_ofRose r).exists_laid_top hi
  rw [preorder_ofRose r (by rw [size_ofRose]; exact hi), weight_of_laid hs,
    List.mem_range'_1] at hj
  omega

theorem preorder_root (r : Rose Mark) :
    (ofRose r).preorder root = List.range (ofRose r).size := by
  have hroot : Rose.Laid entry (ofRose r).node root none r := (numbered_ofRose r).laid
  rw [preorder_ofRose r (by rw [size_ofRose]; exact r.size_pos), weight_of_laid hroot, size_ofRose,
    List.range_eq_range']

theorem mem_preorder_iff (r : Rose Mark) {i j : Nat} (hi : i < (ofRose r).size) :
    j ∈ (ofRose r).preorder i ↔ j = i ∨ i ∈ (ofRose r).ancestors j := by
  have N := numbered_ofRose r
  have hi' := hi
  rw [size_ofRose] at hi'
  obtain ⟨s, hs, -⟩ := N.exists_laid_top hi'
  rw [preorder_ofRose r hi, weight_of_laid hs, List.mem_range'_1, N.mem_interval_iff hs, ancestors,
    size_ofRose]
  rfl

/-! ## Outlines of trees -/

theorem tracked_forest {t : Tree} (L : t.Linked) :
    Forest (fun c => if t.isIgnored c then none else t.parent? c) (trackedChildren t) t.size where
  mem_below {p c} := by
    rw [trackedChildren, List.mem_filter, L.mem_children]
    cases t.isIgnored c <;> simp
  nodup p := (L.nodup p).filter _
  lt_size {p c} h := by
    split at h
    · simp at h
    · exact L.forest.lt_size h
  acyclic := by
    obtain ⟨rank, hrank⟩ := L.acyclic
    refine ⟨rank, fun {p c} h => ?_⟩
    split at h
    · simp at h
    · exact hrank h

/-- The marks of the tracked subtree under a node. -/
def markTree (t : Tree) (n : NodeId) : Rose Mark :=
  (Rose.unfold (trackedChildren t) t.size n).map (Mark.ofNode t)

theorem markTree_eq {t : Tree} (L : t.Linked) (n : NodeId) :
    markTree t n = .node (Mark.ofNode t n) ((trackedChildren t n).map (markTree t)) := by
  rw [markTree, (tracked_forest L).unfold_eq, Rose.map, Rose.mapAll_eq_map, List.map_map]
  rfl

/-- Number `i` of the outline of `t` stands for the node `n`. -/
def Stands (t : Tree) (i : Nat) (n : NodeId) : Prop :=
  ∃ q, Rose.Laid entry (ofTree t).node i q (markTree t n)

theorem ofTree_eq (t : Tree) : ofTree t = ofRose (.node .top [markTree t Tree.root]) := rfl

namespace Stands

variable {t : Tree} {i j : Nat} {n : NodeId}

theorem toMark (L : t.Linked) (h : Stands t i n) : ((ofTree t).node i).toMark = Mark.ofNode t n := by
  obtain ⟨q, h⟩ := h
  rw [h.get_eq, markTree_eq L]
  rfl

theorem origin (L : t.Linked) (h : Stands t i n) : ((ofTree t).node i).origin = some (t.ref n) := by
  rw [h.toMark L]
  rfl

theorem unique (L : t.Linked) {n' : NodeId} (h : Stands t i n) (h' : Stands t i n') : n = n' := by
  have heq := h.origin L
  rw [h'.origin L] at heq
  exact (congrArg NodeRef.node (Option.some.inj heq)).symm

theorem children (L : t.Linked) (h : Stands t i n) :
    List.Forall₂ (Stands t) ((ofTree t).children i) (trackedChildren t n) := by
  obtain ⟨q, h⟩ := h
  have hkids : (ofTree t).children i = Rose.topIds (i + 1) (markTree t n).children := by
    rw [Outline.children, h.get_eq]
    rfl
  have hchildren := h.children
  rw [hkids]
  rw [markTree_eq L] at hchildren ⊢
  exact (List.forall₂_map_right_iff.mp hchildren).imp fun c m hc => ⟨_, hc⟩

end Stands

theorem size_pos (t : Tree) : 0 < (ofTree t).size := by
  rw [ofTree_eq, size_ofRose]
  exact Rose.size_pos _

theorem preorder_root_ofTree (t : Tree) :
    (ofTree t).preorder root = List.range (ofTree t).size :=
  preorder_root _

theorem stands_root (t : Tree) : Stands t 1 Tree.root :=
  ⟨some 0, (numbered_ofRose (.node .top [markTree t Tree.root])).laid.2.1⟩

theorem children_root (t : Tree) : (ofTree t).children root = [1] := by
  have h := (numbered_ofRose (.node .top [markTree t Tree.root])).laid.get_eq
  rw [children, ofTree_eq, h]
  rfl

theorem toMark_root (t : Tree) : ((ofTree t).node root).toMark = Mark.top := by
  have h := (numbered_ofRose (.node .top [markTree t Tree.root])).laid.get_eq
  rw [ofTree_eq, h]
  rfl

theorem forest_ofTree (t : Tree) :
    Forest (ofTree t).parent? (ofTree t).children (ofTree t).size :=
  forest_ofRose _

theorem exists_stands {t : Tree} (L : t.Linked) {i : Nat} (hi : i < (ofTree t).size)
    (hpos : i ≠ root) : ∃ n, Stands t i n := by
  have N := numbered_ofRose (.node .top [markTree t Tree.root])
  rw [ofTree_eq, size_ofRose] at hi
  -- every subtree other than the whole one is the tracked subtree of a node
  let P : Rose Mark → Prop := fun s =>
    s = .node .top [markTree t Tree.root] ∨ ∃ n, s = markTree t n
  have hP : ∀ a rs, P (.node a rs) → ∀ c ∈ rs, P c := by
    rintro a rs (h | ⟨n, h⟩) c hc
    · obtain ⟨-, rfl⟩ := Rose.node.inj h
      exact Or.inr ⟨Tree.root, List.mem_singleton.mp hc⟩
    · rw [markTree_eq L] at h
      obtain ⟨-, rfl⟩ := Rose.node.inj h
      obtain ⟨m, -, rfl⟩ := List.mem_map.mp hc
      exact Or.inr ⟨m, rfl⟩
  obtain ⟨s, hs, hPs, hstop, -⟩ := N.exists_laid hP (Or.inl rfl) hi
  rcases hPs with rfl | ⟨n, rfl⟩
  · -- the whole tree only fits at the first number
    exact absurd (show i = 0 by omega) hpos
  · exact ⟨n, _, hs⟩

theorem parent_of_root (t : Tree) : (ofTree t).parent? root = none := by
  have h := (numbered_ofRose (.node .top [markTree t Tree.root])).laid.get_eq
  rw [parent?, ofTree_eq, h]
  rfl

theorem parent_of_one (t : Tree) : (ofTree t).parent? 1 = some root :=
  (forest_ofTree t).mem_below.mp (by rw [children_root]; simp)

theorem Stands.parent {t : Tree} (L : t.Linked) {i : Nat} {n : NodeId} (h : Stands t i n)
    (hi : i < (ofTree t).size) (hpos : i ≠ root) :
    (i = 1 ∧ n = Tree.root) ∨ ∃ j p, (ofTree t).parent? i = some j ∧ j ≠ root ∧ Stands t j p ∧
      t.parent? n = some p ∧ t.isIgnored n = false := by
  have F := forest_ofTree t
  have N := numbered_ofRose (.node .top [markTree t Tree.root])
  have hi' := hi
  rw [ofTree_eq, size_ofRose] at hi'
  obtain ⟨s, -, -, -, hs⟩ := N.exists_laid (P := fun _ => True) (fun _ _ _ _ _ => trivial) trivial
    hi'
  rcases hs with ⟨rfl, -⟩ | ⟨j, hji, hpar, hmem⟩
  · exact absurd rfl hpos
  · have hpar : (ofTree t).parent? i = some j := hpar
    have hmem : i ∈ (ofTree t).children j := hmem
    by_cases hj : j = root
    · subst hj
      rw [children_root, List.mem_singleton] at hmem
      subst hmem
      exact Or.inl ⟨rfl, h.unique L (stands_root t)⟩
    · obtain ⟨p, hp⟩ := exists_stands L (Nat.lt_trans hji hi) hj
      obtain ⟨k, hk, hik⟩ := List.getElem_of_mem hmem
      have hforall := List.forall₂_iff_get.mp (hp.children L)
      have hk' : k < (trackedChildren t p).length := hforall.1 ▸ hk
      have hstands := hforall.2 k hk hk'
      simp only [List.get_eq_getElem, hik] at hstands
      have hn := h.unique L hstands
      have hmem' : n ∈ trackedChildren t p := hn ▸ List.getElem_mem hk'
      rw [trackedChildren, List.mem_filter, L.mem_children] at hmem'
      exact Or.inr ⟨j, p, hpar, hj, hp, hmem'.1, by simpa using hmem'.2⟩

theorem Stands.lt_size {t : Tree} (L : t.Linked) {i : Nat} {n : NodeId} (h : Stands t i n) :
    i < (ofTree t).size := by
  by_contra hi
  have horigin := h.origin L
  rw [node_of_size_le _ (by omega)] at horigin
  simp [absent, Mark.top] at horigin

theorem Stands.ne_root {t : Tree} (L : t.Linked) {i : Nat} {n : NodeId} (h : Stands t i n) :
    i ≠ root := by
  rintro rfl
  have horigin := h.origin L
  rw [toMark_root] at horigin
  simp [Mark.top] at horigin

theorem Stands.injective {t : Tree} (L : t.Linked) {i j : Nat} {n : NodeId} (hi : Stands t i n)
    (hj : Stands t j n) : i = j := by
  induction i using Nat.strongRecOn generalizing j n with
  | _ i ih =>
    rcases hi.parent L (hi.lt_size L) (hi.ne_root L) with ⟨rfl, rfl⟩ | ⟨i', p, hi', -, hp, hpar, -⟩
    · rcases hj.parent L (hj.lt_size L) (hj.ne_root L) with ⟨rfl, -⟩ | ⟨_, _, -, -, -, hpar, -⟩
      · rfl
      · exact absurd rfl (L.ne_root_of_parent hpar)
    · rcases hj.parent L (hj.lt_size L) (hj.ne_root L) with
        ⟨-, rfl⟩ | ⟨j', p', hj', -, hp', hpar', -⟩
      · exact absurd rfl (L.ne_root_of_parent hpar)
      · obtain rfl : p = p' := Option.some.inj (hpar ▸ hpar')
        obtain rfl := ih i' (parent_lt _ hi').1 hp hp'
        -- both are children of one number; the tracked children are distinct
        obtain ⟨k, hk, hki⟩ := List.getElem_of_mem ((forest_ofTree t).mem_below.mpr hi')
        obtain ⟨l, hl, hlj⟩ := List.getElem_of_mem ((forest_ofTree t).mem_below.mpr hj')
        have hforall := List.forall₂_iff_get.mp (hp.children L)
        have hk' : k < (trackedChildren t p).length := hforall.1 ▸ hk
        have hl' : l < (trackedChildren t p).length := hforall.1 ▸ hl
        have hsk := hforall.2 k hk hk'
        have hsl := hforall.2 l hl hl'
        simp only [List.get_eq_getElem, hki, hlj] at hsk hsl
        have heq : (trackedChildren t p)[k] = (trackedChildren t p)[l] :=
          (hi.unique L hsk).symm.trans (hj.unique L hsl)
        have hkl : k = l := (List.Nodup.getElem_inj_iff ((tracked_forest L).nodup p)).mp heq
        subst hkl
        rw [← hki, ← hlj]

theorem eq_root_of_parent_eq_none {t : Tree} (L : t.Linked) {i : Nat} (hi : i < (ofTree t).size)
    (h : (ofTree t).parent? i = none) : i = root := by
  by_contra hne
  obtain ⟨n, hn⟩ := exists_stands L hi hne
  rcases hn.parent L hi hne with ⟨rfl, -⟩ | ⟨j, -, hj, -⟩
  · rw [parent_of_one] at h
    simp at h
  · rw [h] at hj
    simp at hj

theorem origin_eq_some_iff {t : Tree} (L : t.Linked) {i : Nat} {r : NodeRef} :
    ((ofTree t).node i).origin = some r ↔ ∃ n, Stands t i n ∧ r = t.ref n := by
  constructor
  · intro h
    have hlt : i < (ofTree t).size := by
      by_contra hi
      rw [node_of_size_le _ (by omega)] at h
      simp [absent, Mark.top] at h
    have hne : i ≠ root := by
      rintro rfl
      rw [toMark_root] at h
      simp [Mark.top] at h
    obtain ⟨n, hn⟩ := exists_stands L hlt hne
    exact ⟨n, hn, Option.some.inj (h.symm.trans (hn.origin L))⟩
  · rintro ⟨n, hn, rfl⟩
    exact hn.origin L

theorem origin_injective {t : Tree} (L : t.Linked) {i j : Nat} {r : NodeRef}
    (hi : ((ofTree t).node i).origin = some r) (hj : ((ofTree t).node j).origin = some r) :
    i = j := by
  obtain ⟨n, hn, rfl⟩ := (origin_eq_some_iff L).mp hi
  obtain ⟨n', hn', heq⟩ := (origin_eq_some_iff L).mp hj
  obtain rfl : n = n' := congrArg NodeRef.node heq
  exact hn.injective L hn'

theorem find?_eq_some_iff {t : Tree} (L : t.Linked) {i : Nat} {r : NodeRef} :
    (ofTree t).find? r = some i ↔ ∃ n, Stands t i n ∧ r = t.ref n := by
  have hnode : ∀ {j : Nat} (hj : j < (ofTree t).nodes.toList.length),
      (ofTree t).nodes.toList[j] = (ofTree t).node j := by
    intro j hj
    rw [node, Array.getD_eq_getD_getElem?, ← Array.getElem?_toList, List.getElem?_eq_getElem hj]
    rfl
  rw [find?, List.findIdx?_eq_some_iff_getElem]
  simp only [hnode, beq_iff_eq]
  constructor
  · rintro ⟨-, horigin, -⟩
    exact (origin_eq_some_iff L).mp horigin
  · rintro ⟨n, hn, rfl⟩
    refine ⟨hn.lt_size L, hn.origin L, fun j hji hj => ?_⟩
    exact absurd (origin_injective L hj (hn.origin L)) (Nat.ne_of_lt hji)

theorem Stands.isAttached {t : Tree} (L : t.Linked) {i : Nat} {n : NodeId} (h : Stands t i n) :
    t.isAttached n = true := by
  induction i using (forest_ofTree t).induction_up generalizing n with
  | step i ih =>
    rcases h.parent L (h.lt_size L) (h.ne_root L) with ⟨-, rfl⟩ | ⟨j, p, hj, -, hp, hpar, -⟩
    · exact Tree.Linked.isAttached_root
    · exact (L.isAttached_of_parent hpar).mpr (ih j hj hp)

theorem mem_trackedChildren {t : Tree} (L : t.Linked) {n c : NodeId} :
    c ∈ trackedChildren t n ↔ t.parent? c = some n ∧ t.isIgnored c = false := by
  rw [trackedChildren, List.mem_filter, L.mem_children, Bool.not_eq_true']

theorem Stands.exists_child {t : Tree} (L : t.Linked) {i : Nat} {n c : NodeId} (h : Stands t i n)
    (hc : t.parent? c = some n) (htracked : t.isIgnored c = false) :
    ∃ j, Stands t j c ∧ (ofTree t).parent? j = some i := by
  have hmem : c ∈ trackedChildren t n := (mem_trackedChildren L).mpr ⟨hc, htracked⟩
  obtain ⟨k, hk, rfl⟩ := List.getElem_of_mem hmem
  have hlen := (h.children L).length_eq
  have hget := (List.forall₂_iff_get.mp (h.children L)).2 k (by omega) hk
  refine ⟨_, hget, (forest_ofTree t).mem_below.mp ?_⟩
  exact List.get_mem _ _

theorem Stands.exists_parent {t : Tree} (L : t.Linked) {j : Nat} {n c : NodeId} (h : Stands t j c)
    (hc : t.parent? c = some n) :
    t.isIgnored c = false ∧ ∃ i, Stands t i n ∧ (ofTree t).parent? j = some i := by
  rcases h.parent L (h.lt_size L) (h.ne_root L) with ⟨-, rfl⟩ | ⟨i, p, hi, -, hp, hpar, htracked⟩
  · exact absurd rfl (L.ne_root_of_parent hc)
  · obtain rfl := Option.some.inj (hc.symm.trans hpar)
    exact ⟨htracked, i, hp, hi⟩

theorem pairwise_children (t : Tree) {i : Nat} (hi : i < (ofTree t).size) :
    ((ofTree t).children i).Pairwise (· < ·) := by
  have N := numbered_ofRose (.node .top [markTree t Tree.root])
  obtain ⟨s, hs, -⟩ := N.exists_laid_top (by rwa [ofTree_eq, size_ofRose] at hi)
  have hkids : (ofTree t).children i = Rose.topIds (i + 1) s.children := N.kids_of_laid hs
  rw [hkids]
  exact Rose.pairwise_topIds _ _

end Outline

end TreePatch
