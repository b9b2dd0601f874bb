import Mathlib.Data.List.GetD
import TreePatch.Proofs.Walks

/-!
# Grafted copies

A graft adds a copy of a subtree of another tree: the old nodes stay as they were, and every node of
the subtree has a copy with the same content whose children are the copies of its children, in order.
-/

namespace TreePatch

namespace Tree

/-- `g` is `t` with a copy of the subtree at `id` of `donor`. -/
structure Grafted (t donor : Tree) (id : NodeId) (g : Graft) : Prop where
  name : g.tree.name = t.name
  units : g.tree.units = t.units
  size_lt : t.size < g.tree.size
  node_old : ∀ x < t.size, g.tree.node x = t.node x
  copy_eq : g.copy = t.size
  lookup_top : g.copies.lookup id = some g.copy
  /-- Exactly the nodes of the subtree have a copy. -/
  lookup_isSome : ∀ y, (g.copies.lookup y).isSome = true ↔ y = id ∨ id ∈ donor.ancestors y
  bounds : ∀ {y c}, g.copies.lookup y = some c → t.size ≤ c ∧ c < g.tree.size
  content : ∀ {y c}, g.copies.lookup y = some c → g.tree.content c = donor.content y
  children : ∀ {y c}, g.copies.lookup y = some c →
    ((donor.children y).map fun z => g.copies.lookup z) = (g.tree.children c).map some
  injective : ∀ {y y' c}, g.copies.lookup y = some c → g.copies.lookup y' = some c → y = y'
  top : g.tree.parent? g.copy = none

section

variable {t donor : Tree} (D : donor.Linked) (id : NodeId)

theorem nodup_preorder_subtree (L : t.Linked) (n : NodeId) : (t.subtree n).preorder.Nodup :=
  L.forest.nodup_preorder_unfold _ _

theorem mem_preorder_subtree (L : t.Linked) {n y : NodeId} :
    y ∈ (t.subtree n).preorder ↔ y = n ∨ n ∈ t.ancestors y :=
  L.forest.mem_preorder_unfold

/-- What a graft stores for a node of the subtree: its content with new links. -/
def graftEntry (donor : Tree) (s : Rose NodeId) (parent : Option Nat) (children : List Nat) : Node :=
  { (donor.node s.value) with parent, children }

theorem nodes_graft (t donor : Tree) (id : NodeId) :
    (t.graft donor id).tree.nodes =
      t.nodes ++ ((donor.subtree id).number (graftEntry donor) t.size none).toArray :=
  rfl

theorem size_graft (t donor : Tree) (id : NodeId) :
    (t.graft donor id).tree.size = t.size + (donor.subtree id).size := by
  rw [size, nodes_graft, Array.size_append]
  exact congrArg (t.nodes.size + ·) (List.size_toArray.trans (Rose.length_number _ _ _ _))

theorem node_graft_old (t donor : Tree) (id : NodeId) {x : NodeId} (hx : x < t.size) :
    (t.graft donor id).tree.node x = t.node x := by
  rw [node, node, nodes_graft, Array.getD_eq_getD_getElem?, Array.getD_eq_getD_getElem?,
    Array.getElem?_append_left hx]

theorem laid_graft (t donor : Tree) (id : NodeId) :
    Rose.Laid (fun s q cs => (graftEntry donor s q cs, s.value))
      (fun i => ((t.graft donor id).tree.node i, (donor.subtree id).preorder.getD (i - t.size) 0))
      t.size none (donor.subtree id) := by
  refine Rose.laid_of_number _ _ _ fun i x hx => ?_
  have hfst := congrArg (Option.map Prod.fst) hx
  have hsnd := congrArg (Option.map Prod.snd) hx
  rw [← List.getElem?_map, Rose.map_number] at hfst hsnd
  rw [Rose.number_value] at hsnd
  have hnode : (t.graft donor id).tree.node (t.size + i) = x.1 := by
    rw [node, nodes_graft, Array.getD_eq_getD_getElem?, size,
      Array.getElem?_append_right (Nat.le_add_right _ _), Nat.add_sub_cancel_left,
      List.getElem?_toArray]
    exact congrArg (Option.getD · Node.absent) hfst
  rw [hnode, Nat.add_sub_cancel_left, List.getD_eq_getElem?_getD, hsnd]
  rfl

end

section

variable {t donor : Tree} (D : donor.Linked) {id : NodeId}

include D

theorem lookup_graft {y i : Nat} :
    (t.graft donor id).copies.lookup y = some i ↔
      t.size ≤ i ∧ (donor.subtree id).preorder[i - t.size]? = some y :=
  lookup_zipIdx (nodup_preorder_subtree D id)

theorem lt_of_lookup_graft {y c : Nat} (h : (t.graft donor id).copies.lookup y = some c) :
    c < t.size + (donor.subtree id).size := by
  obtain ⟨hlow, hget⟩ := (lookup_graft D).mp h
  have hlt := (List.getElem?_eq_some_iff.mp hget).1
  rw [Rose.length_preorder] at hlt
  omega

theorem laid_of_lookup_graft {y c : Nat} (h : (t.graft donor id).copies.lookup y = some c) :
    ∃ q, Rose.Laid (fun s q cs => (graftEntry donor s q cs, s.value))
      (fun i => ((t.graft donor id).tree.node i, (donor.subtree id).preorder.getD (i - t.size) 0))
      c q (donor.subtree y) ∧ c + (donor.subtree y).size ≤ t.size + (donor.subtree id).size := by
  obtain ⟨hlow, hget⟩ := (lookup_graft D).mp h
  have hhigh := lt_of_lookup_graft D h
  obtain ⟨q, s, hs, ⟨z, rfl⟩, hstop, -⟩ := Rose.Laid.found (P := fun s => ∃ z, s = donor.subtree z)
    (fun a rs ⟨z, hz⟩ c hc => by
      rw [D.subtree_eq] at hz
      obtain ⟨-, rfl⟩ := Rose.node.inj hz
      obtain ⟨z', -, rfl⟩ := List.mem_map.mp hc
      exact ⟨z', rfl⟩) t.size none c _ (laid_graft t donor id) ⟨id, rfl⟩ hlow hhigh
  have hval := congrArg Prod.snd hs.get_eq
  simp only [List.getD_eq_getElem?_getD, hget, Option.getD_some] at hval
  rw [D.value_subtree] at hval
  exact ⟨q, hval ▸ hs, hval ▸ hstop⟩

theorem lookup_of_laid_graft {q : Option Nat} {y c : Nat} (hlow : t.size ≤ c)
    (hhigh : c < t.size + (donor.subtree id).size)
    (h : Rose.Laid (fun s q cs => (graftEntry donor s q cs, s.value))
      (fun i => ((t.graft donor id).tree.node i, (donor.subtree id).preorder.getD (i - t.size) 0))
      c q (donor.subtree y)) : (t.graft donor id).copies.lookup y = some c := by
  have hval := congrArg Prod.snd h.get_eq
  simp only [D.value_subtree] at hval
  have hlt : c - t.size < (donor.subtree id).preorder.length := by
    rw [Rose.length_preorder]
    omega
  rw [List.getD_eq_getElem _ _ hlt] at hval
  exact (lookup_graft D).mpr ⟨hlow, List.getElem?_eq_some_iff.mpr ⟨hlt, hval⟩⟩

theorem grafted : Grafted t donor id (t.graft donor id) where
  name := rfl
  units := rfl
  size_lt := by
    rw [size_graft]
    have := (donor.subtree id).size_pos
    omega
  node_old x hx := node_graft_old t donor id hx
  copy_eq := rfl
  lookup_top := by
    refine (lookup_graft D).mpr ⟨Nat.le_refl _, ?_⟩
    rw [show (t.graft donor id).copy - t.size = 0 from Nat.sub_self _, D.subtree_eq]
    rfl
  lookup_isSome y := by
    rw [← mem_preorder_subtree D, Option.isSome_iff_exists]
    constructor
    · rintro ⟨i, hi⟩
      exact List.mem_of_getElem? ((lookup_graft D).mp hi).2
    · intro hy
      obtain ⟨k, hk⟩ := List.mem_iff_getElem?.mp hy
      exact ⟨t.size + k, (lookup_graft D).mpr
        ⟨Nat.le_add_right _ _, by rw [Nat.add_sub_cancel_left]; exact hk⟩⟩
  bounds h := by
    rw [size_graft]
    exact ⟨((lookup_graft D).mp h).1, lt_of_lookup_graft D h⟩
  content h := by
    obtain ⟨q, hlaid, -⟩ := laid_of_lookup_graft D h
    have hnode := congrArg (fun x => x.1.toContent) hlaid.get_eq
    simp only [graftEntry, D.value_subtree] at hnode
    exact hnode
  children {y c} h := by
    obtain ⟨q, hlaid, hstop⟩ := laid_of_lookup_graft D h
    have hkids := hlaid.children
    have hnode : (t.graft donor id).tree.children c = Rose.topIds (c + 1) (donor.subtree y).children :=
      congrArg (fun x => x.1.children) hlaid.get_eq
    rw [← hnode, D.children_subtree, List.forall₂_map_right_iff] at hkids
    -- the number of a child is where the copy of that child stands
    refine List.ext_getElem (by simpa using hkids.length_eq.symm) fun k hk hk' => ?_
    rw [List.length_map] at hk hk'
    rw [List.getElem_map, List.getElem_map]
    have hlaidk := (List.forall₂_iff_get.mp hkids).2 k hk' hk
    simp only [List.get_eq_getElem] at hlaidk
    have hmem := List.getElem_mem hk'
    generalize ((t.graft donor id).tree.children c)[k] = i at hmem hlaidk ⊢
    rw [hnode] at hmem
    obtain ⟨hci, hic⟩ := Rose.mem_topIds_bounds hmem
    have hlow := ((lookup_graft D).mp h).1
    rw [Rose.size_eq] at hstop
    refine lookup_of_laid_graft D (Nat.le_trans hlow ?_) (Nat.lt_of_lt_of_le hic ?_) hlaidk
    · exact Nat.le_of_succ_le hci
    · rw [Nat.add_assoc, Nat.add_comm 1]
      exact hstop
  injective h h' := by
    have heq := ((lookup_graft D).mp h).2.symm.trans ((lookup_graft D).mp h').2
    exact Option.some.inj heq
  top := by
    have hnode := congrArg Prod.fst (laid_graft t donor id).get_eq
    exact congrArg Node.parent hnode

end

section

variable {t donor : Tree} {id : NodeId}

theorem parent_graft_new {c : Nat} (hlow : t.size ≤ c) (hhigh : c < (t.graft donor id).tree.size) :
    (t.graft donor id).tree.parent? c = none ∨ ∃ p < c, t.size ≤ p ∧
      (t.graft donor id).tree.parent? c = some p ∧ c ∈ (t.graft donor id).tree.children p := by
  rw [size_graft] at hhigh
  obtain ⟨q, s, hs, -, -, hq⟩ := Rose.Laid.found (P := fun _ => True) (fun _ _ _ _ _ => trivial)
    t.size none c _ (laid_graft t donor id) trivial hlow hhigh
  have hpar : (t.graft donor id).tree.parent? c = q := congrArg (fun x => x.1.parent) hs.get_eq
  rcases hq with ⟨-, rfl⟩ | ⟨p, q', s', hp, hpc, rfl, hs', -, hmem⟩
  · exact Or.inl hpar
  · have hkids : (t.graft donor id).tree.children p = Rose.topIds (p + 1) s'.children :=
      congrArg (fun x => x.1.children) hs'.get_eq
    exact Or.inr ⟨p, hpc, hp, hpar, hkids ▸ hmem⟩

theorem children_graft_new {p : Nat} (hlow : t.size ≤ p) (hhigh : p < (t.graft donor id).tree.size) :
    ((t.graft donor id).tree.children p).Nodup ∧
      ∀ c ∈ (t.graft donor id).tree.children p, p < c ∧
        (t.graft donor id).tree.parent? c = some p := by
  rw [size_graft] at hhigh
  obtain ⟨q, s, hs, -, -, -⟩ := Rose.Laid.found (P := fun _ => True) (fun _ _ _ _ _ => trivial)
    t.size none p _ (laid_graft t donor id) trivial hlow hhigh
  have hkids : (t.graft donor id).tree.children p = Rose.topIds (p + 1) s.children :=
    congrArg (fun x => x.1.children) hs.get_eq
  rw [hkids]
  refine ⟨Rose.nodup_topIds _ _, fun c hc => ⟨(Rose.mem_topIds_bounds hc).1, ?_⟩⟩
  obtain ⟨k, hk, rfl⟩ := List.getElem_of_mem hc
  have hlaid := (List.forall₂_iff_get.mp hs.children).2 k hk (by simpa using hk)
  exact congrArg (fun x => x.1.parent) hlaid.get_eq

end

theorem linked_graft {t donor : Tree} (L : t.Linked) (id : NodeId) :
    (t.graft donor id).tree.Linked := by
  have hsize := size_graft t donor id
  have hold : ∀ {x}, x < t.size → (t.graft donor id).tree.node x = t.node x :=
    fun hx => node_graft_old t donor id hx
  have hparold : ∀ {x}, x < t.size → (t.graft donor id).tree.parent? x = t.parent? x :=
    fun hx => congrArg Node.parent (hold hx)
  have hkidsold : ∀ {x}, x < t.size → (t.graft donor id).tree.children x = t.children x :=
    fun hx => congrArg Node.children (hold hx)
  -- an old node hangs under an old one, a new node under a new one
  have hpar : ∀ {p c}, (t.graft donor id).tree.parent? c = some p →
      c ∈ (t.graft donor id).tree.children p ∧
        ((c < t.size ∧ t.parent? c = some p) ∨ (t.size ≤ p ∧ p < c)) := by
    intro p c h
    by_cases hc : c < t.size
    · rw [hparold hc] at h
      exact ⟨hkidsold (L.parent_lt h) ▸ L.mem_children.mpr h, Or.inl ⟨hc, h⟩⟩
    · rcases parent_graft_new (Nat.le_of_not_lt hc) (lt_size_of_parent _ h) with
        hnone | ⟨p', hlt, hp', hpar, hmem⟩
      · rw [h] at hnone
        simp at hnone
      · obtain rfl := Option.some.inj (h.symm.trans hpar)
        exact ⟨hmem, Or.inr ⟨hp', hlt⟩⟩
  exact
    { root_lt := Nat.lt_of_lt_of_le L.root_lt (hsize ▸ Nat.le_add_right _ _)
      root_top := (hparold L.root_lt).trans L.root_top
      mem_children := fun {p c} => by
        refine ⟨fun hc => ?_, fun h => (hpar h).1⟩
        by_cases hp : p < t.size
        · rw [hkidsold hp, L.mem_children] at hc
          exact (hparold (t.lt_size_of_parent hc)).trans hc
        · exact ((children_graft_new (Nat.le_of_not_lt hp) (lt_size_of_mem_children _ hc)).2 c hc).2
      nodup := fun p => by
        by_cases hp : p < t.size
        · exact hkidsold hp ▸ L.nodup p
        · by_cases hp' : p < (t.graft donor id).tree.size
          · exact (children_graft_new (Nat.le_of_not_lt hp) hp').1
          · rw [Tree.children, node_of_size_le _ (Nat.le_of_not_lt hp')]
            exact List.nodup_nil
      acyclic := by
        obtain ⟨rank, hrank⟩ := L.acyclic
        refine ⟨fun x => if x < t.size then rank x else x, fun {p c} h => ?_⟩
        rcases (hpar h).2 with ⟨hc, h⟩ | ⟨hp, hlt⟩
        · simpa only [if_pos hc, if_pos (L.parent_lt h)] using hrank h
        · have hc : ¬ c < t.size := Nat.not_lt.mpr (Nat.le_trans hp (Nat.le_of_lt hlt))
          simpa only [if_neg hc, if_neg (Nat.not_lt.mpr hp)] using hlt }

/-- **A graft is a fresh, exact copy.** Its top has no parent. The copied nodes are those of the subtree in
preorder, each once, and their copies are numbered on from the old size. A copy carries what the node carries,
and its children are the copies of the children of the node, in order. The old nodes and the units stay as they
were, and the tree stays linked. -/
theorem Linked.graft_copies_exactly {t donor : Tree} (L : t.Linked) (D : donor.Linked) (id : NodeId) :
    let g := t.graft donor id
    g.tree.parent? g.copy = none ∧ g.copies.lookup id = some g.copy ∧
      g.copies.map (·.1) = donor.depthFirst id ∧ (donor.depthFirst id).Nodup ∧
      g.copies.map (·.2) = List.range' t.size (donor.depthFirst id).length ∧
      g.tree.size = t.size + (donor.depthFirst id).length ∧
      (∀ {y c}, g.copies.lookup y = some c → g.tree.content c = donor.content y ∧
        (g.tree.children c).map some = (donor.children y).map fun z => g.copies.lookup z) ∧
      (∀ x < t.size, g.tree.node x = t.node x) ∧ g.tree.units = t.units ∧ g.tree.name = t.name ∧
      g.tree.Linked := by
  intro g
  have G : Grafted t donor id g := grafted D
  have hwalk : donor.depthFirst id = (donor.subtree id).preorder := congrFun D.depthFirst_eq id
  refine ⟨G.top, G.lookup_top, ?_, hwalk ▸ nodup_preorder_subtree D id, ?_, ?_,
    fun h => ⟨G.content h, (G.children h).symm⟩, G.node_old, G.units, G.name, linked_graft L id⟩
  · rw [hwalk]
    exact List.zipIdx_map_fst _ _
  · rw [hwalk]
    exact List.zipIdx_map_snd _ _
  · rw [hwalk, Rose.length_preorder]
    exact size_graft t donor id

/-- The donor's nodes are not numbered in preorder, as one of them was moved. -/
theorem Linked.graft_copies_exactly_moved :
    let node (label : String) (below : List (Rose Content)) : Rose Content :=
      .node { kind := "identifier", label, role := .child } below
    let whole := ofRose "donor" none (.node rootContent [node "a" [node "b" [], node "c" []], node "d" []])
    let parted := (whole.detach 4).toOption.getD whole
    let donor := (parted.insertChild 1 1 4).toOption.getD parted
    let t := ofRose "t" none (.node rootContent [node "e" []])
    let g := t.graft donor 1
    t.Linked ∧ donor.Linked ∧ donor.depthFirst 1 = [1, 2, 4, 3] ∧
      g.copies = [(1, 2), (2, 3), (4, 4), (3, 5)] ∧ g.tree.children 2 = [3, 4, 5] ∧
      g.tree.parent? g.copy = none ∧ g.tree.size = t.size + (donor.depthFirst 1).length ∧ g.tree.Linked := by
  intro node whole parted donor t g
  have L : t.Linked := linked_ofRose _ _ _
  have P : parted.Linked := (linked_ofRose _ _ _).getD_detach 4
  have D : donor.Linked := by
    have htop : parted.parent? 4 = none := by decide +kernel
    obtain ⟨t', ht', hspec⟩ := insertChild_ok (i := 1) (by decide +kernel : 1 < parted.size)
      (by decide +kernel) htop (by decide +kernel)
    have heq : donor = t' := congrArg (fun e => e.toOption.getD parted) ht'
    exact heq ▸ hspec.linked P htop (by decide +kernel) (by decide +kernel)
  obtain ⟨htop, -, -, -, -, hsize, -, -, -, -, hlinked⟩ := L.graft_copies_exactly D 1
  exact ⟨L, D, by decide +kernel, by decide +kernel, by decide +kernel, htop, hsize, hlinked⟩

end Tree

end TreePatch
