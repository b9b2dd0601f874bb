import Mathlib.Logic.Function.Basic
import TreePatch.Proofs.Edit
import TreePatch.Proofs.Outline

/-!
# Copies and outlines node by node

The copy of a subtree and the outline of a tree are defined at one stroke: a subtree is unfolded, and its
nodes are numbered in preorder. Here both are made node by node. A copy adds one node at a time and links
it under the copy of its parent when all below it is there (`Copying.run`). An outline links a node as
soon as it is added and notes its number in a table (`Draft.project`); then it goes from the last node to
the first and computes form and weight of each from those of its children (`Draft.sweep`). What comes out
is the same.
-/

namespace TreePatch

/-! ## Listings that grow -/

section

variable {α β γ σ : Type}

/-- If each step appends the listing of a tree and gives `q` its top as a further child, the steps together
append the listings of all trees and give `q` all their tops. -/
theorem foldl_listing (nodes : σ → Array β) (step : σ → α → σ) (tree : α → Rose γ)
    (entry : Rose γ → Option Nat → List Nat → β) (grow : List Nat → β → β) {q : Nat}
    (hnil : grow [] = id) (happend : ∀ xs ys, grow ys ∘ grow xs = grow (xs ++ ys))
    (hstep : ∀ s a, q < (nodes s).size → nodes (step s a) =
      (nodes s).modify q (grow [(nodes s).size]) ++
        ((tree a).number entry (nodes s).size (some q)).toArray)
    (l : List α) (s : σ) (hq : q < (nodes s).size) :
    nodes (l.foldl step s) =
      (nodes s).modify q (grow (Rose.topIds (nodes s).size (l.map tree))) ++
        (Rose.numberAll entry (nodes s).size (some q) (l.map tree)).toArray := by
  induction l generalizing s with
  | nil =>
    apply Array.ext_getElem?
    intro j
    simp [Rose.topIds, Rose.numberAll, hnil, Array.getElem?_modify]
  | cons a l ih =>
    have hnodes := hstep s a hq
    have hsize : (nodes (step s a)).size = (nodes s).size + (tree a).size := by
      simp [hnodes, Rose.length_number]
    rw [List.foldl_cons, ih (step s a) (by omega), hsize, hnodes, List.map_cons, Rose.topIds,
      Rose.numberAll, modify_append_of_lt (by rwa [Array.size_modify]), modify_modify, happend,
      List.singleton_append, Array.append_assoc]
    simp

end

/-! ## Copies -/

/-- A tree that nodes are copied into, with the nodes copied so far and their copies. -/
structure Copying where
  tree : Tree
  copies : List (NodeId × NodeId)

namespace Copying

/-- Adds an unlinked copy of the node `id` of `donor`. -/
def copyNode (donor : Tree) (s : Copying) (id : NodeId) : Copying where
  tree := s.tree.addNode (donor.content id)
  copies := s.copies ++ [(id, s.tree.size)]

/-- Links `child` as the last child of `parent`. -/
def link (s : Copying) (parent child : NodeId) : Copying :=
  { s with
    tree := (s.tree.modify child fun n => { n with parent := some parent }).modify parent
      fun n => { n with children := n.children ++ [child] } }

/-- Copies the node `id` of `donor`, then its children one after the other with all that is below them, at
most `depth` levels. The copy of a child is linked when its subtree is there. -/
def run (donor : Tree) : (depth : Nat) → Copying → NodeId → Copying
  | 0, s, id => s.copyNode donor id
  | depth + 1, s, id =>
    (donor.children id).foldl (fun u c => (run donor depth u c).link s.tree.size u.tree.size)
      (s.copyNode donor id)

/-- What is listed for a copied node. -/
def entry (donor : Tree) (r : Rose NodeId) (parent : Option NodeId) (children : List NodeId) : Node :=
  { (donor.node r.value) with parent, children }

theorem nodes_link {s u : Copying} {q : NodeId} (hq : q < u.tree.size) (donor : Tree) (r : Rose NodeId)
    (hs : s.tree.nodes = u.tree.nodes ++ (r.number (entry donor) u.tree.size none).toArray) :
    (s.link q u.tree.size).tree.nodes =
      u.tree.nodes.modify q (fun n => { n with children := n.children ++ [u.tree.size] }) ++
        (r.number (entry donor) u.tree.size (some q)).toArray := by
  cases r with
  | node a rs =>
    change (s.tree.nodes.modify u.tree.nodes.size fun n => { n with parent := some q }).modify q
      (fun n => { n with children := n.children ++ [u.tree.size] }) = _
    rw [hs, Rose.number, Rose.number, modify_append_size, modify_append_of_lt hq]
    rfl

theorem nodes_run (donor : Tree) (depth : Nat) (s : Copying) (id : NodeId) :
    (run donor depth s id).tree.nodes = s.tree.nodes ++
      ((Rose.unfold donor.children depth id).number (entry donor) s.tree.size none).toArray := by
  induction depth generalizing s id with
  | zero =>
    change s.tree.nodes.push { toContent := donor.content id } = _
    rw [Array.push_eq_append]
    rfl
  | succ depth ih =>
    have hsize : (s.copyNode donor id).tree.nodes.size = s.tree.size + 1 := Array.size_push ..
    have hfold := foldl_listing (fun u : Copying => u.tree.nodes)
      (fun u c => (run donor depth u c).link s.tree.size u.tree.size) (Rose.unfold donor.children depth)
      (entry donor) (fun ids n => { n with children := n.children ++ ids })
      (by funext n; simp) (fun xs ys => by funext n; simp)
      (fun u c hq => nodes_link hq donor _ (ih u c)) (donor.children id) (s.copyNode donor id)
      (by rw [hsize]; exact Nat.lt_succ_self _)
    rw [hsize] at hfold
    rw [run, hfold, Rose.unfold, Rose.number]
    exact push_modify_append s.tree.nodes { toContent := donor.content id } _ _

theorem size_run (donor : Tree) (depth : Nat) (s : Copying) (id : NodeId) :
    (run donor depth s id).tree.size = s.tree.size + (Rose.unfold donor.children depth id).size := by
  simp [Tree.size, nodes_run, Rose.length_number]

theorem size_link (s : Copying) (parent child : NodeId) : (s.link parent child).tree.size = s.tree.size := by
  rw [link, Tree.size_modify, Tree.size_modify]

theorem copies_foldl {donor : Tree} {depth : Nat} {q : NodeId}
    (hrun : ∀ u c, (run donor depth u c).copies =
      u.copies ++ (Rose.unfold donor.children depth c).preorder.zipIdx u.tree.size)
    (cs : List NodeId) (u : Copying) :
    (cs.foldl (fun u c => (run donor depth u c).link q u.tree.size) u).copies =
      u.copies ++ (Rose.preorderAll (cs.map (Rose.unfold donor.children depth))).zipIdx u.tree.size := by
  induction cs generalizing u with
  | nil => simp [Rose.preorderAll]
  | cons c cs ih =>
    rw [List.foldl_cons, ih, size_link, size_run, List.map_cons, Rose.preorderAll, List.zipIdx_append,
      Rose.length_preorder]
    change (run donor depth u c).copies ++ _ = _
    rw [hrun, List.append_assoc]

theorem copies_run (donor : Tree) (depth : Nat) (s : Copying) (id : NodeId) :
    (run donor depth s id).copies =
      s.copies ++ (Rose.unfold donor.children depth id).preorder.zipIdx s.tree.size := by
  induction depth generalizing s id with
  | zero => rfl
  | succ depth ih =>
    have hsize : (s.copyNode donor id).tree.size = s.tree.size + 1 := Array.size_push ..
    rw [run, copies_foldl ih, hsize, Rose.unfold, Rose.preorder, List.zipIdx_cons]
    change s.copies ++ [(id, s.tree.size)] ++ _ = _
    rw [List.append_assoc, List.singleton_append]

theorem frame_run (donor : Tree) (depth : Nat) (s : Copying) (id : NodeId) :
    (run donor depth s id).tree.name = s.tree.name ∧ (run donor depth s id).tree.units = s.tree.units := by
  induction depth generalizing s id with
  | zero => exact ⟨rfl, rfl⟩
  | succ depth ih =>
    rw [run]
    refine List.foldlRecOn (motive := fun u : Copying => u.tree.name = s.tree.name ∧ u.tree.units = s.tree.units)
      _ _ ⟨rfl, rfl⟩ fun u hu c _ => ?_
    exact ⟨(ih u c).1.trans hu.1, (ih u c).2.trans hu.2⟩

end Copying

/-- **A copy of a subtree is what comes of copying node by node.** -/
theorem Tree.graft_eq_run (t donor : Tree) (id : NodeId) :
    t.graft donor id =
      { tree := (Copying.run donor donor.size ⟨t, []⟩ id).tree
        copy := t.size
        copies := (Copying.run donor donor.size ⟨t, []⟩ id).copies } := by
  obtain ⟨hname, hunits⟩ := Copying.frame_run donor donor.size ⟨t, []⟩ id
  have hnodes := Copying.nodes_run donor donor.size ⟨t, []⟩ id
  have hcopies := Copying.copies_run donor donor.size ⟨t, []⟩ id
  generalize Copying.run donor donor.size ⟨t, []⟩ id = s at hname hunits hnodes hcopies
  obtain ⟨⟨name, nodes, units⟩, copies⟩ := s
  subst hname hunits hnodes hcopies
  rfl

/-! ## Outlines -/

/-- A node of an outline whose form is not known yet. -/
structure DraftNode extends Mark where
  parent : Option Nat
  children : List Nat

/-- An outline in the making, with the number that was last noted for each node of a tree. -/
structure Draft where
  nodes : Array DraftNode := #[]
  byOrigin : NodeRef → Option Nat := fun _ => none

/-- A node of an outline without its form. -/
def OutlineNode.draft (n : OutlineNode) : DraftNode :=
  { n with }

namespace Draft

/-- Adds a node as the last child of `parent` and notes its number. -/
def push (d : Draft) (parent : Option Nat) (m : Mark) : Draft where
  nodes := match parent with
    | none => d.nodes.push ⟨m, none, []⟩
    | some p => (d.nodes.push ⟨m, some p, []⟩).modify p fun n =>
      { n with children := n.children ++ [d.nodes.size] }
  byOrigin := match m.origin with
    | none => d.byOrigin
    | some r => Function.update d.byOrigin r (some d.nodes.size)

/-- Adds the node `id` of `t` below `parent`, then its tracked children one after the other with all that
is below them, at most `depth` levels. -/
def project (t : Tree) : (depth : Nat) → (parent : Nat) → Draft → NodeId → Draft
  | 0, parent, d, id => d.push (some parent) (.ofNode t id)
  | depth + 1, parent, d, id =>
    (Outline.trackedChildren t id).foldl (project t depth d.nodes.size)
      (d.push (some parent) (.ofNode t id))

/-- The draft of the outline of `t`. -/
def ofTree (t : Tree) : Draft :=
  project t t.size Outline.root (push {} none .top) Tree.root

/-- Enters the value of a node, which is made from its mark and the values of its children, at its number. -/
def fill {γ : Type} (value : Mark → List γ → γ) (x : DraftNode × Nat) (table : Nat → γ) : Nat → γ :=
  Function.update table x.2 (value x.1.toMark (x.1.children.map table))

/-- Enters the values of all nodes, from the last node to the first. -/
def sweep {γ : Type} (d : Draft) (value : Mark → List γ → γ) (start : Nat → γ) : Nat → γ :=
  d.nodes.toList.zipIdx.foldr (fill value) start

/-- What is listed for a node of a draft. -/
def entry (s : Rose Mark) (parent : Option Nat) (children : List Nat) : DraftNode :=
  ⟨s.value, parent, children⟩

theorem nodes_push {d : Draft} {p : Nat} (hp : p < d.nodes.size) (m : Mark) :
    (d.push (some p) m).nodes =
      (d.nodes.modify p fun n => { n with children := n.children ++ [d.nodes.size] }).push
        ⟨m, some p, []⟩ := by
  change (d.nodes.push ⟨m, some p, []⟩).modify p
    (fun n => { n with children := n.children ++ [d.nodes.size] }) = _
  rw [Array.push_eq_append, modify_append_of_lt hp, Array.push_eq_append]

theorem nodes_project (t : Tree) (depth : Nat) {p : Nat} (d : Draft) (id : NodeId)
    (hp : p < d.nodes.size) :
    (project t depth p d id).nodes =
      d.nodes.modify p (fun n => { n with children := n.children ++ [d.nodes.size] }) ++
        (((Rose.unfold (Outline.trackedChildren t) depth id).map (Mark.ofNode t)).number entry d.nodes.size
          (some p)).toArray := by
  induction depth generalizing p d id with
  | zero =>
    rw [project, nodes_push hp, Array.push_eq_append]
    rfl
  | succ depth ih =>
    have hsize : (d.push (some p) (.ofNode t id)).nodes.size = d.nodes.size + 1 := by
      rw [nodes_push hp, Array.size_push, Array.size_modify]
    have hfold := foldl_listing nodes (project t depth d.nodes.size)
      (fun c => (Rose.unfold (Outline.trackedChildren t) depth c).map (Mark.ofNode t)) entry
      (fun ids n => { n with children := n.children ++ ids }) (by funext n; simp)
      (fun xs ys => by funext n; simp) (fun d' c hq => ih d' c hq) (Outline.trackedChildren t id)
      (d.push (some p) (.ofNode t id)) (by rw [hsize]; exact Nat.lt_succ_self _)
    rw [hsize, nodes_push hp] at hfold
    rw [project, hfold, Rose.unfold, Rose.map, Rose.mapAll_eq_map, List.map_map, Rose.number]
    have hlist := push_modify_append
      (d.nodes.modify p fun n => { n with children := n.children ++ [d.nodes.size] })
      ⟨Mark.ofNode t id, some p, []⟩
    rw [Array.size_modify] at hlist
    exact hlist _ _

/-- **Adding nodes one by one gives the nodes of the outline**, with their links. -/
theorem nodes_ofTree (t : Tree) :
    (ofTree t).nodes = (Outline.ofTree t).nodes.map OutlineNode.draft := by
  rw [ofTree, nodes_project t t.size _ _ (Nat.zero_lt_one), Outline.ofTree_eq, Outline.ofRose,
    List.map_toArray, Rose.map_number, Rose.number, Rose.numberAll, Rose.numberAll, List.append_nil]
  exact (push_modify_append #[] (⟨.top, none, []⟩ : DraftNode) _ _).trans Array.empty_append

theorem size_ofTree (t : Tree) : (ofTree t).nodes.size = (Outline.ofTree t).size := by
  rw [nodes_ofTree, Array.size_map]
  rfl

theorem getElem?_ofTree (t : Tree) {i : Nat} {n : DraftNode} (h : (ofTree t).nodes[i]? = some n) :
    n = ((Outline.ofTree t).node i).draft := by
  rw [nodes_ofTree, Array.getElem?_map, Option.map_eq_some_iff] at h
  obtain ⟨m, hm, rfl⟩ := h
  rw [Outline.node, Array.getD_eq_getD_getElem?, hm, Option.getD_some]

/-! ### The sweep -/

theorem foldr_fill {γ : Type} {d : Draft} {value : Mark → List γ → γ} {start solution : Nat → γ}
    (hchildren : ∀ i n, d.nodes[i]? = some n → ∀ c ∈ n.children, i < c ∧ c < d.nodes.size)
    (hsolution : ∀ i n, d.nodes[i]? = some n → solution i = value n.toMark (n.children.map solution))
    (l : List DraftNode) (k : Nat) (hlength : k + l.length = d.nodes.size)
    (hget : ∀ j n, l[j]? = some n → d.nodes[k + j]? = some n) {i : Nat} (hk : k ≤ i)
    (hi : i < d.nodes.size) : (l.zipIdx k).foldr (fill value) start i = solution i := by
  induction l generalizing k i with
  | nil =>
    rw [List.length_nil] at hlength
    omega
  | cons n l ih =>
    rw [List.length_cons] at hlength
    have hn : d.nodes[k]? = some n := hget 0 n rfl
    have hrest : ∀ {c}, k < c → c < d.nodes.size → (l.zipIdx (k + 1)).foldr (fill value) start c = solution c := by
      intro c hlow hhigh
      refine ih (k + 1) (by omega) (fun j m hm => ?_) hlow hhigh
      rw [show k + 1 + j = k + (j + 1) by omega]
      exact hget (j + 1) m hm
    rw [List.zipIdx_cons, List.foldr_cons, fill]
    by_cases hik : i = k
    · subst hik
      rw [Function.update_self, hsolution i n hn]
      congr 1
      apply List.map_congr_left
      intro c hc
      obtain ⟨hlow, hhigh⟩ := hchildren i n hn c hc
      exact hrest hlow hhigh
    · rw [Function.update_of_ne hik]
      exact hrest (by omega) hi

/-- Children follow their parents, so the sweep finds the values of the children in the table, and fills it
with what solves the equations between the values. -/
theorem sweep_eq {γ : Type} {d : Draft} {value : Mark → List γ → γ} {start solution : Nat → γ}
    (hchildren : ∀ i n, d.nodes[i]? = some n → ∀ c ∈ n.children, i < c ∧ c < d.nodes.size)
    (hsolution : ∀ i n, d.nodes[i]? = some n → solution i = value n.toMark (n.children.map solution))
    {i : Nat} (hi : i < d.nodes.size) : d.sweep value start i = solution i := by
  refine foldr_fill hchildren hsolution d.nodes.toList 0 (by simp) (fun j n hn => ?_) (Nat.zero_le i) hi
  rw [Nat.zero_add, ← Array.getElem?_toList]
  exact hn

theorem children_ofTree (t : Tree) (i : Nat) (n : DraftNode) (h : (ofTree t).nodes[i]? = some n) :
    ∀ c ∈ n.children, i < c ∧ c < (ofTree t).nodes.size := by
  intro c hc
  rw [getElem?_ofTree t h] at hc
  rw [size_ofTree, Outline.ofTree_eq]
  apply Outline.parent_lt
  exact (Outline.forest_ofRose _).mem_below.mp hc

end Draft

namespace Outline

theorem shape_ofTree (t : Tree) {i : Nat} (hi : i < (ofTree t).size) :
    (ofTree t).shape i = .node (((ofTree t).node i).kind, ((ofTree t).node i).label)
      (((ofTree t).children i).map (ofTree t).shape) := by
  have N := numbered_ofRose (.node .top [markTree t Tree.root])
  rw [ofTree_eq, size_ofRose] at hi
  obtain ⟨s, hs, -⟩ := N.exists_laid_top hi
  have hbelow : ((ofTree t).children i).map (ofTree t).shape = s.children.map shapeOf := by
    have hkids : (ofTree t).children i = Rose.topIds (i + 1) s.children := N.kids_of_laid hs
    rw [hkids, ← List.forall₂_eq_eq_eq, List.forall₂_map_left_iff, List.forall₂_map_right_iff]
    refine hs.children.imp fun c r hc => ?_
    exact congrArg OutlineNode.shape hc.get_eq
  have hnode : (ofTree t).node i = entry s _ _ := hs.get_eq
  rw [hbelow, shape, hnode]
  cases s with
  | node m rs => exact shapeOf_node m rs

/-- **The sweep finds the forms of all subtrees.** -/
theorem shape_eq_sweep (t : Tree) (start : Nat → Shape) {i : Nat} (hi : i < (ofTree t).size) :
    (Draft.ofTree t).sweep (fun m shapes => .node (m.kind, m.label) shapes) start i = (ofTree t).shape i := by
  apply Draft.sweep_eq (Draft.children_ofTree t)
  · intro j n hn
    have hlt := (Array.getElem?_eq_some_iff.mp hn).1
    rw [Draft.size_ofTree] at hlt
    rw [shape_ofTree t hlt, Draft.getElem?_ofTree t hn]
    rfl
  · rwa [Draft.size_ofTree]

theorem foldl_weight (o : Outline) (ids : List Nat) (k : Nat) :
    (ids.map o.weight).foldl (· + ·) k = k + Rose.sizeAll (ids.map o.shape) := by
  induction ids generalizing k with
  | nil => rfl
  | cons c ids ih =>
    rw [List.map_cons, List.foldl_cons, ih, List.map_cons, Rose.sizeAll, Nat.add_assoc]
    rfl

/-- **The sweep finds the weights of all subtrees**, counting on from one with those of the children. -/
theorem weight_eq_sweep (t : Tree) (start : Nat → Nat) {i : Nat} (hi : i < (ofTree t).size) :
    (Draft.ofTree t).sweep (fun _ weights => weights.foldl (· + ·) 1) start i = (ofTree t).weight i := by
  apply Draft.sweep_eq (Draft.children_ofTree t)
  · intro j n hn
    have hlt := (Array.getElem?_eq_some_iff.mp hn).1
    rw [Draft.size_ofTree] at hlt
    rw [foldl_weight, weight, shape_ofTree t hlt, Rose.size, Draft.getElem?_ofTree t hn, Nat.add_comm]
    rfl
  · rwa [Draft.size_ofTree]

end Outline

/-! ### The table of numbers -/

namespace Draft

/-- The node of a tree that a number of the draft stands for. -/
def origin? (d : Draft) (i : Nat) : Option NodeRef :=
  (d.nodes[i]?).bind (·.origin)

/-- The table holds a number for each node of a tree that has one. -/
structure Noted (d : Draft) : Prop where
  sound : ∀ {r i}, d.byOrigin r = some i → d.origin? i = some r
  complete : ∀ {r i}, d.origin? i = some r → (d.byOrigin r).isSome = true

theorem origin?_push (d : Draft) (parent : Option Nat) (m : Mark) (i : Nat) :
    (d.push parent m).origin? i = if i = d.nodes.size then m.origin else d.origin? i := by
  have hpush : ∀ q, ((d.nodes.push ⟨m, q, []⟩)[i]?).bind (·.origin) =
      if i = d.nodes.size then m.origin else d.origin? i := by
    intro q
    rw [Array.getElem?_push]
    by_cases hi : i = d.nodes.size
    · rw [if_pos hi, if_pos hi]
      rfl
    · rw [if_neg hi, if_neg hi]
      rfl
  cases parent with
  | none => exact hpush none
  | some p =>
    rw [← hpush (some p)]
    change (((d.nodes.push ⟨m, some p, []⟩).modify p fun n =>
      { n with children := n.children ++ [d.nodes.size] })[i]?).bind (·.origin) = _
    rw [Array.getElem?_modify]
    by_cases hp : p = i
    · rw [if_pos hp, Option.bind_map]
      rfl
    · rw [if_neg hp]

theorem origin?_size (d : Draft) : d.origin? d.nodes.size = none := by
  rw [origin?, Array.getElem?_eq_none (Nat.le_refl _)]
  rfl

theorem byOrigin_push (d : Draft) (parent : Option Nat) (m : Mark) (r : NodeRef) :
    (d.push parent m).byOrigin r = if m.origin = some r then some d.nodes.size else d.byOrigin r := by
  obtain ⟨kind, label, role, origin, terminal⟩ := m
  cases origin with
  | none => rfl
  | some r' =>
    change Function.update d.byOrigin r' (some d.nodes.size) r = _
    by_cases hr : r = r'
    · rw [hr, Function.update_self, if_pos rfl]
    · rw [Function.update_of_ne hr, if_neg]
      intro heq
      exact hr (Option.some.inj heq).symm

theorem Noted.push {d : Draft} (h : d.Noted) (parent : Option Nat) (m : Mark) :
    (d.push parent m).Noted where
  sound := fun {r i} hi => by
    rw [byOrigin_push] at hi
    rw [origin?_push]
    by_cases hm : m.origin = some r
    · rw [if_pos hm, Option.some.injEq] at hi
      rw [if_pos hi.symm, hm]
    · rw [if_neg hm] at hi
      have horigin := h.sound hi
      rw [if_neg, horigin]
      rintro rfl
      rw [origin?_size] at horigin
      simp at horigin
  complete := fun {r i} hi => by
    rw [origin?_push] at hi
    rw [byOrigin_push]
    by_cases hm : m.origin = some r
    · rw [if_pos hm]
      rfl
    · rw [if_neg hm]
      split at hi
      · exact absurd hi hm
      · exact h.complete hi

theorem Noted.project {d : Draft} (h : d.Noted) (t : Tree) (depth parent : Nat) (id : NodeId) :
    (project t depth parent d id).Noted := by
  induction depth generalizing parent d id with
  | zero => exact h.push _ _
  | succ depth ih =>
    rw [Draft.project]
    exact List.foldlRecOn _ _ (h.push _ _) fun d' hd' c _ => ih hd' _ c

theorem noted_ofTree (t : Tree) : (ofTree t).Noted := by
  apply Noted.project
  apply Noted.push
  exact ⟨fun h => by simp at h, fun h => by simp [origin?] at h⟩

theorem origin?_ofTree (t : Tree) (i : Nat) : (ofTree t).origin? i = ((Outline.ofTree t).node i).origin := by
  rw [origin?, nodes_ofTree, Array.getElem?_map, Outline.node, Array.getD_eq_getD_getElem?]
  cases (Outline.ofTree t).nodes[i]? with
  | none => rfl
  | some n => rfl

end Draft

/-- **The table holds the numbers that are found by searching.** -/
theorem Tree.Linked.find?_eq_byOrigin {t : Tree} (L : t.Linked) (r : NodeRef) :
    (Draft.ofTree t).byOrigin r = (Outline.ofTree t).find? r := by
  have N := Draft.noted_ofTree t
  have hfind : ∀ {i}, (Outline.ofTree t).find? r = some i ↔ (Draft.ofTree t).origin? i = some r := by
    intro i
    rw [Draft.origin?_ofTree, Outline.find?_eq_some_iff L, Outline.origin_eq_some_iff L]
  apply Option.ext
  intro i
  rw [hfind]
  constructor
  · exact N.sound
  · intro hi
    obtain ⟨j, hj⟩ := Option.isSome_iff_exists.mp (N.complete hi)
    have horigin := N.sound hj
    rw [Draft.origin?_ofTree] at hi horigin
    rw [hj, Outline.origin_injective L hi horigin]

end TreePatch
