import TreePatch.Proofs.Numbering
import TreePatch.Tree.Basic

/-!
# Linked trees

What every tree is whose nodes are only linked and unlinked by the editing operations: the links of
parents and children agree and go down from tops. The walks of such a tree follow its links.
-/

namespace TreePatch.Tree

/-- The root has no parent, the lists of children and the parents describe the same links, no child is
listed twice, and no chain of parents comes back to where it started. -/
structure Linked (t : Tree) : Prop where
  root_lt : root < t.size
  root_top : t.parent? root = none
  mem_children : ∀ {p c}, c ∈ t.children p ↔ t.parent? c = some p
  nodup : ∀ p, (t.children p).Nodup
  acyclic : ∃ rank : NodeId → Nat, ∀ {p c}, t.parent? c = some p → rank p < rank c

theorem node_of_size_le (t : Tree) {n : NodeId} (h : t.size ≤ n) : t.node n = Node.absent := by
  rw [node, Array.getD_eq_getD_getElem?, Array.getElem?_eq_none h]
  rfl

theorem lt_size_of_parent (t : Tree) {n p : NodeId} (h : t.parent? n = some p) : n < t.size := by
  by_contra hn
  rw [parent?, t.node_of_size_le (Nat.le_of_not_lt hn)] at h
  simp [Node.absent] at h

theorem lt_size_of_mem_children (t : Tree) {n c : NodeId} (h : c ∈ t.children n) : n < t.size := by
  by_contra hn
  rw [children, t.node_of_size_le (Nat.le_of_not_lt hn)] at h
  simp [Node.absent] at h

namespace Linked

variable {t : Tree}

theorem forest (L : t.Linked) : Forest t.parent? t.children t.size where
  mem_below := L.mem_children
  nodup := L.nodup
  lt_size h := ⟨t.lt_size_of_mem_children (L.mem_children.mpr h), t.lt_size_of_parent h⟩
  acyclic := L.acyclic

theorem parent_lt (L : t.Linked) {n p : NodeId} (h : t.parent? n = some p) : p < t.size :=
  (L.forest.lt_size h).1

theorem ne_root_of_parent (L : t.Linked) {n p : NodeId} (h : t.parent? n = some p) : n ≠ root := by
  rintro rfl
  rw [L.root_top] at h
  simp at h

theorem ancestors_of_some (L : t.Linked) {n p : NodeId} (h : t.parent? n = some p) :
    t.ancestors n = p :: t.ancestors p :=
  L.forest.upward_of_some h

theorem ancestors_of_none {n : NodeId} (h : t.parent? n = none) : t.ancestors n = [] :=
  Forest.upward_of_none h

theorem parent?_ne_self (L : t.Linked) (n : NodeId) : t.parent? n ≠ some n := by
  intro h
  obtain ⟨rank, hrank⟩ := L.acyclic
  exact Nat.lt_irrefl _ (hrank h)

theorem ancestors_root (L : t.Linked) : t.ancestors root = [] :=
  ancestors_of_none L.root_top

theorem isAncestor_iff {a n : NodeId} : t.isAncestor a n = true ↔ a ∈ t.ancestors n := by
  rw [isAncestor, List.contains_iff_mem]

theorem isAttached_iff {n : NodeId} :
    t.isAttached n = true ↔ n = root ∨ root ∈ t.ancestors n := by
  rw [isAttached, Bool.or_eq_true, beq_iff_eq, isAncestor_iff]

theorem isAttached_root : t.isAttached root = true :=
  isAttached_iff.mpr (Or.inl rfl)

theorem isAttached_of_parent (L : t.Linked) {n p : NodeId} (h : t.parent? n = some p) :
    t.isAttached n = true ↔ t.isAttached p = true := by
  rw [isAttached_iff, isAttached_iff, L.ancestors_of_some h, List.mem_cons, eq_comm (a := p)]
  exact ⟨fun hn => hn.resolve_left (L.ne_root_of_parent h), Or.inr⟩

theorem exists_parent_of_isAttached (L : t.Linked) {n : NodeId} (h : t.isAttached n = true)
    (hn : n ≠ root) : ∃ p, t.parent? n = some p ∧ t.isAttached p = true := by
  cases hp : t.parent? n with
  | none =>
    rw [isAttached_iff, ancestors_of_none hp] at h
    simp [hn] at h
  | some p => exact ⟨p, rfl, (L.isAttached_of_parent hp).mp h⟩

theorem lt_size_of_isAttached (L : t.Linked) {n : NodeId} (h : t.isAttached n = true) :
    n < t.size := by
  by_cases hn : n = root
  · subst hn
    exact L.root_lt
  · obtain ⟨p, hp, -⟩ := L.exists_parent_of_isAttached h hn
    exact t.lt_size_of_parent hp

/-- What holds of the root and is handed down from parents to children holds of every node that can be
reached. -/
theorem induction_attached (L : t.Linked) {P : NodeId → Prop} (hroot : P root)
    (step : ∀ n p, t.parent? n = some p → t.isAttached p = true → P p → P n) {n : NodeId}
    (h : t.isAttached n = true) : P n := by
  induction n using L.forest.induction_up with
  | step n ih =>
    by_cases hn : n = root
    · exact hn ▸ hroot
    · obtain ⟨p, hp, hatt⟩ := L.exists_parent_of_isAttached h hn
      exact step n p hp hatt (ih p hp hatt)

theorem subtree_eq (L : t.Linked) (n : NodeId) :
    t.subtree n = .node n ((t.children n).map t.subtree) :=
  L.forest.unfold_eq n

theorem value_subtree (L : t.Linked) (n : NodeId) : (t.subtree n).value = n := by
  rw [L.subtree_eq, Rose.value]

theorem children_subtree (L : t.Linked) (n : NodeId) :
    (t.subtree n).children = (t.children n).map t.subtree := by
  rw [L.subtree_eq, Rose.children]

theorem induction_down (L : t.Linked) {P : NodeId → Prop}
    (step : ∀ n, (∀ c ∈ t.children n, P c) → P n) (n : NodeId) : P n := by
  induction hsize : (t.subtree n).size using Nat.strongRecOn generalizing n with
  | ind k ih =>
    refine step n fun c hc => ih (t.subtree c).size ?_ c rfl
    have hle : (t.subtree c).size ≤ Rose.sizeAll ((t.children n).map t.subtree) :=
      Rose.size_le_sizeAll (List.mem_map.mpr ⟨c, hc, rfl⟩)
    rw [← hsize, L.subtree_eq n, Rose.size]
    omega

end Linked

/-! ## Trees of rose trees -/

section

variable (name : String) (file : Option String) (r : Rose Content)

theorem size_ofRose : (ofRose name file r).size = r.size := by
  rw [size, ofRose, List.size_toArray, Rose.length_number]

theorem numbered_ofRose :
    Rose.Numbered (fun s parent children => (⟨s.value, parent, children⟩ : Node)) (·.parent)
      (·.children) (ofRose name file r).node r where
  par_entry _ _ _ := rfl
  kids_entry _ _ _ := rfl
  laid := by
    refine Rose.laid_of_number 0 none r fun i x hx => ?_
    rw [Nat.zero_add, node, Array.getD_eq_getD_getElem?]
    simp [ofRose, hx]
  outside i hi := by
    rw [node_of_size_le _ (by rw [size_ofRose]; exact hi)]
    exact ⟨rfl, rfl⟩

theorem linked_ofRose : (ofRose name file r).Linked := by
  have N := numbered_ofRose name file r
  have F := N.forest
  exact
    { root_lt := by rw [size_ofRose]; exact r.size_pos
      root_top := by rw [parent?, N.laid.get_eq]
      mem_children := F.mem_below
      nodup := F.nodup
      acyclic := F.acyclic }

theorem depthFirst_ofRose :
    (ofRose name file r).depthFirst root = List.range (ofRose name file r).size := by
  have N := numbered_ofRose name file r
  have hwalk := N.depthFirst_laid r.size [(0, r)] (by simpa using ⟨none, N.laid⟩)
    (by simp [Rose.sizeAll])
  rw [List.flatMap_singleton, ← List.range_eq_range'] at hwalk
  rw [depthFirst, size_ofRose]
  exact hwalk

end

end TreePatch.Tree
