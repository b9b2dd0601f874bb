import TreePatch.Proofs.Edit

/-!
# Walks

The walks of a tree go down the lists of children, with a stack or with a queue, and are cut off at a bound;
ancestry goes up the parents. In a forest the two views agree. Neither walk reaches its bound: a subtree has no
more nodes than there are (`length_preorder_unfold_le`), so the stack or the queue runs empty first. The walk
with a stack lists the subtrees on it one after the other, and the walk with a queue lists row after row, each
row being the nodes of one depth in the order of the other walk (`row_eq_filter`).
-/

namespace TreePatch

/-! ## Rows -/

namespace Walk

variable {next : Nat → List Nat}

/-- The nodes that lie `k` levels below those of a list. -/
def row (next : Nat → List Nat) : (k : Nat) → List Nat → List Nat
  | 0, l => l
  | k + 1, l => row next k (l.flatMap next)

theorem row_eq_flatMap (k : Nat) (l : List Nat) : row next k l = l.flatMap fun n => row next k [n] := by
  induction k generalizing l with
  | zero => exact (List.flatMap_singleton' l).symm
  | succ k ih =>
    rw [row, ih, List.flatMap_assoc]
    refine List.flatMap_congr fun n _ => ?_
    rw [row, List.flatMap_singleton, ← ih]

theorem breadthFirst_append (bound : Nat) (l queue : List Nat) :
    breadthFirst next (bound + l.length) (l ++ queue) =
      l ++ breadthFirst next bound (queue ++ l.flatMap next) := by
  induction l generalizing queue with
  | nil => simp
  | cons n l ih =>
    rw [List.length_cons, ← Nat.add_assoc, List.cons_append, breadthFirst, List.append_assoc, ih,
      List.append_assoc, List.flatMap_cons, List.cons_append]

theorem breadthFirst_eq_rows {k bound : Nat} {l : List Nat} (hend : row next k l = [])
    (hbound : ((List.range k).flatMap fun i => row next i l).length ≤ bound) :
    breadthFirst next bound l = (List.range k).flatMap fun i => row next i l := by
  induction k generalizing l bound with
  | zero =>
    obtain rfl : l = [] := hend
    cases bound <;> rfl
  | succ k ih =>
    have hrows : ((List.range (k + 1)).flatMap fun i => row next i l) =
        l ++ (List.range k).flatMap fun i => row next i (l.flatMap next) := by
      rw [List.range_succ_eq_map, List.flatMap_cons, List.flatMap_map]
      rfl
    rw [hrows, List.length_append] at hbound
    obtain ⟨b, rfl⟩ : ∃ b, bound = b + l.length := ⟨bound - l.length, by omega⟩
    have hstep : breadthFirst next (b + l.length) l = l ++ breadthFirst next b (l.flatMap next) := by
      simpa using breadthFirst_append b l []
    rw [hstep, hrows, ih hend (by omega)]

end Walk

/-! ## Walks in forests -/

namespace Forest

variable {above : Nat → Option Nat} {below : Nat → List Nat} {size : Nat} (F : Forest above below size)

include F

theorem preorder_unfold_eq (n : Nat) :
    (Rose.unfold below size n).preorder =
      n :: (below n).flatMap fun c => (Rose.unfold below size c).preorder := by
  rw [F.unfold_eq, Rose.preorder, Rose.preorderAll_eq_flatMap, List.flatMap_map]

theorem length_preorder_unfold_le (hsize : 0 < size) (n : Nat) :
    (Rose.unfold below size n).preorder.length ≤ size := by
  by_cases hleaf : below n = []
  · rw [F.preorder_unfold_eq, hleaf]
    exact hsize
  · obtain ⟨c, hc⟩ := List.exists_mem_of_ne_nil _ hleaf
    have hsub : (Rose.unfold below size n).preorder ⊆ List.range size := by
      intro y hy
      rw [List.mem_range]
      rcases F.mem_preorder_unfold.mp hy with rfl | hy
      · exact (F.lt_size (F.mem_below.mp hc)).1
      · obtain ⟨p, hp, -⟩ := F.mem_upward_iff.mp hy
        exact (F.lt_size hp).2
    have hle := (List.subperm_of_subset (F.nodup_preorder_unfold size n) hsub).length_le
    rwa [List.length_range] at hle

theorem depthFirst_eq {bound : Nat} {stack : List Nat}
    (h : (stack.flatMap fun n => (Rose.unfold below size n).preorder).length ≤ bound) :
    Walk.depthFirst below bound stack = stack.flatMap fun n => (Rose.unfold below size n).preorder := by
  induction bound generalizing stack with
  | zero =>
    rw [List.length_eq_zero_iff.mp (Nat.le_zero.mp h)]
    rfl
  | succ bound ih =>
    cases stack with
    | nil => rfl
    | cons n stack =>
      have hnext : ((n :: stack).flatMap fun n => (Rose.unfold below size n).preorder) =
          n :: (below n ++ stack).flatMap fun n => (Rose.unfold below size n).preorder := by
        rw [List.flatMap_cons, F.preorder_unfold_eq, List.flatMap_append, List.cons_append]
      rw [hnext, List.length_cons] at h
      rw [Walk.depthFirst, hnext, ih (Nat.le_of_succ_le_succ h)]

theorem length_upward_lt_of_mem {a : Nat} (n : Nat) (h : a ∈ Walk.upward above size n) :
    (Walk.upward above size a).length < (Walk.upward above size n).length := by
  induction n using F.induction_up with
  | step n ih =>
    obtain ⟨p, hp, ha⟩ := F.mem_upward_iff.mp h
    rw [F.upward_of_some hp, List.length_cons, Nat.lt_succ_iff]
    rcases ha with rfl | ha
    · exact Nat.le_refl _
    · exact Nat.le_of_lt (ih p hp ha)

theorem upward_eq_of_le {bound : Nat} (h : size ≤ bound) (n : Nat) :
    Walk.upward above bound n = Walk.upward above size n := by
  induction h with
  | refl => rfl
  | @step bound hle ih =>
    rw [← ih]
    cases hn : above n with
    | none => rw [upward_of_none hn, upward_of_none hn]
    | some p =>
      exact upward_succ_of_length_lt (Nat.lt_of_lt_of_le (F.length_upward_lt bound hn) hle)

theorem row_eq_filter (k n : Nat) :
    Walk.row below k [n] = (Rose.unfold below size n).preorder.filter fun m =>
      (Walk.upward above size m).length == (Walk.upward above size n).length + k := by
  induction k generalizing n with
  | zero =>
    rw [F.preorder_unfold_eq, List.filter_cons_of_pos (by simp), Walk.row, List.cons_inj_right, eq_comm,
      List.filter_eq_nil_iff]
    intro m hm
    obtain ⟨c, hc, hm⟩ := List.mem_flatMap.mp hm
    have hdeeper : n ∈ Walk.upward above size m := by
      have hcn : n ∈ Walk.upward above size c := F.mem_upward_iff.mpr ⟨n, F.mem_below.mp hc, Or.inl rfl⟩
      rcases F.mem_preorder_unfold.mp hm with rfl | hcm
      · exact hcn
      · exact F.mem_upward_trans m hcn hcm
    have := F.length_upward_lt_of_mem m hdeeper
    simp only [beq_iff_eq]
    omega
  | succ k ih =>
    rw [Walk.row, List.flatMap_singleton, Walk.row_eq_flatMap, F.preorder_unfold_eq,
      List.filter_cons_of_neg (by simp), List.filter_flatMap]
    refine List.flatMap_congr fun c hc => ?_
    rw [ih, F.upward_of_some (F.mem_below.mp hc), List.length_cons, Nat.add_right_comm, Nat.add_assoc]

theorem depth_lt_size (hsize : 0 < size) (n : Nat) : (Walk.upward above size n).length < size := by
  cases hn : above n with
  | none => rwa [upward_of_none hn]
  | some p => exact F.length_upward_lt size hn

theorem perm_rows (hsize : 0 < size) (n : Nat) :
    ((List.range size).flatMap fun k => Walk.row below k [n]).Perm
      (Rose.unfold below size n).preorder := by
  have hnodup := F.nodup_preorder_unfold size n
  simp only [F.row_eq_filter]
  refine (List.perm_ext_iff_of_nodup (List.nodup_flatMap.mpr ⟨fun k _ => hnodup.filter _, ?_⟩) hnodup).mpr
    fun m => ?_
  · refine List.nodup_range.imp fun {j k} hne m hj hk => hne ?_
    have hj := beq_iff_eq.mp (List.mem_filter.mp hj).2
    have hk := beq_iff_eq.mp (List.mem_filter.mp hk).2
    omega
  · rw [List.mem_flatMap]
    refine ⟨fun ⟨_, _, hm⟩ => List.mem_of_mem_filter hm, fun hm => ?_⟩
    -- the row of a node is the number of levels between it and the top
    have hle : (Walk.upward above size n).length ≤ (Walk.upward above size m).length := by
      rcases F.mem_preorder_unfold.mp hm with rfl | hnm
      · exact Nat.le_refl _
      · exact Nat.le_of_lt (F.length_upward_lt_of_mem m hnm)
    have hlt := F.depth_lt_size hsize m
    refine ⟨(Walk.upward above size m).length - (Walk.upward above size n).length,
      List.mem_range.mpr (by omega), List.mem_filter.mpr ⟨hm, beq_iff_eq.mpr (by omega)⟩⟩

theorem breadthFirst_eq (hsize : 0 < size) {bound : Nat} (h : size ≤ bound) (n : Nat) :
    Walk.breadthFirst below bound [n] = (List.range size).flatMap fun k => Walk.row below k [n] := by
  refine Walk.breadthFirst_eq_rows ?_ ?_
  · rw [F.row_eq_filter, List.filter_eq_nil_iff]
    intro m _
    have := F.depth_lt_size hsize m
    simp only [beq_iff_eq]
    omega
  · rw [(F.perm_rows hsize n).length_eq]
    exact Nat.le_trans (F.length_preorder_unfold_le hsize n) h

end Forest

/-! ## Walks in trees -/

namespace Tree

/-- The number of nodes above a node. -/
def depth (t : Tree) (n : NodeId) : Nat :=
  (t.ancestors n).length

/-- The nodes `k` levels below `n`, in preorder. -/
def level (t : Tree) (n : NodeId) (k : Nat) : List NodeId :=
  (t.depthFirst n).filter fun m => t.depth m == t.depth n + k

/-- What the walks from `n` list, next to what the parents say. -/
structure Surveyed (t : Tree) (n : NodeId) : Prop where
  /-- The stack runs empty: a higher bound changes nothing. -/
  stack_ends : ∀ bound, t.size ≤ bound → Walk.depthFirst t.children bound [n] = t.depthFirst n
  preorder : t.depthFirst n = (t.subtree n).preorder
  /-- The subtree is what the lists of children make it. -/
  recursive : t.depthFirst n = n :: (t.children n).flatMap t.depthFirst
  nodup : (t.depthFirst n).Nodup
  /-- The queue runs empty as well. -/
  queue_ends : ∀ bound, t.size ≤ bound → Walk.breadthFirst t.children bound [n] = t.breadthFirst n
  same_nodes : (t.breadthFirst n).Perm (t.depthFirst n)
  level_by_level : t.breadthFirst n = (List.range t.size).flatMap (t.level n)
  /-- So does the way up. -/
  way_up_ends : ∀ bound, t.size ≤ bound → Walk.upward t.parent? bound n = t.ancestors n
  below : ∀ m, t.isAncestor n m = true ↔ m ≠ n ∧ m ∈ t.depthFirst n

variable {t : Tree}

theorem Linked.depthFirst_of_le (L : t.Linked) {bound : Nat} (h : t.size ≤ bound) (n : NodeId) :
    Walk.depthFirst t.children bound [n] = (t.subtree n).preorder := by
  have hlength : ([n].flatMap fun m => (t.subtree m).preorder).length ≤ bound := by
    rw [List.flatMap_singleton]
    exact Nat.le_trans (L.forest.length_preorder_unfold_le L.root_lt n) h
  exact (L.forest.depthFirst_eq hlength).trans (List.flatMap_singleton _ _)

theorem Linked.depthFirst_eq (L : t.Linked) : t.depthFirst = fun n => (t.subtree n).preorder :=
  funext (L.depthFirst_of_le (Nat.le_refl _))

theorem Linked.breadthFirst_of_le (L : t.Linked) {bound : Nat} (h : t.size ≤ bound) (n : NodeId) :
    Walk.breadthFirst t.children bound [n] = (List.range t.size).flatMap (t.level n) := by
  rw [L.forest.breadthFirst_eq L.root_lt h]
  refine List.flatMap_congr fun k _ => ?_
  rw [L.forest.row_eq_filter, level, L.depthFirst_eq]
  rfl

theorem Linked.mem_depthFirst (L : t.Linked) {n m : NodeId} :
    m ∈ t.depthFirst n ↔ m = n ∨ n ∈ t.ancestors m := by
  rw [L.depthFirst_eq]
  exact L.forest.mem_preorder_unfold

theorem Linked.surveyed (L : t.Linked) (n : NodeId) : t.Surveyed n where
  stack_ends bound h := by rw [L.depthFirst_of_le h, L.depthFirst_eq]
  preorder := by rw [L.depthFirst_eq]
  recursive := by
    rw [L.depthFirst_eq]
    exact L.forest.preorder_unfold_eq n
  nodup := by
    rw [L.depthFirst_eq]
    exact L.forest.nodup_preorder_unfold _ n
  queue_ends bound h := by
    rw [L.breadthFirst_of_le h, breadthFirst, L.breadthFirst_of_le (Nat.le_refl _)]
  same_nodes := by
    rw [breadthFirst, L.forest.breadthFirst_eq L.root_lt (Nat.le_refl _), L.depthFirst_eq]
    exact L.forest.perm_rows L.root_lt n
  level_by_level := L.breadthFirst_of_le (Nat.le_refl _) n
  way_up_ends bound h := L.forest.upward_eq_of_le h n
  below m := by
    rw [Linked.isAncestor_iff, L.mem_depthFirst]
    constructor
    · intro h
      refine ⟨?_, Or.inr h⟩
      rintro rfl
      exact L.forest.not_mem_upward_self m h
    · exact fun ⟨hne, h⟩ => h.resolve_left hne

/-- **The walks down and the ways up agree.** In a linked tree, unlinked parts included, both walks from a node
end and list its subtree without repetition, in preorder and level by level; a node is above another exactly if
the other one is listed from it, and a node can be reached exactly if it is listed from the root. -/
theorem Linked.views_agree (L : t.Linked) (n : NodeId) :
    t.Surveyed n ∧ (t.isAttached n = true ↔ n ∈ t.depthFirst root) := by
  refine ⟨L.surveyed n, ?_⟩
  rw [Linked.isAttached_iff, L.mem_depthFirst]

/-- A tree from which a branch of two nodes was unlinked. -/
theorem Linked.views_agree_unlinked :
    let node (kind : String) (below : List (Rose Content)) : Rose Content :=
      .node { kind, label := "", role := .child } below
    let whole := ofRose "t" none <| .node rootContent
      [node "a" [node "b" [node "c" []]], node "d" [node "e" []], node "f" []]
    let t := (whole.detach 4).toOption.getD whole
    t.Linked ∧ t.depthFirst root = [0, 1, 2, 3, 6] ∧ t.breadthFirst root = [0, 1, 6, 2, 3] ∧
      t.level root 1 = [1, 6] ∧ t.depthFirst 4 = [4, 5] ∧ t.isAttached 5 = false ∧ t.Surveyed root ∧
      t.Surveyed 4 ∧ (t.isAttached 5 = true ↔ 5 ∈ t.depthFirst root) := by
  intro node whole t
  have L : t.Linked := (linked_ofRose _ _ _).getD_detach 4
  exact ⟨L, by decide +kernel, by decide +kernel, by decide +kernel, by decide +kernel, by decide +kernel,
    (L.views_agree root).1, (L.views_agree 4).1, (L.views_agree 5).2⟩

end Tree

end TreePatch
