import TreePatch.Proofs.BestAlignment
import TreePatch.Proofs.Matching

/-!
# Similarity counts common leaves

Two nodes that can be matched are as similar as their lists of leaves: the similarity is the length of a
longest common subsequence. Terminals and subtrees of one form are dealt with before any table is made. The
second shortcut counts the leaves on one side only. It is right because the form of a subtree tells which of
its nodes are terminals, as long as no labelled node has untracked children only (`Told`).
-/

namespace TreePatch

namespace Outline

/-! ## Leaves and forms -/

/-- The labels of the terminals in a list of marks. -/
def leaves (marks : List Mark) : List String :=
  (marks.filter (·.terminal)).map (·.label)

theorem leaves_cons (a : Mark) (marks : List Mark) :
    leaves (a :: marks) = (if a.terminal then [a.label] else []) ++ leaves marks := by
  rw [leaves, List.filter_cons]
  split <;> rfl

theorem leaves_append (marks marks' : List Mark) :
    leaves (marks ++ marks') = leaves marks ++ leaves marks' := by
  rw [leaves, List.filter_append, List.map_append]
  rfl

/-- The outline itself tells which nodes are terminals: those with a label and without children. -/
inductive Told : Rose Mark → Prop
  | node {a : Mark} {rs : List (Rose Mark)} (terminal : a.terminal = (rs.isEmpty && a.label != ""))
    (below : ∀ r ∈ rs, Told r) : Told (.node a rs)

mutual

theorem leaves_eq_of_shapeOf_eq : ∀ {r s : Rose Mark}, Told r → Told s → shapeOf r = shapeOf s →
    leaves r.preorder = leaves s.preorder
  | .node a rs, .node b ss, .node ha hrs, .node hb hss, h => by
    rw [shapeOf, shapeOf, Rose.map, Rose.map, Rose.node.injEq, Prod.mk.injEq] at h
    obtain ⟨⟨-, hlabel⟩, hbelow⟩ := h
    have hempty : rs.isEmpty = ss.isEmpty := by
      cases rs <;> cases ss <;> simp_all [Rose.mapAll]
    have hterminal : a.terminal = b.terminal := by rw [ha, hb, hempty, hlabel]
    rw [Rose.preorder, Rose.preorder, leaves_cons, leaves_cons, hterminal, hlabel,
      leaves_eq_of_mapAll_eq hrs hss hbelow]

theorem leaves_eq_of_mapAll_eq : ∀ {rs ss : List (Rose Mark)}, (∀ r ∈ rs, Told r) →
    (∀ s ∈ ss, Told s) →
    Rose.mapAll (fun m : Mark => (m.kind, m.label)) rs = Rose.mapAll (fun m => (m.kind, m.label)) ss →
      leaves (Rose.preorderAll rs) = leaves (Rose.preorderAll ss)
  | [], [], _, _, _ => rfl
  | [], _ :: _, _, _, h => by simp [Rose.mapAll] at h
  | _ :: _, [], _, _, h => by simp [Rose.mapAll] at h
  | r :: rs, s :: ss, hrs, hss, h => by
    rw [Rose.mapAll, Rose.mapAll, List.cons.injEq] at h
    obtain ⟨hr, hrs⟩ := List.forall_mem_cons.mp hrs
    obtain ⟨hs, hss⟩ := List.forall_mem_cons.mp hss
    rw [Rose.preorderAll, Rose.preorderAll, leaves_append, leaves_append,
      leaves_eq_of_shapeOf_eq hr hs h.1, leaves_eq_of_mapAll_eq hrs hss h.2]

end

theorem leafLabels_of_laid {r s : Rose Mark} {i : Nat} {q : Option Nat} (hi : i < (ofRose r).size)
    (h : Rose.Laid entry (ofRose r).node i q s) : (ofRose r).leafLabels i = leaves s.preorder := by
  have hmarks : (List.range' i s.size).map (fun n => ((ofRose r).node n).toMark) = s.preorder := by
    rw [Rose.Laid.map_values (v := OutlineNode.toMark) (f := id) (fun _ _ _ => rfl) i q s h,
      List.map_id]
  rw [leafLabels, preorder_ofRose r hi, weight_of_laid h, ← hmarks, leaves, List.filter_map, List.map_map]
  rfl

theorem exists_told {r : Rose Mark} (h : Told r) {i : Nat} (hi : i < (ofRose r).size) :
    ∃ s, Told s ∧ ((ofRose r).node i).toMark = s.value ∧ (ofRose r).shape i = shapeOf s ∧
      (ofRose r).leafLabels i = leaves s.preorder := by
  have hi' := hi
  rw [size_ofRose] at hi'
  have hbelow : ∀ a rs, Told (.node a rs) → ∀ c ∈ rs, Told c := by
    rintro a rs ⟨-, hbelow⟩
    exact hbelow
  obtain ⟨s, hs, htold, -⟩ := (numbered_ofRose r).exists_laid hbelow h hi'
  refine ⟨s, htold, ?_, ?_, leafLabels_of_laid hi hs⟩
  · rw [hs.get_eq]
    rfl
  · rw [shape, hs.get_eq]
    rfl

theorem leafLabels_of_isTerminal {r : Rose Mark} (h : Told r) {i : Nat} (hi : i < (ofRose r).size)
    (hterminal : (ofRose r).isTerminal i = true) :
    (ofRose r).leafLabels i = [((ofRose r).node i).label] := by
  obtain ⟨s, htold, hmark, -, hleaves⟩ := exists_told h hi
  cases htold with
  | @node a rs ha _ =>
    have hmark : ((ofRose r).node i).toMark = a := hmark
    have hterm : a.terminal = true := by
      rw [← hmark]
      exact hterminal
    have hbelow : rs = [] := by
      rw [ha, Bool.and_eq_true] at hterm
      exact List.isEmpty_iff.mp hterm.1
    subst hbelow
    rw [hleaves, Rose.preorder, leaves_cons, if_pos hterm, hmark]
    rfl

/-! ## Trees -/

/-- The outline of a tree comes to an end: going down from the root to tracked children does. -/
def Ends (t : Tree) : Prop :=
  Acc (fun c p => c ∈ trackedChildren t p) Tree.root

theorem ends_of_linked {t : Tree} (L : t.Linked) : Ends t :=
  (tracked_forest L).acc Tree.root

/-- Every labelled node with children has a tracked child. -/
def LabelsTracked (t : Tree) : Prop :=
  ∀ n < t.size, t.label n ≠ "" → t.children n ≠ [] → trackedChildren t n ≠ []

instance (t : Tree) : Decidable (LabelsTracked t) :=
  inferInstanceAs (Decidable (∀ n < t.size, _))

theorem told_markTree {t : Tree} (h : LabelsTracked t) {n : NodeId}
    (hn : Acc (fun c p => c ∈ trackedChildren t p) n) : Told (markTree t n) := by
  induction hn with
  | intro n hbelow ih =>
    have hsize : ∀ p, trackedChildren t p ≠ [] → p < t.size := fun p hp => by
      obtain ⟨c, hc⟩ := List.exists_mem_of_ne_nil _ hp
      exact t.lt_size_of_mem_children (List.mem_of_mem_filter hc)
    rw [markTree, Rose.unfold_eq_of_acc hsize (.intro n hbelow), Rose.map, Rose.mapAll_eq_map, List.map_map]
    refine .node ?_ fun r hr => ?_
    · rw [List.isEmpty_map]
      by_cases hlabel : t.label n = ""
      · simp [Mark.ofNode, hlabel]
      · -- a leaf has no tracked children either, and any other labelled node has some
        have hleaf : t.isLeaf n = (trackedChildren t n).isEmpty := by
          rw [Tree.isLeaf, Bool.eq_iff_iff, List.isEmpty_iff, List.isEmpty_iff]
          refine ⟨fun hnil => ?_, fun hnil => ?_⟩
          · rw [trackedChildren, hnil, List.filter_nil]
          · by_contra hchildren
            obtain ⟨c, hc⟩ := List.exists_mem_of_ne_nil _ hchildren
            exact h n (t.lt_size_of_mem_children hc) hlabel hchildren hnil
        simp only [Mark.ofNode, hleaf]
    · obtain ⟨c, hc, rfl⟩ := List.mem_map.mp hr
      exact ih c hc

theorem told_ofTree {t : Tree} (hend : Ends t) (h : LabelsTracked t) :
    Told (.node .top [markTree t Tree.root]) := by
  refine .node rfl fun s hs => ?_
  rw [List.mem_singleton.mp hs]
  exact told_markTree h hend

end Outline

namespace Pairing

variable {r r' : Rose Mark}

theorem similarity_isGreatest (hr : Outline.Told r) (hr' : Outline.Told r') {i j : Nat}
    (hi : i < (Outline.ofRose r).size) (hj : j < (Outline.ofRose r').size)
    (hmatch : canMatch ⟨.ofRose r, .ofRose r'⟩ i j = true) :
    IsGreatest (Alignment.commonLengths ((Outline.ofRose r).leafLabels i)
      ((Outline.ofRose r').leafLabels j)) (similarity ⟨.ofRose r, .ofRose r'⟩ i j) := by
  have hterminal : (Outline.ofRose r).isTerminal i = (Outline.ofRose r').isTerminal j :=
    (canMatch_iff.mp hmatch).2
  have hgreatest := Alignment.commonLength_isGreatest ((Outline.ofRose r).leafLabels i)
    ((Outline.ofRose r').leafLabels j)
  rw [similarity, if_neg (by simp [hmatch])]
  split
  · next hi' =>
    -- the table for two single leaves has one entry that counts
    have hi' : (Outline.ofRose r).isTerminal i = true := hi'
    rw [Outline.leafLabels_of_isTerminal hr hi hi',
      Outline.leafLabels_of_isTerminal hr' hj (hterminal ▸ hi')] at hgreatest ⊢
    have hlength : ∀ a b : String, Alignment.commonLength [a] [b] = if a = b then 1 else 0 := by
      intro a b
      simp [Alignment.commonLength, Alignment.table, Alignment.rowsFrom, Alignment.rowFrom,
        Alignment.commonCell, Alignment.entry]
    rwa [hlength] at hgreatest
  · split
    · next hshape =>
      obtain ⟨s, hs, -, hshape', hleaves⟩ := Outline.exists_told hr hi
      obtain ⟨s', hs', -, hshape'', hleaves'⟩ := Outline.exists_told hr' hj
      have hsame : Outline.shapeOf s = Outline.shapeOf s' := by
        rw [← hshape', ← hshape'']
        exact Rose.eq_of_beq _ _ hshape
      have heq : (Outline.ofRose r').leafLabels j = (Outline.ofRose r).leafLabels i := by
        rw [hleaves, hleaves', Outline.leaves_eq_of_shapeOf_eq hs hs' hsame]
      rw [heq]
      exact ⟨⟨_, List.Sublist.refl _, List.Sublist.refl _, rfl⟩,
        fun n hn => (Alignment.le_length_of_mem_commonLengths hn).1⟩
    · exact hgreatest

/-- **Similarity counts common leaves.** Take two trees whose outlines come to an end and in which every
labelled node with children has a tracked child. Nodes of different kinds, and a terminal and another node,
are not similar at all. The similarity of any other two nodes is the length of a longest common subsequence of
their leaves. So it is the same when the trees change places, and never more than the number of leaves on
either side. -/
theorem similarity_counts_common_leaves {src dst : Tree} (hs : Outline.Ends src) (hd : Outline.Ends dst)
    (hsrc : Outline.LabelsTracked src) (hdst : Outline.LabelsTracked dst) {l r : Nat}
    (hl : l < (Outline.ofTree src).size) (hr : r < (Outline.ofTree dst).size) :
    let p := ofTrees src dst
    ((p.src.node l).kind ≠ (p.dst.node r).kind ∨ p.src.isTerminal l ≠ p.dst.isTerminal r →
      p.similarity l r = 0) ∧
    ((p.src.node l).kind = (p.dst.node r).kind → p.src.isTerminal l = p.dst.isTerminal r →
      IsGreatest (Alignment.commonLengths (p.src.leafLabels l) (p.dst.leafLabels r))
        (p.similarity l r)) ∧
    (ofTrees dst src).similarity r l = p.similarity l r ∧
    p.similarity l r ≤ (p.src.leafLabels l).length ∧ p.similarity l r ≤ (p.dst.leafLabels r).length := by
  intro p
  have hs := Outline.told_ofTree hs hsrc
  have hd := Outline.told_ofTree hd hdst
  by_cases hmatch : p.canMatch l r = true
  · obtain ⟨hkind, hterminal⟩ := canMatch_iff.mp hmatch
    have hgreatest := similarity_isGreatest hs hd hl hr hmatch
    have hswapped := similarity_isGreatest hd hs hr hl (canMatch_iff.mpr ⟨hkind.symm, hterminal.symm⟩)
    rw [Alignment.commonLengths_comm] at hswapped
    refine ⟨fun hne => ?_, fun _ _ => hgreatest, hswapped.unique hgreatest,
      Alignment.le_length_of_mem_commonLengths hgreatest.1⟩
    exact absurd hterminal (hne.resolve_left (not_not_intro hkind))
  · have hzero := similarity_of_not_canMatch hmatch
    have hswapped : (ofTrees dst src).similarity r l = 0 := similarity_of_not_canMatch fun h =>
      hmatch (canMatch_iff.mpr ((canMatch_iff.mp h).imp Eq.symm Eq.symm))
    refine ⟨fun _ => hzero, fun hkind hterminal => ?_, hswapped.trans hzero.symm, ?_⟩
    · exact absurd (canMatch_iff.mpr ⟨hkind, hterminal⟩) hmatch
    · rw [hzero]
      exact ⟨Nat.zero_le _, Nat.zero_le _⟩

end Pairing

/-- A switch with the given labels, each in parentheses. -/
def Tree.ofCases (name : String) (cases : List (List String)) : Tree :=
  let token : String → Rose Content := fun text => .node { kind := text, label := text, role := .token } []
  let label : List String → Rose Content := fun constants =>
    .node { kind := "switch_label", label := "case", role := .caseLabel }
      ([token "("] ++ constants.map (fun constant =>
        .node { kind := "identifier", label := constant, role := .caseExpression } []) ++ [token ")"])
  ofRose name none <| .node rootContent
    [.node { kind := "switch_block", label := "", role := .child } (cases.map label)]

/-- Of two case labels the first is taken over as it is, and one constant of the second. -/
theorem Pairing.similarity_counts_common_leaves_cases :
    let src := Tree.ofCases "old" [["A", "B"]]
    let dst := Tree.ofCases "new" [["A", "B"], ["C", "B"]]
    let p := Pairing.ofTrees src dst
    Outline.Ends src ∧ Outline.Ends dst ∧ Outline.LabelsTracked src ∧ Outline.LabelsTracked dst ∧
      p.sameShape 3 3 = true ∧ p.similarity 3 3 = 2 ∧
      IsGreatest (Alignment.commonLengths ["A", "B"] ["A", "B"]) 2 ∧
      p.sameShape 3 6 = false ∧ p.similarity 3 6 = 1 ∧
      IsGreatest (Alignment.commonLengths ["A", "B"] ["C", "B"]) 1 := by
  intro src dst p
  have hs : Outline.Ends src := Outline.ends_of_linked (Tree.linked_ofRose _ _ _)
  have hd : Outline.Ends dst := Outline.ends_of_linked (Tree.linked_ofRose _ _ _)
  have hsrc : Outline.LabelsTracked src := by decide +kernel
  have hdst : Outline.LabelsTracked dst := by decide +kernel
  obtain ⟨-, hsame, -⟩ := Pairing.similarity_counts_common_leaves hs hd hsrc hdst (l := 3) (r := 3)
    (by decide +kernel) (by decide +kernel)
  obtain ⟨-, hother, -⟩ := Pairing.similarity_counts_common_leaves hs hd hsrc hdst (l := 3) (r := 6)
    (by decide +kernel) (by decide +kernel)
  have hthree : p.similarity 3 3 = 2 := by decide +kernel
  have hsix : p.similarity 3 6 = 1 := by decide +kernel
  have hleaves : p.src.leafLabels 3 = ["A", "B"] ∧ p.dst.leafLabels 3 = ["A", "B"] ∧
      p.dst.leafLabels 6 = ["C", "B"] := by decide +kernel
  have hsame := hsame (by decide +kernel) (by decide +kernel)
  have hother := hother (by decide +kernel) (by decide +kernel)
  rw [hleaves.1, hleaves.2.1, hthree] at hsame
  rw [hleaves.1, hleaves.2.2, hsix] at hother
  exact ⟨hs, hd, hsrc, hdst, by decide +kernel, hthree, hsame, by decide +kernel, hsix, hother⟩

end TreePatch
