import Mathlib.Data.List.GetD
import TreePatch.Matching.Basic
import TreePatch.Proofs.Alignment
import TreePatch.Proofs.OneToOne
import TreePatch.Proofs.Outline

/-!
# What matchings pair

A matching is one-to-one, starts with the two extra roots, and only pairs nodes of one kind that
exist. Pairs are only ever added, so it is enough to look at what is proposed: children of paired
nodes, and the nodes of identical subtrees in preorder.
-/

namespace TreePatch

namespace Matching

/-- No node has two partners. -/
abbrev OneToOne (m : Matching) : Prop :=
  TreePatch.OneToOne m.pairs

variable {m : Matching}

theorem mem_of_dstOf {s d : Nat} (h : m.dstOf s = some d) : (s, d) ∈ m.pairs :=
  mem_of_find_fst h

theorem mem_of_srcOf {s d : Nat} (h : m.srcOf d = some s) : (s, d) ∈ m.pairs :=
  mem_of_find_snd h

theorem dstOf_eq_none_iff {s : Nat} : m.dstOf s = none ↔ ∀ q ∈ m.pairs, q.1 ≠ s :=
  find_fst_eq_none_iff

theorem srcOf_eq_none_iff {d : Nat} : m.srcOf d = none ↔ ∀ q ∈ m.pairs, q.2 ≠ d :=
  find_snd_eq_none_iff

theorem OneToOne.dstOf_eq_some_iff (h : m.OneToOne) {s d : Nat} :
    m.dstOf s = some d ↔ (s, d) ∈ m.pairs :=
  h.find_fst_eq_some_iff

theorem OneToOne.srcOf_eq_some_iff (h : m.OneToOne) {s d : Nat} :
    m.srcOf d = some s ↔ (s, d) ∈ m.pairs :=
  h.find_snd_eq_some_iff

theorem OneToOne.srcOf_iff_dstOf (h : m.OneToOne) {s d : Nat} :
    m.srcOf d = some s ↔ m.dstOf s = some d := by
  rw [h.srcOf_eq_some_iff, h.dstOf_eq_some_iff]

/-! ## Adding pairs -/

theorem isFree_iff {q : Nat × Nat} :
    m.isFree q = true ↔ ∀ a ∈ m.pairs, a.1 ≠ q.1 ∧ a.2 ≠ q.2 := by
  rw [isFree, Bool.and_eq_true, Option.isNone_iff_eq_none, Option.isNone_iff_eq_none,
    dstOf_eq_none_iff, srcOf_eq_none_iff]
  exact ⟨fun h a ha => ⟨h.1 a ha, h.2 a ha⟩, fun h => ⟨fun a ha => (h a ha).1, fun a ha => (h a ha).2⟩⟩

theorem OneToOne.add (h : m.OneToOne) (q : Nat × Nat) : (m.add q).OneToOne := by
  rw [Matching.add]
  split
  · next hfree =>
    refine List.pairwise_append.mpr ⟨h, List.pairwise_singleton _ _, fun a ha b hb => ?_⟩
    rw [List.mem_singleton] at hb
    subst hb
    exact isFree_iff.mp hfree a ha
  · exact h

theorem subset_add (m : Matching) (q : Nat × Nat) : m.pairs ⊆ (m.add q).pairs := by
  rw [add]
  split
  · exact List.subset_append_left _ _
  · exact List.Subset.refl _

theorem mem_add {q a : Nat × Nat} (h : a ∈ (m.add q).pairs) : a ∈ m.pairs ∨ a = q := by
  rw [add] at h
  split at h
  · simpa using h
  · exact Or.inl h

theorem addAll_induction {P : Matching → Prop} {l : List (Nat × Nat)} (hm : P m)
    (step : ∀ m, ∀ q ∈ l, P m → P (m.add q)) : P (m.addAll l) := by
  induction l generalizing m with
  | nil => exact hm
  | cons q l ih =>
    exact ih (step m q (by simp) hm) fun m a ha => step m a (by simp [ha])

end Matching

namespace Pairing

/-- Two nodes that exist and are of one kind. -/
def Fits (p : Pairing) (q : Nat × Nat) : Prop :=
  q.1 < p.src.size ∧ q.2 < p.dst.size ∧ (p.src.node q.1).kind = (p.dst.node q.2).kind

/-- A one-to-one matching of nodes that fit, the extra roots among them. -/
structure Matches (p : Pairing) (m : Matching) : Prop where
  oneToOne : m.OneToOne
  fits : ∀ q ∈ m.pairs, p.Fits q
  roots : (Outline.root, Outline.root) ∈ m.pairs

variable {p : Pairing} {m : Matching}

theorem Matches.add (h : p.Matches m) {q : Nat × Nat} (hq : p.Fits q) : p.Matches (m.add q) where
  oneToOne := h.oneToOne.add q
  fits a ha := (Matching.mem_add ha).elim (h.fits a) fun he => he ▸ hq
  roots := m.subset_add q h.roots

theorem Matches.addAll (h : p.Matches m) {l : List (Nat × Nat)} (hl : ∀ q ∈ l, p.Fits q) :
    p.Matches (m.addAll l) :=
  Matching.addAll_induction h fun _ q hq hm => hm.add (hl q hq)

/-! ## Proposed pairs of siblings -/

theorem canMatch_iff {l r : Nat} : p.canMatch l r = true ↔
    (p.src.node l).kind = (p.dst.node r).kind ∧ p.src.isTerminal l = p.dst.isTerminal r := by
  rw [canMatch, Bool.and_eq_true, beq_iff_eq, beq_iff_eq, and_comm]

theorem similarity_of_not_canMatch {l r : Nat} (h : ¬ p.canMatch l r = true) :
    p.similarity l r = 0 := by
  rw [similarity, if_pos (by simpa using h)]

theorem canMatch_of_similarity_pos {l r : Nat} (h : 0 < p.similarity l r) :
    p.canMatch l r = true := by
  by_contra hne
  exact Nat.pos_iff_ne_zero.mp h (similarity_of_not_canMatch hne)

/-- Positions in two lists at which nodes stand that can be matched. -/
def Matchable (p : Pairing) (left right : List Nat) (q : Nat × Nat) : Prop :=
  ∃ l r, left[q.1]? = some l ∧ right[q.2]? = some r ∧ p.canMatch l r = true

theorem bounds_snd_le {gap : List (Nat × Nat)} {n l : Nat} (h : ∀ q ∈ gap, q.2 < n) :
    (bounds gap n l).2 ≤ n := by
  rw [bounds]
  cases hmin : ((gap.filter (l < ·.1)).map (·.2)).min? with
  | none => simp
  | some k =>
    obtain ⟨q, hq, rfl⟩ := List.mem_map.mp (List.min?_mem hmin)
    exact Nat.le_of_lt (h q (List.mem_filter.mp hq).1)

theorem pairLeftover_matchable {left right : List Nat} {gap : List (Nat × Nat)} {l : Nat}
    (hl : l < left.length) (hgap : ∀ q ∈ gap, p.Matchable left right q) :
    ∀ q ∈ p.pairLeftover left right gap l, p.Matchable left right q := by
  have hbound : ∀ q ∈ gap, q.2 < right.length := fun q hq => by
    obtain ⟨_, _, -, hr, -⟩ := hgap q hq
    exact (List.getElem?_eq_some_iff.mp hr).1
  intro q hq
  rw [pairLeftover] at hq
  split at hq
  · exact hgap q hq
  · simp only at hq
    split at hq
    · next r hfind =>
      rcases List.mem_append.mp hq with hq | hq
      · exact hgap q hq
      · rw [List.mem_singleton] at hq
        subst hq
        have hmem := List.mem_range'_1.mp (List.mem_of_find?_eq_some hfind)
        have hupper := bounds_snd_le (l := l) hbound
        have hr : r < right.length := by omega
        have hpred := List.find?_some hfind
        rw [Bool.and_eq_true, List.getD_eq_getElem _ _ hl, List.getD_eq_getElem _ _ hr] at hpred
        exact ⟨left[l], right[r], List.getElem?_eq_getElem hl, List.getElem?_eq_getElem hr, hpred.2⟩
    · exact hgap q hq

theorem pairLeftovers_matchable {left right : List Nat} {gap : List (Nat × Nat)}
    (hgap : ∀ q ∈ gap, p.Matchable left right q) :
    ∀ q ∈ p.pairLeftovers left right gap, p.Matchable left right q := by
  have key : ∀ (ls : List Nat), (∀ l ∈ ls, l < left.length) → ∀ gap : List (Nat × Nat),
      (∀ q ∈ gap, p.Matchable left right q) →
        ∀ q ∈ ls.foldl (p.pairLeftover left right) gap, p.Matchable left right q := by
    intro ls
    induction ls with
    | nil => intro _ gap hgap; exact hgap
    | cons l ls ih =>
      intro hls gap hgap
      exact ih (fun l' hl' => hls l' (by simp [hl'])) _
        (pairLeftover_matchable (hls l (by simp)) hgap)
  exact key _ (fun l hl => List.mem_range.mp hl) gap hgap

/-- A pair of members of two lists of nodes of one kind. -/
def Proposes (p : Pairing) (left right : List Nat) (q : Nat × Nat) : Prop :=
  q.1 ∈ left ∧ q.2 ∈ right ∧ (p.src.node q.1).kind = (p.dst.node q.2).kind

theorem Proposes.mono {left right left' right' : List Nat} {q : Nat × Nat}
    (h : p.Proposes left right q) (hleft : left ⊆ left') (hright : right ⊆ right') :
    p.Proposes left' right' q :=
  ⟨hleft h.1, hright h.2.1, h.2.2⟩

theorem gapMatch_proposes (left right : List Nat) :
    ∀ q ∈ p.gapMatch left right, p.Proposes left right q := by
  intro q hq
  rw [gapMatch] at hq
  obtain ⟨⟨l, r⟩, hlr, rfl⟩ := List.mem_map.mp hq
  rw [List.mem_mergeSort] at hlr
  have hsimilar : ∀ q ∈ Alignment.weightedPairs p.similarity left right,
      p.Matchable left right q := by
    intro q hq
    obtain ⟨x, y, hx, hy, hw⟩ := Alignment.weightedPairs_weigh p.similarity left right q hq
    exact ⟨x, y, hx, hy, canMatch_of_similarity_pos hw⟩
  obtain ⟨x, y, hx, hy, hxy⟩ := pairLeftovers_matchable hsimilar _ hlr
  simp only [List.getD_eq_getElem?_getD, hx, hy, Option.getD_some]
  exact ⟨List.mem_of_getElem? hx, List.mem_of_getElem? hy, (canMatch_iff.mp hxy).1⟩

theorem kind_of_identical {l r : Nat} (h : p.identical l r = true) :
    (p.src.node l).kind = (p.dst.node r).kind := by
  rw [identical, Bool.and_eq_true, beq_iff_eq] at h
  exact h.1

theorem fillGaps_proposes (i j : Nat) (left right : List Nat) (anchors : List (Nat × Nat))
    (h : Alignment.Aligned p.identical i left j right anchors) :
    ∀ q ∈ p.fillGaps i j left right anchors, p.Proposes left right q := by
  induction anchors generalizing i j left right with
  | nil => exact gapMatch_proposes left right
  | cons ab anchors ih =>
    obtain ⟨a, b⟩ := ab
    intro q hq
    obtain ⟨-, -, x, y, hx, hy, hxy⟩ := h.related (a, b) (by simp)
    simp only at hx hy
    rw [fillGaps] at hq
    rcases List.mem_append.mp hq with hq | hq
    · rcases List.mem_append.mp hq with hq | hq
      · exact (gapMatch_proposes _ _ q hq).mono (List.take_subset _ _) (List.take_subset _ _)
      · rw [List.mem_singleton] at hq
        subst hq
        simp only [List.getD_eq_getElem?_getD, hx, hy, Option.getD_some]
        exact ⟨List.mem_of_getElem? hx, List.mem_of_getElem? hy, kind_of_identical hxy⟩
    · exact (ih _ _ _ _ h.behind q hq).mono (List.drop_subset _ _) (List.drop_subset _ _)

theorem orderedMatch_proposes (left right : List Nat) :
    ∀ q ∈ p.orderedMatch left right, p.Proposes left right q :=
  fillGaps_proposes 0 0 left right _ (Alignment.commonPairs_aligned _ _ _)

theorem weightAt_weightMatrix {left right : List Nat} {i j l r : Nat} (hl : left[i]? = some l)
    (hr : right[j]? = some r) :
    Assignment.weightAt (p.weightMatrix left right) i j = p.similarity l r := by
  have hi := (List.getElem?_eq_some_iff.mp hl).1
  have hj := (List.getElem?_eq_some_iff.mp hr).1
  have hi' : i < max left.length right.length := by omega
  have hj' : j < max left.length right.length := by omega
  simp only [Assignment.weightAt, weightMatrix, List.getD_eq_getElem?_getD, List.getElem?_map,
    List.getElem?_range hi', List.getElem?_range hj', Option.map_some, Option.getD_some, hl, hr]

theorem unorderedMatch_proposes (left right : List Nat) :
    ∀ q ∈ p.unorderedMatch left right, p.Proposes left right q := by
  intro q hq
  rw [unorderedMatch] at hq
  obtain ⟨⟨j, i⟩, -, hji⟩ := List.mem_filterMap.mp hq
  obtain ⟨l, hl, hrest⟩ := Option.bind_eq_some_iff.mp hji
  obtain ⟨r, hr, hpair⟩ := Option.bind_eq_some_iff.mp hrest
  split at hpair
  · next hpos =>
    obtain rfl := Option.some.inj hpair
    rw [weightAt_weightMatrix hl hr] at hpos
    exact ⟨List.mem_of_getElem? hl, List.mem_of_getElem? hr,
      (canMatch_iff.mp (canMatch_of_similarity_pos (Int.natCast_pos.mp hpos))).1⟩
  · simp at hpair

theorem matchChildren_proposes (s d : Nat) :
    ∀ q ∈ p.matchChildren s d, p.Proposes (p.src.children s) (p.dst.children d) q := by
  rw [matchChildren]
  split
  · exact unorderedMatch_proposes _ _
  · exact orderedMatch_proposes _ _

/-! ## The whole matching -/

/-- The outlines of two trees. -/
abbrev ofTrees (src dst : Tree) : Pairing :=
  ⟨.ofTree src, .ofTree dst⟩

section

variable (src dst : Tree)

theorem matchChildren_fits (s d : Nat) :
    ∀ q ∈ (ofTrees src dst).matchChildren s d, (ofTrees src dst).Fits q := by
  intro q hq
  obtain ⟨hl, hr, hkind⟩ := matchChildren_proposes s d q hq
  have hsrc := Outline.forest_ofTree src
  have hdst := Outline.forest_ofTree dst
  exact ⟨(hsrc.lt_size (hsrc.mem_below.mp hl)).2, (hdst.lt_size (hdst.mem_below.mp hr)).2, hkind⟩

theorem growDown_matches (bound : Nat) (queue : List (Nat × Nat)) {m : Matching}
    (h : (ofTrees src dst).Matches m) :
    (ofTrees src dst).Matches ((ofTrees src dst).growDown bound queue m) := by
  induction bound generalizing queue m with
  | zero => exact h
  | succ bound ih =>
    cases queue with
    | nil => exact h
    | cons sd queue => exact ih _ (h.addAll (matchChildren_fits src dst sd.1 sd.2))

theorem roots_fit : (ofTrees src dst).Fits (Outline.root, Outline.root) := by
  refine ⟨Outline.size_pos src, Outline.size_pos dst, ?_⟩
  rw [Outline.toMark_root, Outline.toMark_root]

theorem topDown_matches : (ofTrees src dst).Matches (ofTrees src dst).topDown := by
  refine growDown_matches src dst _ _ ⟨List.pairwise_singleton _ _, fun q hq => ?_, by simp⟩
  rw [List.mem_singleton] at hq
  exact hq ▸ roots_fit src dst

theorem zip_preorder_fits {s d : Nat} (hs : s < (Outline.ofTree src).size)
    (hd : d < (Outline.ofTree dst).size) (h : (ofTrees src dst).identical s d = true) :
    ∀ q ∈ ((Outline.ofTree src).preorder s).zip ((Outline.ofTree dst).preorder d),
      (ofTrees src dst).Fits q := by
  rw [identical, Bool.and_eq_true] at h
  have hshape : (Outline.ofTree src).shape s = (Outline.ofTree dst).shape d :=
    Rose.eq_of_beq _ _ h.2
  have hmarks : ((Outline.ofTree src).preorder s).map (fun n =>
      (((Outline.ofTree src).node n).kind, ((Outline.ofTree src).node n).label)) =
      ((Outline.ofTree dst).preorder d).map (fun n =>
        (((Outline.ofTree dst).node n).kind, ((Outline.ofTree dst).node n).label)) :=
    (Outline.preorder_shape _ hs).trans
      ((congrArg Rose.preorder hshape).trans (Outline.preorder_shape _ hd).symm)
  rw [← List.forall₂_eq_eq_eq, List.forall₂_map_left_iff, List.forall₂_map_right_iff] at hmarks
  intro q hq
  have hmem := List.of_mem_zip (a := q.1) (b := q.2) hq
  exact ⟨Outline.preorder_lt_size _ hs hmem.1, Outline.preorder_lt_size _ hd hmem.2,
    congrArg Prod.fst (List.forall₂_zip (a := q.1) (b := q.2) hmarks hq)⟩

theorem recoverMove_matches {minSize : Nat} {candidates : List Nat} {m : Matching} {d : Nat}
    (hcand : ∀ s ∈ candidates, s < (Outline.ofTree src).size)
    (hd : d < (Outline.ofTree dst).size) (h : (ofTrees src dst).Matches m) :
    (ofTrees src dst).Matches ((ofTrees src dst).recoverMove minSize candidates m d) := by
  rw [recoverMove]
  split
  · exact h
  · split
    · next s hfind =>
      have hpred := List.find?_some hfind
      rw [Bool.and_eq_true] at hpred
      exact h.addAll (zip_preorder_fits src dst (hcand s (List.mem_of_find?_eq_some hfind)) hd
        hpred.1)
    · exact h

theorem recoverMoves_matches (minSize : Nat) {m : Matching} (h : (ofTrees src dst).Matches m) :
    (ofTrees src dst).Matches ((ofTrees src dst).recoverMoves minSize m) := by
  have hcand : ∀ s ∈ (ofTrees src dst).moveCandidates minSize m, s < (Outline.ofTree src).size := by
    intro s hs
    rw [moveCandidates, List.mem_filter] at hs
    exact List.mem_range.mp (Outline.preorder_root_ofTree src ▸ hs.1)
  have key : ∀ (ds : List Nat), (∀ d ∈ ds, d < (Outline.ofTree dst).size) → ∀ m' : Matching,
      (ofTrees src dst).Matches m' → (ofTrees src dst).Matches (ds.foldl
        ((ofTrees src dst).recoverMove minSize ((ofTrees src dst).moveCandidates minSize m)) m') := by
    intro ds
    induction ds with
    | nil => intro _ m' hm'; exact hm'
    | cons d ds ih =>
      intro hds m' hm'
      exact ih (fun d' hd' => hds d' (by simp [hd'])) _
        (recoverMove_matches src dst hcand (hds d (by simp)) hm')
  exact key _ (fun d hd => List.mem_range.mp (Outline.preorder_root_ofTree dst ▸ hd)) m h

/-- **Matchings are one-to-one, pair the extra roots and otherwise nodes of one kind.** -/
theorem matching_matches (minSize : Nat) :
    (ofTrees src dst).Matches ((ofTrees src dst).matching minSize) :=
  recoverMoves_matches src dst minSize (topDown_matches src dst)

/-! ## Pairs are only added -/

section Growth

variable (p : Pairing) {P : Matching → Prop} {m : Matching}

theorem growDown_induction (step : ∀ m q, P m → P (m.add q)) (bound : Nat) (queue : List (Nat × Nat))
    (hm : P m) : P (p.growDown bound queue m) := by
  induction bound generalizing queue m with
  | zero => exact hm
  | succ bound ih =>
    cases queue with
    | nil => exact hm
    | cons sd queue => exact ih _ (Matching.addAll_induction hm fun m q _ => step m q)

theorem recoverMoves_induction (step : ∀ m q, P m → P (m.add q)) (minSize : Nat) (hm : P m) :
    P (p.recoverMoves minSize m) := by
  rw [recoverMoves]
  generalize p.moveCandidates minSize m = candidates
  generalize p.dst.preorder Outline.root = ds
  induction ds generalizing m with
  | nil => exact hm
  | cons d ds ih =>
    refine ih ?_
    rw [recoverMove]
    split
    · exact hm
    · split
      · exact Matching.addAll_induction hm fun m q _ => step m q
      · exact hm

theorem matching_oneToOne (minSize : Nat) : (p.matching minSize).OneToOne :=
  recoverMoves_induction p (fun _ q h => h.add q) minSize
    (growDown_induction p (fun _ q h => h.add q) _ _ (List.pairwise_singleton _ _))

end Growth

/-! ## The package roots -/

theorem subset_addAll (m : Matching) (l : List (Nat × Nat)) : m.pairs ⊆ (m.addAll l).pairs :=
  Matching.addAll_induction (P := fun m' => m.pairs ⊆ m'.pairs) (List.Subset.refl _)
    fun m' q _ h => List.Subset.trans h (m'.subset_add q)

theorem subset_growDown (p : Pairing) (bound : Nat) (queue : List (Nat × Nat)) (m : Matching) :
    m.pairs ⊆ (p.growDown bound queue m).pairs :=
  growDown_induction p (P := fun m' => m.pairs ⊆ m'.pairs)
    (fun m' q h => List.Subset.trans h (m'.subset_add q)) bound queue (List.Subset.refl _)

theorem subset_recoverMoves (p : Pairing) (minSize : Nat) (m : Matching) :
    m.pairs ⊆ (p.recoverMoves minSize m).pairs :=
  recoverMoves_induction p (P := fun m' => m.pairs ⊆ m'.pairs)
    (fun m' q h => List.Subset.trans h (m'.subset_add q)) minSize (List.Subset.refl _)

theorem gapMatch_singletons (p : Pairing) {l r : Nat} (h : p.canMatch l r = true) :
    p.gapMatch [l] [r] = [(l, r)] := by
  have hsimilar : Alignment.weightedPairs p.similarity [l] [r] = [] ∨
      Alignment.weightedPairs p.similarity [l] [r] = [(0, 0)] := by
    simp only [Alignment.weightedPairs, List.reverse_singleton, Alignment.weightedFrom,
      Alignment.weightedRow]
    split
    · exact Or.inr rfl
    · split
      · exact Or.inl rfl
      · exact Or.inl rfl
  have hleft : p.pairLeftovers [l] [r] (Alignment.weightedPairs p.similarity [l] [r]) =
      [(0, 0)] := by
    rcases hsimilar with hs | hs
    · rw [hs]
      simp [pairLeftovers, pairLeftover, bounds, List.range_succ, h]
    · rw [hs]
      simp [pairLeftovers, pairLeftover, List.range_succ]
  rw [gapMatch, hleft]
  simp

theorem orderedMatch_singletons (p : Pairing) {l r : Nat} (h : p.canMatch l r = true) :
    p.orderedMatch [l] [r] = [(l, r)] := by
  have hcommon : Alignment.commonPairs p.identical [l] [r] = [] ∨
      Alignment.commonPairs p.identical [l] [r] = [(0, 0)] := by
    simp only [Alignment.commonPairs, Alignment.commonFrom, Alignment.commonRow]
    split
    · exact Or.inr rfl
    · split
      · exact Or.inl rfl
      · exact Or.inl rfl
  have hempty : p.gapMatch [] [] = [] := by
    simp [gapMatch, pairLeftovers, Alignment.weightedPairs, Alignment.weightedFrom]
  rcases hcommon with hc | hc
  · rw [orderedMatch, hc, fillGaps, gapMatch_singletons p h]
  · rw [orderedMatch, hc]
    simp [fillGaps, hempty]

theorem canMatch_one_one (hs : src.Linked) (hd : dst.Linked)
    (hkind : src.kind Tree.root = dst.kind Tree.root) (hlabel : src.label Tree.root = "")
    (hlabel' : dst.label Tree.root = "") : (ofTrees src dst).canMatch 1 1 = true := by
  have hroot := Outline.stands_root src
  have hroot' := Outline.stands_root dst
  simp [canMatch, Outline.isTerminal, hroot.toMark hs, hroot'.toMark hd, Mark.ofNode, hkind, hlabel,
    hlabel']

theorem one_one_mem_matching (minSize : Nat) (h : (ofTrees src dst).canMatch 1 1 = true) :
    (1, 1) ∈ ((ofTrees src dst).matching minSize).pairs := by
  have hchildren : (ofTrees src dst).matchChildren Outline.root Outline.root = [(1, 1)] := by
    have hordered : (Outline.ofTree src).isUnordered Outline.root = false := by
      rw [Outline.isUnordered, Outline.toMark_root]
      decide
    rw [matchChildren, hordered, Outline.children_root, Outline.children_root]
    exact orderedMatch_singletons _ h
  refine subset_recoverMoves _ _ _ ?_
  obtain ⟨k, hk⟩ : ∃ k, (Outline.ofTree src).size = k + 1 :=
    ⟨(Outline.ofTree src).size - 1, by have := Outline.size_pos src; omega⟩
  rw [topDown, hk, growDown, hchildren]
  refine subset_growDown _ _ _ _ ?_
  simp [Matching.addAll, Matching.add, Matching.isFree, Matching.dstOf, Matching.srcOf]

end

end Pairing

end TreePatch
