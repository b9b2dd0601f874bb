import TreePatch.Proofs.Order
import TreePatch.Proofs.Path

/-!
# Edit scripts on nodes

What an edit script says about the nodes of two trees themselves, without outlines and matchings. A
kept node of the destination has a counterpart in the source with the same content, under the
counterpart of its parent; each other tracked child of a kept node is updated in place or placed anew,
and each other tracked child of its counterpart is updated in place or gone. The rest of the
development relies on `Reconciled` only.
-/

namespace TreePatch

/-! ## Operations as lists of nodes -/

/-- The source nodes that are deleted. -/
def deletedNodes (ops : List Operation) : List NodeId :=
  ops.filterMap fun op => if op.kind = .delete then some op.node.node else none

/-- The source nodes that are updated, with the destination nodes that replace them. -/
def updatedPairs (ops : List Operation) : List (NodeId × NodeId) :=
  ops.filterMap fun op =>
    if op.kind = .update then op.counterpart.map fun n => (op.node.node, n.node) else none

/-- The destination nodes that are placed anew, with the source nodes that they are moved from. -/
def placedNodes (ops : List Operation) : List (NodeId × Option NodeId) :=
  ops.filterMap fun op =>
    match op.kind with
    | .insert => some (op.node.node, none)
    | .move => op.counterpart.map fun n => (n.node, some op.node.node)
    | .delete | .update => none

/-- The source nodes that leave their place for good. -/
def goneNodes (deletes : List NodeId) (placed : List (NodeId × Option NodeId)) : List NodeId :=
  deletes ++ placed.filterMap (·.2)

namespace Pairing

section

variable {src dst : Tree} {m : Matching}

/-- The destination node `q` is kept as the source node `p`. -/
def Stays (src dst : Tree) (m : Matching) (q p : NodeId) : Prop :=
  ∃ d s, Outline.Stands dst d q ∧ Outline.Stands src s p ∧ (ofTrees src dst).Kept m d ∧
    m.srcOf d = some s

/-- Nothing changed above number `d` of the destination. -/
def Reached (src dst : Tree) (m : Matching) (d : Nat) : Prop :=
  ∀ a ∈ (Outline.ofTree dst).ancestors d, (ofTrees src dst).Unchanged m a

theorem mem_deletedNodes_iff (hs : src.Linked) (hd : dst.Linked)
    (hm : (ofTrees src dst).Matches m) {c : NodeId} :
    c ∈ deletedNodes ((ofTrees src dst).editScript m) ↔
      ∃ s, Outline.Stands src s c ∧ emitted (Outline.ofTree src) (fateOfSrc src dst m) s =
        some ⟨.delete, src.ref c, none⟩ := by
  rw [deletedNodes, List.mem_filterMap]
  constructor
  · rintro ⟨op, hop, hc⟩
    rcases mem_editScript_iff.mp hop with ⟨s, -, hemit⟩ | ⟨d, hlt, hemit⟩
    · obtain ⟨o, ho, rfl⟩ := emitted_src hs hemit
      obtain rfl : o = c := by simpa [Tree.ref] using hc
      exact ⟨s, ho, hemit⟩
    · obtain ⟨n, -, ⟨-, rfl⟩ | ⟨_, _, -, -, ⟨-, rfl⟩ | ⟨-, -, rfl⟩⟩⟩ := emitted_dst hs hd hm hlt hemit
      all_goals simp at hc
  · rintro ⟨s, hc, hemit⟩
    exact ⟨_, mem_editScript_iff.mpr (Or.inl ⟨s, hc.lt_size hs, hemit⟩), rfl⟩

theorem mem_updatedPairs_iff (hs : src.Linked) (hd : dst.Linked)
    (hm : (ofTrees src dst).Matches m) {c x : NodeId} :
    (c, x) ∈ updatedPairs ((ofTrees src dst).editScript m) ↔
      ∃ d s, Outline.Stands dst d x ∧ Outline.Stands src s c ∧ m.srcOf d = some s ∧
        Reached src dst m d ∧ d ∉ (ofTrees src dst).movedNodes m ∧
          d ∈ (ofTrees src dst).updatedNodes m := by
  rw [updatedPairs, List.mem_filterMap]
  constructor
  · rintro ⟨op, hop, hc⟩
    rcases mem_editScript_iff.mp hop with ⟨s, -, hemit⟩ | ⟨d, hlt, hemit⟩
    · obtain ⟨o, ho, rfl⟩ := emitted_src hs hemit
      simp at hc
    · have hreached := (exists_emitted_dst_iff hs hd hm hlt).mp ⟨op, hemit⟩
      obtain ⟨n, hn, ⟨-, rfl⟩ | ⟨s, o, hsd, ho, ⟨-, rfl⟩ | ⟨hmoved, hupdated, rfl⟩⟩⟩ :=
        emitted_dst hs hd hm hlt hemit
      · simp at hc
      · simp at hc
      · obtain ⟨rfl, rfl⟩ : o = c ∧ n = x := by simpa [Tree.ref] using hc
        exact ⟨d, s, hn, ho, hsd, hreached.2, hmoved, hupdated⟩
  · rintro ⟨d, s, hx, hc, hsd, hreached, hmoved, hupdated⟩
    have hlt := hx.lt_size hd
    refine ⟨⟨.update, src.ref c, some (dst.ref x)⟩, mem_editScript_iff.mpr (Or.inr ⟨d, hlt, ?_⟩), rfl⟩
    refine emitted_eq_some_iff.mpr ⟨(dst_stays_iff hs hd hm).mpr hreached, ?_⟩
    rcases fateOfDst_of_ne_root hs hd hm hx with ⟨hnone, -⟩ | ⟨s', o, hsd', ho, hfate⟩
    · rw [hnone] at hsd
      simp at hsd
    · obtain rfl := Option.some.inj (hsd.symm.trans hsd')
      obtain rfl := ho.unique hs hc
      rw [hfate, if_neg hmoved, if_pos hupdated]

theorem mem_placedNodes_iff (hs : src.Linked) (hd : dst.Linked)
    (hm : (ofTrees src dst).Matches m) {x : NodeId} {source : Option NodeId} :
    (x, source) ∈ placedNodes ((ofTrees src dst).editScript m) ↔
      ∃ d, Outline.Stands dst d x ∧ Reached src dst m d ∧
        ((m.srcOf d = none ∧ source = none) ∨
          ∃ s c, m.srcOf d = some s ∧ Outline.Stands src s c ∧ source = some c ∧
            d ∈ (ofTrees src dst).movedNodes m) := by
  rw [placedNodes, List.mem_filterMap]
  constructor
  · rintro ⟨op, hop, hc⟩
    rcases mem_editScript_iff.mp hop with ⟨s, -, hemit⟩ | ⟨d, hlt, hemit⟩
    · obtain ⟨o, ho, rfl⟩ := emitted_src hs hemit
      simp at hc
    · have hreached := (exists_emitted_dst_iff hs hd hm hlt).mp ⟨op, hemit⟩
      obtain ⟨n, hn, ⟨hnone, rfl⟩ | ⟨s, o, hsd, ho, ⟨hmoved, rfl⟩ | ⟨-, -, rfl⟩⟩⟩ :=
        emitted_dst hs hd hm hlt hemit
      · obtain ⟨rfl, rfl⟩ : n = x ∧ source = none := by
          simpa [Tree.ref, eq_comm] using hc
        exact ⟨d, hn, hreached.2, Or.inl ⟨hnone, rfl⟩⟩
      · obtain ⟨rfl, rfl⟩ : n = x ∧ source = some o := by
          simpa [Tree.ref, eq_comm] using hc
        exact ⟨d, hn, hreached.2, Or.inr ⟨s, o, hsd, ho, rfl, hmoved⟩⟩
      · simp at hc
  · rintro ⟨d, hx, hreached, hcase⟩
    have hlt := hx.lt_size hd
    have hup := (dst_stays_iff hs hd hm).mpr hreached
    rcases fateOfDst_of_ne_root hs hd hm hx with ⟨hnone, hfate⟩ | ⟨s', o, hsd', ho, hfate⟩
    · rcases hcase with ⟨-, rfl⟩ | ⟨s, c, hsd, -⟩
      · exact ⟨_, mem_editScript_iff.mpr (Or.inr ⟨d, hlt, emitted_eq_some_iff.mpr ⟨hup, hfate⟩⟩), rfl⟩
      · rw [hnone] at hsd
        simp at hsd
    · rcases hcase with ⟨hnone, -⟩ | ⟨s, c, hsd, hc, rfl, hmoved⟩
      · rw [hnone] at hsd'
        simp at hsd'
      · obtain rfl := Option.some.inj (hsd.symm.trans hsd')
        obtain rfl := ho.unique hs hc
        rw [if_pos hmoved] at hfate
        exact ⟨_, mem_editScript_iff.mpr (Or.inr ⟨d, hlt, emitted_eq_some_iff.mpr ⟨hup, hfate⟩⟩), rfl⟩

/-! ## Kept nodes -/

namespace Stays

theorem functional (hs : src.Linked) (hd : dst.Linked) {q p p' : NodeId}
    (h : Stays src dst m q p) (h' : Stays src dst m q p') : p = p' := by
  obtain ⟨d, s, hq, hp, -, hsd⟩ := h
  obtain ⟨d', s', hq', hp', -, hsd'⟩ := h'
  obtain rfl := hq.injective hd hq'
  obtain rfl := Option.some.inj (hsd.symm.trans hsd')
  exact hp.unique hs hp'

theorem injective (hs : src.Linked) (hd : dst.Linked) (hm : (ofTrees src dst).Matches m)
    {q q' p : NodeId} (h : Stays src dst m q p) (h' : Stays src dst m q' p) : q = q' := by
  obtain ⟨d, s, hq, hp, -, hsd⟩ := h
  obtain ⟨d', s', hq', hp', -, hsd'⟩ := h'
  obtain rfl := hp.injective hs hp'
  rw [hm.oneToOne.srcOf_iff_dstOf] at hsd hsd'
  obtain rfl := Option.some.inj (hsd.symm.trans hsd')
  exact hq.unique hd hq'

theorem same (hs : src.Linked) (hd : dst.Linked) (hm : (ofTrees src dst).Matches m) {q p : NodeId}
    (h : Stays src dst m q p) :
    src.kind p = dst.kind q ∧ src.label p = dst.label q ∧
      (q = Tree.root ∨ src.role p = dst.role q) := by
  obtain ⟨d, s, hq, hp, hkept, hsd⟩ := h
  have hkind := (hm.fits _ (Matching.mem_of_srcOf hsd)).2.2
  obtain ⟨s', hsd', hplace, hlabel⟩ := hkept.unchanged
  obtain rfl := Option.some.inj (hsd.symm.trans hsd')
  simp only [hp.toMark hs, hq.toMark hd] at hkind hlabel hplace
  refine ⟨hkind, hlabel, ?_⟩
  rcases hq.parent hd (hq.lt_size hd) (hq.ne_root hd) with ⟨-, rfl⟩ | ⟨j, _, hj, -⟩
  · exact Or.inl rfl
  · exact Or.inr (hplace j hj).2.1

theorem tracked (hs : src.Linked) (hd : dst.Linked) {q p : NodeId} (h : Stays src dst m q p) :
    (∀ q', dst.parent? q = some q' → dst.isIgnored q = false) ∧
      ∀ p', src.parent? p = some p' → src.isIgnored p = false := by
  obtain ⟨d, s, hq, hp, -, -⟩ := h
  exact ⟨fun q' hq' => (hq.exists_parent hd hq').1, fun p' hp' => (hp.exists_parent hs hp').1⟩

end Stays

theorem stays_root (hs : src.Rooted) (hd : dst.Rooted) (minSize : Nat) :
    Stays src dst ((ofTrees src dst).matching minSize) Tree.root Tree.root := by
  have hm := matching_matches src dst minSize
  have hroot := Outline.stands_root dst
  have hroot' := Outline.stands_root src
  have hmatch := canMatch_one_one src dst hs.linked hd.linked (hs.root_kind.trans hd.root_kind.symm)
    hs.root_label hd.root_label
  have hpair := hm.oneToOne.srcOf_eq_some_iff.mpr (one_one_mem_matching src dst minSize hmatch)
  refine ⟨1, 1, hroot, hroot', (kept_iff_of_parent (Outline.parent_of_one dst)).mpr
    ⟨⟨1, hpair, fun q hq => ?_, ?_⟩, kept_root hm⟩, hpair⟩
  · obtain rfl := Option.some.inj ((Outline.parent_of_one dst).symm.trans hq)
    have hparent : ((ofTrees src dst).src.parent? 1).bind
        ((ofTrees src dst).matching minSize).dstOf = some Outline.root := by
      rw [show (ofTrees src dst).src.parent? 1 = some Outline.root from Outline.parent_of_one src,
        Option.bind_some]
      exact hm.oneToOne.srcOf_iff_dstOf.mp (srcOf_root hm)
    have hrole : ((ofTrees src dst).src.node 1).role = ((ofTrees src dst).dst.node 1).role := by
      rw [hroot.toMark hd.linked, hroot'.toMark hs.linked]
      exact hs.root_role.trans hd.root_role.symm
    refine ⟨hparent, hrole, ?_⟩
    -- an only child is in order
    have hstayed : (ofTrees src dst).stayedChildren ((ofTrees src dst).matching minSize)
        Outline.root = [1] := by
      simp [stayedChildren, Outline.children_root, hpair,
        (isDisplaced_eq_false_iff hq hpair).mpr ⟨hparent, hrole⟩]
    have hinOrder : (ofTrees src dst).stayedInSourceOrder ((ofTrees src dst).matching minSize)
        Outline.root Outline.root = [1] := by
      simp [stayedInSourceOrder, Outline.children_root, hstayed,
        hm.oneToOne.srcOf_iff_dstOf.mp hpair]
    rw [disorderedChildren, srcOf_root hm]
    simp only [hstayed, hinOrder]
    decide
  · rw [hroot.toMark hd.linked, hroot'.toMark hs.linked]
    exact hs.root_label.trans hd.root_label.symm

/-! ## Children of kept nodes -/

theorem reached_iff_of_parent {d q : Nat} (hq : (Outline.ofTree dst).parent? d = some q) :
    Reached src dst m d ↔ (ofTrees src dst).Kept m q := by
  have G := Outline.forest_ofTree dst
  have hup : (Outline.ofTree dst).ancestors d = q :: (Outline.ofTree dst).ancestors q :=
    G.upward_of_some hq
  rw [Reached, hup, Kept]
  exact ⟨fun h => ⟨(G.lt_size hq).1, h⟩, And.right⟩

theorem Stays.exists_reached (hd : dst.Linked) {q p x : NodeId} (h : Stays src dst m q p)
    (hx : dst.parent? x = some q) (htracked : dst.isIgnored x = false) :
    ∃ d, Outline.Stands dst d x ∧ Reached src dst m d := by
  obtain ⟨e, _, hq, -, hkept, -⟩ := h
  obtain ⟨d, hd', hpar⟩ := hq.exists_child hd hx htracked
  exact ⟨d, hd', (reached_iff_of_parent hpar).mpr hkept⟩

theorem Reached.exists_stays (hs : src.Linked) (hd : dst.Linked) (hm : (ofTrees src dst).Matches m)
    {d : Nat} {x : NodeId} (hx : Outline.Stands dst d x) (hroot : x ≠ Tree.root)
    (h : Reached src dst m d) :
    dst.isIgnored x = false ∧ ∃ q p, dst.parent? x = some q ∧ Stays src dst m q p := by
  rcases hx.parent hd (hx.lt_size hd) (hx.ne_root hd) with ⟨-, hroot'⟩ | ⟨e, q, he, hne, hq, hpar, htr⟩
  · exact absurd hroot' hroot
  · have hkept := (reached_iff_of_parent he).mp h
    obtain ⟨s, hsd, -⟩ := hkept.unchanged
    have hfit := hm.fits _ (Matching.mem_of_srcOf hsd)
    have hsne : s ≠ Outline.root := by
      rintro rfl
      exact hne (root_of_srcOf_root hm hsd)
    obtain ⟨p, hp⟩ := Outline.exists_stands hs hfit.1 hsne
    exact ⟨htr, q, p, hpar, e, s, hq, hp, hkept, hsd⟩

theorem Reached.stays (hs : src.Linked) (hd : dst.Linked) (hm : (ofTrees src dst).Matches m)
    {d s : Nat} {x : NodeId} (hx : Outline.Stands dst d x) (h : Reached src dst m d)
    (hsd : m.srcOf d = some s) (hmoved : d ∉ (ofTrees src dst).movedNodes m)
    (hupdated : d ∉ (ofTrees src dst).updatedNodes m) : ∃ c, Stays src dst m x c := by
  have hlt := hx.lt_size hd
  have hunchanged := (unchanged_iff hm hlt).mpr ⟨by simp [hsd], hmoved, hupdated⟩
  have hne : s ≠ Outline.root := by
    rintro rfl
    exact hx.ne_root hd (root_of_srcOf_root hm hsd)
  obtain ⟨c, hc⟩ := Outline.exists_stands hs (hm.fits _ (Matching.mem_of_srcOf hsd)).1 hne
  refine ⟨c, d, s, hx, hc, ⟨hlt, fun a ha => ?_⟩, hsd⟩
  rcases List.mem_cons.mp ha with rfl | ha
  · exact hunchanged
  · exact h a ha

theorem dst_child_cases (hs : src.Linked) (hd : dst.Linked) (hm : (ofTrees src dst).Matches m)
    {q p x : NodeId} (h : Stays src dst m q p) (hx : dst.parent? x = some q)
    (htracked : dst.isIgnored x = false) :
    (∃ c, Stays src dst m x c) ∨ (∃ c, (c, x) ∈ updatedPairs ((ofTrees src dst).editScript m)) ∨
      ∃ source, (x, source) ∈ placedNodes ((ofTrees src dst).editScript m) := by
  obtain ⟨d, hdx, hreached⟩ := h.exists_reached hd hx htracked
  cases hsd : m.srcOf d with
  | none =>
    exact Or.inr (Or.inr ⟨none, (mem_placedNodes_iff hs hd hm).mpr
      ⟨d, hdx, hreached, Or.inl ⟨hsd, rfl⟩⟩⟩)
  | some s =>
    have hne : s ≠ Outline.root := by
      rintro rfl
      exact hdx.ne_root hd (root_of_srcOf_root hm hsd)
    obtain ⟨c, hc⟩ := Outline.exists_stands hs (hm.fits _ (Matching.mem_of_srcOf hsd)).1 hne
    by_cases hmoved : d ∈ (ofTrees src dst).movedNodes m
    · exact Or.inr (Or.inr ⟨some c, (mem_placedNodes_iff hs hd hm).mpr
        ⟨d, hdx, hreached, Or.inr ⟨s, c, hsd, hc, rfl, hmoved⟩⟩⟩)
    · by_cases hupdated : d ∈ (ofTrees src dst).updatedNodes m
      · exact Or.inr (Or.inl ⟨c, (mem_updatedPairs_iff hs hd hm).mpr
          ⟨d, s, hdx, hc, hsd, hreached, hmoved, hupdated⟩⟩)
      · exact Or.inl (hreached.stays hs hd hm hdx hsd hmoved hupdated)

theorem mem_goneNodes_iff (hs : src.Linked) (hd : dst.Linked) (hm : (ofTrees src dst).Matches m)
    {c : NodeId} :
    c ∈ goneNodes (deletedNodes ((ofTrees src dst).editScript m))
        (placedNodes ((ofTrees src dst).editScript m)) ↔
      ∃ s, Outline.Stands src s c ∧
        (emitted (Outline.ofTree src) (fateOfSrc src dst m) s = some ⟨.delete, src.ref c, none⟩ ∨
          ∃ d, m.srcOf d = some s ∧ Reached src dst m d ∧ d ∈ (ofTrees src dst).movedNodes m) := by
  rw [goneNodes, List.mem_append, mem_deletedNodes_iff hs hd hm, List.mem_filterMap]
  constructor
  · rintro (⟨s, hc, hemit⟩ | ⟨⟨x, source⟩, hmem, rfl⟩)
    · exact ⟨s, hc, Or.inl hemit⟩
    · obtain ⟨d, hx, hreached, ⟨-, hnone⟩ | ⟨s, c', hsd, hc, heq, hmoved⟩⟩ :=
        (mem_placedNodes_iff hs hd hm).mp hmem
      · simp at hnone
      · obtain rfl := Option.some.inj heq
        exact ⟨s, hc, Or.inr ⟨d, hsd, hreached, hmoved⟩⟩
  · rintro ⟨s, hc, hemit | ⟨d, hsd, hreached, hmoved⟩⟩
    · exact Or.inl ⟨s, hc, hemit⟩
    · have hne : d ≠ Outline.root := by
        rintro rfl
        rw [srcOf_root hm] at hsd
        exact hc.ne_root hs (Option.some.inj hsd).symm
      obtain ⟨x, hx⟩ := Outline.exists_stands hd (hm.fits _ (Matching.mem_of_srcOf hsd)).2.1 hne
      exact Or.inr ⟨(x, some c), (mem_placedNodes_iff hs hd hm).mpr
        ⟨d, hx, hreached, Or.inr ⟨s, c, hsd, hc, rfl, hmoved⟩⟩, rfl⟩

theorem src_child_cases (hs : src.Linked) (hd : dst.Linked) (hm : (ofTrees src dst).Matches m)
    {q p c : NodeId} (h : Stays src dst m q p) (hc : src.parent? c = some p)
    (htracked : src.isIgnored c = false) :
    (∃ x, Stays src dst m x c) ∨ (∃ x, (c, x) ∈ updatedPairs ((ofTrees src dst).editScript m)) ∨
      c ∈ goneNodes (deletedNodes ((ofTrees src dst).editScript m))
        (placedNodes ((ofTrees src dst).editScript m)) := by
  have F := Outline.forest_ofTree src
  obtain ⟨d, s, hq, hp, hkept, hsd⟩ := h
  obtain ⟨s', hs', hpar⟩ := hp.exists_child hs hc htracked
  have hlt := hs'.lt_size hs
  have hup : ∀ a ∈ (Outline.ofTree src).ancestors s', (fateOfSrc src dst m a).goesOn = true := by
    have hanc : (Outline.ofTree src).ancestors s' = s :: (Outline.ofTree src).ancestors s :=
      F.upward_of_some hpar
    rw [hanc]
    exact (src_stays_iff hd hm (F.lt_size hpar).1).mpr ⟨d, hkept, hsd⟩
  cases hself : (fateOfSrc src dst m s').goesOn with
  | true =>
    obtain ⟨e, hkept', hse⟩ := (src_stays_iff hd hm hlt).mp (fun a ha => by
      rcases List.mem_cons.mp ha with rfl | ha
      · exact hself
      · exact hup a ha)
    have hne : e ≠ Outline.root := by
      rintro rfl
      rw [srcOf_root hm] at hse
      exact hs'.ne_root hs (Option.some.inj hse).symm
    obtain ⟨x, hx⟩ := Outline.exists_stands hd hkept'.1 hne
    exact Or.inl ⟨x, e, s', hx, hs', hkept', hse⟩
  | false =>
    refine Or.inr ?_
    obtain ⟨op, hop, hremoves⟩ := src_settled hs hd hm hlt hup hself
    rcases (removes_iff hs hd hm hop).mp hremoves with ⟨-, hemit⟩ | ⟨e, hlte, hse, hemit⟩
    · obtain ⟨o, ho, rfl⟩ := emitted_src hs hemit
      obtain rfl := ho.unique hs hs'
      exact Or.inr ((mem_goneNodes_iff hs hd hm).mpr ⟨s', hs', Or.inl hemit⟩)
    · have hreached := ((exists_emitted_dst_iff hs hd hm hlte).mp ⟨op, hemit⟩).2
      obtain ⟨x, hx, ⟨hnone, -⟩ | ⟨_, o, -, -, ⟨hmoved, -⟩ | ⟨hmoved, hupdated, -⟩⟩⟩ :=
        emitted_dst hs hd hm hlte hemit
      · rw [hnone] at hse
        simp at hse
      · exact Or.inr ((mem_goneNodes_iff hs hd hm).mpr
          ⟨s', hs', Or.inr ⟨e, hse, hreached, hmoved⟩⟩)
      · exact Or.inl ⟨x, (mem_updatedPairs_iff hs hd hm).mpr
          ⟨e, s', hx, hs', hse, hreached, hmoved, hupdated⟩⟩

/-! ## Nothing happens twice -/

theorem goesOn_iff_of_srcOf (hm : (ofTrees src dst).Matches m) {s d : Nat}
    (hsd : m.srcOf d = some s) :
    (fateOfSrc src dst m s).goesOn = true ↔ (ofTrees src dst).Unchanged m d := by
  rw [src_goesOn_iff hm]
  refine ⟨?_, fun h => ⟨d, hsd, h⟩⟩
  rintro ⟨d', hsd', h⟩
  rw [hm.oneToOne.srcOf_iff_dstOf] at hsd hsd'
  exact Option.some.inj (hsd'.symm.trans hsd) ▸ h

theorem goesOn_eq_false_of_gone (hs : src.Linked) (hd : dst.Linked)
    (hm : (ofTrees src dst).Matches m) {s : Nat} {c : NodeId} (hc : Outline.Stands src s c)
    (h : c ∈ goneNodes (deletedNodes ((ofTrees src dst).editScript m))
      (placedNodes ((ofTrees src dst).editScript m))) :
    (fateOfSrc src dst m s).goesOn = false := by
  obtain ⟨s', hc', hcase⟩ := (mem_goneNodes_iff hs hd hm).mp h
  obtain rfl := hc.injective hs hc'
  rcases hcase with hemit | ⟨d, hsd, -, hmoved⟩
  · rw [(emitted_eq_some_iff.mp hemit).2]
    rfl
  · rw [Bool.eq_false_iff, ne_eq, goesOn_iff_of_srcOf hm hsd,
      unchanged_iff hm (hm.fits _ (Matching.mem_of_srcOf hsd)).2.1]
    exact fun h => h.2.1 hmoved

theorem not_gone_of_inPlace (hs : src.Linked) (hd : dst.Linked) (hm : (ofTrees src dst).Matches m)
    {s d : Nat} {c : NodeId} (hc : Outline.Stands src s c) (hsd : m.srcOf d = some s)
    (hmoved : d ∉ (ofTrees src dst).movedNodes m) :
    c ∉ goneNodes (deletedNodes ((ofTrees src dst).editScript m))
      (placedNodes ((ofTrees src dst).editScript m)) := by
  intro h
  obtain ⟨s', hc', hcase⟩ := (mem_goneNodes_iff hs hd hm).mp h
  obtain rfl := hc.injective hs hc'
  have hdst := hm.oneToOne.srcOf_iff_dstOf.mp hsd
  rcases hcase with hemit | ⟨d', hsd', -, hmoved'⟩
  · have hfate := (emitted_eq_some_iff.mp hemit).2
    simp only [fateOfSrc, srcFate, hdst, List.contains_iff_mem, if_neg hmoved] at hfate
    split at hfate <;> simp at hfate
  · rw [hm.oneToOne.srcOf_iff_dstOf, hdst] at hsd'
    exact hmoved (Option.some.inj hsd' ▸ hmoved')

/-! ## Order -/

theorem placed_iff_not_inPlace (hs : src.Linked) (hd : dst.Linked)
    (hm : (ofTrees src dst).Matches m) {d : Nat} {x : NodeId} (hx : Outline.Stands dst d x)
    (hreached : Reached src dst m d) :
    x ∈ (placedNodes ((ofTrees src dst).editScript m)).map (·.1) ↔
      ¬ (ofTrees src dst).InPlace m d := by
  rw [InPlace, List.mem_map]
  constructor
  · rintro ⟨⟨_, source⟩, hmem, rfl⟩ ⟨hsome, hmoved⟩
    obtain ⟨d', hx', -, ⟨hnone, -⟩ | ⟨s, c, hsd, -, -, hmoved'⟩⟩ :=
      (mem_placedNodes_iff hs hd hm).mp hmem
    · rw [← hx.injective hd hx'] at hnone
      simp [hnone] at hsome
    · exact hmoved (hx.injective hd hx' ▸ hmoved')
  · intro h
    cases hsd : m.srcOf d with
    | none =>
      exact ⟨(x, none), (mem_placedNodes_iff hs hd hm).mpr ⟨d, hx, hreached, Or.inl ⟨hsd, rfl⟩⟩, rfl⟩
    | some s =>
      have hmoved : d ∈ (ofTrees src dst).movedNodes m := by
        by_contra hmoved
        exact h ⟨by simp [hsd], hmoved⟩
      have hne : s ≠ Outline.root := by
        rintro rfl
        exact hx.ne_root hd (root_of_srcOf_root hm hsd)
      obtain ⟨c, hc⟩ := Outline.exists_stands hs (hm.fits _ (Matching.mem_of_srcOf hsd)).1 hne
      exact ⟨(x, some c), (mem_placedNodes_iff hs hd hm).mpr
        ⟨d, hx, hreached, Or.inr ⟨s, c, hsd, hc, rfl, hmoved⟩⟩, rfl⟩

theorem inPlace_parent (hm : (ofTrees src dst).Matches m) {d e s : Nat}
    (hlt : e < (Outline.ofTree dst).size) (hmoved : e ∉ (ofTrees src dst).movedNodes m)
    (hse : m.srcOf e = some s) (hpar : (Outline.ofTree dst).parent? e = some d) :
    ∃ s', (Outline.ofTree src).parent? s = some s' ∧ m.srcOf d = some s' := by
  obtain ⟨s', hs', hd'⟩ := Option.bind_eq_some_iff.mp
    ((isDisplaced_eq_false_iff hpar hse).mp (not_displaced_of_not_moved hlt hmoved)).1
  exact ⟨s', hs', hm.oneToOne.srcOf_iff_dstOf.mpr hd'⟩

theorem mem_children_of_inPlace (hd : dst.Linked) (hm : (ofTrees src dst).Matches m) {d s e c : Nat}
    (hsd : m.srcOf d = some s) (hc : c ∈ (Outline.ofTree src).children s) (hec : m.srcOf e = some c)
    (hmoved : e ∉ (ofTrees src dst).movedNodes m) : e ∈ (Outline.ofTree dst).children d := by
  have hlt : e < (Outline.ofTree dst).size := (hm.fits _ (Matching.mem_of_srcOf hec)).2.1
  have hcs := (Outline.forest_ofTree src).mem_below.mp hc
  cases hpar : (Outline.ofTree dst).parent? e with
  | none =>
    obtain rfl := Outline.eq_root_of_parent_eq_none hd hlt hpar
    obtain rfl := Option.some.inj ((srcOf_root hm).symm.trans hec)
    rw [Outline.parent_of_root] at hcs
    simp at hcs
  | some d' =>
    obtain ⟨s', hs', hd'⟩ := inPlace_parent hm hlt hmoved hec hpar
    obtain rfl := Option.some.inj (hcs.symm.trans hs')
    rw [hm.oneToOne.srcOf_iff_dstOf] at hsd hd'
    obtain rfl := Option.some.inj (hsd.symm.trans hd')
    exact (Outline.forest_ofTree dst).mem_below.mpr hpar

theorem exists_inPlace_of_not_gone (hs : src.Linked) (hd : dst.Linked)
    (hm : (ofTrees src dst).Matches m) {q p n : NodeId} {c : Nat} (h : Stays src dst m q p)
    (hparent : src.parent? n = some p) (htracked : src.isIgnored n = false)
    (hc : Outline.Stands src c n)
    (hgone : n ∉ goneNodes (deletedNodes ((ofTrees src dst).editScript m))
      (placedNodes ((ofTrees src dst).editScript m))) :
    ∃ e, m.srcOf e = some c ∧ e ∉ (ofTrees src dst).movedNodes m := by
  rcases src_child_cases hs hd hm h hparent htracked with ⟨x, e, c', -, hc', hkept, hec⟩ | ⟨x, hx⟩ |
    hgone'
  · obtain rfl := hc.injective hs hc'
    exact ⟨e, hec, ((unchanged_iff hm hkept.1).mp hkept.unchanged).2.1⟩
  · obtain ⟨e, c', -, hc', hec, -, hmoved, -⟩ := (mem_updatedPairs_iff hs hd hm).mp hx
    obtain rfl := hc.injective hs hc'
    exact ⟨e, hec, hmoved⟩
  · exact absurd hgone' hgone

open Classical in
/-- **In place, children keep their order.** Leaving out what is gone on one side and what is placed
anew on the other, the tracked children of a kept node and of its counterpart run in parallel. -/
theorem children_order (hs : src.Linked) (hd : dst.Linked) (hm : (ofTrees src dst).Matches m)
    {q p : NodeId} (h : Stays src dst m q p) :
    List.Forall₂
      (fun c x => Stays src dst m x c ∨ (c, x) ∈ updatedPairs ((ofTrees src dst).editScript m))
      ((Outline.trackedChildren src p).filter fun c => decide
        (c ∉ goneNodes (deletedNodes ((ofTrees src dst).editScript m))
          (placedNodes ((ofTrees src dst).editScript m))))
      ((Outline.trackedChildren dst q).filter fun x => decide
        (x ∉ (placedNodes ((ofTrees src dst).editScript m)).map (·.1))) := by
  have G := Outline.forest_ofTree dst
  obtain ⟨d, s, hq, hp, hkept, hsd⟩ := id h
  have hreached : ∀ e ∈ (Outline.ofTree dst).children d, Reached src dst m e := fun e he =>
    (reached_iff_of_parent (G.mem_below.mp he)).mpr hkept
  have hleft := forall₂_filter (hp.children hs)
    (f := fun c => (m.dstOf c).any fun e =>
      decide (e ∈ (Outline.ofTree dst).children d ∧ (ofTrees src dst).InPlace m e))
    (g := fun c => decide (c ∉ goneNodes (deletedNodes ((ofTrees src dst).editScript m))
      (placedNodes ((ofTrees src dst).editScript m)))) (fun c n hc hn hstands => by
    obtain ⟨hparent, htracked⟩ := (Outline.mem_trackedChildren hs).mp hn
    rw [Option.any_eq_true, decide_eq_true_eq]
    constructor
    · rintro ⟨e, hce, hin⟩
      exact not_gone_of_inPlace hs hd hm hstands (hm.oneToOne.srcOf_iff_dstOf.mpr hce)
        (of_decide_eq_true hin).2.2
    · intro hgone
      obtain ⟨e, hec, hmoved⟩ := exists_inPlace_of_not_gone hs hd hm h hparent htracked hstands hgone
      exact ⟨e, hm.oneToOne.srcOf_iff_dstOf.mp hec,
        decide_eq_true ⟨mem_children_of_inPlace hd hm hsd hc hec hmoved, by simp [hec], hmoved⟩⟩)
  have hright := forall₂_filter (hq.children hd)
    (f := fun e => decide ((ofTrees src dst).InPlace m e))
    (g := fun x => decide (x ∉ (placedNodes ((ofTrees src dst).editScript m)).map (·.1)))
    (fun e x he _ hstands => by
      rw [decide_eq_true_eq, decide_eq_true_eq,
        placed_iff_not_inPlace hs hd hm hstands (hreached e he), Classical.not_not])
  have hmid := forall₂_of_filterMap_filter (f := m.dstOf)
    (g := fun e => decide (e ∈ (Outline.ofTree dst).children d ∧ (ofTrees src dst).InPlace m e))
    ((Outline.ofTree src).children s)
  rw [inPlace_order hm hsd] at hmid
  have hright' := (List.forall₂_and_left
    (p := fun e => e ∈ (Outline.ofTree dst).children d ∧ (ofTrees src dst).InPlace m e) _ _).mpr
    ⟨fun e he => ⟨(List.mem_filter.mp he).1, of_decide_eq_true (List.mem_filter.mp he).2⟩, hright⟩
  refine (forall₂_comp hleft.flip (forall₂_comp hmid hright')).imp ?_
  rintro c x ⟨c', hc', e, hce, ⟨he, -, hmoved⟩, hx⟩
  have hec := hm.oneToOne.srcOf_iff_dstOf.mpr hce
  by_cases hupdated : e ∈ (ofTrees src dst).updatedNodes m
  · exact Or.inr ((mem_updatedPairs_iff hs hd hm).mpr
      ⟨e, c', hx, hc', hec, hreached e he, hmoved, hupdated⟩)
  · obtain ⟨o, ho⟩ := (hreached e he).stays hs hd hm hx hec hmoved hupdated
    obtain ⟨e', s', hx', ho', hkept', hes⟩ := ho
    obtain rfl := hx.injective hd hx'
    obtain rfl := Option.some.inj (hec.symm.trans hes)
    exact Or.inl ⟨e, c', hx, hc', hkept', hec⟩

theorem pairwise_filterMap_editScript {γ : Type} (pick : Operation → Option γ) (name : γ → NodeId)
    (hs : src.Linked) (hd : dst.Linked) (hsrc : ∀ r, pick ⟨.delete, r, none⟩ = none)
    (hdst : ∀ {d op a}, d < (Outline.ofTree dst).size →
      emitted (Outline.ofTree dst) (fateOfDst src dst m) d = some op → pick op = some a →
        Outline.Stands dst d (name a)) :
    (((ofTrees src dst).editScript m).filterMap pick).Pairwise fun a b =>
      ∀ d e, Outline.Stands dst d (name a) → Outline.Stands dst e (name b) → d < e := by
  have hnone : ((List.range (Outline.ofTree src).size).filterMap
      (emitted (Outline.ofTree src) (fateOfSrc src dst m))).filterMap pick = [] := by
    refine List.filterMap_eq_nil_iff.mpr fun op hop => ?_
    obtain ⟨s, -, hemit⟩ := List.mem_filterMap.mp hop
    obtain ⟨o, -, rfl⟩ := emitted_src hs hemit
    exact hsrc _
  have hrange : (List.range (Outline.ofTree dst).size).Pairwise fun i j => i < j ∧
      i < (Outline.ofTree dst).size ∧ j < (Outline.ofTree dst).size :=
    List.pairwise_lt_range.imp_of_mem fun hi hj hij =>
      ⟨hij, List.mem_range.mp hi, List.mem_range.mp hj⟩
  rw [editScript_eq, List.filterMap_append, hnone, List.nil_append, List.filterMap_filterMap]
  refine hrange.filterMap _ ?_
  rintro i j ⟨hij, hi, hj⟩ a ha b hb d e hda heb
  obtain ⟨op, hop, ha⟩ := Option.bind_eq_some_iff.mp ha
  obtain ⟨op', hop', hb⟩ := Option.bind_eq_some_iff.mp hb
  rw [hda.injective hd (hdst hi hop ha), heb.injective hd (hdst hj hop' hb)]
  exact hij

theorem pairwise_placedNodes (hs : src.Linked) (hd : dst.Linked)
    (hm : (ofTrees src dst).Matches m) :
    (placedNodes ((ofTrees src dst).editScript m)).Pairwise fun a b =>
      ∀ d e, Outline.Stands dst d a.1 → Outline.Stands dst e b.1 → d < e := by
  rw [placedNodes]
  refine pairwise_filterMap_editScript _ Prod.fst hs hd (fun _ => rfl) fun {d op a} hlt hemit ha => ?_
  obtain ⟨n, hn, ⟨-, rfl⟩ | ⟨_, _, -, -, ⟨-, rfl⟩ | ⟨-, -, rfl⟩⟩⟩ := emitted_dst hs hd hm hlt hemit
  · obtain rfl := Option.some.inj ha
    exact hn
  · obtain rfl := Option.some.inj ha
    exact hn
  · simp at ha

theorem pairwise_updatedPairs (hs : src.Linked) (hd : dst.Linked)
    (hm : (ofTrees src dst).Matches m) :
    (updatedPairs ((ofTrees src dst).editScript m)).Pairwise fun a b =>
      ∀ d e, Outline.Stands dst d a.2 → Outline.Stands dst e b.2 → d < e := by
  rw [updatedPairs]
  refine pairwise_filterMap_editScript _ Prod.snd hs hd (fun _ => rfl) fun {d op a} hlt hemit ha => ?_
  obtain ⟨n, hn, ⟨-, rfl⟩ | ⟨_, _, -, -, ⟨-, rfl⟩ | ⟨-, -, rfl⟩⟩⟩ := emitted_dst hs hd hm hlt hemit
  · simp at ha
  · simp at ha
  · obtain rfl := Option.some.inj ha
    exact hn

theorem oneToOne_updatedPairs (hs : src.Linked) (hd : dst.Linked)
    (hm : (ofTrees src dst).Matches m) :
    OneToOne (updatedPairs ((ofTrees src dst).editScript m)) := by
  refine (pairwise_updatedPairs hs hd hm).imp_of_mem fun {a b} ha hb hab => ?_
  obtain ⟨d, s, hda, hsa, hsd, -⟩ := (mem_updatedPairs_iff hs hd hm).mp ha
  obtain ⟨e, s', heb, hsb, hse, -⟩ := (mem_updatedPairs_iff hs hd hm).mp hb
  have hlt := hab d e hda heb
  refine ⟨fun heq => ?_, fun heq => ?_⟩
  · rw [heq] at hsa
    obtain rfl := hsa.injective hs hsb
    rw [hm.oneToOne.srcOf_iff_dstOf] at hsd hse
    exact Nat.ne_of_lt hlt (Option.some.inj (hsd.symm.trans hse))
  · rw [heq] at hda
    exact Nat.ne_of_lt hlt (hda.injective hd heb)

theorem nodup_placedNodes (hs : src.Linked) (hd : dst.Linked) (hm : (ofTrees src dst).Matches m) :
    ((placedNodes ((ofTrees src dst).editScript m)).map (·.1)).Nodup := by
  refine List.pairwise_map.mpr ((pairwise_placedNodes hs hd hm).imp_of_mem fun {a b} ha hb hab heq => ?_)
  obtain ⟨d, hda, -⟩ := (mem_placedNodes_iff hs hd hm).mp ha
  have hdb : Outline.Stands dst d b.1 := heq ▸ hda
  exact Nat.lt_irrefl d (hab d d hda hdb)

theorem pairwise_children_stands {t : Tree} (L : t.Linked) {i : Nat} {n : NodeId}
    (h : Outline.Stands t i n) : (t.children n).Pairwise fun a b =>
      ∀ d e, Outline.Stands t d a → Outline.Stands t e b → d < e := by
  have htracked : (Outline.trackedChildren t n).Pairwise fun a b =>
      ∀ d e, Outline.Stands t d a → Outline.Stands t e b → d < e := by
    have hlen := (h.children L).length_eq
    have hnum := List.pairwise_iff_getElem.mp (Outline.pairwise_children t (h.lt_size L))
    have hget := (List.forall₂_iff_get.mp (h.children L)).2
    refine List.pairwise_iff_getElem.mpr fun j k hj hk hjk d e hd he => ?_
    rw [hd.injective L (hget j (by omega) hj), he.injective L (hget k (by omega) hk)]
    exact hnum j k (by omega) (by omega) hjk
  refine (List.pairwise_filter.mp htracked).imp_of_mem fun {a b} ha hb hab d e hd he => ?_
  refine hab ?_ ?_ d e hd he
  · simpa using (hd.exists_parent L (L.mem_children.mp ha)).1
  · simpa using (he.exists_parent L (L.mem_children.mp hb)).1

theorem placed_before (hs : src.Linked) (hd : dst.Linked) (hm : (ofTrees src dst).Matches m)
    {pre post : List (NodeId × Option NodeId)} {x q z : NodeId} {source : Option NodeId}
    (hsplit : placedNodes ((ofTrees src dst).editScript m) = pre ++ (x, source) :: post)
    (hx : dst.parent? x = some q) (hz : z ∈ (dst.children q).takeWhile (· != x))
    (hplaced : z ∈ (placedNodes ((ofTrees src dst).editScript m)).map (·.1)) :
    z ∈ pre.map (·.1) := by
  obtain ⟨⟨z, source'⟩, hmem, rfl⟩ := List.mem_map.mp hplaced
  have horder := pairwise_placedNodes hs hd hm
  have hxmem : (x, source) ∈ placedNodes ((ofTrees src dst).editScript m) := by simp [hsplit]
  obtain ⟨d, hdx, -⟩ := (mem_placedNodes_iff hs hd hm).mp hxmem
  obtain ⟨e, hez, -⟩ := (mem_placedNodes_iff hs hd hm).mp hmem
  obtain ⟨-, i, hi, -⟩ := hdx.exists_parent hd hx
  rw [hsplit] at hmem horder
  have hne : z ≠ x := by simpa using List.mem_takeWhile_imp hz
  rcases List.mem_append.mp hmem with hpre | hpost
  · exact List.mem_map_of_mem hpre
  · -- otherwise it would come both before and after `x`
    have hpost : (z, source') ∈ post :=
      (List.mem_cons.mp hpost).resolve_left fun heq => hne (congrArg Prod.fst heq)
    have hlater := (List.pairwise_cons.mp (List.pairwise_append.mp horder).2.1).1 _ hpost d e hdx hez
    have hkids := pairwise_children_stands hd hi
    rw [← List.takeWhile_append_dropWhile (p := (· != x)) (l := dst.children q)] at hkids
    have hxdrop : x ∈ (dst.children q).dropWhile (· != x) := by
      have hxq := hd.mem_children.mpr hx
      rw [← List.takeWhile_append_dropWhile (p := (· != x)) (l := dst.children q),
        List.mem_append] at hxq
      refine hxq.resolve_left fun hmem => ?_
      simpa using List.mem_takeWhile_imp hmem
    have hearlier := (List.pairwise_append.mp hkids).2.2 z hz x hxdrop e d hez hdx
    omega

/-! ## In place -/

theorem Stays.parent (hs : src.Linked) (hd : dst.Linked) (hm : (ofTrees src dst).Matches m)
    {q p : NodeId} (h : Stays src dst m q p) (hroot : q ≠ Tree.root) :
    ∃ q' p', dst.parent? q = some q' ∧ src.parent? p = some p' ∧ Stays src dst m q' p' := by
  obtain ⟨d, s, hq, hp, hkept, hsd⟩ := h
  rcases hq.parent hd (hq.lt_size hd) (hq.ne_root hd) with ⟨-, hroot'⟩ | ⟨e, q', he, hne, hq', hpar, -⟩
  · exact absurd hroot' hroot
  · obtain ⟨s', hs', hse⟩ := hkept.unchanged.parent he hsd
    have hse := hm.oneToOne.srcOf_iff_dstOf.mpr hse
    rcases hp.parent hs (hp.lt_size hs) (hp.ne_root hs) with ⟨rfl, -⟩ | ⟨j, p', hj, -, hp', hpar', -⟩
    · obtain rfl := Option.some.inj ((Outline.parent_of_one src).symm.trans hs')
      exact absurd (root_of_srcOf_root hm hse) hne
    · obtain rfl := Option.some.inj (hj.symm.trans hs')
      exact ⟨q', p', hpar, hpar', e, j, hq', hp', ((kept_iff_of_parent he).mp hkept).2, hse⟩

theorem updated_in_place (hs : src.Linked) (hd : dst.Linked) (hm : (ofTrees src dst).Matches m)
    {c x : NodeId} (h : (c, x) ∈ updatedPairs ((ofTrees src dst).editScript m))
    (hroot : x ≠ Tree.root) :
    ∃ q p, Stays src dst m q p ∧ src.parent? c = some p ∧ dst.parent? x = some q ∧
      src.isIgnored c = false ∧ dst.isIgnored x = false ∧ src.role c = dst.role x ∧
        src.kind c = dst.kind x ∧ src.label c ≠ dst.label x := by
  obtain ⟨d, s, hx, hc, hsd, hreached, hmoved, hupdated⟩ := (mem_updatedPairs_iff hs hd hm).mp h
  have hlt := hx.lt_size hd
  obtain ⟨htracked, q, p, hpar, hstays⟩ := hreached.exists_stays hs hd hm hx hroot
  obtain ⟨-, e, hq, he⟩ := hx.exists_parent hd hpar
  obtain ⟨e', s', hq', hp, hkept, hse⟩ := id hstays
  obtain rfl := hq.injective hd hq'
  obtain ⟨s₁, hs₁, hse₁⟩ := inPlace_parent hm hlt hmoved hsd he
  obtain rfl := Option.some.inj (hse.symm.trans hse₁)
  have hplace := (isDisplaced_eq_false_iff he hsd).mp (not_displaced_of_not_moved hlt hmoved)
  have hkind := (hm.fits _ (Matching.mem_of_srcOf hsd)).2.2
  obtain ⟨s₂, hs₂, hlabel⟩ := mem_updatedNodes_iff.mp hupdated
  obtain rfl := Option.some.inj (hsd.symm.trans (hm.oneToOne.srcOf_eq_some_iff.mpr hs₂))
  simp only [hc.toMark hs, hx.toMark hd] at hplace hkind hlabel
  rcases hc.parent hs (hc.lt_size hs) (hc.ne_root hs) with ⟨rfl, -⟩ | ⟨j, p', hj, -, hp', hpar', htr⟩
  · obtain rfl := Option.some.inj ((Outline.parent_of_one src).symm.trans hs₁)
    exact absurd (root_of_srcOf_root hm hse) (hq.ne_root hd)
  · obtain rfl := Option.some.inj (hj.symm.trans hs₁)
    obtain rfl := hp'.unique hs hp
    exact ⟨q, p', hstays, hpar', hpar, htr, htracked, hplace.2, hkind, hlabel⟩

end

end Pairing

/-! ## Reconciled trees -/

/-- How the nodes of `dst` come out of `src`: `stay` gives the counterparts of the kept nodes, and the
lists name the source nodes that are deleted, those that are replaced in place with their replacements,
and the destination nodes that are placed anew, with what they are moved from. -/
structure Reconciled (src dst : Tree) (stay : NodeId → Option NodeId) (deletes : List NodeId)
    (updates : List (NodeId × NodeId)) (placed : List (NodeId × Option NodeId)) : Prop where
  root : stay Tree.root = some Tree.root
  parent : ∀ {q p}, stay q = some p → q ≠ Tree.root →
    ∃ q' p', dst.parent? q = some q' ∧ src.parent? p = some p' ∧ stay q' = some p'
  injective : ∀ {q q' p}, stay q = some p → stay q' = some p → q = q'
  kind : ∀ {q p}, stay q = some p → src.kind p = dst.kind q
  label : ∀ {q p}, stay q = some p → src.label p = dst.label q
  role : ∀ {q p}, stay q = some p → src.role p = dst.role q
  tracked : ∀ {q p}, stay q = some p → (∀ q', dst.parent? q = some q' → dst.isIgnored q = false) ∧
    ∀ p', src.parent? p = some p' → src.isIgnored p = false
  /-- A tracked child of a kept node is kept, replaces a node in place, or is placed anew. -/
  dst_child : ∀ {q p x}, stay q = some p → dst.parent? x = some q → dst.isIgnored x = false →
    (∃ c, stay x = some c) ∨ (∃ c, (c, x) ∈ updates) ∨ ∃ source, (x, source) ∈ placed
  /-- A tracked child of a counterpart is a counterpart, is replaced in place, or is gone. -/
  src_child : ∀ {q p c}, stay q = some p → src.parent? c = some p → src.isIgnored c = false →
    (∃ x, stay x = some c) ∨ (∃ x, (c, x) ∈ updates) ∨ c ∈ goneNodes deletes placed
  gone : ∀ {c}, c ∈ goneNodes deletes placed → c ≠ Tree.root ∧ src.isAttached c = true ∧
    src.isIgnored c = false ∧ (∀ x, stay x ≠ some c) ∧ ∀ x, (c, x) ∉ updates
  update : ∀ {c x}, (c, x) ∈ updates → ∃ q p, stay q = some p ∧ src.parent? c = some p ∧
    dst.parent? x = some q ∧ src.isIgnored c = false ∧ dst.isIgnored x = false ∧
      src.role c = dst.role x ∧ src.kind c = dst.kind x ∧ src.label c ≠ dst.label x
  update_fresh : ∀ {c x}, (c, x) ∈ updates → stay x = none ∧ (∀ y, stay y ≠ some c) ∧
    x ∉ placed.map (·.1)
  updates_oneToOne : OneToOne updates
  place : ∀ {x source}, (x, source) ∈ placed → stay x = none ∧ dst.isIgnored x = false ∧
    ∃ q p, stay q = some p ∧ dst.parent? x = some q
  placed_nodup : (placed.map (·.1)).Nodup
  /-- When a node is placed, its elder siblings that are placed have been placed before. -/
  placed_before : ∀ {pre post x source q z}, placed = pre ++ (x, source) :: post →
    dst.parent? x = some q → z ∈ (dst.children q).takeWhile (· != x) → z ∈ placed.map (·.1) →
      z ∈ pre.map (·.1)
  /-- In place, the tracked children of a kept node and of its counterpart run in parallel. -/
  order : ∀ {q p}, stay q = some p →
    List.Forall₂ (fun c x => stay x = some c ∨ (c, x) ∈ updates)
      ((Outline.trackedChildren src p).filter fun c => decide (c ∉ goneNodes deletes placed))
      ((Outline.trackedChildren dst q).filter fun x => decide (x ∉ placed.map (·.1)))

open Classical in
/-- The counterpart of a kept node. -/
noncomputable def Pairing.stayOf (src dst : Tree) (m : Matching) (q : NodeId) : Option NodeId :=
  if h : ∃ p, Pairing.Stays src dst m q p then some h.choose else none

theorem Pairing.stayOf_eq_some_iff {src dst : Tree} {m : Matching} (hs : src.Linked)
    (hd : dst.Linked) {q p : NodeId} :
    Pairing.stayOf src dst m q = some p ↔ Pairing.Stays src dst m q p := by
  rw [Pairing.stayOf]
  split
  · next h =>
    rw [Option.some.injEq]
    exact ⟨fun heq => heq ▸ h.choose_spec, fun hp => h.choose_spec.functional hs hd hp⟩
  · next h => exact ⟨fun heq => by simp at heq, fun hp => absurd ⟨p, hp⟩ h⟩

namespace Pairing

section

variable {src dst : Tree} {m : Matching}

theorem stayOf_eq_none {x : NodeId} (h : ∀ c, ¬ Stays src dst m x c) : stayOf src dst m x = none :=
  dif_neg fun ⟨c, hc⟩ => h c hc

theorem not_stays_of_changed (hd : dst.Linked) {d : Nat} {x : NodeId} (hx : Outline.Stands dst d x)
    (h : ¬ (ofTrees src dst).Unchanged m d) (c : NodeId) : ¬ Stays src dst m x c := by
  rintro ⟨d', s, hx', -, hkept, -⟩
  exact h (hx.injective hd hx' ▸ hkept.unchanged)

theorem not_stays_of_updated (hs : src.Linked) (hd : dst.Linked) (hm : (ofTrees src dst).Matches m)
    {c x : NodeId} (h : (c, x) ∈ updatedPairs ((ofTrees src dst).editScript m)) (c' : NodeId) :
    ¬ Stays src dst m x c' := by
  obtain ⟨d, s, hx, -, -, -, -, hupdated⟩ := (mem_updatedPairs_iff hs hd hm).mp h
  refine not_stays_of_changed hd hx (fun h => ?_) c'
  exact ((unchanged_iff hm (hx.lt_size hd)).mp h).2.2 hupdated

theorem not_stays_of_placed (hs : src.Linked) (hd : dst.Linked) (hm : (ofTrees src dst).Matches m)
    {x : NodeId} {source : Option NodeId}
    (h : (x, source) ∈ placedNodes ((ofTrees src dst).editScript m)) (c : NodeId) :
    ¬ Stays src dst m x c := by
  obtain ⟨d, hx, -, hcase⟩ := (mem_placedNodes_iff hs hd hm).mp h
  refine not_stays_of_changed hd hx (fun h => ?_) c
  obtain ⟨hsome, hmoved, -⟩ := (unchanged_iff hm (hx.lt_size hd)).mp h
  rcases hcase with ⟨hnone, -⟩ | ⟨s, c, -, -, -, hmoved'⟩
  · simp [hnone] at hsome
  · exact hmoved hmoved'

theorem Stays.goesOn (hs : src.Linked) (hm : (ofTrees src dst).Matches m) {x c : NodeId}
    (h : Stays src dst m x c) {s : Nat} (hc : Outline.Stands src s c) :
    (fateOfSrc src dst m s).goesOn = true := by
  obtain ⟨d, s', -, hc', hkept, hsd⟩ := h
  obtain rfl := hc.injective hs hc'
  exact (goesOn_iff_of_srcOf hm hsd).mpr hkept.unchanged

theorem gone_facts (hs : src.Linked) (hd : dst.Linked) (hm : (ofTrees src dst).Matches m)
    (hroot : Stays src dst m Tree.root Tree.root) {c : NodeId}
    (h : c ∈ goneNodes (deletedNodes ((ofTrees src dst).editScript m))
      (placedNodes ((ofTrees src dst).editScript m))) :
    c ≠ Tree.root ∧ src.isAttached c = true ∧ src.isIgnored c = false ∧
      (∀ x, ¬ Stays src dst m x c) ∧ ∀ x, (c, x) ∉ updatedPairs ((ofTrees src dst).editScript m) := by
  obtain ⟨s, hc, -⟩ := (mem_goneNodes_iff hs hd hm).mp h
  have hfalse := goesOn_eq_false_of_gone hs hd hm hc h
  have hnot : ∀ x, ¬ Stays src dst m x c := fun x hx => by
    rw [hx.goesOn hs hm hc] at hfalse
    simp at hfalse
  have hne : c ≠ Tree.root := by
    rintro rfl
    exact hnot _ hroot
  obtain ⟨p, hp, -⟩ := hs.exists_parent_of_isAttached (hc.isAttached hs) hne
  refine ⟨hne, hc.isAttached hs, (hc.exists_parent hs hp).1, hnot, fun x hx => ?_⟩
  obtain ⟨d, s', -, hc', hsd, -, hmoved, -⟩ := (mem_updatedPairs_iff hs hd hm).mp hx
  exact not_gone_of_inPlace hs hd hm hc' hsd hmoved h

theorem reconciled (hs : src.Rooted) (hd : dst.Rooted) (hm : (ofTrees src dst).Matches m)
    (hroot : Stays src dst m Tree.root Tree.root) :
    Reconciled src dst (stayOf src dst m) (deletedNodes ((ofTrees src dst).editScript m))
      (updatedPairs ((ofTrees src dst).editScript m))
      (placedNodes ((ofTrees src dst).editScript m)) := by
  have Ls := hs.linked
  have Ld := hd.linked
  have hstay : ∀ {q p}, stayOf src dst m q = some p ↔ Stays src dst m q p :=
    stayOf_eq_some_iff Ls Ld
  exact
    { root := hstay.mpr hroot
      parent := fun {q p} h hne => by
        obtain ⟨q', p', hq, hp, h'⟩ := (hstay.mp h).parent Ls Ld hm hne
        exact ⟨q', p', hq, hp, hstay.mpr h'⟩
      injective := fun h h' => (hstay.mp h).injective Ls Ld hm (hstay.mp h')
      kind := fun h => ((hstay.mp h).same Ls Ld hm).1
      label := fun h => ((hstay.mp h).same Ls Ld hm).2.1
      role := fun {q p} h => by
        rcases ((hstay.mp h).same Ls Ld hm).2.2 with rfl | hrole
        · obtain rfl := (hstay.mp h).functional Ls Ld hroot
          exact hs.root_role.trans hd.root_role.symm
        · exact hrole
      tracked := fun h => (hstay.mp h).tracked Ls Ld
      dst_child := fun h hx htracked => by
        simpa only [hstay] using dst_child_cases Ls Ld hm (hstay.mp h) hx htracked
      src_child := fun h hc htracked => by
        simpa only [hstay] using src_child_cases Ls Ld hm (hstay.mp h) hc htracked
      gone := fun h => by
        simpa only [ne_eq, hstay] using gone_facts Ls Ld hm hroot h
      update := fun {c x} h => by
        have hne : x ≠ Tree.root := by
          rintro rfl
          exact not_stays_of_updated Ls Ld hm h _ hroot
        simpa only [hstay] using updated_in_place Ls Ld hm h hne
      update_fresh := fun {c x} h => by
        obtain ⟨d, s, hx, hc, hsd, hreached, hmoved, hupdated⟩ := (mem_updatedPairs_iff Ls Ld hm).mp h
        refine ⟨stayOf_eq_none (not_stays_of_updated Ls Ld hm h), fun y hy => ?_, fun hmem => ?_⟩
        · have hgoes := (hstay.mp hy).goesOn Ls hm hc
          rw [goesOn_iff_of_srcOf hm hsd, unchanged_iff hm (hx.lt_size Ld)] at hgoes
          exact hgoes.2.2 hupdated
        · exact (placed_iff_not_inPlace Ls Ld hm hx hreached).mp hmem ⟨by simp [hsd], hmoved⟩
      updates_oneToOne := oneToOne_updatedPairs Ls Ld hm
      place := fun {x source} h => by
        obtain ⟨d, hx, hreached, -⟩ := (mem_placedNodes_iff Ls Ld hm).mp h
        have hne : x ≠ Tree.root := by
          rintro rfl
          exact not_stays_of_placed Ls Ld hm h _ hroot
        obtain ⟨htracked, q, p, hpar, hstays⟩ := hreached.exists_stays Ls Ld hm hx hne
        exact ⟨stayOf_eq_none (not_stays_of_placed Ls Ld hm h), htracked, q, p, hstay.mpr hstays, hpar⟩
      placed_nodup := nodup_placedNodes Ls Ld hm
      placed_before := fun hsplit hx hz hmem => placed_before Ls Ld hm hsplit hx hz hmem
      order := fun h => by
        simpa only [hstay] using children_order Ls Ld hm (hstay.mp h) }

end

end Pairing

/-- **The edit script of two rooted trees reconciles them.** -/
theorem Tree.Rooted.reconciled {src dst : Tree} (hs : src.Rooted) (hd : dst.Rooted)
    (minMoveSize : Nat) :
    Reconciled src dst
      (Pairing.stayOf src dst ((Pairing.ofTrees src dst).matching minMoveSize))
      (deletedNodes (src.diff dst minMoveSize).operations)
      (updatedPairs (src.diff dst minMoveSize).operations)
      (placedNodes (src.diff dst minMoveSize).operations) :=
  Pairing.reconciled hs hd (Pairing.matching_matches src dst minMoveSize)
    (Pairing.stays_root hs hd minMoveSize)

theorem reconciled_diff {src dst : Tree} (hs : src.Regular) (hd : dst.Regular)
    (minMoveSize : Nat) :
    Reconciled src dst
      (Pairing.stayOf src dst ((Pairing.ofTrees src dst).matching minMoveSize))
      (deletedNodes (src.diff dst minMoveSize).operations)
      (updatedPairs (src.diff dst minMoveSize).operations)
      (placedNodes (src.diff dst minMoveSize).operations) :=
  hs.toRooted.reconciled hd.toRooted minMoveSize

/-! ## Kept pairs -/

namespace Diff

/-- Whether number `a` of the destination is matched and has neither moved nor is updated. -/
def isUnchanged (d : Diff) (a : Nat) : Bool :=
  (Matching.srcOf ⟨d.pairs⟩ a).isSome && !(d.pairing.movedNodes ⟨d.pairs⟩).contains a &&
    !(d.pairing.updatedNodes ⟨d.pairs⟩).contains a

/-- The pairs of source and destination nodes that are kept: the destination node and all nodes above it
are matched, and none of them has moved or is updated. -/
def kept (d : Diff) : List (NodeId × NodeId) :=
  (d.pairs.filter fun q => (q.2 :: d.pairing.dst.ancestors q.2).all d.isUnchanged).filterMap
    fun q => do
      let s ← (d.pairing.src.node q.1).origin
      let n ← (d.pairing.dst.node q.2).origin
      return (s.node, n.node)

end Diff

section

variable {src dst : Tree} {minMoveSize : Nat}

theorem Tree.isUnchanged_diff_iff {a : Nat} (ha : a < (Outline.ofTree dst).size) :
    (src.diff dst minMoveSize).isUnchanged a = true ↔
      (Pairing.ofTrees src dst).Unchanged ((Pairing.ofTrees src dst).matching minMoveSize) a := by
  rw [Pairing.unchanged_iff (Pairing.matching_matches src dst minMoveSize) ha, Diff.isUnchanged,
    Bool.and_eq_true, Bool.and_eq_true, Bool.not_eq_true', Bool.not_eq_true', ← Bool.not_eq_true,
    ← Bool.not_eq_true, List.contains_iff_mem, List.contains_iff_mem, and_assoc]
  rfl

theorem Tree.mem_kept_iff (hs : src.Linked) (hd : dst.Linked) {p q : NodeId} :
    (p, q) ∈ (src.diff dst minMoveSize).kept ↔
      Pairing.stayOf src dst ((Pairing.ofTrees src dst).matching minMoveSize) q = some p := by
  have hm := Pairing.matching_matches src dst minMoveSize
  have hkept : ∀ {d}, d < (Outline.ofTree dst).size →
      ((d :: (Outline.ofTree dst).ancestors d).all (src.diff dst minMoveSize).isUnchanged = true ↔
        (Pairing.ofTrees src dst).Kept ((Pairing.ofTrees src dst).matching minMoveSize) d) := by
    intro d hlt
    rw [List.all_eq_true, Pairing.Kept]
    refine (forall₂_congr fun a ha => ?_).trans (and_iff_right hlt).symm
    refine isUnchanged_diff_iff ?_
    rcases List.mem_cons.mp ha with rfl | ha
    · exact hlt
    · exact (Outline.forest_ofTree dst).upward_lt_size ha
  rw [Pairing.stayOf_eq_some_iff hs hd, Diff.kept, List.mem_filterMap]
  constructor
  · rintro ⟨⟨s, d⟩, hmem, horigins⟩
    obtain ⟨hpair, hall⟩ := List.mem_filter.mp hmem
    obtain ⟨a, ha, hrest⟩ := Option.bind_eq_some_iff.mp horigins
    obtain ⟨b, hb, heq⟩ := Option.bind_eq_some_iff.mp hrest
    obtain ⟨p', hp', rfl⟩ := (Outline.origin_eq_some_iff hs).mp ha
    obtain ⟨q', hq', rfl⟩ := (Outline.origin_eq_some_iff hd).mp hb
    obtain ⟨rfl, rfl⟩ := Prod.mk.inj (Option.some.inj heq)
    exact ⟨d, s, hq', hp', (hkept (hq'.lt_size hd)).mp hall, hm.oneToOne.srcOf_eq_some_iff.mpr hpair⟩
  · rintro ⟨d, s, hq, hp, hkept', hsd⟩
    refine ⟨(s, d), List.mem_filter.mpr ⟨Matching.mem_of_srcOf hsd, (hkept hkept'.1).mpr hkept'⟩, ?_⟩
    have hs' : ((src.diff dst minMoveSize).pairing.src.node s).origin = some (src.ref p) := hp.origin hs
    have hd' : ((src.diff dst minMoveSize).pairing.dst.node d).origin = some (dst.ref q) := hq.origin hd
    rw [hs', hd']
    rfl

end

end TreePatch
