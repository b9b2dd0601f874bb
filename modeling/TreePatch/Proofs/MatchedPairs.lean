import TreePatch.Proofs.Apply
import TreePatch.Proofs.SameForm

/-!
# Where matched pairs come from

The downward pass works off a queue. Whatever it adds are children of a pair that it took from the queue,
so the parents of what it pairs are paired, and no source node is queued twice, so the queue runs empty
within the bound (`Pending.settles`).

Recovery then takes subtrees that are untouched on both sides, so every pair of their nodes can be added
and the whole subtrees end up paired, node by node in preorder (`recoverMove_cases`). The candidates are
collected once, before the sweep, and pairs are only ever added. A source subtree that is untouched at the
end was a candidate all along, so an identical destination subtree would have found it, or another one,
when its turn came (`touched_of_untouched`).
-/

namespace TreePatch

namespace Matching

variable {m : Matching}

theorem addAll_eq_append {l : List (Nat × Nat)} (h : TreePatch.OneToOne (m.pairs ++ l)) :
    m.addAll l = ⟨m.pairs ++ l⟩ := by
  induction l generalizing m with
  | nil => simp [addAll]
  | cons q l ih =>
    have hfree : m.isFree q = true :=
      isFree_iff.mpr fun a ha => (List.pairwise_append.mp h).2.2 a ha q List.mem_cons_self
    have hadd : m.add q = ⟨m.pairs ++ [q]⟩ := by rw [add, if_pos hfree]
    have hrest : TreePatch.OneToOne ((m.add q).pairs ++ l) := by
      rw [hadd]
      simpa using h
    rw [addAll, List.foldl_cons, ← addAll, ih hrest, hadd]
    simp

theorem exists_pairs_add (m : Matching) (q : Nat × Nat) : ∃ t, (m.add q).pairs = m.pairs ++ t := by
  rw [add]
  split
  · exact ⟨[q], rfl⟩
  · exact ⟨[], (List.append_nil _).symm⟩

theorem pairs_addAll (m : Matching) (l : List (Nat × Nat)) :
    (m.addAll l).pairs = m.pairs ++ m.added l := by
  obtain ⟨t, ht⟩ : ∃ t, (m.addAll l).pairs = m.pairs ++ t :=
    addAll_induction (P := fun m' => ∃ t, m'.pairs = m.pairs ++ t) ⟨[], (List.append_nil _).symm⟩
      fun m' q _ ⟨t, ht⟩ => by
        obtain ⟨t', ht'⟩ := m'.exists_pairs_add q
        exact ⟨t ++ t', by rw [ht', ht, List.append_assoc]⟩
  rw [added, ht, size, List.drop_left]

theorem mem_addAll {l : List (Nat × Nat)} {a : Nat × Nat} (h : a ∈ (m.addAll l).pairs) :
    a ∈ m.pairs ∨ a ∈ l :=
  addAll_induction (P := fun m' => ∀ a ∈ m'.pairs, a ∈ m.pairs ∨ a ∈ l) (fun _ => Or.inl)
    (fun _ _ hq ih b hb => (mem_add hb).elim (ih b) fun heq => Or.inr (heq ▸ hq)) a h

end Matching

namespace Pairing

variable {p : Pairing} {m m' : Matching}

/-! ## Subtrees of one form -/

/-- Subtrees with the same kinds and labels throughout: those of the two nodes are equal, and their
children are congruent in order. -/
inductive Congruent (p : Pairing) : Nat → Nat → Prop
  | node {s d : Nat} (kind : (p.src.node s).kind = (p.dst.node d).kind)
    (label : (p.src.node s).label = (p.dst.node d).label)
    (children : List.Forall₂ (Congruent p) (p.src.children s) (p.dst.children d)) : Congruent p s d

theorem congruent_iff {s d : Nat} : p.Congruent s d ↔ (p.src.node s).kind = (p.dst.node d).kind ∧
    (p.src.node s).label = (p.dst.node d).label ∧
      List.Forall₂ p.Congruent (p.src.children s) (p.dst.children d) :=
  ⟨fun ⟨hkind, hlabel, hchildren⟩ => ⟨hkind, hlabel, hchildren⟩,
    fun ⟨hkind, hlabel, hchildren⟩ => .node hkind hlabel hchildren⟩

mutual

theorem congruent_iff_of_laid : ∀ (r r' : Rose Mark) {s d : Nat} {q q' : Option Nat},
    Rose.Laid Outline.entry p.src.node s q r → Rose.Laid Outline.entry p.dst.node d q' r' →
      (p.Congruent s d ↔ Outline.shapeOf r = Outline.shapeOf r')
  | .node a rs, .node b rs', s, d, q, q', h, h' => by
    have hchildren := forall₂_congruent_iff_of_laid rs rs' h.2 h'.2
    rw [congruent_iff, Outline.children, Outline.children, h.1, h'.1, Outline.shapeOf_node,
      Outline.shapeOf_node, Rose.node.injEq, Prod.mk.injEq, and_assoc, ← hchildren]
    rfl

theorem forall₂_congruent_iff_of_laid : ∀ (rs rs' : List (Rose Mark)) {s d : Nat} {q q' : Option Nat},
    Rose.LaidAll Outline.entry p.src.node s q rs → Rose.LaidAll Outline.entry p.dst.node d q' rs' →
      (List.Forall₂ p.Congruent (Rose.topIds s rs) (Rose.topIds d rs') ↔
        rs.map Outline.shapeOf = rs'.map Outline.shapeOf)
  | [], [], _, _, _, _, _, _ => by simp [Rose.topIds]
  | [], _ :: _, _, _, _, _, _, _ => by simp [Rose.topIds]
  | _ :: _, [], _, _, _, _, _, _ => by simp [Rose.topIds]
  | r :: rs, r' :: rs', s, d, q, q', h, h' => by
    rw [Rose.topIds, Rose.topIds, List.forall₂_cons, congruent_iff_of_laid r r' h.1 h'.1,
      forall₂_congruent_iff_of_laid rs rs' h.2 h'.2, List.map_cons, List.map_cons, List.cons.injEq]

end

theorem congruent_iff_shape {src dst : Tree} {s d : Nat} (hs : s < (Outline.ofTree src).size)
    (hd : d < (Outline.ofTree dst).size) :
    (ofTrees src dst).Congruent s d ↔ (Outline.ofTree src).shape s = (Outline.ofTree dst).shape d := by
  rw [Outline.ofTree_eq, Outline.size_ofRose] at hs hd
  obtain ⟨r, hr, -⟩ := (Outline.numbered_ofRose _).exists_laid_top hs
  obtain ⟨r', hr', -⟩ := (Outline.numbered_ofRose _).exists_laid_top hd
  rw [congruent_iff_of_laid r r' hr hr', Outline.shape, Outline.shape, Outline.ofTree_eq,
    Outline.ofTree_eq, hr.get_eq, hr'.get_eq]
  rfl

theorem identical_iff_congruent {src dst : Tree} {s d : Nat} (hs : s < (Outline.ofTree src).size)
    (hd : d < (Outline.ofTree dst).size) :
    (ofTrees src dst).identical s d = true ↔ (ofTrees src dst).Congruent s d := by
  rw [identical, Bool.and_eq_true]
  refine ⟨fun h => (congruent_iff_shape hs hd).mpr (Rose.eq_of_beq _ _ h.2), fun h => ?_⟩
  refine ⟨beq_iff_eq.mpr (congruent_iff.mp h).1, ?_⟩
  rw [sameShape, (congruent_iff_shape hs hd).mp h]
  exact Rose.beq_self _

/-! ## The downward pass -/

/-- A run of the downward pass: the first pair of the queue is taken and the pairs of its children that are
added go to the end, until the queue is empty. -/
inductive Settles (p : Pairing) : (queue : List (Nat × Nat)) → Matching → Matching → Prop
  | done {m : Matching} : Settles p [] m m
  | step {s d : Nat} {queue : List (Nat × Nat)} {m m' : Matching}
    (rest : Settles p (queue ++ m.added (p.matchChildren s d)) (m.addAll (p.matchChildren s d)) m') :
    Settles p ((s, d) :: queue) m m'

/-- A matching in the course of its growth: the pairs were queued in the order in which they were added,
and those of `done` are no longer in the queue. -/
structure Pending (p : Pairing) (bound : Nat) (done queue : List (Nat × Nat)) (m : Matching) : Prop where
  matched : p.Matches m
  pairs : m.pairs = done ++ queue
  bound : done.length + bound = p.src.size

theorem Matches.length_le (h : p.Matches m) : m.pairs.length ≤ p.src.size := by
  have hsub : m.pairs.map (·.1) ⊆ List.range p.src.size := fun s hs => by
    obtain ⟨q, hq, rfl⟩ := List.mem_map.mp hs
    exact List.mem_range.mpr (h.fits q hq).1
  have hlen := (h.oneToOne.nodup_fst.subperm hsub).length_le
  rwa [List.length_map, List.length_range] at hlen

/-- **The queue runs empty** within the bound: no more pairs are queued than there are source nodes. -/
theorem Pending.settles {src dst : Tree} {bound : Nat} {done queue : List (Nat × Nat)} {m : Matching}
    (h : (ofTrees src dst).Pending bound done queue m) :
    (ofTrees src dst).Settles queue m ((ofTrees src dst).growDown bound queue m) := by
  induction bound generalizing done queue m with
  | zero =>
    have hle := h.matched.length_le
    have hdone := h.bound
    rw [h.pairs, List.length_append] at hle
    obtain rfl : queue = [] := List.length_eq_zero_iff.mp (by omega)
    exact .done
  | succ bound ih =>
    cases queue with
    | nil => exact .done
    | cons q queue =>
      obtain ⟨s, d⟩ := q
      have hnext : (ofTrees src dst).Pending bound (done ++ [(s, d)])
          (queue ++ m.added ((ofTrees src dst).matchChildren s d))
          (m.addAll ((ofTrees src dst).matchChildren s d)) :=
        { matched := h.matched.addAll (matchChildren_fits src dst s d)
          pairs := by
            rw [Matching.pairs_addAll, h.pairs]
            simp
          bound := by
            have := h.bound
            rw [List.length_append, List.length_singleton]
            omega }
      exact .step (ih hnext)

/-- The parents of two nodes are paired with each other. -/
def ParentsPaired (p : Pairing) (m : Matching) (q : Nat × Nat) : Prop :=
  ∃ s d, p.src.parent? q.1 = some s ∧ p.dst.parent? q.2 = some d ∧ (s, d) ∈ m.pairs

theorem ParentsPaired.mono {q : Nat × Nat} (h : p.ParentsPaired m q) (hsub : m.pairs ⊆ m'.pairs) :
    p.ParentsPaired m' q := by
  obtain ⟨s, d, hs, hd, hmem⟩ := h
  exact ⟨s, d, hs, hd, hsub hmem⟩

theorem matchChildren_parentsPaired {src dst : Tree} {s d : Nat} (h : (s, d) ∈ m.pairs) :
    ∀ q ∈ (ofTrees src dst).matchChildren s d, (ofTrees src dst).ParentsPaired m q := by
  intro q hq
  obtain ⟨hl, hr, -⟩ := matchChildren_proposes s d q hq
  exact ⟨s, d, (Outline.forest_ofTree src).mem_below.mp hl,
    (Outline.forest_ofTree dst).mem_below.mp hr, h⟩

theorem Settles.parentsPaired {src dst : Tree} {queue : List (Nat × Nat)}
    (h : (ofTrees src dst).Settles queue m m') (hqueue : queue ⊆ m.pairs)
    (hm : ∀ q ∈ m.pairs, q = (Outline.root, Outline.root) ∨ (ofTrees src dst).ParentsPaired m q) :
    ∀ q ∈ m'.pairs, q = (Outline.root, Outline.root) ∨ (ofTrees src dst).ParentsPaired m' q := by
  induction h with
  | done => exact hm
  | @step s d queue m m' _ ih =>
    have hsub := subset_addAll m ((ofTrees src dst).matchChildren s d)
    refine ih (fun q hq => ?_) fun q hq => ?_
    · rw [Matching.pairs_addAll]
      rcases List.mem_append.mp hq with hq | hq
      · exact List.mem_append_left _ (hqueue (List.mem_cons_of_mem _ hq))
      · exact List.mem_append_right _ hq
    · rcases Matching.mem_addAll hq with hq | hq
      · exact (hm q hq).imp_right fun h => h.mono hsub
      · exact Or.inr ((matchChildren_parentsPaired (hqueue List.mem_cons_self) q hq).mono hsub)

theorem Settles.exists_pairs {queue : List (Nat × Nat)} (h : p.Settles queue m m') :
    ∃ t, m'.pairs = m.pairs ++ t := by
  induction h with
  | done => exact ⟨[], (List.append_nil _).symm⟩
  | step _ ih =>
    obtain ⟨t, ht⟩ := ih
    rw [Matching.pairs_addAll, List.append_assoc] at ht
    exact ⟨_, ht⟩

/-! ## Recovery -/

theorem srcUntouched_iff {s : Nat} :
    p.srcUntouched m s = true ↔ ∀ n ∈ p.src.preorder s, ∀ q ∈ m.pairs, q.1 ≠ n := by
  simp only [srcUntouched, List.all_eq_true, Option.isNone_iff_eq_none, Matching.dstOf_eq_none_iff]

theorem dstUntouched_iff {d : Nat} :
    p.dstUntouched m d = true ↔ ∀ n ∈ p.dst.preorder d, ∀ q ∈ m.pairs, q.2 ≠ n := by
  simp only [dstUntouched, List.all_eq_true, Option.isNone_iff_eq_none, Matching.srcOf_eq_none_iff]

theorem srcUntouched_of_subset {s : Nat} (hsub : m.pairs ⊆ m'.pairs) (h : p.srcUntouched m' s = true) :
    p.srcUntouched m s = true :=
  srcUntouched_iff.mpr fun n hn q hq => srcUntouched_iff.mp h n hn q (hsub hq)

theorem dstUntouched_of_subset {d : Nat} (hsub : m.pairs ⊆ m'.pairs) (h : p.dstUntouched m' d = true) :
    p.dstUntouched m d = true :=
  dstUntouched_iff.mpr fun n hn q hq => dstUntouched_iff.mp h n hn q (hsub hq)

section

variable {src dst : Tree} {minSize s d : Nat} {candidates : List Nat}

theorem nodup_preorder (t : Tree) {i : Nat} (hi : i < (Outline.ofTree t).size) :
    ((Outline.ofTree t).preorder i).Nodup := by
  rw [Outline.ofTree_eq] at hi ⊢
  rw [Outline.preorder_ofRose _ hi]
  exact List.nodup_range'

theorem length_preorder (t : Tree) {i : Nat} (hi : i < (Outline.ofTree t).size) :
    ((Outline.ofTree t).preorder i).length = (Outline.ofTree t).weight i := by
  rw [Outline.ofTree_eq] at hi ⊢
  rw [Outline.preorder_ofRose _ hi, List.length_range']

theorem weight_eq_of_congruent (hs : s < (Outline.ofTree src).size) (hd : d < (Outline.ofTree dst).size)
    (h : (ofTrees src dst).Congruent s d) :
    (Outline.ofTree src).weight s = (Outline.ofTree dst).weight d := by
  rw [Outline.weight, Outline.weight, (congruent_iff_shape hs hd).mp h]

theorem addAll_untouched (hm : m.OneToOne) (hs : s < (Outline.ofTree src).size)
    (hd : d < (Outline.ofTree dst).size) (hsrc : (ofTrees src dst).srcUntouched m s = true)
    (hdst : (ofTrees src dst).dstUntouched m d = true) :
    m.addAll (((Outline.ofTree src).preorder s).zip ((Outline.ofTree dst).preorder d)) =
      ⟨m.pairs ++ ((Outline.ofTree src).preorder s).zip ((Outline.ofTree dst).preorder d)⟩ := by
  refine Matching.addAll_eq_append (OneToOne.append_iff.mpr
    ⟨hm, .zip (nodup_preorder src hs) (nodup_preorder dst hd), fun a ha b hb => ?_⟩)
  obtain ⟨hl, hr⟩ := List.of_mem_zip (show (b.1, b.2) ∈ _ from hb)
  exact ⟨srcUntouched_iff.mp hsrc b.1 hl a ha, dstUntouched_iff.mp hdst b.2 hr a ha⟩

theorem mem_moveCandidates : s ∈ (ofTrees src dst).moveCandidates minSize m ↔
    s < (Outline.ofTree src).size ∧ minSize ≤ (Outline.ofTree src).weight s ∧
      (ofTrees src dst).srcUntouched m s = true := by
  rw [moveCandidates, List.mem_filter, Bool.and_eq_true, decide_eq_true_eq]
  exact and_congr_left' (by rw [Outline.preorder_root_ofTree, List.mem_range])

/-- All candidates are source nodes with enough nodes below them. -/
def Eligible (src : Tree) (minSize : Nat) (candidates : List Nat) : Prop :=
  ∀ s ∈ candidates, s < (Outline.ofTree src).size ∧ minSize ≤ (Outline.ofTree src).weight s

theorem eligible_moveCandidates : Eligible src minSize ((ofTrees src dst).moveCandidates minSize m) :=
  fun _ hs => ⟨(mem_moveCandidates.mp hs).1, (mem_moveCandidates.mp hs).2.1⟩

/-- The subtrees under `s` and `d` have one form, enough nodes, and all their nodes paired in order. -/
structure Relocates (p : Pairing) (minSize : Nat) (m : Matching) (s d : Nat) : Prop where
  congruent : p.Congruent s d
  src_large : minSize ≤ p.src.weight s
  dst_large : minSize ≤ p.dst.weight d
  paired : List.Forall₂ (fun a b => (a, b) ∈ m.pairs) (p.src.preorder s) (p.dst.preorder d)

theorem recoverMove_cases (hm : m.OneToOne) (hcandidates : Eligible src minSize candidates)
    (hd : d < (Outline.ofTree dst).size) :
    (ofTrees src dst).recoverMove minSize candidates m d = m ∧
        (minSize ≤ (Outline.ofTree dst).weight d → (ofTrees src dst).dstUntouched m d = true →
          ∀ s ∈ candidates, (ofTrees src dst).Congruent s d → (ofTrees src dst).srcUntouched m s = false) ∨
      ∃ s, (ofTrees src dst).Relocates minSize ((ofTrees src dst).recoverMove minSize candidates m d) s d ∧
        ((ofTrees src dst).recoverMove minSize candidates m d).pairs =
          m.pairs ++ ((Outline.ofTree src).preorder s).zip ((Outline.ofTree dst).preorder d) := by
  rw [recoverMove]
  split
  · next hskip =>
    refine Or.inl ⟨rfl, fun hlarge huntouched => ?_⟩
    simp [huntouched] at hskip
    omega
  · next hgo =>
    simp only [Bool.or_eq_true, decide_eq_true_eq, Bool.not_eq_true', not_or, Nat.not_lt,
      Bool.not_eq_false] at hgo
    split
    · next s hfind =>
      have hfound := List.find?_some hfind
      rw [Bool.and_eq_true] at hfound
      obtain ⟨hs, hlarge⟩ := hcandidates s (List.mem_of_find?_eq_some hfind)
      have hcongruent := (identical_iff_congruent hs hd).mp hfound.1
      have hadd := addAll_untouched hm hs hd hfound.2 hgo.2
      refine Or.inr ⟨s, ⟨hcongruent, hlarge, hgo.1, ?_⟩, by rw [hadd]⟩
      rw [hadd]
      refine List.forall₂_iff_zip.mpr ⟨?_, fun h => List.mem_append_right _ h⟩
      exact (length_preorder src hs).trans
        ((weight_eq_of_congruent hs hd hcongruent).trans (length_preorder dst hd).symm)
    · next hnone =>
      refine Or.inl ⟨rfl, fun _ _ s hs hcongruent => ?_⟩
      have hnot := List.find?_eq_none.mp hnone s hs
      rw [(identical_iff_congruent (hcandidates s hs).1 hd).mpr hcongruent, Bool.true_and] at hnot
      simpa using hnot

/-- The ways in which a pair of nodes comes to be matched. -/
def Explained (p : Pairing) (minSize : Nat) (m : Matching) (q : Nat × Nat) : Prop :=
  q = (Outline.root, Outline.root) ∨ p.ParentsPaired m q ∨
    ∃ s d, p.Relocates minSize m s d ∧ q ∈ (p.src.preorder s).zip (p.dst.preorder d)

theorem Relocates.mono {p : Pairing} (h : p.Relocates minSize m s d) (hsub : m.pairs ⊆ m'.pairs) :
    p.Relocates minSize m' s d :=
  { h with paired := h.paired.imp fun _ _ hmem => hsub hmem }

theorem Explained.mono {p : Pairing} {q : Nat × Nat} (h : p.Explained minSize m q)
    (hsub : m.pairs ⊆ m'.pairs) : p.Explained minSize m' q := by
  rcases h with h | h | ⟨s, d, h, hmem⟩
  · exact Or.inl h
  · exact Or.inr (Or.inl (h.mono hsub))
  · exact Or.inr (Or.inr ⟨s, d, h.mono hsub, hmem⟩)

/-- What a matching is at any time of the sweep. -/
structure Recovering (p : Pairing) (minSize : Nat) (m : Matching) : Prop extends p.Matches m where
  head : m.pairs.head? = some (Outline.root, Outline.root)
  explained : ∀ q ∈ m.pairs, p.Explained minSize m q

theorem Recovering.recoverMove (hcandidates : Eligible src minSize candidates)
    (h : (ofTrees src dst).Recovering minSize m)
    (hd : d < (Outline.ofTree dst).size) :
    (ofTrees src dst).Recovering minSize ((ofTrees src dst).recoverMove minSize candidates m d) ∧
      m.pairs ⊆ ((ofTrees src dst).recoverMove minSize candidates m d).pairs := by
  have hmatches : (ofTrees src dst).Matches ((ofTrees src dst).recoverMove minSize candidates m d) :=
    recoverMove_matches src dst (fun s hs => (hcandidates s hs).1) hd h.toMatches
  rcases recoverMove_cases h.oneToOne hcandidates hd with ⟨heq, -⟩ | ⟨s, hrelocates, hpairs⟩
  · rw [heq]
    exact ⟨h, List.Subset.refl _⟩
  · have hsub : m.pairs ⊆ ((ofTrees src dst).recoverMove minSize candidates m d).pairs := by
      rw [hpairs]
      exact List.subset_append_left _ _
    refine ⟨⟨hmatches, ?_, fun q hq => ?_⟩, hsub⟩
    · rw [hpairs, List.head?_append, h.head]
      rfl
    · rw [hpairs] at hq
      rcases List.mem_append.mp hq with hq | hq
      · exact (h.explained q hq).mono hsub
      · exact Or.inr (Or.inr ⟨s, d, hrelocates, hq⟩)

theorem Recovering.sweep (hcandidates : Eligible src minSize candidates) {ds : List Nat}
    (hds : ∀ d ∈ ds, d < (Outline.ofTree dst).size)
    (h : (ofTrees src dst).Recovering minSize m) :
    (ofTrees src dst).Recovering minSize (ds.foldl ((ofTrees src dst).recoverMove minSize candidates) m) ∧
      m.pairs ⊆ (ds.foldl ((ofTrees src dst).recoverMove minSize candidates) m).pairs := by
  induction ds generalizing m with
  | nil => exact ⟨h, List.Subset.refl _⟩
  | cons d ds ih =>
    obtain ⟨hstep, hsub⟩ := h.recoverMove hcandidates (hds d List.mem_cons_self)
    obtain ⟨hrest, hsub'⟩ := ih (fun d' hd' => hds d' (List.mem_cons_of_mem _ hd')) hstep
    exact ⟨hrest, List.Subset.trans hsub hsub'⟩

/-! ## The whole matching -/

theorem topDown_settles (src dst : Tree) :
    (ofTrees src dst).Settles [(Outline.root, Outline.root)] ⟨[(Outline.root, Outline.root)]⟩
      (ofTrees src dst).topDown := by
  have hstart : (ofTrees src dst).Matches ⟨[(Outline.root, Outline.root)]⟩ :=
    ⟨List.pairwise_singleton _ _, fun q hq => List.mem_singleton.mp hq ▸ roots_fit src dst, by simp⟩
  have hpending : (ofTrees src dst).Pending (Outline.ofTree src).size [] [(Outline.root, Outline.root)]
      ⟨[(Outline.root, Outline.root)]⟩ := ⟨hstart, rfl, Nat.zero_add _⟩
  exact hpending.settles

theorem topDown_recovering (src dst : Tree) (minSize : Nat) :
    (ofTrees src dst).Recovering minSize (ofTrees src dst).topDown where
  toMatches := topDown_matches src dst
  head := by
    obtain ⟨t, ht⟩ := (topDown_settles src dst).exists_pairs
    rw [ht]
    rfl
  explained q hq := by
    have hparents := (topDown_settles src dst).parentsPaired (List.Subset.refl _)
      (fun q hq => Or.inl (List.mem_singleton.mp hq)) q hq
    exact hparents.imp_right Or.inl

theorem matching_recovering (src dst : Tree) (minSize : Nat) :
    (ofTrees src dst).Recovering minSize ((ofTrees src dst).matching minSize) :=
  ((topDown_recovering src dst minSize).sweep eligible_moveCandidates
    fun _ hd => List.mem_range.mp (Outline.preorder_root_ofTree dst ▸ hd)).1

theorem touched_of_untouched (hs : s < (Outline.ofTree src).size) (hd : d < (Outline.ofTree dst).size)
    (hcongruent : (ofTrees src dst).Congruent s d) (hlarge : minSize ≤ (Outline.ofTree src).weight s)
    (hsrc : (ofTrees src dst).srcUntouched ((ofTrees src dst).matching minSize) s = true) :
    (ofTrees src dst).dstUntouched ((ofTrees src dst).matching minSize) d = false := by
  have hturn : d ∈ (Outline.ofTree dst).preorder Outline.root := by
    rw [Outline.preorder_root_ofTree]
    exact List.mem_range.mpr hd
  obtain ⟨before, after, hsplit⟩ := List.append_of_mem hturn
  have hlt : ∀ x ∈ before ++ d :: after, x < (Outline.ofTree dst).size := fun x hx =>
    List.mem_range.mp (Outline.preorder_root_ofTree dst ▸ hsplit ▸ hx)
  rw [Bool.eq_false_iff]
  intro hdst
  rw [matching, recoverMoves, hsplit, List.foldl_append, List.foldl_cons] at hsrc hdst
  obtain ⟨hbefore, hsub⟩ := (topDown_recovering src dst minSize).sweep eligible_moveCandidates
    fun x hx => hlt x (List.mem_append_left _ hx)
  obtain ⟨hat, hsub'⟩ := hbefore.recoverMove eligible_moveCandidates hd
  obtain ⟨-, hsub''⟩ := hat.sweep eligible_moveCandidates
    fun x hx => hlt x (List.mem_append_right _ (List.mem_cons_of_mem _ hx))
  have hlater := List.Subset.trans hsub' hsub''
  rcases recoverMove_cases hbefore.oneToOne eligible_moveCandidates hd with
    ⟨-, hmissed⟩ | ⟨s', hrelocates, -⟩
  · -- the source subtree has been a candidate from the start and is still free
    have hcandidate := mem_moveCandidates.mpr
      ⟨hs, hlarge, srcUntouched_of_subset (List.Subset.trans hsub hlater) hsrc⟩
    have hfree := srcUntouched_of_subset hlater hsrc
    rw [weight_eq_of_congruent hs hd hcongruent] at hlarge
    rw [hmissed hlarge (dstUntouched_of_subset hlater hdst) s hcandidate hcongruent] at hfree
    simp at hfree
  · have hself : d ∈ (Outline.ofTree dst).preorder d := (Outline.mem_preorder_iff _ hd).mpr (Or.inl rfl)
    obtain ⟨a, -, hpaired⟩ := exists_mem_of_forall₂ hrelocates.paired hself
    exact dstUntouched_iff.mp hdst d hself (a, d) (hsub'' hpaired) rfl

end

/-- **Every matched pair is accounted for.** The downward pass works its queue off to the end. The matching
starts with the extra roots, pairs no node twice and only nodes of one kind, and its look-ups find exactly
its pairs. Any other pair has parents that are paired with each other, or belongs to two subtrees of one
form and enough nodes that are paired throughout, in preorder. -/
theorem matching_accounted_for (src dst : Tree) (minSize : Nat) :
    let p := ofTrees src dst
    let m := p.matching minSize
    (∃ m₀, p.Settles [(Outline.root, Outline.root)] ⟨[(Outline.root, Outline.root)]⟩ m₀ ∧
      m = p.recoverMoves minSize m₀) ∧
    m.pairs.head? = some (Outline.root, Outline.root) ∧
    (m.pairs.map (·.1)).Nodup ∧ (m.pairs.map (·.2)).Nodup ∧
    (∀ s d, (m.dstOf s = some d ↔ (s, d) ∈ m.pairs) ∧ (m.srcOf d = some s ↔ (s, d) ∈ m.pairs)) ∧
    (∀ q ∈ m.pairs, (p.src.node q.1).kind = (p.dst.node q.2).kind) ∧
    ∀ q ∈ m.pairs, q ≠ (Outline.root, Outline.root) → p.ParentsPaired m q ∨
      ∃ s d, p.Relocates minSize m s d ∧ q ∈ (p.src.preorder s).zip (p.dst.preorder d) := by
  intro p m
  have h := matching_recovering src dst minSize
  exact ⟨⟨p.topDown, topDown_settles src dst, rfl⟩, h.head, h.oneToOne.nodup_fst, h.oneToOne.nodup_snd,
    fun s d => ⟨h.oneToOne.dstOf_eq_some_iff, h.oneToOne.srcOf_eq_some_iff⟩,
    fun q hq => (h.fits q hq).2.2, fun q hq hne => (h.explained q hq).resolve_left hne⟩

/-- A thrown type that goes over to a new method is matched, and the `throws` clauses around it are not. -/
theorem matching_accounted_for_thrown :
    let p := ofTrees (Tree.ofMethods "old" [("f", ["A", "X"])])
      (Tree.ofMethods "new" [("f", ["A"]), ("g", ["X"])])
    (7, 10) ∈ (p.matching 1).pairs ∧ ¬p.ParentsPaired (p.matching 1) (7, 10) ∧
      ∃ s d, p.Relocates 1 (p.matching 1) s d ∧ (7, 10) ∈ (p.src.preorder s).zip (p.dst.preorder d) := by
  intro p
  have hmem : (7, 10) ∈ (p.matching 1).pairs := by decide +kernel
  have hparents : ¬p.ParentsPaired (p.matching 1) (7, 10) := by
    rintro ⟨s, d, hs, hd, hpaired⟩
    have hs' : p.src.parent? 7 = some 5 := by decide +kernel
    have hd' : p.dst.parent? 10 = some 9 := by decide +kernel
    obtain rfl : s = 5 := Option.some.inj (hs.symm.trans hs')
    obtain rfl : d = 9 := Option.some.inj (hd.symm.trans hd')
    exact absurd hpaired (by decide +kernel)
  obtain ⟨-, -, -, -, -, -, hothers⟩ := matching_accounted_for
    (Tree.ofMethods "old" [("f", ["A", "X"])])
    (Tree.ofMethods "new" [("f", ["A"]), ("g", ["X"])]) 1
  exact ⟨hmem, hparents, (hothers _ hmem (by decide)).resolve_left hparents⟩

/-- **Recovery misses nothing.** Of two subtrees of one form and enough nodes, at least one has a node
that is matched. -/
theorem recovery_misses_nothing (src dst : Tree) (minSize : Nat) {s d : Nat}
    (hs : s < (Outline.ofTree src).size) (hd : d < (Outline.ofTree dst).size)
    (hcongruent : (ofTrees src dst).Congruent s d) (hlarge : minSize ≤ (Outline.ofTree src).weight s) :
    (∃ n ∈ (Outline.ofTree src).preorder s,
        (((ofTrees src dst).matching minSize).dstOf n).isSome = true) ∨
      ∃ n ∈ (Outline.ofTree dst).preorder d,
        (((ofTrees src dst).matching minSize).srcOf n).isSome = true := by
  by_contra hnone
  rw [not_or] at hnone
  have hsrc : (ofTrees src dst).srcUntouched ((ofTrees src dst).matching minSize) s = true :=
    List.all_eq_true.mpr fun n hn => by
      rw [← Option.not_isSome, Bool.not_eq_true']
      exact Bool.eq_false_iff.mpr fun hsome => hnone.1 ⟨n, hn, hsome⟩
  have hdst : (ofTrees src dst).dstUntouched ((ofTrees src dst).matching minSize) d = true :=
    List.all_eq_true.mpr fun n hn => by
      rw [← Option.not_isSome, Bool.not_eq_true']
      exact Bool.eq_false_iff.mpr fun hsome => hnone.2 ⟨n, hn, hsome⟩
  exact absurd hdst (Bool.eq_false_iff.mp (touched_of_untouched hs hd hcongruent hlarge hsrc))

/-- The thrown type that goes over to a new method. -/
theorem recovery_misses_nothing_thrown :
    let src := Tree.ofMethods "old" [("f", ["A", "X"])]
    let dst := Tree.ofMethods "new" [("f", ["A"]), ("g", ["X"])]
    (ofTrees src dst).Congruent 7 10 ∧
      ((∃ n ∈ (Outline.ofTree src).preorder 7,
          (((ofTrees src dst).matching 1).dstOf n).isSome = true) ∨
        ∃ n ∈ (Outline.ofTree dst).preorder 10,
          (((ofTrees src dst).matching 1).srcOf n).isSome = true) := by
  intro src dst
  have hs : 7 < (Outline.ofTree src).size := by decide +kernel
  have hd : 10 < (Outline.ofTree dst).size := by decide +kernel
  have hcongruent : (ofTrees src dst).Congruent 7 10 :=
    (identical_iff_congruent hs hd).mp (by decide +kernel)
  exact ⟨hcongruent, recovery_misses_nothing src dst 1 hs hd hcongruent (by decide +kernel)⟩

end Pairing

end TreePatch
