import TreePatch.Patch.Apply
import TreePatch.Patch.Generate
import TreePatch.Proofs.Assignment
import TreePatch.Proofs.BestAlignment
import TreePatch.Proofs.Correspondence
import TreePatch.Proofs.EditScript
import TreePatch.Proofs.Mirror

/-!
# Trees of the same form

Two trees that show the same, apart from identifiers and positions, have outlines that differ in nothing
but the nodes that they stand for. Matching then pairs each number with itself: siblings in order because
an alignment takes a pair as soon as it can, and siblings without order because no child is more similar to
another one than to its own image. What follows from such a matching is that nothing has to be done.
-/

namespace TreePatch

/-! ## Numbering and form -/

namespace Rose

variable {α β γ : Type}

mutual

theorem map_map (f : α → β) (g : β → γ) : ∀ r : Rose α, (r.map f).map g = r.map fun a => g (f a)
  | node a rs => by rw [map, map, map, mapAll_mapAll f g rs]

theorem mapAll_mapAll (f : α → β) (g : β → γ) : ∀ rs : List (Rose α),
    mapAll g (mapAll f rs) = mapAll (fun a => g (f a)) rs
  | [] => rfl
  | r :: rs => by rw [mapAll, mapAll, mapAll, map_map f g r, mapAll_mapAll f g rs]

end

theorem topIds_mapAll (f : α → β) (rs : List (Rose α)) (start : Nat) :
    topIds start (mapAll f rs) = topIds start rs := by
  induction rs generalizing start with
  | nil => rfl
  | cons r rs ih => rw [mapAll, topIds, topIds, size_map, ih]

mutual

theorem number_map (f : α → β) (entry : Rose β → Option Nat → List Nat → γ) (start : Nat)
    (parent : Option Nat) : ∀ r : Rose α,
      number entry start parent (r.map f) =
        number (fun s q cs => entry (s.map f) q cs) start parent r
  | node a rs => by
    rw [map, number, number, numberAll_mapAll f entry (start + 1) (some start) rs, topIds_mapAll, map]

theorem numberAll_mapAll (f : α → β) (entry : Rose β → Option Nat → List Nat → γ) (start : Nat)
    (parent : Option Nat) : ∀ rs : List (Rose α),
      numberAll entry start parent (mapAll f rs) =
        numberAll (fun s q cs => entry (s.map f) q cs) start parent rs
  | [] => rfl
  | r :: rs => by
    rw [mapAll, numberAll, numberAll, number_map f entry start parent r, size_map,
      numberAll_mapAll f entry (start + r.size) parent rs]

end

mutual

theorem beq_self [BEq α] [ReflBEq α] : ∀ r : Rose α, r.beq r = true
  | node a rs => by rw [beq, BEq.rfl, beqAll_self rs]; rfl

theorem beqAll_self [BEq α] [ReflBEq α] : ∀ rs : List (Rose α), beqAll rs rs = true
  | [] => rfl
  | r :: rs => by rw [beqAll, beq_self r, beqAll_self rs]; rfl

end

end Rose

/-- What a mark shows apart from the node that it stands for. -/
def Mark.form (m : Mark) : String × String × Role × Bool :=
  (m.kind, m.label, m.role, m.terminal)

/-- What a node of an outline shows apart from the node that it stands for. -/
def OutlineNode.form (n : OutlineNode) :
    (String × String × Role × Bool) × Option Nat × List Nat × Shape :=
  (n.toMark.form, n.parent, n.children, n.shape)

namespace Outline

/-- Outlines that differ in nothing but the nodes that they stand for. -/
structure Alike (o o' : Outline) : Prop where
  size : o.size = o'.size
  form : ∀ i, (o.node i).form = (o'.node i).form

/-- What the outline of a tree of marks shows at one of its nodes, read off the form of the tree. -/
def formEntry (s : Rose (String × String × Role × Bool)) (parent : Option Nat) (children : List Nat) :
    (String × String × Role × Bool) × Option Nat × List Nat × Shape :=
  (s.value, parent, children, s.map fun f => (f.1, f.2.1))

theorem forms_ofRose (r : Rose Mark) : (ofRose r).nodes.toList.map OutlineNode.form =
    Rose.number formEntry 0 none (r.map Mark.form) := by
  rw [ofRose, List.toList_toArray, Rose.map_number, Rose.number_map]
  congr 1
  funext s parent children
  cases s with
  | node a rs =>
    rw [formEntry, Rose.map_map]
    rfl

theorem alike_ofRose {r r' : Rose Mark} (h : r.map Mark.form = r'.map Mark.form) :
    Alike (ofRose r) (ofRose r') := by
  have heq : (ofRose r).nodes.toList.map OutlineNode.form =
      (ofRose r').nodes.toList.map OutlineNode.form := by rw [forms_ofRose, forms_ofRose, h]
  have hsize : (ofRose r).nodes.size = (ofRose r').nodes.size := by
    simpa using congrArg List.length heq
  refine ⟨hsize, fun i => ?_⟩
  have hget : ((ofRose r).nodes[i]?).map OutlineNode.form =
      ((ofRose r').nodes[i]?).map OutlineNode.form := by
    rw [← Array.getElem?_toList, ← Array.getElem?_toList, ← List.getElem?_map, ← List.getElem?_map, heq]
  rw [node, node, Array.getD_eq_getD_getElem?, Array.getD_eq_getD_getElem?]
  cases hx : (ofRose r).nodes[i]? with
  | none =>
    rw [hx, Option.map_none] at hget
    rw [Option.map_eq_none_iff.mp hget.symm]
  | some x =>
    rw [hx, Option.map_some] at hget
    obtain ⟨y, hy, hform⟩ := Option.map_eq_some_iff.mp hget.symm
    rw [hy]
    exact hform.symm

namespace Alike

variable {o o' : Outline} (h : Alike o o') (i : Nat)

include h

theorem kind : (o.node i).kind = (o'.node i).kind := congrArg (·.1.1) (h.form i)

theorem label : (o.node i).label = (o'.node i).label := congrArg (·.1.2.1) (h.form i)

theorem role : (o.node i).role = (o'.node i).role := congrArg (·.1.2.2.1) (h.form i)

theorem isTerminal : o.isTerminal i = o'.isTerminal i := congrArg (·.1.2.2.2) (h.form i)

theorem parent? : o.parent? i = o'.parent? i := congrArg (·.2.1) (h.form i)

theorem children : o.children i = o'.children i := congrArg (·.2.2.1) (h.form i)

theorem shape : o.shape i = o'.shape i := congrArg (·.2.2.2) (h.form i)

end Alike

end Outline

/-- Every tracked child of a node without order holds a terminal. -/
def Tree.Worded (t : Tree) : Prop :=
  ∀ i < (Outline.ofTree t).size, (Outline.ofTree t).isUnordered i = true →
    ∀ c ∈ (Outline.ofTree t).children i,
      ∃ n ∈ (Outline.ofTree t).preorder c, (Outline.ofTree t).isTerminal n = true

instance (t : Tree) : Decidable t.Worded :=
  inferInstanceAs (Decidable (∀ i < _, _ → ∀ c ∈ _, ∃ n ∈ _, _))

/-! ## Siblings -/

namespace Pairing

variable {p : Pairing}

section

variable (h : p.src.Alike p.dst)

include h

theorem identical_self (i : Nat) : p.identical i i = true := by
  rw [identical, sameShape, h.kind, h.shape, BEq.rfl, Bool.true_and]
  exact Rose.beq_self _

theorem canMatch_self (i : Nat) : p.canMatch i i = true := by
  rw [canMatch, h.isTerminal, h.kind, BEq.rfl, BEq.rfl, Bool.and_self]

theorem similarity_self (i : Nat) :
    p.similarity i i = if p.src.isTerminal i then 1 else (p.src.leafLabels i).length := by
  have hshape : p.sameShape i i = true := by
    rw [sameShape, h.shape]
    exact Rose.beq_self _
  simp [similarity, canMatch_self h, hshape, h.label]

theorem similarity_le_self (i j : Nat) : p.similarity i j ≤ p.similarity i i := by
  rw [similarity_self h, similarity]
  split
  · exact Nat.zero_le _
  · split
    · split
      · exact Nat.le_refl _
      · exact Nat.zero_le _
    · split
      · exact Nat.le_refl _
      · exact (Alignment.le_length_of_mem_commonLengths (Alignment.commonLength_isGreatest _ _).1).1

theorem similarity_self_pos {i : Nat} (hi : ∃ n ∈ p.src.preorder i, p.src.isTerminal n = true) :
    0 < p.similarity i i := by
  obtain ⟨n, hn, hterminal⟩ := hi
  rw [similarity_self h]
  split
  · exact Nat.one_pos
  · rw [Outline.leafLabels, List.length_map, List.length_pos_iff_exists_mem]
    exact ⟨n, List.mem_filter.mpr ⟨hn, hterminal⟩⟩

end

theorem gapMatch_nil (p : Pairing) : p.gapMatch [] [] = [] := by
  simp [gapMatch, pairLeftovers, Alignment.weightedPairs, Alignment.weightedFrom]

theorem fillGaps_diagonal (p : Pairing) (left right : List Nat) (hlen : left.length = right.length)
    (i j : Nat) : p.fillGaps i j left right
      ((List.range left.length).map fun k => (i + k, j + k)) = left.zip right := by
  induction left generalizing right i j with
  | nil =>
    obtain rfl := List.length_eq_zero_iff.mp hlen.symm
    exact gapMatch_nil p
  | cons l left ih =>
    cases right with
    | nil => simp at hlen
    | cons r right =>
      have hrest := ih right (by simpa using hlen) (i + 1) (j + 1)
      have hanchors : (List.range left.length).map ((fun k => (i + k, j + k)) ∘ Nat.succ) =
          (List.range left.length).map fun k => (i + 1 + k, j + 1 + k) := by
        refine List.map_congr_left fun k _ => ?_
        rw [Function.comp_apply, Prod.mk.injEq]
        omega
      rw [List.length_cons, List.range_succ_eq_map, List.map_cons, List.map_map, hanchors, fillGaps]
      simp [gapMatch_nil, hrest]

theorem orderedMatch_self (h : p.src.Alike p.dst) (l : List Nat) :
    p.orderedMatch l l = l.map fun c => (c, c) := by
  have hrelated : List.Forall₂ (fun x y => p.identical x y = true) l l :=
    List.forall₂_same.mpr fun i _ => identical_self h i
  have hfill := fillGaps_diagonal p l l rfl 0 0
  simp only [Nat.zero_add] at hfill
  rw [orderedMatch, Alignment.commonPairs_of_forall₂ hrelated, hfill, List.zip_eq_zipWith,
    List.zipWith_self]

theorem unorderedMatch_self (h : p.src.Alike p.dst) {l : List Nat}
    (hl : ∀ c ∈ l, ∃ n ∈ p.src.preorder c, p.src.isTerminal n = true) :
    p.unorderedMatch l l = l.map fun c => (c, c) := by
  have hget : ∀ i (hi : i < l.length), l[i]? = some l[i] := fun i hi => List.getElem?_eq_getElem hi
  have hbest : Assignment.best (p.weightMatrix l l) l.length = List.range l.length := by
    refine Assignment.best_eq_range fun i hi j hj => ?_
    rw [weightAt_weightMatrix (hget i hi) (hget j hj), weightAt_weightMatrix (hget i hi) (hget i hi)]
    exact Int.ofNat_le.mpr (similarity_le_self h _ _)
  have hzip : (List.range l.length).zipIdx = (List.range l.length).map fun i => (i, i) := by
    rw [List.zipIdx_eq_zip_range', List.length_range, ← List.range_eq_range', List.zip_eq_zipWith,
      List.zipWith_self]
  rw [unorderedMatch, Nat.max_self, hbest, hzip, List.filterMap_map]
  refine filterMap_of_map_eq (List.ext_getElem (by simp) fun i hi _ => ?_)
  have hi : i < l.length := by simpa using hi
  have hpos := similarity_self_pos h (hl l[i] (List.getElem_mem hi))
  simp [hi, weightAt_weightMatrix (hget i hi) (hget i hi), hpos]

theorem matchChildren_self (h : p.src.Alike p.dst) {i : Nat}
    (hi : p.src.isUnordered i = true →
      ∀ c ∈ p.src.children i, ∃ n ∈ p.src.preorder c, p.src.isTerminal n = true) :
    p.matchChildren i i = (p.src.children i).map fun c => (c, c) := by
  rw [matchChildren, ← h.children]
  split
  · next hunordered => exact unorderedMatch_self h (hi hunordered)
  · exact orderedMatch_self h _

end Pairing

/-! ## The whole matching -/

namespace Matching

variable {m : Matching}

/-- Every pair is of a number with itself. -/
def Diagonal (m : Matching) : Prop :=
  ∀ q ∈ m.pairs, q.1 = q.2

theorem Diagonal.add (h : m.Diagonal) {q : Nat × Nat} (hq : q.1 = q.2) : (m.add q).Diagonal :=
  fun a ha => (mem_add ha).elim (h a) fun heq => heq ▸ hq

theorem Diagonal.mem_add (h : m.Diagonal) (c : Nat) : (c, c) ∈ (m.add (c, c)).pairs := by
  rw [Matching.add]
  split
  · simp
  · next hfree =>
    rw [isFree_iff] at hfree
    push Not at hfree
    obtain ⟨q, hq, hc⟩ := hfree
    have hdiagonal := h q hq
    by_cases hq1 : q.1 = c
    · obtain rfl : q = (c, c) := Prod.ext hq1 (hdiagonal ▸ hq1)
      exact hq
    · obtain rfl : q = (c, c) := Prod.ext (hdiagonal.trans (hc hq1)) (hc hq1)
      exact hq

theorem Diagonal.addAll (h : m.Diagonal) (l : List Nat) :
    ∃ added ⊆ l.map fun c => (c, c), (m.addAll (l.map fun c => (c, c))).pairs = m.pairs ++ added ∧
      ∀ c ∈ l, (c, c) ∈ (m.addAll (l.map fun c => (c, c))).pairs := by
  induction l generalizing m with
  | nil => exact ⟨[], List.Subset.refl _, (List.append_nil _).symm, by simp⟩
  | cons c l ih =>
    obtain ⟨added, hsub, hpairs, hmem⟩ := ih (h.add (q := (c, c)) rfl)
    have hfirst : ∃ first ⊆ [(c, c)], (m.add (c, c)).pairs = m.pairs ++ first := by
      rw [Matching.add]
      split
      · exact ⟨[(c, c)], List.Subset.refl _, rfl⟩
      · exact ⟨[], List.nil_subset _, (List.append_nil _).symm⟩
    obtain ⟨first, hfirstsub, hfirst⟩ := hfirst
    refine ⟨first ++ added, ?_, ?_, fun d hd => ?_⟩
    · rw [List.map_cons, ← List.singleton_append]
      exact List.append_subset.mpr ⟨List.Subset.trans hfirstsub (List.subset_append_left _ _),
        List.Subset.trans hsub (List.subset_append_right _ _)⟩
    · rw [List.map_cons]
      refine hpairs.trans ?_
      rw [hfirst, List.append_assoc]
    · rcases List.mem_cons.mp hd with rfl | hd
      · exact Pairing.subset_addAll (m.add (d, d)) _ (h.mem_add d)
      · exact hmem d hd

theorem OneToOne.addAll (h : m.OneToOne) (l : List (Nat × Nat)) : (m.addAll l).OneToOne :=
  addAll_induction (P := Matching.OneToOne) h fun _ q _ hm => hm.add q

end Matching

namespace Pairing

variable {p : Pairing}

/-- A diagonal matching in the course of its growth: what is below the numbers of `done` is paired, and
the numbers of `queue` are still to be looked at. -/
structure Growing (p : Pairing) (bound : Nat) (done queue : List (Nat × Nat)) (m : Matching) :
    Prop where
  pairs : m.pairs = done ++ queue
  oneToOne : m.OneToOne
  diagonal : m.Diagonal
  lt_size : ∀ q ∈ m.pairs, q.1 < p.src.size
  closed : ∀ q ∈ done, ∀ c ∈ p.src.children q.1, (c, c) ∈ m.pairs
  bound : done.length + bound = p.src.size

theorem Growing.queue_nil {queue done : List (Nat × Nat)} {m : Matching}
    (h : p.Growing 0 done queue m) : queue = [] := by
  have hnodup : (m.pairs.map (·.1)).Nodup := h.oneToOne.nodup_fst
  have hsub : m.pairs.map (·.1) ⊆ List.range p.src.size := fun s hs => by
    obtain ⟨q, hq, rfl⟩ := List.mem_map.mp hs
    exact List.mem_range.mpr (h.lt_size q hq)
  have hlen := (hnodup.subperm hsub).length_le
  have hdone := h.bound
  rw [List.length_map, List.length_range, h.pairs, List.length_append] at hlen
  exact List.length_eq_zero_iff.mp (by omega)

theorem Growing.growDown {bound : Nat} {done queue : List (Nat × Nat)} {m : Matching}
    (hchildren : ∀ i < p.src.size, p.matchChildren i i = (p.src.children i).map fun c => (c, c))
    (hlt : ∀ i, ∀ c ∈ p.src.children i, c < p.src.size) (h : p.Growing bound done queue m) :
    (p.growDown bound queue m).OneToOne ∧ (p.growDown bound queue m).Diagonal ∧
      (∀ q ∈ (p.growDown bound queue m).pairs, q.1 < p.src.size) ∧
        ∀ q ∈ (p.growDown bound queue m).pairs, ∀ c ∈ p.src.children q.1,
          (c, c) ∈ (p.growDown bound queue m).pairs := by
  have hend : ∀ {bound done m}, p.Growing bound done [] m → m.OneToOne ∧ m.Diagonal ∧
      (∀ q ∈ m.pairs, q.1 < p.src.size) ∧ ∀ q ∈ m.pairs, ∀ c ∈ p.src.children q.1, (c, c) ∈ m.pairs := by
    intro bound done m h
    refine ⟨h.oneToOne, h.diagonal, h.lt_size, fun q hq => h.closed q ?_⟩
    rw [h.pairs, List.append_nil] at hq
    exact hq
  induction bound generalizing done queue m with
  | zero =>
    obtain rfl := h.queue_nil
    exact hend h
  | succ bound ih =>
    cases queue with
    | nil => exact hend h
    | cons q queue =>
      have hq : q ∈ m.pairs := by simp [h.pairs]
      obtain ⟨s, d⟩ := q
      obtain rfl : s = d := h.diagonal _ hq
      obtain ⟨added, hsub, hpairs, hmem⟩ := h.diagonal.addAll (p.src.children s)
      rw [Pairing.growDown, hchildren s (h.lt_size _ hq)]
      have hadded : m.added ((p.src.children s).map fun c => (c, c)) = added := by
        rw [Matching.added, hpairs, Matching.size, List.drop_left]
      rw [hadded]
      have hnew : ∀ a ∈ added, a.1 = a.2 ∧ a.1 ∈ p.src.children s := fun a ha => by
        obtain ⟨c, hc, rfl⟩ := List.mem_map.mp (hsub ha)
        exact ⟨rfl, hc⟩
      have hnext : p.Growing bound (done ++ [(s, s)]) (queue ++ added)
          (m.addAll ((p.src.children s).map fun c => (c, c))) :=
        { pairs := by rw [hpairs, h.pairs]; simp
          oneToOne := h.oneToOne.addAll _
          diagonal := fun a ha => by
            rw [hpairs] at ha
            exact (List.mem_append.mp ha).elim (h.diagonal a) fun ha => (hnew a ha).1
          lt_size := fun a ha => by
            rw [hpairs] at ha
            exact (List.mem_append.mp ha).elim (h.lt_size a) fun ha => hlt s _ (hnew a ha).2
          closed := fun a ha c hc => by
            rcases List.mem_append.mp ha with ha | ha
            · rw [hpairs]
              exact List.mem_append_left _ (h.closed a ha c hc)
            · obtain rfl := List.mem_singleton.mp ha
              exact hmem c hc
          bound := by
            have := h.bound
            rw [List.length_append, List.length_singleton]
            omega }
      exact ih hnext

theorem recoverMoves_of_full {m : Matching} {minSize : Nat}
    (h : ∀ d ∈ p.dst.preorder Outline.root, p.dstUntouched m d = false) :
    p.recoverMoves minSize m = m := by
  rw [recoverMoves]
  generalize p.moveCandidates minSize m = candidates
  generalize p.dst.preorder Outline.root = ds at h
  induction ds with
  | nil => rfl
  | cons d ds ih =>
    have hskip : p.recoverMove minSize candidates m d = m := by
      rw [recoverMove, h d List.mem_cons_self]
      simp
    rw [List.foldl_cons, hskip]
    exact ih fun d' hd' => h d' (List.mem_cons_of_mem _ hd')

end Pairing

/-! ## Outlines of trees -/

section

variable {src dst : Tree} (h : (Outline.ofTree src).Alike (Outline.ofTree dst)) (hs : src.Linked)

include h hs

theorem Pairing.mem_matching_iff (hworded : src.Worded) (minMoveSize : Nat) {q : Nat × Nat} :
    q ∈ ((ofTrees src dst).matching minMoveSize).pairs ↔
      q.1 = q.2 ∧ q.1 < (Outline.ofTree src).size := by
  have F := Outline.forest_ofTree src
  have hstart : (ofTrees src dst).Growing (Outline.ofTree src).size [] [(Outline.root, Outline.root)]
      ⟨[(Outline.root, Outline.root)]⟩ :=
    { pairs := rfl
      oneToOne := List.pairwise_singleton _ _
      diagonal := by simp [Matching.Diagonal]
      lt_size := by simpa using Outline.size_pos src
      closed := by simp
      bound := by simp }
  obtain ⟨hone, hdiagonal, hlt, hclosed⟩ := hstart.growDown
    (fun i hi => matchChildren_self h (hworded i hi))
    (fun i c hc => (F.lt_size (F.mem_below.mp hc)).2)
  have hroot : (Outline.root, Outline.root) ∈ (ofTrees src dst).topDown.pairs :=
    subset_growDown _ _ _ _ (by simp)
  have hall : ∀ i < (Outline.ofTree src).size, (i, i) ∈ (ofTrees src dst).topDown.pairs := by
    intro i hi
    induction i using F.induction_up with
    | step i ih =>
      cases hq : (Outline.ofTree src).parent? i with
      | none => exact Outline.eq_root_of_parent_eq_none hs hi hq ▸ hroot
      | some q => exact hclosed _ (ih q hq (F.lt_size hq).1) i (F.mem_below.mpr hq)
  have hfull : (ofTrees src dst).matching minMoveSize = (ofTrees src dst).topDown := by
    refine recoverMoves_of_full fun d hd => ?_
    rw [show (ofTrees src dst).dst = Outline.ofTree dst from rfl, Outline.preorder_root_ofTree,
      List.mem_range] at hd
    have hself : d ∈ (Outline.ofTree dst).preorder d :=
      (Outline.mem_preorder_iff _ hd).mpr (Or.inl rfl)
    have hsrcOf := hone.srcOf_eq_some_iff.mpr (hall d (h.size ▸ hd))
    rw [dstUntouched, List.all_eq_false]
    exact ⟨d, hself, by simp [topDown, hsrcOf]⟩
  rw [hfull]
  refine ⟨fun hq => ⟨hdiagonal q hq, hlt q hq⟩, ?_⟩
  rintro ⟨heq, hq⟩
  obtain ⟨s, d⟩ := q
  obtain rfl : s = d := heq
  exact hall s hq

end

namespace Pairing

variable {src dst : Tree} {m : Matching} (h : (Outline.ofTree src).Alike (Outline.ofTree dst))
  (hm : (ofTrees src dst).Matches m)
  (hdiagonal : ∀ {q}, q ∈ m.pairs ↔ q.1 = q.2 ∧ q.1 < (Outline.ofTree src).size)

include hm hdiagonal

theorem srcOf_self {i : Nat} (hi : i < (Outline.ofTree src).size) :
    m.srcOf i = some i ∧ m.dstOf i = some i :=
  ⟨hm.oneToOne.srcOf_eq_some_iff.mpr (hdiagonal.mpr ⟨rfl, hi⟩),
    hm.oneToOne.dstOf_eq_some_iff.mpr (hdiagonal.mpr ⟨rfl, hi⟩)⟩

include h

theorem isDisplaced_self {c q : Nat} (hq : (Outline.ofTree src).parent? c = some q) :
    (ofTrees src dst).isDisplaced m c = false := by
  obtain ⟨hlt, hclt⟩ := (Outline.forest_ofTree src).lt_size hq
  refine (isDisplaced_eq_false_iff (h.parent? c ▸ hq) (srcOf_self hm hdiagonal hclt).1).mpr
    ⟨?_, h.role c⟩
  have hsrc : (ofTrees src dst).src.parent? c = some q := hq
  rw [hsrc]
  exact (srcOf_self hm hdiagonal hlt).2

theorem disorderedChildren_self {q : Nat} (hq : q < (Outline.ofTree src).size) :
    (ofTrees src dst).disorderedChildren m q = [] := by
  have F := Outline.forest_ofTree src
  have hchild : ∀ c ∈ (Outline.ofTree src).children q, c < (Outline.ofTree src).size := fun c hc =>
    (F.lt_size (F.mem_below.mp hc)).2
  have hstayed : (ofTrees src dst).stayedChildren m q = (Outline.ofTree src).children q := by
    rw [stayedChildren]
    refine (congrArg _ (h.children q).symm).trans (List.filter_eq_self.mpr fun c hc => ?_)
    rw [isDisplaced_self h hm hdiagonal (F.mem_below.mp hc),
      (srcOf_self hm hdiagonal (hchild c hc)).1]
    rfl
  have horder : (ofTrees src dst).stayedInSourceOrder m q q = (Outline.ofTree src).children q := by
    have hsame : ((Outline.ofTree src).children q).filterMap m.dstOf =
        (Outline.ofTree src).children q :=
      filterMap_of_map_eq (List.map_congr_left fun c hc => by
        rw [(srcOf_self hm hdiagonal (hchild c hc)).2])
    rw [stayedInSourceOrder, hstayed]
    refine (congrArg _ hsame).trans (List.filter_eq_self.mpr fun c hc => ?_)
    exact List.contains_iff_mem.mpr hc
  rw [disorderedChildren, (srcOf_self hm hdiagonal hq).1]
  simp only [hstayed, horder]
  rw [Alignment.commonPairs_of_forall₂ (List.forall₂_same.mpr fun c _ => BEq.rfl), List.map_eq_nil_iff,
    List.filter_eq_nil_iff]
  rintro ⟨c, i⟩ hc
  have hi := List.snd_lt_of_mem_zipIdx hc
  simpa using hi

theorem unchanged_self {d : Nat} (hd : d < (Outline.ofTree src).size) :
    (ofTrees src dst).Unchanged m d := by
  refine ⟨d, (srcOf_self hm hdiagonal hd).1, fun q hq => ?_, h.label d⟩
  have hq : (Outline.ofTree src).parent? d = some q := (h.parent? d).trans hq
  have hlt := ((Outline.forest_ofTree src).lt_size hq).1
  refine ⟨?_, h.role d, by simp [disorderedChildren_self h hm hdiagonal hlt]⟩
  have hsrc : (ofTrees src dst).src.parent? d = some q := hq
  rw [hsrc]
  exact (srcOf_self hm hdiagonal hlt).2

/-- **Nothing has to be done** where every number is paired with itself. -/
theorem editScript_eq_nil (hs : src.Linked) (hd : dst.Linked) : (ofTrees src dst).editScript m = [] := by
  have hgoes : ∀ {o : Outline} {fate : Nat → Fate} {i : Nat} {op : Operation},
      emitted o fate i = some op → (fate i).goesOn = false := fun he => by
    rw [(emitted_eq_some_iff.mp he).2]
    rfl
  refine List.eq_nil_iff_forall_not_mem.mpr fun op hop => ?_
  rcases mem_editScript_iff.mp hop with ⟨s, hlt, he⟩ | ⟨d, hlt, he⟩
  · have hstays := (src_goesOn_iff hm).mpr ⟨s, (srcOf_self hm hdiagonal hlt).1,
      unchanged_self h hm hdiagonal hlt⟩
    rw [hgoes he] at hstays
    simp at hstays
  · have hstays := (dst_goesOn_iff hs hd hm hlt).mpr
      (unchanged_self h hm hdiagonal (h.size.symm ▸ hlt))
    rw [hgoes he] at hstays
    simp at hstays

end Pairing

/-! ## Whole trees -/

/-- What a node shows apart from its position. -/
def Content.form (c : Content) : String × String × Role × Bool :=
  (c.kind, c.label, c.role, c.implicit)

/-- What can be reached from the roots of two trees is the same but for identifiers and positions. -/
def Tree.SameForm (t u : Tree) : Prop :=
  (t.contents root).map Content.form = (u.contents root).map Content.form

theorem Outline.form_markTree {t u : Tree} (L : t.Linked) (L' : u.Linked) (n : NodeId) :
    ∀ n', (t.contents n).map Content.form = (u.contents n').map Content.form →
      (markTree t n).map Mark.form = (markTree u n').map Mark.form := by
  induction n using L.induction_down with
  | step n ih =>
    intro n' h
    have hvalue : ∀ {c c'}, (t.contents c).map Content.form = (u.contents c').map Content.form →
        (t.node c).toContent.form = (u.node c').toContent.form ∧
          (t.children c).map (fun k => (t.contents k).map Content.form) =
            (u.children c').map fun k => (u.contents k).map Content.form := fun hc => by
      rw [Tree.contents_eq L, Tree.contents_eq L', Rose.map, Rose.map, Rose.node.injEq,
        Rose.mapAll_eq_map, Rose.mapAll_eq_map, List.map_map, List.map_map] at hc
      exact hc
    obtain ⟨hform, hchildren⟩ := hvalue h
    have hkind : t.kind n = u.kind n' := congrArg (·.1) hform
    have hlabel : t.label n = u.label n' := congrArg (·.2.1) hform
    have hrole : t.role n = u.role n' := congrArg (·.2.2.1) hform
    have hbelow : List.Forall₂ (fun c c' => (t.contents c).map Content.form =
        (u.contents c').map Content.form) (t.children n) (u.children n') :=
      List.forall₂_map_left_iff.mp (List.forall₂_map_right_iff.mp
        (List.forall₂_eq_eq_eq ▸ hchildren))
    have hleaf : t.isLeaf n = u.isLeaf n' := isEmpty_eq_of_forall₂ hbelow
    have htracked := forall₂_filter hbelow (f := fun c => !t.isIgnored c)
      (g := fun c => !u.isIgnored c) fun c c' _ _ hc => by
        have hcontent := (hvalue hc).1
        have hignored : t.isIgnored c = u.isIgnored c' := by
          have himplicit : t.isImplicit c = u.isImplicit c' := congrArg (·.2.2.2) hcontent
          have hrole : t.role c = u.role c' := congrArg (·.2.2.1) hcontent
          have hlabel : t.label c = u.label c' := congrArg (·.2.1) hcontent
          rw [Tree.isIgnored, Tree.isIgnored, himplicit, hrole, hlabel]
        rw [hignored]
    rw [markTree_eq L, markTree_eq L', Rose.map, Rose.map, Rose.node.injEq, Rose.mapAll_eq_map,
      Rose.mapAll_eq_map, List.map_map, List.map_map]
    refine ⟨?_, List.forall₂_eq_eq_eq ▸ List.forall₂_map_left_iff.mpr
      (List.forall₂_map_right_iff.mpr ?_)⟩
    · rw [Mark.ofNode, Mark.ofNode, Mark.form, Mark.form, hkind, hlabel, hrole, hleaf]
    · exact ((List.forall₂_and_left _ _).mpr ⟨fun c hc => List.mem_of_mem_filter hc, htracked⟩).imp
        fun c c' hc => ih c hc.1 c' hc.2

theorem Tree.SameForm.alike {src dst : Tree} (h : src.SameForm dst) (hs : src.Linked) (hd : dst.Linked) :
    (Outline.ofTree src).Alike (Outline.ofTree dst) := by
  rw [Outline.ofTree_eq, Outline.ofTree_eq]
  refine Outline.alike_ofRose ?_
  rw [Rose.map, Rose.map, Rose.mapAll_eq_map, Rose.mapAll_eq_map, List.map_singleton,
    List.map_singleton, Outline.form_markTree hs hd _ _ h]

/-- **A tree that is compared with one of the same form is left alone**: every number is paired with
itself, and there is nothing to be done. -/
theorem Tree.SameForm.left_alone {src dst : Tree} (hs : src.Linked) (hd : dst.Linked)
    (h : src.SameForm dst) (hworded : src.Worded) (minMoveSize : Nat) :
    (Outline.ofTree src).Alike (Outline.ofTree dst) ∧
    (src.diff dst minMoveSize).pairs.Nodup ∧
    (∀ q, q ∈ (src.diff dst minMoveSize).pairs ↔ q.1 = q.2 ∧ q.1 < (Outline.ofTree src).size) ∧
    (src.diff dst minMoveSize).operations = [] ∧
    ∃ nodes,
      Correspondence.resolve (src.diff dst minMoveSize).pairing (src.diff dst minMoveSize).pairs
        src dst = .ok nodes ∧
      Revision.generate { src, dst, nodes } (src.diff dst minMoveSize).operations =
        .ok (.empty dst) ∧
      ((PatchSet.empty dst).apply src).tree = src ∧ ((PatchSet.empty dst).apply src).error = none := by
  have halike := h.alike hs hd
  have hm := Pairing.matching_matches src dst minMoveSize
  have hpairs : ∀ {q}, q ∈ (src.diff dst minMoveSize).pairs ↔
      q.1 = q.2 ∧ q.1 < (Outline.ofTree src).size := Pairing.mem_matching_iff halike hs hworded _
  have hnone : (src.diff dst minMoveSize).operations = [] :=
    Pairing.editScript_eq_nil halike hm hpairs hs hd
  obtain ⟨nodes, hresolve, -⟩ := Correspondence.resolve_ok hs hd hm
  refine ⟨halike, hm.oneToOne.nodup, fun q => hpairs, hnone, nodes, hresolve, ?_, rfl, rfl⟩
  rw [hnone]
  rfl

/-- A method is replaced by a copy of itself, and the tree compared with what it was before. Two of its
thrown types are the same. -/
theorem Tree.SameForm.left_alone_copied :
    let src := Tree.ofMethods "old" [("f", ["A", "B", "A"]), ("g", ["A"])]
    let twin := Tree.ofMethods "new" [("f", ["A", "B", "A"]), ("g", ["A"])]
    let dst := ((twin.graft twin 2).tree.replace 2 twin.size).toOption.getD twin
    dst.children 1 = [12, 8] ∧ src.children 1 = [2, 8] ∧ src.Linked ∧ dst.Linked ∧ src.SameForm dst ∧
      src.Worded ∧
      (Outline.ofTree src).Alike (Outline.ofTree dst) ∧
      (src.diff dst 1).pairs.Nodup ∧
      (∀ q, q ∈ (src.diff dst 1).pairs ↔ q.1 = q.2 ∧ q.1 < (Outline.ofTree src).size) ∧
      (src.diff dst 1).operations = [] ∧
      ∃ nodes,
        Correspondence.resolve (src.diff dst 1).pairing (src.diff dst 1).pairs src dst = .ok nodes ∧
        Revision.generate { src, dst, nodes } (src.diff dst 1).operations = .ok (.empty dst) ∧
        ((PatchSet.empty dst).apply src).tree = src ∧
        ((PatchSet.empty dst).apply src).error = none := by
  intro src twin dst
  have hs : src.Linked := linked_ofRose _ _ _
  have hd : dst.Linked := by
    have L : (twin.graft twin 2).tree.Linked := linked_graft (linked_ofRose _ _ _) 2
    have hold : (twin.graft twin 2).tree.parent? 2 = some 1 := by decide +kernel
    have htop : (twin.graft twin 2).tree.parent? twin.size = none := by decide +kernel
    obtain ⟨t, ht, hx⟩ := replace_ok L hold (by decide +kernel) htop
    have heq : dst = t := congrArg (fun e => e.toOption.getD twin) ht
    rw [heq]
    exact hx.linked L hold htop (by decide +kernel) (by decide +kernel)
  have hform : src.SameForm dst := Rose.eq_of_beq _ _ (by decide +kernel)
  have hworded : src.Worded := by decide +kernel
  exact ⟨by decide +kernel, by decide +kernel, hs, hd, hform, hworded,
    left_alone hs hd hform hworded 1⟩

end TreePatch
