import TreePatch.Proofs.BestAlignment
import TreePatch.Proofs.GreatestWeight

/-!
# Pairs of siblings in order

Where order matters, siblings are paired in three rounds: a longest common subsequence of identical subtrees,
then in each gap the most similar nodes, then whatever is left and can be matched. A node of the last round
goes to the first place that keeps all pairs in order (`mem_bounds_iff`). If there is none, one of the pairs
stands in its way, and that pair is never given up (`Orderly.pairLeftover`). So in the end every two nodes
that could be matched are kept apart by a pair, within a gap as well as across gaps (`Filled.glue`).
-/

namespace TreePatch.Pairing

open TreePatch.Alignment (Aligned Holds Noncrossing LongestCommon)

variable {p : Pairing} {left right : List Nat}

/-- Two pairs of positions that share neither and do not cross. -/
def Apart (a b : Nat × Nat) : Prop :=
  (a.1 < b.1 ∧ a.2 < b.2) ∨ (b.1 < a.1 ∧ b.2 < a.2)

theorem Apart.symm {a b : Nat × Nat} (h : Apart a b) : Apart b a :=
  Or.symm h

/-! ## Leftovers -/

theorem mem_bounds_iff {gap : List (Nat × Nat)} {n l r : Nat} (hr : r < n) :
    (bounds gap n l).1 ≤ r ∧ r < (bounds gap n l).2 ↔
      ∀ q ∈ gap, (q.1 < l → q.2 < r) ∧ (l < q.1 → r < q.2) := by
  have hlower : (bounds gap n l).1 ≤ r ↔ ∀ q ∈ gap, q.1 < l → q.2 < r := by
    rw [bounds]
    cases hmax : ((gap.filter (·.1 < l)).map (·.2 + 1)).max? with
    | none =>
      rw [List.max?_eq_none_iff, List.map_eq_nil_iff, List.filter_eq_nil_iff] at hmax
      exact ⟨fun _ q hq hlt => absurd (decide_eq_true hlt) (hmax q hq), fun _ => Nat.zero_le r⟩
    | some k =>
      simp only [Option.getD_some, List.max?_le_iff hmax, List.forall_mem_map, List.forall_mem_filter,
        decide_eq_true_eq, Nat.succ_le_iff]
  have hupper : r < (bounds gap n l).2 ↔ ∀ q ∈ gap, l < q.1 → r < q.2 := by
    rw [bounds]
    cases hmin : ((gap.filter (l < ·.1)).map (·.2)).min? with
    | none =>
      rw [List.min?_eq_none_iff, List.map_eq_nil_iff, List.filter_eq_nil_iff] at hmin
      exact ⟨fun _ q hq hlt => absurd (decide_eq_true hlt) (hmin q hq), fun _ => hr⟩
    | some k =>
      simp only [Option.getD_some, ← Nat.succ_le_iff, List.le_min?_iff hmin, List.forall_mem_map,
        List.forall_mem_filter, decide_eq_true_eq]
  rw [hlower, hupper]
  exact ⟨fun h q hq => ⟨h.1 q hq, h.2 q hq⟩, fun h => ⟨fun q hq => (h q hq).1, fun q hq => (h q hq).2⟩⟩

theorem forall_apart_iff {gap : List (Nat × Nat)} {n l r : Nat} (hr : r < n) (hl : ∀ q ∈ gap, q.1 ≠ l) :
    (∀ q ∈ gap, Apart q (l, r)) ↔
      ((bounds gap n l).1 ≤ r ∧ r < (bounds gap n l).2) ∧ ∀ q ∈ gap, q.2 ≠ r := by
  rw [mem_bounds_iff hr]
  constructor
  · intro h
    refine ⟨fun q hq => ?_, fun q hq => ?_⟩
    · have := h q hq
      rw [Apart] at this
      omega
    · have := h q hq
      rw [Apart] at this
      omega
  · rintro ⟨hbounds, hfree⟩ q hq
    have := hbounds q hq
    have := hfree q hq
    have := hl q hq
    rw [Apart]
    omega

theorem matchable_iff_getD {l r : Nat} (hl : l < left.length) (hr : r < right.length) :
    p.Matchable left right (l, r) ↔ p.canMatch (left.getD l 0) (right.getD r 0) = true := by
  simp [Matchable, hl, hr]

/-- Pairs of positions in two lists that can be matched and are in order, listed in any order. -/
structure Orderly (p : Pairing) (left right : List Nat) (gap : List (Nat × Nat)) : Prop where
  matchable : ∀ q ∈ gap, p.Matchable left right q
  apart : gap.Pairwise Apart

/-- Whatever position `l` on the left can be matched with, one of the pairs stands in the way. -/
def Settled (p : Pairing) (left right : List Nat) (gap : List (Nat × Nat)) (l : Nat) : Prop :=
  ∀ r, p.Matchable left right (l, r) → ∃ q ∈ gap, ¬ Apart q (l, r)

theorem Settled.mono {gap gap' : List (Nat × Nat)} {l : Nat} (h : p.Settled left right gap l)
    (hsub : gap ⊆ gap') : p.Settled left right gap' l := fun r hr => by
  obtain ⟨q, hq, hnot⟩ := h r hr
  exact ⟨q, hsub hq, hnot⟩

theorem pairLeftover_cases {gap : List (Nat × Nat)} {l : Nat} (hl : l < left.length)
    (hgap : p.Orderly left right gap) :
    (p.pairLeftover left right gap l = gap ∧ p.Settled left right gap l) ∨
      ∃ r, p.pairLeftover left right gap l = gap ++ [(l, r)] ∧ ∀ q ∈ gap, Apart q (l, r) := by
  rw [pairLeftover]
  split
  · next hpaired =>
    obtain ⟨q, hq, hql⟩ := List.any_eq_true.mp hpaired
    rw [beq_iff_eq] at hql
    refine Or.inl ⟨rfl, fun r _ => ⟨q, hq, ?_⟩⟩
    rw [Apart]
    omega
  · next hpaired =>
    have hfree : ∀ q ∈ gap, q.1 ≠ l := fun q hq hql =>
      hpaired (List.any_eq_true.mpr ⟨q, hq, beq_iff_eq.mpr hql⟩)
    have hupper : (bounds gap right.length l).2 ≤ right.length := bounds_snd_le fun q hq => by
      obtain ⟨_, _, -, hr, -⟩ := hgap.matchable q hq
      exact (List.getElem?_eq_some_iff.mp hr).1
    simp only
    split
    · next r hfind =>
      have hmem := List.mem_range'_1.mp (List.mem_of_find?_eq_some hfind)
      have hpred := List.find?_some hfind
      rw [Bool.and_eq_true, Bool.not_eq_true', List.any_eq_false] at hpred
      refine Or.inr ⟨r, rfl, (forall_apart_iff (by omega) hfree).mpr ⟨⟨hmem.1, by omega⟩, fun q hq => ?_⟩⟩
      simpa using hpred.1 q hq
    · next hfind =>
      refine Or.inl ⟨rfl, fun r hmatchable => ?_⟩
      have hr : r < right.length := by
        obtain ⟨_, _, -, hr, -⟩ := hmatchable
        exact (List.getElem?_eq_some_iff.mp hr).1
      by_contra hnone
      have hall : ∀ q ∈ gap, Apart q (l, r) := fun q hq => by
        by_contra hnot
        exact hnone ⟨q, hq, hnot⟩
      obtain ⟨hbounds, htaken⟩ := (forall_apart_iff hr hfree).mp hall
      refine List.find?_eq_none.mp hfind r (List.mem_range'_1.mpr (by omega)) ?_
      rw [Bool.and_eq_true, Bool.not_eq_true', List.any_eq_false]
      exact ⟨fun q hq => by simpa using htaken q hq, (matchable_iff_getD hl hr).mp hmatchable⟩

theorem Orderly.pairLeftover {gap : List (Nat × Nat)} (h : p.Orderly left right gap) {l : Nat}
    (hl : l < left.length) :
    p.Orderly left right (p.pairLeftover left right gap l) ∧ gap ⊆ p.pairLeftover left right gap l ∧
      p.Settled left right (p.pairLeftover left right gap l) l := by
  have hmatchable := pairLeftover_matchable hl h.matchable
  rcases pairLeftover_cases hl h with ⟨heq, hsettled⟩ | ⟨r, heq, hapart⟩
  · rw [heq]
    exact ⟨h, List.Subset.refl _, hsettled⟩
  · rw [heq] at hmatchable ⊢
    refine ⟨⟨hmatchable, ?_⟩, List.subset_append_left _ _, fun r' _ => ⟨(l, r), by simp, ?_⟩⟩
    · refine List.pairwise_append.mpr ⟨h.apart, List.pairwise_singleton _ _, fun q hq q' hq' => ?_⟩
      rw [List.mem_singleton] at hq'
      exact hq' ▸ hapart q hq
    · rw [Apart]
      omega

theorem Orderly.foldl_pairLeftover {gap : List (Nat × Nat)} (h : p.Orderly left right gap) {ls : List Nat}
    (hls : ∀ l ∈ ls, l < left.length) :
    p.Orderly left right (ls.foldl (p.pairLeftover left right) gap) ∧
      gap ⊆ ls.foldl (p.pairLeftover left right) gap ∧
        ∀ l ∈ ls, p.Settled left right (ls.foldl (p.pairLeftover left right) gap) l := by
  induction ls generalizing gap with
  | nil => exact ⟨h, List.Subset.refl _, by simp⟩
  | cons l ls ih =>
    obtain ⟨hstep, hsub, hsettled⟩ := h.pairLeftover (hls l List.mem_cons_self)
    obtain ⟨hrun, hsub', hrest⟩ := ih hstep fun l' hl' => hls l' (List.mem_cons_of_mem _ hl')
    refine ⟨hrun, List.Subset.trans hsub hsub', fun l' hl' => ?_⟩
    rcases List.mem_cons.mp hl' with rfl | hl'
    · exact hsettled.mono hsub'
    · exact hrest l' hl'

theorem increasing_mergeSort {gap : List (Nat × Nat)} (h : gap.Pairwise Apart) :
    (gap.mergeSort precedes).Pairwise fun a b => a.1 < b.1 ∧ a.2 < b.2 := by
  have hsorted : (gap.mergeSort precedes).Pairwise fun a b => precedes a b = true :=
    List.pairwise_mergeSort (fun a b c hab hbc => by simp [precedes] at hab hbc ⊢; omega)
      (fun a b => by simp [precedes]; omega) gap
  have hapart := ((List.mergeSort_perm gap precedes).pairwise_iff Apart.symm).mpr h
  refine (hsorted.and hapart).imp fun {a b} hab => ?_
  simp [precedes, Apart] at hab
  omega

/-! ## Gaps -/

/-- Whether two nodes are of one kind. -/
def sameKind (p : Pairing) (l r : Nat) : Bool :=
  (p.src.node l).kind == (p.dst.node r).kind

/-- Pairs of positions, counted from `i` and `j`, of nodes of one kind in two lists; they are in order,
and one of them stands in the way of any further pair. -/
structure Filled (p : Pairing) (i : Nat) (left : List Nat) (j : Nat) (right : List Nat)
    (positions : List (Nat × Nat)) : Prop extends Aligned p.sameKind i left j right positions where
  settled : ∀ q, Holds p.canMatch i left j right q → ∃ q' ∈ positions, ¬ Apart q' q

/-- The nodes at positions counted from `i` and `j`. -/
def readAt (i : Nat) (left : List Nat) (j : Nat) (right : List Nat) (q : Nat × Nat) : Nat × Nat :=
  (left.getD (q.1 - i) 0, right.getD (q.2 - j) 0)

theorem readAt_take {rel : Nat → Nat → Bool} {i j k m : Nat} {q : Nat × Nat}
    (h : Holds rel i (left.take k) j (right.take m) q) :
    readAt i (left.take k) j (right.take m) q = readAt i left j right q := by
  obtain ⟨⟨hi, hj, -⟩, hk, hm⟩ := Alignment.holds_take_iff.mp h
  simp only [readAt, List.getD_eq_getElem?_getD]
  rw [List.getElem?_take_of_lt (by omega), List.getElem?_take_of_lt (by omega)]

theorem readAt_drop {rel : Nat → Nat → Bool} {i j a b : Nat} {q : Nat × Nat} (hia : i ≤ a) (hjb : j ≤ b)
    (h : Holds rel (a + 1) (left.drop (a - i + 1)) (b + 1) (right.drop (b - j + 1)) q) :
    readAt (a + 1) (left.drop (a - i + 1)) (b + 1) (right.drop (b - j + 1)) q =
      readAt i left j right q := by
  obtain ⟨-, ha, hb⟩ := (Alignment.holds_drop_iff hia hjb).mp h
  simp only [readAt, List.getD_eq_getElem?_getD, List.getElem?_drop]
  rw [show a - i + 1 + (q.1 - (a + 1)) = q.1 - i by omega,
    show b - j + 1 + (q.2 - (b + 1)) = q.2 - j by omega]

theorem gapMatch_eq (p : Pairing) (left right : List Nat) :
    ∃ gap, p.gapMatch left right = gap.map (readAt 0 left 0 right) ∧
      (gap.Pairwise fun a b => a.1 < b.1 ∧ a.2 < b.2) ∧ (∀ q ∈ gap, p.Matchable left right q) ∧
        ∀ l < left.length, p.Settled left right gap l := by
  have hsimilar : p.Orderly left right (Alignment.weightedPairs p.similarity left right) := by
    refine ⟨fun q hq => ?_, (Alignment.weightedPairs_noncrossing _ left right).increasing.imp Or.inl⟩
    obtain ⟨l, r, hl, hr, hw⟩ := Alignment.weightedPairs_weigh p.similarity left right q hq
    exact ⟨l, r, hl, hr, canMatch_of_similarity_pos hw⟩
  obtain ⟨horderly, -, hsettled⟩ := hsimilar.foldl_pairLeftover fun l hl => List.mem_range.mp hl
  have hperm := List.mergeSort_perm (p.pairLeftovers left right
    (Alignment.weightedPairs p.similarity left right)) precedes
  exact ⟨_, rfl, increasing_mergeSort horderly.apart,
    fun q hq => horderly.matchable q (hperm.subset hq),
    fun l hl => (hsettled l (List.mem_range.mpr hl)).mono hperm.symm.subset⟩

theorem exists_gapMatch (p : Pairing) (i : Nat) (left : List Nat) (j : Nat) (right : List Nat) :
    ∃ positions, p.gapMatch left right = positions.map (readAt i left j right) ∧
      p.Filled i left j right positions := by
  obtain ⟨gap, heq, hincreasing, hmatchable, hsettled⟩ := p.gapMatch_eq left right
  refine ⟨gap.map fun q => (i + q.1, j + q.2), ?_, ⟨fun q hq => ?_, ?_⟩, fun q hq => ?_⟩
  · rw [heq, List.map_map]
    refine List.map_congr_left fun q _ => ?_
    simp [readAt]
  · obtain ⟨a, ha, rfl⟩ := List.mem_map.mp hq
    obtain ⟨l, r, hl, hr, hlr⟩ := hmatchable a ha
    refine ⟨by omega, by omega, l, r, ?_, ?_, beq_iff_eq.mpr ((canMatch_iff.mp hlr).1)⟩
    · rwa [Nat.add_sub_cancel_left]
    · rwa [Nat.add_sub_cancel_left]
  · refine List.pairwise_map.mpr (hincreasing.imp fun hab => ?_)
    omega
  · obtain ⟨hi, hj, l, r, hl, hr, hlr⟩ := hq
    obtain ⟨a, ha, hnot⟩ := hsettled (q.1 - i) (List.getElem?_eq_some_iff.mp hl).1 (q.2 - j)
      ⟨l, r, hl, hr, hlr⟩
    refine ⟨(i + a.1, j + a.2), List.mem_map.mpr ⟨a, ha, rfl⟩, fun hapart => hnot ?_⟩
    rw [Apart] at hapart ⊢
    omega

theorem Filled.glue {i j a b : Nat} {gap rest : List (Nat × Nat)} (hia : i ≤ a) (hjb : j ≤ b)
    (hab : Holds p.sameKind i left j right (a, b))
    (hgap : p.Filled i (left.take (a - i)) j (right.take (b - j)) gap)
    (hrest : p.Filled (a + 1) (left.drop (a - i + 1)) (b + 1) (right.drop (b - j + 1)) rest) :
    p.Filled i left j right (gap ++ (a, b) :: rest) := by
  have hbefore : ∀ q ∈ gap, Holds p.sameKind i left j right q ∧ q.1 < a ∧ q.2 < b := fun q hq => by
    have hq := Alignment.holds_take_iff.mp (hgap.related q hq)
    exact ⟨hq.1, by omega, by omega⟩
  have hbehind : ∀ q ∈ rest, Holds p.sameKind i left j right q ∧ a < q.1 ∧ b < q.2 := fun q hq =>
    (Alignment.holds_drop_iff hia hjb).mp (hrest.related q hq)
  refine ⟨⟨fun q hq => ?_, ?_⟩, fun q hq => ?_⟩
  · rcases List.mem_append.mp hq with hq | hq
    · exact (hbefore q hq).1
    · rcases List.mem_cons.mp hq with rfl | hq
      · exact hab
      · exact (hbehind q hq).1
  · refine List.pairwise_append.mpr ⟨hgap.increasing,
      List.pairwise_cons.mpr ⟨fun q hq => (hbehind q hq).2, hrest.increasing⟩, fun q hq q' hq' => ?_⟩
    have hq := (hbefore q hq).2
    rcases List.mem_cons.mp hq' with rfl | hq'
    · exact hq
    · have hq' := (hbehind q' hq').2
      omega
  · -- before both or behind both, else the pair in the middle stands in the way
    by_cases hlt : q.1 < a ∧ q.2 < b
    · obtain ⟨q', hq', hnot⟩ := hgap.settled q
        (Alignment.holds_take_iff.mpr ⟨hq, by omega, by omega⟩)
      exact ⟨q', by simp [hq'], hnot⟩
    · by_cases hgt : a < q.1 ∧ b < q.2
      · obtain ⟨q', hq', hnot⟩ := hrest.settled q ((Alignment.holds_drop_iff hia hjb).mpr ⟨hq, hgt⟩)
        exact ⟨q', by simp [hq'], hnot⟩
      · refine ⟨(a, b), by simp, ?_⟩
        rw [Apart]
        omega

theorem exists_fillGaps (i j : Nat) (left right : List Nat) (anchors : List (Nat × Nat))
    (h : Aligned p.identical i left j right anchors) :
    ∃ positions, p.fillGaps i j left right anchors = positions.map (readAt i left j right) ∧
      p.Filled i left j right positions ∧ anchors.Sublist positions := by
  induction anchors generalizing i j left right with
  | nil =>
    obtain ⟨positions, heq, hfilled⟩ := p.exists_gapMatch i left j right
    exact ⟨positions, heq, hfilled, List.nil_sublist _⟩
  | cons ab anchors ih =>
    obtain ⟨a, b⟩ := ab
    obtain ⟨hi, hj, x, y, hx, hy, hxy⟩ := h.related (a, b) List.mem_cons_self
    obtain ⟨gap, hgap, hgapFilled⟩ := p.exists_gapMatch i (left.take (a - i)) j (right.take (b - j))
    obtain ⟨rest, hrest, hrestFilled, hsub⟩ := ih _ _ _ _ h.behind
    refine ⟨gap ++ (a, b) :: rest, ?_, .glue hi hj ?_ hgapFilled hrestFilled, ?_⟩
    · have hbefore : gap.map (readAt i (left.take (a - i)) j (right.take (b - j))) =
          gap.map (readAt i left j right) :=
        List.map_congr_left fun q hq => readAt_take (hgapFilled.related q hq)
      have hbehind : rest.map (readAt (a + 1) (left.drop (a - i + 1)) (b + 1) (right.drop (b - j + 1))) =
          rest.map (readAt i left j right) :=
        List.map_congr_left fun q hq => readAt_drop hi hj (hrestFilled.related q hq)
      rw [fillGaps, hgap, hrest, hbefore, hbehind, List.map_append, List.map_cons, List.append_assoc,
        List.singleton_append]
      rfl
    · exact ⟨hi, hj, x, y, hx, hy, beq_iff_eq.mpr (kind_of_identical hxy)⟩
    · exact (hsub.cons_cons _).trans (List.sublist_append_right _ _)

/-! ## The pairs found -/

/-- Two pairs of positions that go opposite ways. -/
def Crosses (a b : Nat × Nat) : Prop :=
  (a.1 < b.1 ∧ b.2 < a.2) ∨ (b.1 < a.1 ∧ a.2 < b.2)

/-- Pairs of positions in two lists of siblings that go forward on both sides and hold nodes of one kind. A
longest common subsequence of identical subtrees is among them, and no two nodes that could be matched are
left without either being paired or having a pair between them. -/
structure MaximalInOrder (p : Pairing) (left right : List Nat) (positions : List (Nat × Nat)) : Prop
    extends Noncrossing left.length right.length positions where
  kind : ∀ q ∈ positions, ∃ l r, left[q.1]? = some l ∧ right[q.2]? = some r ∧
    (p.src.node l).kind = (p.dst.node r).kind
  common : ∃ common, common.Sublist positions ∧ LongestCommon p.identical left right common
  maximal : ∀ {i j l r}, left[i]? = some l → right[j]? = some r →
    (p.src.node l).kind = (p.dst.node r).kind → p.src.isTerminal l = p.dst.isTerminal r →
      ∃ q ∈ positions, q.1 = i ∨ q.2 = j ∨ Crosses q (i, j)

theorem exists_orderedMatch (p : Pairing) (left right : List Nat) :
    ∃ positions, p.orderedMatch left right = positions.map (readAt 0 left 0 right) ∧
      p.MaximalInOrder left right positions := by
  have hcommon := Alignment.commonPairs_longest p.identical left right
  obtain ⟨positions, heq, hfilled, hsub⟩ := exists_fillGaps 0 0 left right _ hcommon.aligned
  refine ⟨positions, heq, ⟨hfilled.noncrossing, fun q hq => ?_, ⟨_, hsub, hcommon⟩,
    fun {i j l r} hl hr hkind hterminal => ?_⟩⟩
  · obtain ⟨-, -, l, r, hl, hr, hkind⟩ := hfilled.related q hq
    exact ⟨l, r, hl, hr, beq_iff_eq.mp hkind⟩
  · have hmatch : p.canMatch l r = true := canMatch_iff.mpr ⟨hkind, hterminal⟩
    obtain ⟨q, hq, hnot⟩ := hfilled.settled (i, j) ⟨Nat.zero_le _, Nat.zero_le _, l, r, hl, hr, hmatch⟩
    refine ⟨q, hq, ?_⟩
    rw [Apart] at hnot
    rw [Crosses]
    omega

theorem positions_map_readAt {positions : List (Nat × Nat)} (hleft : left.Nodup) (hright : right.Nodup)
    (h : Noncrossing left.length right.length positions) :
    Pairing.positions left right (positions.map (readAt 0 left 0 right)) = positions := by
  rw [Pairing.positions, List.map_map]
  conv_rhs => rw [← List.map_id positions]
  refine List.map_congr_left fun q hq => ?_
  obtain ⟨hl, hr⟩ := h.inside q hq
  simp [readAt, hl, hr, hleft.idxOf_getElem, hright.idxOf_getElem]

/-- **Siblings in order are paired as far as possible.** In two lists of nodes the pairs found stand at
positions that go forward on both sides, with a longest common subsequence of identical subtrees among them,
and nothing can be added to them: of two nodes of one kind that are both terminals or both none, one is
paired, or a pair crosses theirs. The children of two nodes are all different, so that there the pairs
themselves tell the positions. -/
theorem pairs_siblings_in_order :
    (∀ (p : Pairing) (left right : List Nat), ∃ positions,
      p.orderedMatch left right = positions.map (fun q => (left.getD q.1 0, right.getD q.2 0)) ∧
        p.MaximalInOrder left right positions) ∧
    ∀ (src dst : Tree) (s d : Nat),
      (ofTrees src dst).MaximalInOrder ((Outline.ofTree src).children s) ((Outline.ofTree dst).children d)
        (Pairing.positions ((Outline.ofTree src).children s) ((Outline.ofTree dst).children d)
          ((ofTrees src dst).orderedMatch ((Outline.ofTree src).children s)
            ((Outline.ofTree dst).children d))) := by
  refine ⟨exists_orderedMatch, fun src dst s d => ?_⟩
  obtain ⟨positions, heq, hmaximal⟩ := exists_orderedMatch (ofTrees src dst)
    ((Outline.ofTree src).children s) ((Outline.ofTree dst).children d)
  rw [heq, positions_map_readAt ((Outline.forest_ofTree src).nodup s) ((Outline.forest_ofTree dst).nodup d)
    hmaximal.toNoncrossing]
  exact hmaximal

end TreePatch.Pairing
