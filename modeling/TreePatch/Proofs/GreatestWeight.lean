import Mathlib.Algebra.BigOperators.Ring.Finset
import Mathlib.Algebra.Order.BigOperators.Group.List
import TreePatch.Proofs.Augmenting
import TreePatch.Proofs.EditScript

/-!
# Pairings of greatest weight

When all rows are placed, no reduced cost is negative and those of the assigned entries are zero. The
potentials of all rows and columns add up to the same, whatever column each row is given, so no
assignment costs less than the one found, and none weighs more (`Balanced.weight_le`).

Children whose order carries no meaning are assigned over a matrix of their similarities, filled up with
zeros. Any pairing of them can be completed to an assignment of all rows and columns without losing
weight, so the pairs found are the most similar ones.
-/

namespace TreePatch

namespace Assignment

/-- The weight of the entries in a list of pairs of rows and columns, counted from zero. -/
def pairsWeight (weights : List (List Int)) (pairs : List (Nat × Nat)) : Int :=
  (pairs.map fun q => weightAt weights q.1 q.2).sum

/-- The total weight of an assignment that gives each row the column listed for it. -/
def totalWeight (weights : List (List Int)) (columns : List Nat) : Int :=
  (columns.zipIdx.map fun (j, i) => weightAt weights i j).sum

variable {weights : List (List Int)} {n : Nat}

theorem totalWeight_eq (columns : List Nat) :
    totalWeight weights columns = pairsWeight weights (columns.zipIdx.map Prod.swap) := by
  rw [totalWeight, pairsWeight, List.map_map]
  rfl

/-- Every row and every column from zero to below `n` occurs in one pair. -/
structure Exhausts (n : Nat) (pairs : List (Nat × Nat)) : Prop where
  rows : (pairs.map (·.1)).Perm (List.range n)
  columns : (pairs.map (·.2)).Perm (List.range n)

theorem exhausts_of_perm {columns : List Nat} (h : columns.Perm (List.range n)) :
    Exhausts n (columns.zipIdx.map Prod.swap) where
  rows := by
    have hlength := h.length_eq
    rw [List.length_range] at hlength
    rw [List.map_map, show Prod.fst ∘ Prod.swap = (Prod.snd : Nat × Nat → Nat) from rfl,
      List.zipIdx_map_snd, hlength, List.range_eq_range']
  columns := by
    rw [List.map_map, show Prod.snd ∘ Prod.swap = (Prod.fst : Nat × Nat → Nat) from rfl,
      List.zipIdx_map_fst]
    exact h

namespace State

variable {s : State}

/-- The potentials of all rows and columns. -/
def totalPotential (s : State) (n : Nat) : Int :=
  ((List.range n).map fun i => s.rowPotential (i + 1)).sum +
    ((List.range n).map fun j => (s.column (j + 1)).potential).sum

theorem sum_reduced {pairs : List (Nat × Nat)} (h : Exhausts n pairs) :
    (pairs.map fun q => s.reduced (costOf weights) (q.1 + 1) (q.2 + 1)).sum =
      n * weights.flatten.max?.getD 0 - pairsWeight weights pairs - s.totalPotential n := by
  have hrows : (pairs.map fun q => s.rowPotential (q.1 + 1)).sum =
      ((List.range n).map fun i => s.rowPotential (i + 1)).sum := by
    rw [← (h.rows.map fun i => s.rowPotential (i + 1)).sum_eq, List.map_map]
    rfl
  have hcolumns : (pairs.map fun q => (s.column (q.2 + 1)).potential).sum =
      ((List.range n).map fun j => (s.column (j + 1)).potential).sum := by
    rw [← (h.columns.map fun j => (s.column (j + 1)).potential).sum_eq, List.map_map]
    rfl
  have hlength : pairs.length = n := by
    rw [← List.length_map (f := fun q : Nat × Nat => q.1), h.rows.length_eq, List.length_range]
  rw [totalPotential, ← hrows, ← hcolumns, ← hlength, pairsWeight]
  clear h hrows hcolumns hlength
  induction pairs with
  | nil => simp
  | cons q pairs ih =>
    simp only [List.map_cons, List.sum_cons] at ih ⊢
    rw [ih, List.length_cons, reduced, costOf, Nat.add_sub_cancel, Nat.add_sub_cancel]
    push_cast
    ring

theorem Balanced.weight_le (h : Balanced (costOf weights) n n 0 s) {pairs tight : List (Nat × Nat)}
    (hpairs : Exhausts n pairs) (htight : Exhausts n tight)
    (hzero : ∀ q ∈ tight, s.reduced (costOf weights) (q.1 + 1) (q.2 + 1) = 0) :
    pairsWeight weights pairs ≤ pairsWeight weights tight := by
  have hmem : ∀ q ∈ pairs, q.1 < n ∧ q.2 < n := fun q hq =>
    ⟨List.mem_range.mp (hpairs.rows.subset (List.mem_map.mpr ⟨q, hq, rfl⟩)),
      List.mem_range.mp (hpairs.columns.subset (List.mem_map.mpr ⟨q, hq, rfl⟩))⟩
  have hpos : 0 ≤ (pairs.map fun q => s.reduced (costOf weights) (q.1 + 1) (q.2 + 1)).sum := by
    refine List.sum_nonneg fun x hx => ?_
    obtain ⟨q, hq, rfl⟩ := List.mem_map.mp hx
    obtain ⟨hrow, hcolumn⟩ := hmem q hq
    exact h.feasible _ hrow (Nat.succ_ne_zero _) _ hcolumn (Nat.succ_ne_zero _)
  have hnone : (tight.map fun q => s.reduced (costOf weights) (q.1 + 1) (q.2 + 1)).sum = 0 := by
    refine List.sum_eq_zero fun x hx => ?_
    obtain ⟨q, hq, rfl⟩ := List.mem_map.mp hx
    exact hzero q hq
  rw [sum_reduced hpairs] at hpos
  rw [sum_reduced htight] at hnone
  omega

theorem Balanced.exists_column (h : Balanced (costOf weights) n n 0 s) {i : Nat} (hi : i < n) :
    ∃ j < n, (s.column (j + 1)).row = i + 1 ∧
      (List.range' 1 n).find? (fun j => (s.column j).row == i + 1) = some (j + 1) := by
  obtain ⟨k, hk, hk0, hrow⟩ := h.surjective (i + 1) hi (Nat.succ_ne_zero _)
  have hmem : k ∈ List.range' 1 n := List.mem_range'_1.mpr (by omega)
  have hsome : ((List.range' 1 n).find? fun j => (s.column j).row == i + 1).isSome :=
    List.find?_isSome.mpr ⟨k, hmem, beq_iff_eq.mpr hrow⟩
  obtain ⟨k', hfind⟩ := Option.isSome_iff_exists.mp hsome
  have hbounds := List.mem_range'_1.mp (List.mem_of_find?_eq_some hfind)
  obtain ⟨j, rfl⟩ : ∃ j, k' = j + 1 := ⟨k' - 1, by omega⟩
  have hholds := List.find?_some hfind
  exact ⟨j, by omega, beq_iff_eq.mp hholds, hfind⟩

end State

/-! ## The assignment found -/

/-- The state after all rows are placed. -/
def settled (weights : List (List Int)) (n : Nat) : State :=
  (List.range' 1 n).foldl (State.place (costOf weights) n) (State.initial n)

theorem settled_balanced (h : IsSquare weights n) :
    State.Completes weights (List.range' 1 n) (.initial n) (settled weights n) ∧
      State.Balanced (costOf weights) n n 0 (settled weights n) :=
  State.Balanced.placeAll h n (State.balanced_initial n) (Nat.zero_add n)

theorem length_best (weights : List (List Int)) (n : Nat) : (best weights n).length = n := by
  simp [best]

theorem getElem?_best (h : IsSquare weights n) {i : Nat} (hi : i < n) :
    ∃ j < n, ((settled weights n).column (j + 1)).row = i + 1 ∧ (best weights n)[i]? = some j := by
  obtain ⟨j, hj, hrow, hfind⟩ := (settled_balanced h).2.exists_column hi
  refine ⟨j, hj, hrow, ?_⟩
  have hbest : (best weights n)[i]? = ((List.range' 1 n)[i]?).map fun i =>
      ((List.range' 1 n).find? fun j => ((settled weights n).column j).row == i).elim 0 (· - 1) :=
    List.getElem?_map
  rw [hbest, List.getElem?_range' hi, Option.map_some, Nat.one_mul, Nat.add_comm 1 i, hfind]
  rfl

theorem mem_zipIdx_best (h : IsSquare weights n) {i j : Nat} (hmem : (j, i) ∈ (best weights n).zipIdx) :
    i < n ∧ j < n ∧ ((settled weights n).column (j + 1)).row = i + 1 := by
  rw [List.mk_mem_zipIdx_iff_getElem?] at hmem
  have hi : i < n := by
    rw [← length_best weights n]
    exact (List.getElem?_eq_some_iff.mp hmem).1
  obtain ⟨j', hj', hrow, hget⟩ := getElem?_best h hi
  obtain rfl : j = j' := Option.some.inj (hmem.symm.trans hget)
  exact ⟨hi, hj', hrow⟩

theorem best_perm (h : IsSquare weights n) : (best weights n).Perm (List.range n) := by
  have hsub : best weights n ⊆ List.range n := by
    intro j hj
    obtain ⟨i, hi, hget⟩ := List.getElem_of_mem hj
    exact List.mem_range.mpr (mem_zipIdx_best h (List.mk_mem_zipIdx_iff_getElem?.mpr
      (List.getElem?_eq_some_iff.mpr ⟨hi, hget⟩))).2.1
  -- a column that were listed twice would hold two rows
  have hnodup : (best weights n).Nodup := by
    refine List.nodup_iff_getElem?_ne_getElem?.mpr fun i k hik hk heq => ?_
    rw [length_best] at hk
    obtain ⟨j, -, hrow, hget⟩ := getElem?_best h (Nat.lt_trans hik hk)
    obtain ⟨j', -, hrow', hget'⟩ := getElem?_best h hk
    rw [hget, hget', Option.some.injEq] at heq
    subst heq
    omega
  refine (hnodup.subperm hsub).perm_of_length_le ?_
  rw [List.length_range, length_best]

theorem pairsWeight_le_best (h : IsSquare weights n) {pairs : List (Nat × Nat)}
    (hpairs : Exhausts n pairs) :
    pairsWeight weights pairs ≤ totalWeight weights (best weights n) := by
  rw [totalWeight_eq]
  have hbalanced := (settled_balanced h).2
  refine hbalanced.weight_le hpairs (exhausts_of_perm (best_perm h)) fun q hq => ?_
  obtain ⟨⟨j, i⟩, hmem, rfl⟩ := List.mem_map.mp hq
  obtain ⟨-, hj, hrow⟩ := mem_zipIdx_best h hmem
  have htight := hbalanced.tight (j + 1) hj (Nat.succ_ne_zero _) (Nat.succ_ne_zero _)
  rw [hrow] at htight
  exact htight (Nat.succ_ne_zero _)

/-! ## Partial pairings -/

theorem perm_append_missing {l : List Nat} (h : l.Nodup) (hlt : ∀ x ∈ l, x < n) :
    (l ++ (List.range n).filter (· ∉ l)).Perm (List.range n) := by
  have hnodup : (l ++ (List.range n).filter (· ∉ l)).Nodup := by
    refine List.nodup_append'.mpr ⟨h, List.nodup_range.filter _, fun x hx hx' => ?_⟩
    simp [hx] at hx'
  refine (List.perm_ext_iff_of_nodup hnodup List.nodup_range).mpr fun x => ?_
  simp only [List.mem_append, List.mem_filter, List.mem_range, decide_eq_true_eq]
  exact ⟨fun hx => hx.elim (hlt x) And.left, fun hx => (em (x ∈ l)).imp id fun hnot => ⟨hx, hnot⟩⟩

theorem exists_exhausts {pairs : List (Nat × Nat)} (h : OneToOne pairs)
    (hlt : ∀ q ∈ pairs, q.1 < n ∧ q.2 < n) : ∃ rest, Exhausts n (pairs ++ rest) := by
  have hrows := perm_append_missing (n := n) h.nodup_fst fun x hx => by
    obtain ⟨q, hq, rfl⟩ := List.mem_map.mp hx
    exact (hlt q hq).1
  have hcolumns := perm_append_missing (n := n) h.nodup_snd fun x hx => by
    obtain ⟨q, hq, rfl⟩ := List.mem_map.mp hx
    exact (hlt q hq).2
  have hlength := hrows.length_eq.trans hcolumns.length_eq.symm
  simp only [List.length_append, List.length_map, Nat.add_left_cancel_iff] at hlength
  refine ⟨((List.range n).filter (· ∉ pairs.map (·.1))).zip
    ((List.range n).filter (· ∉ pairs.map (·.2))), ?_, ?_⟩
  · rw [List.map_append, List.map_fst_zip (Nat.le_of_eq hlength)]
    exact hrows
  · rw [List.map_append, List.map_snd_zip (Nat.le_of_eq hlength.symm)]
    exact hcolumns

/-- An assignment of all rows to different columns that no other one outweighs. -/
structure IsHeaviest (weights : List (List Int)) (n : Nat) (columns : List Nat) : Prop where
  perm : columns.Perm (List.range n)
  greatest : ∀ other : List Nat, other.Perm (List.range n) →
    totalWeight weights other ≤ totalWeight weights columns

theorem best_isHeaviest (h : IsSquare weights n) : IsHeaviest weights n (best weights n) where
  perm := best_perm h
  greatest other hother := by
    rw [totalWeight_eq other]
    exact pairsWeight_le_best h (exhausts_of_perm hother)

end Assignment

namespace Pairing

variable {p : Pairing} {left right : List Nat}

/-- How many leaves the paired nodes have in common, all pairs taken together. -/
def totalSimilarity (p : Pairing) (pairs : List (Nat × Nat)) : Nat :=
  (pairs.map fun q => p.similarity q.1 q.2).sum

/-- A one-to-one pairing of some members of two lists. -/
structure Couples (left right : List Nat) (pairs : List (Nat × Nat)) : Prop where
  oneToOne : OneToOne pairs
  mem : ∀ q ∈ pairs, q.1 ∈ left ∧ q.2 ∈ right

/-- Pairs of similar members of two lists that no other pairs surpass in similarity. -/
structure MostSimilar (p : Pairing) (left right : List Nat) (pairs : List (Nat × Nat)) : Prop extends
    Couples left right pairs where
  similar : ∀ q ∈ pairs, 0 < p.similarity q.1 q.2
  greatest : ∀ other, Couples left right other → p.totalSimilarity other ≤ p.totalSimilarity pairs

/-! ## The matrix of similarities -/

theorem isSquare_weightMatrix (p : Pairing) (left right : List Nat) :
    Assignment.IsSquare (p.weightMatrix left right) (max left.length right.length) := by
  refine ⟨by simp [weightMatrix], fun line hline => ?_⟩
  obtain ⟨i, -, rfl⟩ := List.mem_map.mp hline
  simp

theorem weightAt_weightMatrix_of_absent {i j : Nat} (h : left[i]? = none ∨ right[j]? = none) :
    Assignment.weightAt (p.weightMatrix left right) i j = 0 := by
  rw [Assignment.weightAt, weightMatrix, List.getD_eq_getElem?_getD, List.getD_eq_getElem?_getD,
    List.getElem?_map]
  cases hi : (List.range (max left.length right.length))[i]? with
  | none => rfl
  | some i' =>
    obtain rfl : i = i' := by simpa using (List.getElem?_eq_some_iff.mp hi).2
    rw [Option.map_some, Option.getD_some, List.getElem?_map]
    cases hj : (List.range (max left.length right.length))[j]? with
    | none => rfl
    | some j' =>
      obtain rfl : j = j' := by simpa using (List.getElem?_eq_some_iff.mp hj).2
      rw [Option.map_some, Option.getD_some]
      rcases h with h | h
      · rw [h]
      · rw [h]
        cases left[i]? <;> rfl

/-- The pair that an entry of the matrix stands for, if the nodes are similar. -/
def coupled (p : Pairing) (left right : List Nat) (q : Nat × Nat) : Option (Nat × Nat) := do
  let l ← left[q.2]?
  let r ← right[q.1]?
  if 0 < Assignment.weightAt (p.weightMatrix left right) q.2 q.1 then some (l, r) else none

theorem unorderedMatch_eq (p : Pairing) (left right : List Nat) :
    p.unorderedMatch left right = (Assignment.best (p.weightMatrix left right)
      (max left.length right.length)).zipIdx.filterMap (p.coupled left right) :=
  rfl

theorem coupled_eq_some {q a : Nat × Nat} (h : p.coupled left right q = some a) :
    left[q.2]? = some a.1 ∧ right[q.1]? = some a.2 ∧ 0 < p.similarity a.1 a.2 ∧
      Assignment.weightAt (p.weightMatrix left right) q.2 q.1 = p.similarity a.1 a.2 := by
  obtain ⟨l, hl, hrest⟩ := Option.bind_eq_some_iff.mp h
  obtain ⟨r, hr, hpair⟩ := Option.bind_eq_some_iff.mp hrest
  split at hpair
  · next hpos =>
    obtain rfl := Option.some.inj hpair
    have hweight := weightAt_weightMatrix (p := p) hl hr
    rw [hweight] at hpos
    exact ⟨hl, hr, Int.natCast_pos.mp hpos, hweight⟩
  · simp at hpair

theorem weightAt_of_coupled_eq_none {q : Nat × Nat} (h : p.coupled left right q = none) :
    Assignment.weightAt (p.weightMatrix left right) q.2 q.1 = 0 := by
  cases hl : left[q.2]? with
  | none => exact weightAt_weightMatrix_of_absent (Or.inl hl)
  | some l =>
    cases hr : right[q.1]? with
    | none => exact weightAt_weightMatrix_of_absent (Or.inr hr)
    | some r =>
      have hweight := weightAt_weightMatrix (p := p) hl hr
      rw [coupled, hl, hr] at h
      by_contra hne
      have hpos : 0 < Assignment.weightAt (p.weightMatrix left right) q.2 q.1 := by omega
      simp [hpos] at h

theorem weightAt_weightMatrix_nonneg (p : Pairing) (left right : List Nat) (i j : Nat) :
    0 ≤ Assignment.weightAt (p.weightMatrix left right) i j := by
  cases h : p.coupled left right (j, i) with
  | none => exact Int.le_of_eq (weightAt_of_coupled_eq_none h).symm
  | some a =>
    rw [(coupled_eq_some h).2.2.2]
    exact Int.natCast_nonneg _

theorem totalSimilarity_unorderedMatch (p : Pairing) (left right : List Nat) :
    (p.totalSimilarity (p.unorderedMatch left right) : Int) =
      Assignment.totalWeight (p.weightMatrix left right)
        (Assignment.best (p.weightMatrix left right) (max left.length right.length)) := by
  rw [unorderedMatch_eq, Assignment.totalWeight, totalSimilarity]
  generalize (Assignment.best _ _).zipIdx = entries
  induction entries with
  | nil => rfl
  | cons q entries ih =>
    rw [List.map_cons, List.sum_cons, ← ih]
    cases h : p.coupled left right q with
    | none => simp [h, weightAt_of_coupled_eq_none h]
    | some a => simp [h, (coupled_eq_some h).2.2.2]

/-! ## The pairs found -/

theorem unorderedMatch_couples (hleft : left.Nodup) (hright : right.Nodup) :
    Couples left right (p.unorderedMatch left right) where
  oneToOne := by
    have hperm := Assignment.best_perm (isSquare_weightMatrix p left right)
    have hzip : OneToOne (Assignment.best (p.weightMatrix left right)
        (max left.length right.length)).zipIdx := by
      rw [List.zipIdx_eq_zip_range']
      exact OneToOne.zip (hperm.nodup_iff.mpr List.nodup_range) List.nodup_range'
    rw [unorderedMatch_eq]
    refine List.pairwise_filterMap.mpr (hzip.imp fun {q q'} hne a ha a' ha' => ?_)
    obtain ⟨hl, hr, -⟩ := coupled_eq_some ha
    obtain ⟨hl', hr', -⟩ := coupled_eq_some ha'
    refine ⟨fun heq => hne.2 ?_, fun heq => hne.1 ?_⟩
    · exact (List.getElem?_inj (List.getElem?_eq_some_iff.mp hl).1 hleft).mp (by rw [hl, hl', heq])
    · exact (List.getElem?_inj (List.getElem?_eq_some_iff.mp hr).1 hright).mp (by rw [hr, hr', heq])
  mem q hq := by
    obtain ⟨hl, hr, -⟩ := unorderedMatch_proposes left right q hq
    exact ⟨hl, hr⟩

/-- The entries of the matrix that pairs of members stand for. -/
def positions (left right : List Nat) (pairs : List (Nat × Nat)) : List (Nat × Nat) :=
  pairs.map fun q => (left.idxOf q.1, right.idxOf q.2)

theorem Couples.positions {pairs : List (Nat × Nat)} (h : Couples left right pairs) :
    OneToOne (positions left right pairs) ∧
      ∀ q ∈ positions left right pairs, q.1 < left.length ∧ q.2 < right.length := by
  refine ⟨List.pairwise_map.mpr (h.oneToOne.imp_of_mem fun {a b} ha _ hab => ?_), fun q hq => ?_⟩
  · obtain ⟨hl, hr⟩ := h.mem a ha
    exact ⟨fun heq => hab.1 ((List.idxOf_inj hl).mp heq), fun heq => hab.2 ((List.idxOf_inj hr).mp heq)⟩
  · obtain ⟨a, ha, rfl⟩ := List.mem_map.mp hq
    obtain ⟨hl, hr⟩ := h.mem a ha
    exact ⟨List.idxOf_lt_length_iff.mpr hl, List.idxOf_lt_length_iff.mpr hr⟩

theorem Couples.totalSimilarity_eq {pairs : List (Nat × Nat)} (h : Couples left right pairs) :
    (p.totalSimilarity pairs : Int) = Assignment.pairsWeight (p.weightMatrix left right)
      (Pairing.positions left right pairs) := by
  rw [totalSimilarity, Assignment.pairsWeight, Pairing.positions, List.map_map, Nat.cast_list_sum,
    List.map_map]
  refine congrArg List.sum (List.map_congr_left fun q hq => ?_)
  obtain ⟨hl, hr⟩ := h.mem q hq
  exact (weightAt_weightMatrix (List.getElem?_idxOf hl) (List.getElem?_idxOf hr)).symm

theorem Couples.totalSimilarity_le {pairs : List (Nat × Nat)} (h : Couples left right pairs) :
    p.totalSimilarity pairs ≤ p.totalSimilarity (p.unorderedMatch left right) := by
  obtain ⟨hone, hlt⟩ := h.positions
  obtain ⟨rest, hrest⟩ := Assignment.exists_exhausts (n := max left.length right.length) hone
    fun q hq => by
      have := hlt q hq
      omega
  have hbest := Assignment.pairsWeight_le_best (isSquare_weightMatrix p left right) hrest
  have hnonneg : 0 ≤ Assignment.pairsWeight (p.weightMatrix left right) rest :=
    List.sum_nonneg fun x hx => by
      obtain ⟨q, -, rfl⟩ := List.mem_map.mp hx
      exact weightAt_weightMatrix_nonneg p left right q.1 q.2
  rw [Assignment.pairsWeight, List.map_append, List.sum_append, ← Assignment.pairsWeight,
    ← Assignment.pairsWeight, ← h.totalSimilarity_eq, ← totalSimilarity_unorderedMatch] at hbest
  omega

theorem unorderedMatch_mostSimilar (hleft : left.Nodup) (hright : right.Nodup) :
    p.MostSimilar left right (p.unorderedMatch left right) where
  toCouples := unorderedMatch_couples hleft hright
  similar q hq := by
    rw [unorderedMatch_eq] at hq
    obtain ⟨_, -, hcoupled⟩ := List.mem_filterMap.mp hq
    exact (coupled_eq_some hcoupled).2.2.1
  greatest _ hother := hother.totalSimilarity_le

end Pairing

namespace Assignment

/-- **Assignments weigh the most they can.** For a square matrix, the search for each row comes to a free
column and reads nothing that is not there; in the end every column holds a row, and no other way to give
each row a column of its own weighs more. So the unordered children of two nodes are paired off with
the greatest similarity that pairs of them can have together. -/
theorem assigns_most_weight :
    (∀ (weights : List (List Int)) (n : Nat), IsSquare weights n →
      (∃ s, State.Completes weights (List.range' 1 n) (.initial n) s ∧
        ∀ j, 1 ≤ j → j ≤ n → ∃ i < n, (s.column j).row = i + 1 ∧ (best weights n)[i]? = some (j - 1)) ∧
      IsHeaviest weights n (best weights n)) ∧
    (∀ (p : Pairing) (left right : List Nat), left.Nodup → right.Nodup →
      p.MostSimilar left right (p.unorderedMatch left right)) ∧
    ∀ (src dst : Tree) (s d : Nat), (Pairing.ofTrees src dst).MostSimilar
      ((Outline.ofTree src).children s) ((Outline.ofTree dst).children d)
      ((Pairing.ofTrees src dst).unorderedMatch ((Outline.ofTree src).children s)
        ((Outline.ofTree dst).children d)) := by
  refine ⟨fun weights n h => ⟨⟨_, (settled_balanced h).1, fun j hj hjn => ?_⟩, best_isHeaviest h⟩,
    fun p left right => Pairing.unorderedMatch_mostSimilar, fun src dst s d =>
      Pairing.unorderedMatch_mostSimilar ((Outline.forest_ofTree src).nodup s)
        ((Outline.forest_ofTree dst).nodup d)⟩
  have hmem : j - 1 ∈ best weights n := (best_perm h).mem_iff.mpr (List.mem_range.mpr (by omega))
  obtain ⟨i, hi, hget⟩ := List.getElem_of_mem hmem
  have hget' := List.getElem?_eq_some_iff.mpr ⟨hi, hget⟩
  obtain ⟨hin, -, hrow⟩ := mem_zipIdx_best h (List.mk_mem_zipIdx_iff_getElem?.mpr hget')
  rw [Nat.sub_add_cancel hj] at hrow
  exact ⟨i, hin, hrow, hget'⟩

/-- Both rows weigh most in the first column, and only one of them can have it; of three words, two are
found again in another place. -/
theorem assigns_most_weight_contested :
    let p := Pairing.ofTrees (Tree.ofWords "old" ["a", "b", "c"]) (Tree.ofWords "new" ["c", "x", "a"])
    IsSquare [[3, 2], [3, 0]] 2 ∧ IsHeaviest [[3, 2], [3, 0]] 2 [1, 0] ∧
      p.MostSimilar [2, 3, 4] [2, 3, 4] [(2, 4), (4, 2)] := by
  intro p
  have hsquare : IsSquare [[3, 2], [3, 0]] 2 := by simp [IsSquare]
  have hbest : best [[3, 2], [3, 0]] 2 = [1, 0] := by decide +kernel
  have hmatch : p.unorderedMatch [2, 3, 4] [2, 3, 4] = [(2, 4), (4, 2)] := by decide +kernel
  exact ⟨hsquare, hbest ▸ (assigns_most_weight.1 _ _ hsquare).2,
    hmatch ▸ assigns_most_weight.2.1 p _ _ (by decide) (by decide)⟩

end Assignment

end TreePatch
