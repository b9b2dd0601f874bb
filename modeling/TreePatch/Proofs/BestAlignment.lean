import Mathlib.Algebra.GroupWithZero.Nat
import Mathlib.Data.Option.NAry
import Mathlib.Order.Bounds.Basic
import TreePatch.Matching.Siblings
import TreePatch.Proofs.Alignment

/-!
# Alignments of greatest score

A score table holds, for every two initial segments, what a recursion over the segments gives that looks at
their last items (`entry_table`). Two things follow from the recursion alone. No way to pair items in order
scores more: such a pairing leaves out one of the two last items, or pairs them with each other. And the
positions that are read off the table score just as much, step by step. So common subsequences are the
longest ones, and weighted alignments the heaviest.
-/

namespace TreePatch

namespace Alignment

variable {α β : Type}

/-! ## What score tables hold -/

/-- The score of two lists: made from their first items and the scores without both, without the first and
without the second of them. -/
def score (cell : Cell α β) : List α → List β → Nat
  | [], _ => 0
  | _ :: _, [] => 0
  | x :: xs, y :: ys =>
    cell x y (score cell xs ys) (score cell xs (y :: ys)) (score cell (x :: xs) ys)
termination_by xs ys => xs.length + ys.length

section

variable (cell : Cell α β)

theorem score_nil_right (xs : List α) : score cell xs ([] : List β) = 0 := by
  cases xs <;> rw [score]

/-- The scores of `xs` against `front` and against what `front` becomes as `ys` is put before it item by
item. -/
def scoresAlong (xs : List α) (front : List β) : List β → List Nat
  | [] => [score cell xs front]
  | y :: ys => score cell xs front :: scoresAlong xs (y :: front) ys

theorem scoresAlong_eq_cons (xs : List α) (front ys : List β) :
    scoresAlong cell xs front ys = score cell xs front :: (scoresAlong cell xs front ys).tail := by
  cases ys <;> rfl

theorem scoresAlong_nil (front ys : List β) :
    scoresAlong cell ([] : List α) front ys = List.replicate (ys.length + 1) 0 := by
  induction ys generalizing front with
  | nil => rw [scoresAlong, score]; rfl
  | cons y ys ih => rw [scoresAlong, score, ih]; rfl

theorem rowFrom_scoresAlong (x : α) (xs : List α) (front ys : List β) :
    rowFrom cell x (score cell (x :: xs) front) ys (scoresAlong cell xs front ys) =
      (scoresAlong cell (x :: xs) front ys).tail := by
  induction ys generalizing front with
  | nil => rfl
  | cons y ys ih =>
    have hentry : score cell (x :: xs) (y :: front) = cell x y (score cell xs front)
        (score cell xs (y :: front)) (score cell (x :: xs) front) := by
      rw [score]
    rw [scoresAlong, scoresAlong_eq_cons, rowFrom, ← scoresAlong_eq_cons, ← hentry, ih, scoresAlong,
      List.tail_cons, ← scoresAlong_eq_cons]

theorem getD_scoresAlong (xs : List α) (front ys : List β) {j : Nat} (hj : j ≤ ys.length) :
    (scoresAlong cell xs front ys).getD j 0 = score cell xs ((ys.take j).reverse ++ front) := by
  induction ys generalizing front j with
  | nil =>
    obtain rfl : j = 0 := Nat.le_zero.mp hj
    rfl
  | cons y ys ih =>
    cases j with
    | zero => rfl
    | succ j =>
      rw [scoresAlong, List.getD_cons_succ, ih (y :: front) (Nat.le_of_succ_le_succ hj), List.take_succ_cons,
        List.reverse_cons, List.append_assoc, List.singleton_append]

theorem getD_rowsFrom (ys : List β) (before xs : List α) {i : Nat} (hi : i ≤ xs.length) :
    (rowsFrom cell ys (scoresAlong cell before [] ys) xs).getD i [] =
      scoresAlong cell ((xs.take i).reverse ++ before) [] ys := by
  induction xs generalizing before i with
  | nil =>
    obtain rfl : i = 0 := Nat.le_zero.mp hi
    rfl
  | cons x xs ih =>
    cases i with
    | zero => rfl
    | succ i =>
      have hrow : 0 :: rowFrom cell x 0 ys (scoresAlong cell before [] ys) =
          scoresAlong cell (x :: before) [] ys := by
        have hstart := rowFrom_scoresAlong cell x before [] ys
        rw [score_nil_right] at hstart
        rw [hstart, scoresAlong_eq_cons, score_nil_right, List.tail_cons]
      rw [rowsFrom, List.getD_cons_succ, hrow, ih (x :: before) (Nat.le_of_succ_le_succ hi),
        List.take_succ_cons, List.reverse_cons, List.append_assoc, List.singleton_append]

theorem entry_table {xs : List α} {ys : List β} {i j : Nat} (hi : i ≤ xs.length) (hj : j ≤ ys.length) :
    entry (table cell xs ys) i j = score cell (xs.take i).reverse (ys.take j).reverse := by
  rw [entry, table, ← scoresAlong_nil cell ([] : List β), getD_rowsFrom cell ys [] xs hi, List.append_nil,
    getD_scoresAlong cell _ [] ys hj, List.append_nil]

/-- `best` tells, by their lengths, the scores of what can be left at the ends of two lists. -/
def Scores (best : Nat → Nat → Nat) (xs₀ : List α) (ys₀ : List β) : Prop :=
  ∀ xs ys, xs <:+ xs₀ → ys <:+ ys₀ → best xs.length ys.length = score cell xs ys

theorem entry_table_scores (xs : List α) (ys : List β) :
    Scores cell (entry (table cell xs ys)) xs.reverse ys.reverse := by
  have htake : ∀ {γ : Type} {l l' : List γ}, l' <:+ l.reverse → l'.length ≤ l.length ∧
      (l.take l'.length).reverse = l' := by
    rintro γ l l' ⟨front, hfront⟩
    obtain rfl : l = l'.reverse ++ front.reverse := by
      rw [← List.reverse_append, hfront, List.reverse_reverse]
    simp
  intro xs' ys' hxs hys
  rw [entry_table cell (htake hxs).1 (htake hys).1, (htake hxs).2, (htake hys).2]

end

/-! ## Pairs in order -/

/-- Pairs of positions below `n` and `m` that go forward on both sides. -/
structure Noncrossing (n m : Nat) (pairs : List (Nat × Nat)) : Prop where
  inside : ∀ q ∈ pairs, q.1 < n ∧ q.2 < m
  increasing : pairs.Pairwise fun a b => a.1 < b.1 ∧ a.2 < b.2

/-- The items at pairs of positions. -/
def itemsAt (xs : List α) (ys : List β) (pairs : List (Nat × Nat)) : List (α × β) :=
  pairs.filterMap fun q => Option.map₂ Prod.mk xs[q.1]? ys[q.2]?

namespace Noncrossing

variable {xs : List α} {ys : List β} {pairs : List (Nat × Nat)}

theorem itemsAt_sublist (h : Noncrossing xs.length ys.length pairs) :
    ((itemsAt xs ys pairs).map (·.1)).Sublist xs ∧ ((itemsAt xs ys pairs).map (·.2)).Sublist ys := by
  have hboth : ∀ q ∈ pairs,
      (Option.map₂ Prod.mk xs[q.1]? ys[q.2]?).map (·.1) = xs[q.1]? ∧
        (Option.map₂ Prod.mk xs[q.1]? ys[q.2]?).map (·.2) = ys[q.2]? := fun q hq => by
    rw [List.getElem?_eq_getElem (h.inside q hq).1, List.getElem?_eq_getElem (h.inside q hq).2]
    exact ⟨rfl, rfl⟩
  have hfst : (itemsAt xs ys pairs).map (·.1) = (pairs.map (·.1)).filterMap (xs[·]?) := by
    rw [itemsAt, List.map_filterMap, List.filterMap_map]
    exact List.filterMap_congr fun q hq => (hboth q hq).1
  have hsnd : (itemsAt xs ys pairs).map (·.2) = (pairs.map (·.2)).filterMap (ys[·]?) := by
    rw [itemsAt, List.map_filterMap, List.filterMap_map]
    exact List.filterMap_congr fun q hq => (hboth q hq).2
  rw [hfst, hsnd]
  exact ⟨filterMap_getElem?_sublist xs (List.pairwise_map.mpr (h.increasing.imp And.left)),
    filterMap_getElem?_sublist ys (List.pairwise_map.mpr (h.increasing.imp And.right))⟩

end Noncrossing

/-! ## Longest common subsequences -/

theorem length_le_score {rel : α → β → Bool} {xs : List α} {ys : List β} {items : List (α × β)}
    (hxs : (items.map (·.1)).Sublist xs) (hys : (items.map (·.2)).Sublist ys)
    (hrel : ∀ q ∈ items, rel q.1 q.2 = true) : items.length ≤ score (commonCell rel) xs ys := by
  induction xs, ys using score.induct generalizing items with
  | case1 ys =>
    rw [List.sublist_nil, List.map_eq_nil_iff] at hxs
    simp [hxs]
  | case2 x xs =>
    rw [List.sublist_nil, List.map_eq_nil_iff] at hys
    simp [hys]
  | case3 x xs y ys both left right =>
    rw [score, commonCell]
    cases items with
    | nil => exact Nat.zero_le _
    | cons q items =>
      split
      · exact Nat.succ_le_succ (both hxs.tail hys.tail fun a ha => hrel a (List.mem_cons_of_mem _ ha))
      · next hxy =>
        cases hxs with
        | cons _ hxs => exact Nat.le_trans (left hxs hys hrel) (Nat.le_max_left _ _)
        | cons_cons _ hxs' =>
          cases hys with
          | cons _ hys => exact Nat.le_trans (right (hxs'.cons_cons _) hys hrel) (Nat.le_max_right _ _)
          | cons_cons _ _ => exact absurd (hrel q List.mem_cons_self) hxy

section

variable {rel : α → β → Bool} {best : Nat → Nat → Nat} {xs₀ : List α} {ys₀ : List β}

theorem length_commonRow (hbest : Scores (commonCell rel) best xs₀ ys₀) {x : α} {xs : List α}
    (hxs : x :: xs <:+ xs₀) {i : Nat} {rest : Nat → List β → List (Nat × Nat)}
    (hrest : ∀ j ys, ys <:+ ys₀ → (rest j ys).length = score (commonCell rel) xs ys) {ys : List β}
    (hys : ys <:+ ys₀) (j : Nat) :
    (commonRow rel best x i xs.length rest j ys).length = score (commonCell rel) (x :: xs) ys := by
  induction ys generalizing j with
  | nil => exact (score_nil_right _ _).symm
  | cons y ys ih =>
    have hys' := (List.suffix_cons y ys).trans hys
    have hleft := hbest xs (y :: ys) ((List.suffix_cons x xs).trans hxs) hys
    have hright := hbest (x :: xs) ys hxs hys'
    rw [List.length_cons] at hleft hright
    rw [commonRow, score, commonCell, hleft, hright]
    split
    · rw [List.length_cons, hrest (j + 1) ys hys']
    · split
      · next hle => rw [hrest j _ hys, Nat.max_eq_left hle]
      · next hle => rw [ih hys' (j + 1), Nat.max_eq_right (Nat.le_of_not_le hle)]

theorem length_commonFrom (hbest : Scores (commonCell rel) best xs₀ ys₀) {xs : List α} (hxs : xs <:+ xs₀)
    (i j : Nat) {ys : List β} (hys : ys <:+ ys₀) :
    (commonFrom rel best i xs j ys).length = score (commonCell rel) xs ys := by
  induction xs generalizing i j ys with
  | nil =>
    rw [score]
    rfl
  | cons x xs ih =>
    rw [commonFrom]
    exact length_commonRow hbest hxs
      (fun j ys hys => ih ((List.suffix_cons x xs).trans hxs) (i + 1) j hys) hys j

end

/-- A common subsequence, as pairs of positions, that no other one exceeds in length. -/
structure LongestCommon (rel : α → β → Bool) (xs : List α) (ys : List β) (pairs : List (Nat × Nat)) :
    Prop where
  aligned : Aligned rel 0 xs 0 ys pairs
  longest : ∀ other, Aligned rel 0 xs 0 ys other → other.length ≤ pairs.length

theorem Aligned.noncrossing {rel : α → β → Bool} {xs : List α} {ys : List β} {pairs : List (Nat × Nat)}
    (h : Aligned rel 0 xs 0 ys pairs) : Noncrossing xs.length ys.length pairs := by
  refine ⟨fun q hq => ?_, h.increasing⟩
  obtain ⟨-, -, x, y, hx, hy, -⟩ := h.related q hq
  exact ⟨(List.getElem?_eq_some_iff.mp hx).1, (List.getElem?_eq_some_iff.mp hy).1⟩

section

variable {rel : α → β → Bool} {xs : List α} {ys : List β} {pairs : List (Nat × Nat)}

theorem Aligned.length_itemsAt (h : Aligned rel 0 xs 0 ys pairs) :
    (itemsAt xs ys pairs).length = pairs.length := by
  refine List.filterMap_length_eq_length.mpr fun q hq => ?_
  obtain ⟨-, -, x, y, hx, hy, -⟩ := h.related q hq
  simp only [Nat.sub_zero] at hx hy
  rw [hx, hy]
  rfl

theorem Aligned.rel_itemsAt (h : Aligned rel 0 xs 0 ys pairs) :
    ∀ a ∈ itemsAt xs ys pairs, rel a.1 a.2 = true := by
  intro a ha
  obtain ⟨q, hq, hat⟩ := List.mem_filterMap.mp ha
  obtain ⟨-, -, x, y, hx, hy, hxy⟩ := h.related q hq
  simp only [Nat.sub_zero] at hx hy
  rw [hx, hy] at hat
  obtain rfl : (x, y) = a := Option.some.inj hat
  exact hxy

theorem Aligned.length_le (h : Aligned rel 0 xs 0 ys pairs) :
    pairs.length ≤ score (commonCell rel) xs ys := by
  obtain ⟨hxs, hys⟩ := h.noncrossing.itemsAt_sublist
  rw [← h.length_itemsAt]
  exact length_le_score hxs hys h.rel_itemsAt

end

theorem length_commonPairs (rel : α → β → Bool) (xs : List α) (ys : List β) :
    (commonPairs rel xs ys).length = score (commonCell rel) xs ys := by
  have hbest := entry_table_scores (commonCell rel) xs.reverse ys.reverse
  rw [List.reverse_reverse, List.reverse_reverse] at hbest
  rw [commonPairs, length_commonFrom hbest List.suffix_rfl 0 0 List.suffix_rfl]

theorem commonPairs_longest (rel : α → β → Bool) (xs : List α) (ys : List β) :
    LongestCommon rel xs ys (commonPairs rel xs ys) := by
  refine ⟨commonPairs_aligned rel xs ys, fun other hother => ?_⟩
  rw [length_commonPairs]
  exact hother.length_le

theorem length_le_score_of_sublist [BEq α] [ReflBEq α] {xs ys zs : List α} (hxs : zs.Sublist xs)
    (hys : zs.Sublist ys) : zs.length ≤ score (commonCell (· == ·)) xs ys := by
  have hdiagonal : ∀ f : α × α → α, (∀ z, f (z, z) = z) → (zs.map fun z => (z, z)).map f = zs := by
    intro f hf
    rw [List.map_map]
    exact (List.map_congr_left fun z _ => hf z).trans (List.map_id zs)
  rw [← List.length_map (f := fun z => (z, z))]
  refine length_le_score ?_ ?_ fun q hq => ?_
  · rwa [hdiagonal _ fun _ => rfl]
  · rwa [hdiagonal _ fun _ => rfl]
  · obtain ⟨z, -, rfl⟩ := List.mem_map.mp hq
    exact BEq.rfl

/-- The lengths of the lists that are parts of both `xs` and `ys`. -/
def commonLengths (xs ys : List α) : Set Nat :=
  {n | ∃ zs : List α, zs.Sublist xs ∧ zs.Sublist ys ∧ zs.length = n}

theorem commonLengths_comm (xs ys : List α) : commonLengths xs ys = commonLengths ys xs := by
  ext n
  exact exists_congr fun zs => and_left_comm

theorem le_length_of_mem_commonLengths {xs ys : List α} {n : Nat} (h : n ∈ commonLengths xs ys) :
    n ≤ xs.length ∧ n ≤ ys.length := by
  obtain ⟨zs, hxs, hys, rfl⟩ := h
  exact ⟨hxs.length_le, hys.length_le⟩

theorem commonLengths_reverse (xs ys : List α) :
    commonLengths xs.reverse ys.reverse = commonLengths xs ys := by
  have hsub : ∀ xs ys : List α, commonLengths xs ys ⊆ commonLengths xs.reverse ys.reverse := by
    rintro xs ys n ⟨zs, hxs, hys, rfl⟩
    exact ⟨zs.reverse, hxs.reverse, hys.reverse, List.length_reverse⟩
  refine Set.Subset.antisymm ?_ (hsub xs ys)
  have hback := hsub xs.reverse ys.reverse
  rwa [List.reverse_reverse, List.reverse_reverse] at hback

theorem score_isGreatest [BEq α] [LawfulBEq α] (xs ys : List α) :
    IsGreatest (commonLengths xs ys) (score (commonCell (· == ·)) xs ys) := by
  constructor
  · have haligned := commonPairs_aligned (· == ·) xs ys
    obtain ⟨hxs, hys⟩ := haligned.noncrossing.itemsAt_sublist
    have hsame : (itemsAt xs ys (commonPairs (· == ·) xs ys)).map (·.1) =
        (itemsAt xs ys (commonPairs (· == ·) xs ys)).map (·.2) :=
      List.map_congr_left fun a ha => beq_iff_eq.mp (haligned.rel_itemsAt a ha)
    refine ⟨_, hxs, hsame ▸ hys, ?_⟩
    rw [List.length_map, haligned.length_itemsAt, length_commonPairs]
  · rintro n ⟨zs, hxs, hys, rfl⟩
    exact length_le_score_of_sublist hxs hys

theorem commonLength_isGreatest [BEq α] [LawfulBEq α] (xs ys : List α) :
    IsGreatest (commonLengths xs ys) (commonLength xs ys) := by
  rw [commonLength, entry_table _ (Nat.le_refl _) (Nat.le_refl _), List.take_length, List.take_length,
    ← commonLengths_reverse]
  exact score_isGreatest xs.reverse ys.reverse

/-! ## Heaviest alignments -/

/-- What the items at pairs of positions weigh together. -/
def totalWeight (weight : α → β → Nat) (xs : List α) (ys : List β) (pairs : List (Nat × Nat)) : Nat :=
  ((itemsAt xs ys pairs).map fun q => weight q.1 q.2).sum

theorem sum_le_score {weight : α → β → Nat} {xs : List α} {ys : List β} {items : List (α × β)}
    (hxs : (items.map (·.1)).Sublist xs) (hys : (items.map (·.2)).Sublist ys) :
    (items.map fun q => weight q.1 q.2).sum ≤ score (weightedCell weight) xs ys := by
  induction xs, ys using score.induct generalizing items with
  | case1 ys =>
    rw [List.sublist_nil, List.map_eq_nil_iff] at hxs
    simp [hxs]
  | case2 x xs =>
    rw [List.sublist_nil, List.map_eq_nil_iff] at hys
    simp [hys]
  | case3 x xs y ys both left right =>
    rw [score, weightedCell]
    match items with
    | [] => exact Nat.zero_le _
    | (a, b) :: items =>
      rw [List.map_cons] at hxs hys
      cases hxs with
      | cons _ hxs' =>
        have := @left ((a, b) :: items) hxs' hys
        omega
      | cons_cons _ hxs' =>
        cases hys with
        | cons _ hys' =>
          have := @right ((a, b) :: items) (hxs'.cons_cons a) hys'
          omega
        | cons_cons _ hys' =>
          rw [List.map_cons, List.sum_cons, pairedScore]
          split
          · have := both hxs' hys'
            omega
          · -- a pair without weight leaves its items out, the first of them already
            have := left hxs' (hys'.cons _)
            omega

theorem getElem?_of_suffix_reverse {x : α} {xs xs₀ : List α} (h : x :: xs <:+ xs₀.reverse) :
    xs₀[xs.length]? = some x := by
  obtain ⟨front, hfront⟩ := h
  obtain rfl : xs₀ = (x :: xs).reverse ++ front.reverse := by
    rw [← List.reverse_append, hfront, List.reverse_reverse]
  rw [List.getElem?_append_left (by simp)]
  exact getElem?_reverse_cons_length x xs

section

variable {weight : α → β → Nat} {best : Nat → Nat → Nat} {xs₀ : List α} {ys₀ : List β}

theorem totalWeight_weightedRow (hbest : Scores (weightedCell weight) best xs₀.reverse ys₀.reverse) {x : α}
    {xs : List α} (hxs : x :: xs <:+ xs₀.reverse) {rest : List β → List (Nat × Nat)}
    (hrest : ∀ ys, ys <:+ ys₀.reverse →
      totalWeight weight xs₀ ys₀ (rest ys) = score (weightedCell weight) xs ys) {ys : List β}
    (hys : ys <:+ ys₀.reverse) :
    totalWeight weight xs₀ ys₀ (weightedRow weight best x xs.length rest ys) =
      score (weightedCell weight) (x :: xs) ys := by
  induction ys with
  | nil => exact (score_nil_right _ _).symm
  | cons y ys ih =>
    have hxs' := (List.suffix_cons x xs).trans hxs
    have hys' := (List.suffix_cons y ys).trans hys
    have hleft := hbest xs (y :: ys) hxs' hys
    have hright := hbest (x :: xs) ys hxs hys'
    rw [List.length_cons] at hleft hright
    rw [weightedRow, score, weightedCell]
    simp only [hbest xs ys hxs' hys', hleft, hright]
    split
    · next hpaired =>
      have hpos := pos_of_pairedScore_pos hpaired.2.2
      have hitem : itemsAt xs₀ ys₀ ((xs.length, ys.length) :: rest ys) =
          (x, y) :: itemsAt xs₀ ys₀ (rest ys) := by
        rw [itemsAt, List.filterMap_cons, getElem?_of_suffix_reverse hxs, getElem?_of_suffix_reverse hys]
        rfl
      have htotal : totalWeight weight xs₀ ys₀ ((xs.length, ys.length) :: rest ys) =
          weight x y + score (weightedCell weight) xs ys := by
        rw [totalWeight, hitem, List.map_cons, List.sum_cons, ← hrest ys hys', totalWeight]
      rw [pairedScore, if_pos hpos] at hpaired ⊢
      omega
    · next hpaired =>
      split
      · rw [hrest _ hys]
        omega
      · rw [ih hys']
        omega

theorem totalWeight_weightedFrom (hbest : Scores (weightedCell weight) best xs₀.reverse ys₀.reverse)
    {xs : List α} (hxs : xs <:+ xs₀.reverse) {ys : List β} (hys : ys <:+ ys₀.reverse) :
    totalWeight weight xs₀ ys₀ (weightedFrom weight best xs ys) = score (weightedCell weight) xs ys := by
  induction xs generalizing ys with
  | nil =>
    rw [score]
    rfl
  | cons x xs ih =>
    rw [weightedFrom]
    exact totalWeight_weightedRow hbest hxs (fun ys hys => ih ((List.suffix_cons x xs).trans hxs) hys) hys

end

theorem Weighs.lt_length {weight : α → β → Nat} {xs : List α} {ys : List β} {q : Nat × Nat}
    (h : Weighs weight xs ys q) : q.1 < xs.length ∧ q.2 < ys.length := by
  obtain ⟨x, y, hx, hy, -⟩ := h
  have hx := (List.getElem?_eq_some_iff.mp hx).1
  have hy := (List.getElem?_eq_some_iff.mp hy).1
  rw [List.length_reverse] at hx hy
  exact ⟨hx, hy⟩

theorem weightedRow_decreasing (weight : α → β → Nat) (best : Nat → Nat → Nat) (x : α) (xs : List α)
    {rest : List β → List (Nat × Nat)} (hweighs : ∀ ys, ∀ q ∈ rest ys, Weighs weight xs ys q)
    (hrest : ∀ ys, (rest ys).Pairwise fun a b => b.1 < a.1 ∧ b.2 < a.2) (ys : List β) :
    (weightedRow weight best x xs.length rest ys).Pairwise fun a b => b.1 < a.1 ∧ b.2 < a.2 := by
  induction ys with
  | nil => exact List.Pairwise.nil
  | cons y ys ih =>
    rw [weightedRow]
    split
    · exact List.pairwise_cons.mpr ⟨fun q hq => (hweighs ys q hq).lt_length, hrest ys⟩
    · split
      · exact hrest (y :: ys)
      · exact ih

theorem weightedFrom_decreasing (weight : α → β → Nat) (best : Nat → Nat → Nat) (xs : List α)
    (ys : List β) : (weightedFrom weight best xs ys).Pairwise fun a b => b.1 < a.1 ∧ b.2 < a.2 := by
  induction xs generalizing ys with
  | nil => exact List.Pairwise.nil
  | cons x xs ih =>
    rw [weightedFrom]
    exact weightedRow_decreasing weight best x xs (weightedFrom_weighs weight best xs) ih ys

theorem weightedPairs_noncrossing (weight : α → β → Nat) (xs : List α) (ys : List β) :
    Noncrossing xs.length ys.length (weightedPairs weight xs ys) := by
  refine ⟨fun q hq => ?_, ?_⟩
  · obtain ⟨x, y, hx, hy, -⟩ := weightedPairs_weigh weight xs ys q hq
    exact ⟨(List.getElem?_eq_some_iff.mp hx).1, (List.getElem?_eq_some_iff.mp hy).1⟩
  · rw [weightedPairs, List.pairwise_reverse]
    exact weightedFrom_decreasing weight _ _ _

theorem totalWeight_weightedPairs (weight : α → β → Nat) (xs : List α) (ys : List β) :
    totalWeight weight xs ys (weightedPairs weight xs ys) =
      score (weightedCell weight) xs.reverse ys.reverse := by
  have htotal := totalWeight_weightedFrom (entry_table_scores (weightedCell weight) xs ys)
    List.suffix_rfl List.suffix_rfl
  rw [← htotal, weightedPairs, totalWeight, totalWeight, itemsAt, List.filterMap_reverse, List.map_reverse,
    List.sum_reverse]
  rfl

theorem Noncrossing.totalWeight_le {weight : α → β → Nat} {xs : List α} {ys : List β}
    {pairs : List (Nat × Nat)} (h : Noncrossing xs.length ys.length pairs) :
    totalWeight weight xs ys pairs ≤ score (weightedCell weight) xs.reverse ys.reverse := by
  obtain ⟨hxs, hys⟩ := h.itemsAt_sublist
  have hle : ((itemsAt xs ys pairs).reverse.map fun q => weight q.1 q.2).sum ≤
      score (weightedCell weight) xs.reverse ys.reverse :=
    sum_le_score (List.map_reverse ▸ hxs.reverse) (List.map_reverse ▸ hys.reverse)
  rwa [List.map_reverse, List.sum_reverse] at hle

/-- Pairs in order of items with a positive weight that no other pairs in order outweigh. -/
structure Heaviest (weight : α → β → Nat) (xs : List α) (ys : List β) (pairs : List (Nat × Nat)) : Prop
    extends Noncrossing xs.length ys.length pairs where
  positive : ∀ q ∈ pairs, ∃ x y, xs[q.1]? = some x ∧ ys[q.2]? = some y ∧ 0 < weight x y
  greatest : ∀ other, Noncrossing xs.length ys.length other →
    totalWeight weight xs ys other ≤ totalWeight weight xs ys pairs

theorem weightedPairs_heaviest (weight : α → β → Nat) (xs : List α) (ys : List β) :
    Heaviest weight xs ys (weightedPairs weight xs ys) where
  toNoncrossing := weightedPairs_noncrossing weight xs ys
  positive := weightedPairs_weigh weight xs ys
  greatest other hother := by
    rw [totalWeight_weightedPairs]
    exact hother.totalWeight_le

end Alignment

/-- **Siblings are aligned by the greatest similarity.** The positions that are read off the table of
similarities go forward on both sides and hold similar nodes, no other pairs that go forward have more
leaves in common altogether, and the number of these leaves is the last entry of the table. -/
theorem Pairing.aligns_most_similar (p : Pairing) (left right : List Nat) :
    Alignment.Heaviest p.similarity left right (Alignment.weightedPairs p.similarity left right) ∧
      Alignment.totalWeight p.similarity left right (Alignment.weightedPairs p.similarity left right) =
        Alignment.entry (Alignment.table (Alignment.weightedCell p.similarity) left right) left.length
          right.length := by
  refine ⟨Alignment.weightedPairs_heaviest p.similarity left right, ?_⟩
  rw [Alignment.totalWeight_weightedPairs, Alignment.entry_table _ (Nat.le_refl _) (Nat.le_refl _),
    List.take_length, List.take_length]

end TreePatch
