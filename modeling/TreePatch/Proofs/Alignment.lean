import Mathlib.Data.List.Nodup
import TreePatch.Alignment.Basic

/-!
# Alignments pair what they may pair

The positions that the two alignments read off their score tables: they lie within the lists, the
items there may be paired, and common subsequences go forward on both sides.
-/

namespace TreePatch.Alignment

variable {α β : Type}

/-! ## Common subsequences -/

theorem filterMap_getElem?_sublist (xs : List α) {is : List Nat} (h : is.Pairwise (· < ·)) :
    (is.filterMap (xs[·]?)).Sublist xs := by
  suffices hdrop : ∀ k, (∀ i ∈ is, k ≤ i) → (is.filterMap (xs[·]?)).Sublist (xs.drop k) from
    hdrop 0 fun _ _ => Nat.zero_le _
  induction is with
  | nil => exact fun _ _ => List.nil_sublist _
  | cons i is ih =>
    intro k hk
    obtain ⟨hi, his⟩ := List.pairwise_cons.mp h
    have hrest := ih his (i + 1) hi
    refine List.Sublist.trans ?_ (List.drop_sublist_drop_left xs (hk i List.mem_cons_self))
    cases hx : xs[i]? with
    | none =>
      rw [List.filterMap_cons_none hx]
      exact hrest.trans (List.drop_sublist_drop_left xs (Nat.le_succ i))
    | some x =>
      obtain ⟨hlt, rfl⟩ := List.getElem?_eq_some_iff.mp hx
      rw [List.filterMap_cons_some hx, List.drop_eq_getElem_cons hlt]
      exact hrest.cons_cons _

/-- Pairs of positions counted from `i` and `j`: they lie within the two lists, the items there are
related, and both positions grow from pair to pair. -/
structure Aligned (rel : α → β → Bool) (i : Nat) (xs : List α) (j : Nat) (ys : List β)
    (pairs : List (Nat × Nat)) : Prop where
  related : ∀ q ∈ pairs, i ≤ q.1 ∧ j ≤ q.2 ∧
    ∃ x y, xs[q.1 - i]? = some x ∧ ys[q.2 - j]? = some y ∧ rel x y = true
  increasing : pairs.Pairwise fun a b => a.1 < b.1 ∧ a.2 < b.2

namespace Aligned

variable {rel : α → β → Bool} {i j : Nat} {xs : List α} {ys : List β} {pairs : List (Nat × Nat)}

theorem nil : Aligned rel i xs j ys [] :=
  ⟨by simp, List.Pairwise.nil⟩

theorem cons_left (x : α) (h : Aligned rel (i + 1) xs j ys pairs) :
    Aligned rel i (x :: xs) j ys pairs := by
  refine ⟨fun q hq => ?_, h.increasing⟩
  obtain ⟨hi, hj, x', y', hx, hy, hrel⟩ := h.related q hq
  refine ⟨by omega, hj, x', y', ?_, hy, hrel⟩
  rw [show q.1 - i = q.1 - (i + 1) + 1 by omega, List.getElem?_cons_succ]
  exact hx

theorem cons_right (y : β) (h : Aligned rel i xs (j + 1) ys pairs) :
    Aligned rel i xs j (y :: ys) pairs := by
  refine ⟨fun q hq => ?_, h.increasing⟩
  obtain ⟨hi, hj, x', y', hx, hy, hrel⟩ := h.related q hq
  refine ⟨hi, by omega, x', y', hx, ?_, hrel⟩
  rw [show q.2 - j = q.2 - (j + 1) + 1 by omega, List.getElem?_cons_succ]
  exact hy

theorem cons_both {x : α} {y : β} (hxy : rel x y = true)
    (h : Aligned rel (i + 1) xs (j + 1) ys pairs) :
    Aligned rel i (x :: xs) j (y :: ys) ((i, j) :: pairs) := by
  refine ⟨fun q hq => ?_, List.Pairwise.cons (fun q hq => ?_) h.increasing⟩
  · rcases List.mem_cons.mp hq with rfl | hq
    · exact ⟨Nat.le_refl _, Nat.le_refl _, x, y, by simp, by simp, hxy⟩
    · exact ((h.cons_left x).cons_right y).related q hq
  · have hq := h.related q hq
    omega

end Aligned

section

variable {rel : α → β → Bool} {i j a b k m : Nat} {xs : List α} {ys : List β} {q : Nat × Nat}

/-- Positions counted from `i` and `j` at which related items stand. -/
def Holds (rel : α → β → Bool) (i : Nat) (xs : List α) (j : Nat) (ys : List β) (q : Nat × Nat) : Prop :=
  i ≤ q.1 ∧ j ≤ q.2 ∧ ∃ x y, xs[q.1 - i]? = some x ∧ ys[q.2 - j]? = some y ∧ rel x y = true

theorem holds_take_iff : Holds rel i (xs.take k) j (ys.take m) q ↔
    Holds rel i xs j ys q ∧ q.1 < i + k ∧ q.2 < j + m := by
  constructor
  · rintro ⟨hi, hj, x, y, hx, hy, hrel⟩
    have hk := (List.getElem?_eq_some_iff.mp hx).1
    have hm := (List.getElem?_eq_some_iff.mp hy).1
    rw [List.length_take] at hk hm
    rw [List.getElem?_take_of_lt (by omega)] at hx hy
    exact ⟨⟨hi, hj, x, y, hx, hy, hrel⟩, by omega, by omega⟩
  · rintro ⟨⟨hi, hj, x, y, hx, hy, hrel⟩, hk, hm⟩
    refine ⟨hi, hj, x, y, ?_, ?_, hrel⟩
    · rwa [List.getElem?_take_of_lt (by omega)]
    · rwa [List.getElem?_take_of_lt (by omega)]

theorem holds_drop_iff (hia : i ≤ a) (hjb : j ≤ b) :
    Holds rel (a + 1) (xs.drop (a - i + 1)) (b + 1) (ys.drop (b - j + 1)) q ↔
      Holds rel i xs j ys q ∧ a < q.1 ∧ b < q.2 := by
  rw [Holds, List.getElem?_drop, List.getElem?_drop]
  constructor
  · rintro ⟨ha, hb, x, y, hx, hy, hrel⟩
    rw [show a - i + 1 + (q.1 - (a + 1)) = q.1 - i by omega] at hx
    rw [show b - j + 1 + (q.2 - (b + 1)) = q.2 - j by omega] at hy
    exact ⟨⟨by omega, by omega, x, y, hx, hy, hrel⟩, ha, hb⟩
  · rintro ⟨⟨-, -, x, y, hx, hy, hrel⟩, ha, hb⟩
    rw [show q.1 - i = a - i + 1 + (q.1 - (a + 1)) by omega] at hx
    rw [show q.2 - j = b - j + 1 + (q.2 - (b + 1)) by omega] at hy
    exact ⟨ha, hb, x, y, hx, hy, hrel⟩

theorem Aligned.behind {pairs : List (Nat × Nat)} (h : Aligned rel i xs j ys ((a, b) :: pairs)) :
    Aligned rel (a + 1) (xs.drop (a - i + 1)) (b + 1) (ys.drop (b - j + 1)) pairs := by
  obtain ⟨hfirst, hincreasing⟩ := List.pairwise_cons.mp h.increasing
  obtain ⟨hi, hj, -⟩ := h.related (a, b) List.mem_cons_self
  exact ⟨fun q hq => (holds_drop_iff hi hj).mpr ⟨h.related q (List.mem_cons_of_mem _ hq), hfirst q hq⟩,
    hincreasing⟩

end

theorem commonRow_aligned (rel : α → β → Bool) (best : Nat → Nat → Nat) (x : α) (xs : List α)
    (i after : Nat) (rest : Nat → List β → List (Nat × Nat))
    (hrest : ∀ j ys, Aligned rel (i + 1) xs j ys (rest j ys)) (j : Nat) (ys : List β) :
    Aligned rel i (x :: xs) j ys (commonRow rel best x i after rest j ys) := by
  induction ys generalizing j with
  | nil => exact .nil
  | cons y ys ih =>
    rw [commonRow]
    split
    · next hxy => exact .cons_both hxy (hrest (j + 1) ys)
    · split
      · exact (hrest j (y :: ys)).cons_left x
      · exact (ih (j + 1)).cons_right y

theorem commonFrom_aligned (rel : α → β → Bool) (best : Nat → Nat → Nat) (i : Nat) (xs : List α)
    (j : Nat) (ys : List β) : Aligned rel i xs j ys (commonFrom rel best i xs j ys) := by
  induction xs generalizing i j ys with
  | nil => exact .nil
  | cons x xs ih =>
    rw [commonFrom]
    exact commonRow_aligned rel best x xs i xs.length _ (fun j ys => ih (i + 1) j ys) j ys

theorem commonPairs_aligned (rel : α → β → Bool) (xs : List α) (ys : List β) :
    Aligned rel 0 xs 0 ys (commonPairs rel xs ys) :=
  commonFrom_aligned rel _ 0 xs 0 ys

theorem commonFrom_of_forall₂ {rel : α → β → Bool} (best : Nat → Nat → Nat) {xs : List α} {ys : List β}
    (h : List.Forall₂ (fun x y => rel x y = true) xs ys) (i j : Nat) :
    commonFrom rel best i xs j ys = (List.range xs.length).map fun k => (i + k, j + k) := by
  induction h generalizing i j with
  | nil => rfl
  | cons hxy _ ih =>
    rw [commonFrom, commonRow, if_pos hxy, ih, List.length_cons, List.range_succ_eq_map, List.map_cons,
      List.map_map]
    congr 1
    refine List.map_congr_left fun k _ => ?_
    rw [Function.comp_apply, Prod.mk.injEq]
    omega

theorem commonPairs_of_forall₂ {rel : α → β → Bool} {xs : List α} {ys : List β}
    (h : List.Forall₂ (fun x y => rel x y = true) xs ys) :
    commonPairs rel xs ys = (List.range xs.length).map fun k => (k, k) := by
  rw [commonPairs]
  exact (commonFrom_of_forall₂ _ h 0 0).trans (by simp only [Nat.zero_add])

/-! ## Weighted alignments -/

theorem pos_of_pairedScore_pos {weight both : Nat} (h : 0 < pairedScore weight both) :
    0 < weight := by
  by_contra hw
  rw [pairedScore, if_neg hw] at h
  omega

theorem getElem?_reverse_cons {x : α} {xs : List α} {l : Nat} {a : α}
    (h : xs.reverse[l]? = some a) : (x :: xs).reverse[l]? = some a := by
  rw [List.reverse_cons, List.getElem?_append_left (List.getElem?_eq_some_iff.mp h).1]
  exact h

theorem getElem?_reverse_cons_length (x : α) (xs : List α) :
    (x :: xs).reverse[xs.length]? = some x := by
  rw [List.reverse_cons, List.getElem?_append_right (by simp)]
  simp

/-- Positions in two lists, given reversed, at which items with a positive weight stand. -/
def Weighs (weight : α → β → Nat) (xs : List α) (ys : List β) (q : Nat × Nat) : Prop :=
  ∃ x y, xs.reverse[q.1]? = some x ∧ ys.reverse[q.2]? = some y ∧ 0 < weight x y

theorem weightedRow_weighs (weight : α → β → Nat) (best : Nat → Nat → Nat) (x : α) (xs : List α)
    (rest : List β → List (Nat × Nat)) (hrest : ∀ ys, ∀ q ∈ rest ys, Weighs weight xs ys q)
    (ys : List β) :
    ∀ q ∈ weightedRow weight best x xs.length rest ys, Weighs weight (x :: xs) ys q := by
  induction ys with
  | nil => simp [weightedRow]
  | cons y ys ih =>
    intro q hq
    rw [weightedRow] at hq
    split at hq
    · next hpaired =>
      rcases List.mem_cons.mp hq with rfl | hq
      · exact ⟨x, y, getElem?_reverse_cons_length x xs, getElem?_reverse_cons_length y ys,
          pos_of_pairedScore_pos hpaired.2.2⟩
      · obtain ⟨x', y', hx, hy, hw⟩ := hrest ys q hq
        exact ⟨x', y', getElem?_reverse_cons hx, getElem?_reverse_cons hy, hw⟩
    · split at hq
      · obtain ⟨x', y', hx, hy, hw⟩ := hrest (y :: ys) q hq
        exact ⟨x', y', getElem?_reverse_cons hx, hy, hw⟩
      · obtain ⟨x', y', hx, hy, hw⟩ := ih q hq
        exact ⟨x', y', hx, getElem?_reverse_cons hy, hw⟩

theorem weightedFrom_weighs (weight : α → β → Nat) (best : Nat → Nat → Nat) (xs : List α)
    (ys : List β) : ∀ q ∈ weightedFrom weight best xs ys, Weighs weight xs ys q := by
  induction xs generalizing ys with
  | nil => simp [weightedFrom]
  | cons x xs ih =>
    rw [weightedFrom]
    exact weightedRow_weighs weight best x xs _ (fun ys => ih ys) ys

theorem weightedPairs_weigh (weight : α → β → Nat) (xs : List α) (ys : List β) :
    ∀ q ∈ weightedPairs weight xs ys,
      ∃ x y, xs[q.1]? = some x ∧ ys[q.2]? = some y ∧ 0 < weight x y := by
  intro q hq
  rw [weightedPairs, List.mem_reverse] at hq
  simpa [Weighs] using weightedFrom_weighs weight _ xs.reverse ys.reverse q hq

end TreePatch.Alignment
