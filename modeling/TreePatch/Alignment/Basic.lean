/-!
# Alignments of two lists

Two ways to pair the items of two lists in order: a longest common subsequence under an arbitrary
relation, and a non-crossing pairing of the greatest total weight, where pairs without weight are not
made. Both are read off a table of scores.
-/

namespace TreePatch.Alignment

variable {α β : Type}

/-!
### Score tables

A table holds a score for every pair of initial segments of two lists and is filled row by row. Each
entry is made from the two items that end the segments and from the entries for the segments without
them.
-/

/-- How an entry is made: from the two last items and the entries without both, without the first
and without the second of them. -/
abbrev Cell (α β : Type) := α → β → (both left right : Nat) → Nat

/-- The entries of a row behind its first one, given the item `x` of the row, the entry `before` to the
left and the row above. -/
def rowFrom (cell : Cell α β) (x : α) (before : Nat) : List β → (above : List Nat) → List Nat
  | y :: ys, both :: left :: above =>
    let entry := cell x y both left before
    entry :: rowFrom cell x entry ys (left :: above)
  | _, _ => []

/-- The rows from `row` on. -/
def rowsFrom (cell : Cell α β) (ys : List β) (row : List Nat) : List α → List (List Nat)
  | [] => [row]
  | x :: xs => row :: rowsFrom cell ys (0 :: rowFrom cell x 0 ys row) xs

/-- The scores of all pairs of initial segments of `xs` and `ys`; empty segments score zero. -/
def table (cell : Cell α β) (xs : List α) (ys : List β) : List (List Nat) :=
  rowsFrom cell ys (List.replicate (ys.length + 1) 0) xs

/-- The score of the initial segments of lengths `i` and `j`. -/
def entry (t : List (List Nat)) (i j : Nat) : Nat :=
  (t.getD i []).getD j 0

/-! ### Longest common subsequences -/

/-- A related pair extends the best score without it; else one of the two items is left out. -/
def commonCell (rel : α → β → Bool) : Cell α β := fun x y both left right =>
  if rel x y then both + 1 else max left right

/-- Length of a longest common subsequence. -/
def commonLength [BEq α] (xs ys : List α) : Nat :=
  entry (table (commonCell (· == ·)) xs ys) xs.length ys.length

/-- Reads positions off along `ys` while `x` is the first item left of the other list and `rest`
continues behind it. Of two equally good ways, the one that leaves out `x` is taken. -/
def commonRow (rel : α → β → Bool) (best : Nat → Nat → Nat) (x : α) (i after : Nat)
    (rest : (j : Nat) → List β → List (Nat × Nat)) : (j : Nat) → List β → List (Nat × Nat)
  | _, [] => []
  | j, y :: ys =>
    if rel x y then
      (i, j) :: rest (j + 1) ys
    else if best (after + 1) ys.length ≤ best after (ys.length + 1) then
      rest j (y :: ys)
    else
      commonRow rel best x i after rest (j + 1) ys

/-- Reads positions off from the front, where `best` scores what is left of both lists. -/
def commonFrom (rel : α → β → Bool) (best : Nat → Nat → Nat) :
    (i : Nat) → List α → (j : Nat) → List β → List (Nat × Nat)
  | _, [] => fun _ _ => []
  | i, x :: xs => commonRow rel best x i xs.length (commonFrom rel best (i + 1) xs)

/-- The pairs of positions of one longest common subsequence under `rel`. -/
def commonPairs (rel : α → β → Bool) (xs : List α) (ys : List β) : List (Nat × Nat) :=
  let t := table (commonCell rel) xs.reverse ys.reverse
  commonFrom rel (entry t) 0 xs 0 ys

/-! ### Pairings of greatest weight -/

/-- What pairing two items adds to the best score without them; nothing is won by a pair without
weight. -/
def pairedScore (weight both : Nat) : Nat :=
  if 0 < weight then both + weight else 0

def weightedCell (weight : α → β → Nat) : Cell α β := fun x y both left right =>
  max (pairedScore (weight x y) both) (max left right)

/-- Reads positions off along the reversed list `ys` while `x` is the last item left of the other list
and `rest` continues before it. A pair is made where that is among the best ways; else, of two
equally good ways, the one that leaves out `x` is taken. -/
def weightedRow (weight : α → β → Nat) (best : Nat → Nat → Nat) (x : α) (before : Nat)
    (rest : List β → List (Nat × Nat)) : List β → List (Nat × Nat)
  | [] => []
  | y :: ys =>
    let paired := pairedScore (weight x y) (best before ys.length)
    let left := best before (ys.length + 1)
    let right := best (before + 1) ys.length
    if left ≤ paired ∧ right ≤ paired ∧ 0 < paired then
      (before, ys.length) :: rest ys
    else if right ≤ left then
      rest (y :: ys)
    else
      weightedRow weight best x before rest ys

/-- Reads positions off from the back of two reversed lists, where `best` scores what is left. -/
def weightedFrom (weight : α → β → Nat) (best : Nat → Nat → Nat) :
    List α → List β → List (Nat × Nat)
  | [] => fun _ => []
  | x :: xs => weightedRow weight best x xs.length (weightedFrom weight best xs)

/-- The pairs of positions of a non-crossing pairing of greatest total weight. -/
def weightedPairs (weight : α → β → Nat) (xs : List α) (ys : List β) : List (Nat × Nat) :=
  let t := table (weightedCell weight) xs ys
  (weightedFrom weight (entry t) xs.reverse ys.reverse).reverse

end TreePatch.Alignment
