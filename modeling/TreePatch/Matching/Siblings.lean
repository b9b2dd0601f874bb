import TreePatch.Alignment.Assignment
import TreePatch.Alignment.Basic
import TreePatch.Outline

/-!
# Matching siblings

Pairs the children of two nodes that are already paired. Where order matters, subtrees of the same
form are paired first, and the gaps between them are filled by similarity and then by kind. Where it
does not, the pairing of greatest total similarity is taken. Two subtrees of different forms are the
more similar the more leaves they have in common, in order.
-/

namespace TreePatch

/-- Two outlines that are compared. -/
structure Pairing where
  src : Outline
  dst : Outline

namespace Pairing

/-- Nodes can only be paired if they are of one kind and both or neither are terminals. -/
def canMatch (p : Pairing) (l r : Nat) : Bool :=
  p.src.isTerminal l == p.dst.isTerminal r && (p.src.node l).kind == (p.dst.node r).kind

/-- Whether the subtrees under two nodes have the same form. -/
def sameShape (p : Pairing) (l r : Nat) : Bool :=
  p.src.shape l == p.dst.shape r

/-- Number of leaves that the subtrees under `l` and `r` have in common, in order. -/
def similarity (p : Pairing) (l r : Nat) : Nat :=
  if !p.canMatch l r then
    0
  else if p.src.isTerminal l then
    if (p.src.node l).label = (p.dst.node r).label then 1 else 0
  else if p.sameShape l r then
    (p.src.leafLabels l).length
  else
    Alignment.commonLength (p.src.leafLabels l) (p.dst.leafLabels r)

/-- Subtrees of one kind and form. -/
def identical (p : Pairing) (l r : Nat) : Bool :=
  (p.src.node l).kind == (p.dst.node r).kind && p.sameShape l r

/-- The positions on the right to which position `l` on the left can go without crossing a pair of
`gap`: from the first to before the second. -/
def bounds (gap : List (Nat × Nat)) (rightLength l : Nat) : Nat × Nat :=
  (((gap.filter (·.1 < l)).map (·.2 + 1)).max?.getD 0,
    ((gap.filter (l < ·.1)).map (·.2)).min?.getD rightLength)

/-- Pairs position `l` on the left, unless it is paired, with the first position on the right that is
free, can be matched and keeps the pairs in order. -/
def pairLeftover (p : Pairing) (left right : List Nat) (gap : List (Nat × Nat)) (l : Nat) :
    List (Nat × Nat) :=
  if gap.any (·.1 == l) then
    gap
  else
    let (lower, upper) := bounds gap right.length l
    let candidate := (List.range' lower (upper - lower)).find? fun r =>
      !gap.any (·.2 == r) && p.canMatch (left.getD l 0) (right.getD r 0)
    match candidate with
    | some r => gap ++ [(l, r)]
    | none => gap

/-- Adds pairs of nodes of one kind that similarity left behind. -/
def pairLeftovers (p : Pairing) (left right : List Nat) (gap : List (Nat × Nat)) :
    List (Nat × Nat) :=
  (List.range left.length).foldl (p.pairLeftover left right) gap

/-- The lexicographic order of positions. -/
def precedes (a b : Nat × Nat) : Bool :=
  a.1 < b.1 || (a.1 == b.1 && a.2 ≤ b.2)

/-- Pairs the nodes between two neighbouring pairs of identical subtrees. -/
def gapMatch (p : Pairing) (left right : List Nat) : List (Nat × Nat) :=
  let similar := Alignment.weightedPairs p.similarity left right
  let positions := (p.pairLeftovers left right similar).mergeSort precedes
  positions.map fun (l, r) => (left.getD l 0, right.getD r 0)

/-- Goes through the pairs of identical subtrees, given by positions counted from those of the first
nodes of `left` and `right`, and fills the gaps before, between and after them. -/
def fillGaps (p : Pairing) : (i j : Nat) → (left right : List Nat) →
    (anchors : List (Nat × Nat)) → List (Nat × Nat)
  | _, _, left, right, [] => p.gapMatch left right
  | i, j, left, right, (a, b) :: anchors =>
    p.gapMatch (left.take (a - i)) (right.take (b - j)) ++
      [(left.getD (a - i) 0, right.getD (b - j) 0)] ++
      p.fillGaps (a + 1) (b + 1) (left.drop (a - i + 1)) (right.drop (b - j + 1)) anchors

/-- Pairs children whose order matters. -/
def orderedMatch (p : Pairing) (left right : List Nat) : List (Nat × Nat) :=
  p.fillGaps 0 0 left right (Alignment.commonPairs p.identical left right)

/-- The similarities of all children, filled up with zeros to a square. -/
def weightMatrix (p : Pairing) (left right : List Nat) : List (List Int) :=
  let n := max left.length right.length
  (List.range n).map fun i => (List.range n).map fun j =>
    match left[i]?, right[j]? with
    | some l, some r => (p.similarity l r : Int)
    | _, _ => 0

/-- Pairs children whose order carries no meaning. -/
def unorderedMatch (p : Pairing) (left right : List Nat) : List (Nat × Nat) :=
  let weights := p.weightMatrix left right
  let columns := Assignment.best weights (max left.length right.length)
  columns.zipIdx.filterMap fun (j, i) => do
    let l ← left[i]?
    let r ← right[j]?
    if 0 < Assignment.weightAt weights i j then some (l, r) else none

/-- Pairs the children of the paired nodes `s` and `d`. -/
def matchChildren (p : Pairing) (s d : Nat) : List (Nat × Nat) :=
  if p.src.isUnordered s then
    p.unorderedMatch (p.src.children s) (p.dst.children d)
  else
    p.orderedMatch (p.src.children s) (p.dst.children d)

end Pairing

end TreePatch
