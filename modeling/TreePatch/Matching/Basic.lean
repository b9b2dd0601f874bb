import TreePatch.Matching.Siblings

/-!
# Matchings

A partial one-to-one pairing of the nodes of two outlines. It is grown from the extra roots downwards;
then identical subtrees that are left without any pair are paired wherever they stand, so that moved
subtrees are recognised.
-/

namespace TreePatch

/-- A one-to-one pairing of nodes, in the order in which the pairs were found. -/
structure Matching where
  pairs : List (Nat × Nat)
  deriving DecidableEq

namespace Matching

def size (m : Matching) : Nat :=
  m.pairs.length

/-- The partner of a source node. -/
def dstOf (m : Matching) (s : Nat) : Option Nat :=
  (m.pairs.find? (·.1 == s)).map (·.2)

/-- The partner of a destination node. -/
def srcOf (m : Matching) (d : Nat) : Option Nat :=
  (m.pairs.find? (·.2 == d)).map (·.1)

/-- Whether neither node has a partner yet. -/
def isFree (m : Matching) (pair : Nat × Nat) : Bool :=
  (m.dstOf pair.1).isNone && (m.srcOf pair.2).isNone

/-- Adds a pair, unless one of its nodes has a partner. -/
def add (m : Matching) (pair : Nat × Nat) : Matching :=
  if m.isFree pair then ⟨m.pairs ++ [pair]⟩ else m

/-- Adds the pairs whose nodes are free, one after the other. -/
def addAll (m : Matching) (pairs : List (Nat × Nat)) : Matching :=
  pairs.foldl add m

/-- The pairs that `addAll` adds. -/
def added (m : Matching) (pairs : List (Nat × Nat)) : List (Nat × Nat) :=
  (m.addAll pairs).pairs.drop m.size

end Matching

namespace Pairing

/-- Pairs children of the pairs in `queue`, then their children, and so on. -/
def growDown (p : Pairing) : (bound : Nat) → (queue : List (Nat × Nat)) → Matching → Matching
  | 0, _, m => m
  | _ + 1, [], m => m
  | bound + 1, (s, d) :: queue, m =>
    let found := p.matchChildren s d
    p.growDown bound (queue ++ m.added found) (m.addAll found)

/-- The pairs found downwards from the two extra roots. -/
def topDown (p : Pairing) : Matching :=
  p.growDown p.src.size [(Outline.root, Outline.root)] ⟨[(Outline.root, Outline.root)]⟩

/-- Whether no node of the source subtree under `s` has a partner. -/
def srcUntouched (p : Pairing) (m : Matching) (s : Nat) : Bool :=
  (p.src.preorder s).all fun n => (m.dstOf n).isNone

/-- Whether no node of the destination subtree under `d` has a partner. -/
def dstUntouched (p : Pairing) (m : Matching) (d : Nat) : Bool :=
  (p.dst.preorder d).all fun n => (m.srcOf n).isNone

/-- The source subtrees that may have moved. -/
def moveCandidates (p : Pairing) (minSize : Nat) (m : Matching) : List Nat :=
  (p.src.preorder Outline.root).filter fun s =>
    decide (minSize ≤ p.src.weight s) && p.srcUntouched m s

/-- Pairs the subtree under `d`, if it is large enough and without any pair, with the first of the
candidates that is identical and still without any pair. -/
def recoverMove (p : Pairing) (minSize : Nat) (candidates : List Nat) (m : Matching) (d : Nat) :
    Matching :=
  if p.dst.weight d < minSize || !p.dstUntouched m d then
    m
  else
    match candidates.find? fun s => p.identical s d && p.srcUntouched m s with
    | some s => m.addAll ((p.src.preorder s).zip (p.dst.preorder d))
    | none => m

/-- Pairs identical subtrees that have no pairs. -/
def recoverMoves (p : Pairing) (minSize : Nat) (m : Matching) : Matching :=
  (p.dst.preorder Outline.root).foldl (p.recoverMove minSize (p.moveCandidates minSize m)) m

/-- The matching of two outlines; only subtrees of at least `minSize` nodes are taken for moved. -/
def matching (p : Pairing) (minSize : Nat) : Matching :=
  p.recoverMoves minSize p.topDown

end Pairing

end TreePatch
