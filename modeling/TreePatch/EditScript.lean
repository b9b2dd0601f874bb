import TreePatch.Matching.Basic

/-!
# Edit scripts

The operations that turn one tree into another, read off a matching of their outlines. A node that
kept its partner, parent, role, order and label stays; everything else is deleted, inserted, moved or
updated as a whole.
-/

namespace TreePatch

inductive OperationKind where
  | insert
  | delete
  | update
  | move
  deriving DecidableEq

def OperationKind.name : OperationKind → String
  | insert => "insert"
  | delete => "delete"
  | update => "update"
  | move => "move"

/-- One edit. An insertion names the inserted node of the destination tree first; updates and moves
name the source node and its counterpart. -/
structure Operation where
  kind : OperationKind
  node : NodeRef
  counterpart : Option NodeRef
  deriving DecidableEq

namespace Pairing

variable (p : Pairing) (m : Matching)

/-- Whether a matched node stands under another parent than its partner or in another role. -/
def isDisplaced (d : Nat) : Bool :=
  match p.dst.parent? d, m.srcOf d with
  | some parent, some s =>
    (p.src.parent? s).bind m.dstOf != some parent || (p.src.node s).role != (p.dst.node d).role
  | _, _ => false

/-- The matched children of `d` that stayed under the same parent and in the same role. -/
def stayedChildren (d : Nat) : List Nat :=
  (p.dst.children d).filter fun c => !p.isDisplaced m c && (m.srcOf c).isSome

/-- The children of `d` that stayed, in the order in which their partners stand. -/
def stayedInSourceOrder (d s : Nat) : List Nat :=
  ((p.src.children s).filterMap m.dstOf).filter (p.stayedChildren m d).contains

/-- The children of `d` that stayed but are not in a longest run that keeps its order. -/
def disorderedChildren (d : Nat) : List Nat :=
  match m.srcOf d with
  | none => []
  | some s =>
    let stayed := p.stayedChildren m d
    let kept := (Alignment.commonPairs (· == ·) stayed (p.stayedInSourceOrder m d s)).map (·.1)
    (stayed.zipIdx.filter fun (_, i) => !kept.contains i).map (·.1)

/-- The matched destination nodes that no longer stand where their partners did: under another parent,
in another role, or out of order among their siblings. -/
def movedNodes : List Nat :=
  (p.dst.preorder Outline.root).filter (p.isDisplaced m) ++
    (p.dst.preorder Outline.root).flatMap (p.disorderedChildren m)

/-- The matched destination nodes with another label than their partners. -/
def updatedNodes : List Nat :=
  (m.pairs.filter fun (s, d) => (p.src.node s).label != (p.dst.node d).label).map (·.2)

/-- Whether a node above `d` is copied as a whole, which brings `d` along. -/
def isCarried (copied : List Nat) (d : Nat) : Bool :=
  (p.dst.ancestors d).any fun a => (m.srcOf a).isNone || copied.contains a

/-- What becomes of a node in a walk over its tree: it stays and the walk goes on below it, or it is
settled together with its subtree, by at most one operation. -/
inductive Fate where
  | stays
  | settled (operation : Option Operation)

/-- What becomes of a source node: it is deleted when it has no partner, or when its partner moved and
comes along with a copied ancestor. -/
def srcFate (moved updated : List Nat) (s : Nat) : Fate :=
  let deleted := .settled <| (p.src.node s).origin.map fun origin => ⟨.delete, origin, none⟩
  match m.dstOf s with
  | none => deleted
  | some d =>
    if moved.contains d then
      if p.isCarried m (moved ++ updated) d then deleted else .settled none
    else if updated.contains d then
      .settled none
    else
      .stays

/-- What becomes of a destination node: it is inserted when it has no partner, else moved or updated
where that applies. -/
def dstFate (moved updated : List Nat) (d : Nat) : Fate :=
  match (p.dst.node d).origin with
  | none => .stays
  | some origin =>
    match (m.srcOf d).bind fun s => (p.src.node s).origin with
    | none => .settled (some ⟨.insert, origin, none⟩)
    | some source =>
      if moved.contains d then .settled (some ⟨.move, source, some origin⟩)
      else if updated.contains d then .settled (some ⟨.update, source, some origin⟩)
      else .stays

/-- The operations met on a walk that goes below a node only where it stays. -/
def collect (fate : Nat → Fate) (children : Nat → List Nat) :
    (bound : Nat) → (stack : List Nat) → List Operation
  | 0, _ => []
  | _ + 1, [] => []
  | bound + 1, n :: stack =>
    match fate n with
    | .stays => collect fate children bound (children n ++ stack)
    | .settled operation => operation.toList ++ collect fate children bound stack

/-- The operations that turn the source into the destination: deletions in source order, then moves,
updates and insertions in destination order. -/
def editScript : List Operation :=
  let moved := p.movedNodes m
  let updated := p.updatedNodes m
  collect (p.srcFate m moved updated) p.src.children p.src.size [Outline.root] ++
    collect (p.dstFate m moved updated) p.dst.children p.dst.size [Outline.root]

end Pairing

/-- The difference of two trees: the pairs of their outlines and the operations between them. -/
structure Diff where
  pairing : Pairing
  pairs : List (Nat × Nat)
  operations : List Operation

/-- Compares two trees. -/
def Tree.diff (src dst : Tree) (minMoveSize : Nat) : Diff :=
  let p : Pairing := ⟨.ofTree src, .ofTree dst⟩
  let m := p.matching minMoveSize
  { pairing := p, pairs := m.pairs, operations := p.editScript m }

end TreePatch
