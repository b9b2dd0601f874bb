import TreePatch.Patch.Basic

/-!
# Making patches

Turns operations into patches against the source tree. Updates below another updated node and
operations on implicit nodes are dropped.
-/

namespace TreePatch

/-- Two trees whose nodes correspond. -/
structure Revision where
  src : Tree
  dst : Tree
  nodes : Correspondence

namespace Operation

/-- Checks that an operation names nodes of the right trees, and a counterpart where it needs one. -/
def check (op : Operation) (src dst : Tree) : Except PatchError Unit :=
  let (owner, expected) :=
    if op.kind = .insert then (dst, "destination") else (src, "source")
  if !owner.owns op.node then
    .error (.foreignNode op.node expected)
  else
    match op.counterpart with
    | none =>
      if op.kind = .update ∨ op.kind = .move then .error (.missingDestination op.kind) else .ok ()
    | some n => if dst.owns n then .ok () else .error (.foreignNode n "destination")

/-- Whether an operation updates a node below another node that is updated. -/
def isSubsumed (ops : List Operation) (src : Tree) (op : Operation) : Bool :=
  op.kind == .update &&
    ops.any fun other => other.kind == .update && src.isAncestor other.node.node op.node.node

/-- The operations without the subsumed updates. -/
def outermost (ops : List Operation) (src : Tree) : List Operation :=
  ops.filter fun op => !op.isSubsumed ops src

/-- The destination node that an operation brings in. -/
def brought? (op : Operation) : Option NodeId :=
  if op.kind = .insert then some op.node.node else op.counterpart.map (·.node)

/-- Whether one of the nodes of an operation is absent from the source text. -/
def isImplicit (op : Operation) (src dst : Tree) : Bool :=
  (if op.kind = .insert then dst else src).isImplicit op.node.node ||
    op.counterpart.any fun n => dst.isImplicit n.node

end Operation

namespace Revision

variable (r : Revision)

/-- The path of a node of the source tree. -/
def pathOf (id : NodeId) : Except PatchError Path :=
  (r.src.pathOf id).mapError .role

/-- The source node that corresponds to a destination node. -/
def counterpart? (d : NodeId) : Option NodeId :=
  (r.nodes.get? (r.dst.ref d)).map (·.node)

/-- The place of an insertion among the siblings in `before`, nearest first: behind the first of them
that is brought in itself or has a counterpart. -/
def anchorAmong (brought : List NodeId) : (before : List NodeId) → Except PatchError Anchor
  | [] => .ok .start
  | sibling :: before =>
    if brought.contains sibling then
      .ok (.afterInserted sibling)
    else
      match r.counterpart? sibling with
      | some existing => (r.pathOf existing).map .after
      | none => anchorAmong brought before

/-- The place of the destination node `d` among its siblings. -/
def anchorOf (brought : List NodeId) (d : NodeId) : Except PatchError Anchor :=
  let siblings := (r.dst.parent? d).elim [] r.dst.children
  r.anchorAmong brought (siblings.takeWhile (· != d)).reverse

/-- The node under which the copy of a child of the destination node `parent` goes. -/
def parentRef (parent : NodeId) : Except PatchError ParentRef :=
  match r.counterpart? parent with
  | some existing => (r.pathOf existing).map .existing
  | none => .ok (.inserted parent)

/-- The insertion of a copy of the destination node `d`. -/
def insertionOf (brought : List NodeId) (d : NodeId) : Except PatchError Insertion := do
  let index ← (r.dst.indexInCollection d).mapError .role
  match r.dst.parent? d with
  | none => throw (.role (.noParent d))
  | some p =>
    let parent ← r.parentRef p
    let anchor ← r.anchorOf brought d
    return { index, node := d, role := r.dst.role d, parent, anchor }

/-- The patch for an operation. -/
def patchFor (brought : List NodeId) (op : Operation) : Except PatchError Patch :=
  match op.kind, op.counterpart with
  | .delete, _ => (r.pathOf op.node.node).map .delete
  | .insert, _ => (r.insertionOf brought op.node.node).map .insert
  | .update, some n => (r.pathOf op.node.node).map fun target => .update target n.node
  | .move, some n => do
    let source ← r.pathOf op.node.node
    let insertion ← r.insertionOf brought n.node
    return .move source insertion
  | kind, none => .error (.missingDestination kind)

/-- The patches for a list of operations, repeated ones included. -/
def patches (ops : List Operation) : Except PatchError (List Patch) := do
  ops.forM (·.check r.src r.dst)
  let outer := Operation.outermost ops r.src
  let brought := outer.filterMap Operation.brought?
  (outer.filter fun op => !op.isImplicit r.src r.dst).mapM (r.patchFor brought)

/-- The set of patches for a list of operations. -/
def generate (ops : List Operation) : Except PatchError PatchSet :=
  (r.patches ops).map fun ps => ps.foldl PatchSet.insert (.empty r.dst)

end Revision

end TreePatch
