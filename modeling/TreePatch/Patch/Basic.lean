import TreePatch.Correspondence
import TreePatch.Path

/-!
# Patches

Changes that are ready to be applied to a tree. Nodes of that tree are addressed by paths, so that
patches can be replayed on any tree of the same form; what is put in comes from the destination tree
and is addressed by identifier.
-/

namespace TreePatch

/-- Why patches cannot be made or applied. -/
inductive PatchError where
  | role (error : RoleError)
  | correspondence (error : CorrespondenceError)
  | tree (error : TreeError)
  | missingDestination (kind : OperationKind)
  | foreignNode (node : NodeRef) (expected : String)
  | unresolved (path : Path)
  | unmappedParent (node : NodeId)
  | unresolvedAnchor (node : NodeId)
  | unsupportedRole (role : Role)
  | missingIndex (role : Role)
  | anchorNotInParent
  deriving DecidableEq

def PatchError.message : PatchError → String
  | role e => e.message
  | correspondence e => e.message
  | tree e => e.message
  | missingDestination k => s!"{k.name} operation without a destination node"
  | foreignNode n expected => s!"{n.text} does not belong to the {expected} tree"
  | unresolved p => s!"no node at {p.text} in the tree being patched"
  | unmappedParent n =>
    s!"parent {n} of an inserted node has no correspondent and was not inserted"
  | unresolvedAnchor n => s!"anchor {n} was not inserted before its dependents"
  | unsupportedRole r => s!"no insertion semantics for role {r.name}"
  | missingIndex r => s!"insert with collection role {r.name} carries no index"
  | anchorNotInParent => "anchor is not a child of the insertion parent"

/-- Under which node something is inserted: one of the patched tree, or the copy of a destination node
that an earlier insertion brings in. -/
inductive ParentRef where
  | existing (path : Path)
  | inserted (node : NodeId)
  deriving DecidableEq

/-- The sibling that an inserted node follows where its place is not given by an index. -/
inductive Anchor where
  | start
  | after (path : Path)
  | afterInserted (node : NodeId)
  deriving DecidableEq

/-- Brings in a copy of the destination node `node`. -/
structure Insertion where
  /-- Place in the role collection; none for other roles. -/
  index : Option Nat
  node : NodeId
  role : Role
  parent : ParentRef
  anchor : Anchor
  deriving DecidableEq

/-- One change. -/
inductive Patch where
  | delete (target : Path)
  /-- Puts a copy of a destination node in place of the target. -/
  | update (target : Path) (replacement : NodeId)
  | insert (insertion : Insertion)
  /-- Removes a node and brings in a copy of its counterpart elsewhere. -/
  | move (source : Path) (insertion : Insertion)
  deriving DecidableEq

namespace Patch

def kind : Patch → OperationKind
  | delete _ => .delete
  | update _ _ => .update
  | insert _ => .insert
  | move _ _ => .move

/-- What a patch brings in at a place of its own. -/
def insertion? : Patch → Option Insertion
  | insert i | move _ i => some i
  | _ => none

end Patch

/-- Patches against one destination tree, without repetition, in the order of insertion. -/
structure PatchSet where
  destination : Tree
  patches : List Patch

namespace PatchSet

def empty (destination : Tree) : PatchSet :=
  ⟨destination, []⟩

def size (s : PatchSet) : Nat :=
  s.patches.length

def isEmpty (s : PatchSet) : Bool :=
  s.patches.isEmpty

def contains (s : PatchSet) (p : Patch) : Bool :=
  s.patches.contains p

/-- Adds a patch that is not yet present. -/
def insert (s : PatchSet) (p : Patch) : PatchSet :=
  if s.contains p then s else { s with patches := s.patches ++ [p] }

def countKind (s : PatchSet) (kind : OperationKind) : Nat :=
  (s.patches.filter fun p => p.kind == kind).length

/-- Equality up to order; destination trees are compared by name. -/
instance : BEq PatchSet where
  beq s t :=
    s.destination.name == t.destination.name && s.patches.all t.contains && t.patches.all s.contains

end PatchSet

end TreePatch
