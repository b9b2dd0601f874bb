import TreePatch.Role
import TreePatch.Rose

/-!
# Syntax trees

A tree keeps all its nodes in one array and addresses them by index. Removing a node only unlinks
it, so identifiers stay valid for as long as the tree exists. The first node is the package root.
-/

namespace TreePatch

/-- Index of a node in its tree. -/
abbrev NodeId := Nat

/-- A node address that is unambiguous across trees. -/
structure NodeRef where
  tree : String
  node : NodeId
  deriving DecidableEq

/-- The written form of a reference. -/
def NodeRef.text (r : NodeRef) : String :=
  s!"{r.tree}#{r.node}"

/-- Where a node stands in its source file; line and column count from one. -/
structure Position where
  file : String
  line : Nat
  column : Nat
  deriving DecidableEq

/-- What a node carries apart from its links. -/
structure Content where
  kind : String
  /-- Source text of a leaf, or the keyword that tells an interior node apart; else empty. -/
  label : String
  role : Role
  position : Option Position := none
  /-- Whether the node was supplied by the parser and is absent from the source text. -/
  implicit : Bool := false
  deriving DecidableEq

/-- A node with its links. -/
structure Node extends Content where
  parent : Option NodeId := none
  children : List NodeId := []
  deriving DecidableEq

/-- What is read where a tree has no node. -/
def Node.absent : Node :=
  { kind := "", label := "", role := .root }

/-- One source file. The declared types are a second, ordered view of the top-level types, which the
package root also has as children. -/
structure CompilationUnit where
  file : Option String
  declaredTypes : List NodeId
  deriving DecidableEq

/-- Why an operation on a tree is refused. -/
inductive TreeError where
  | compilationUnitCount (count : Nat)
  | detached (node : NodeId)
  | attached (node : NodeId)
  | indexOutOfBounds (index length : Nat)
  deriving DecidableEq

def TreeError.message : TreeError → String
  | compilationUnitCount n => s!"model should have exactly 1 compilation unit, but has {n}"
  | detached n => s!"node {n} is not attached to a parent"
  | attached n => s!"node {n} is already attached to a parent"
  | indexOutOfBounds i n => s!"index {i} out of bounds for {n} children"

/-- A syntax tree. Its name tells its nodes apart from those of other trees. -/
structure Tree where
  name : String
  nodes : Array Node
  units : List CompilationUnit

namespace Tree

/-- What the package root carries. -/
def rootContent : Content :=
  { kind := "package", label := "", role := .root }

/-- The identifier of the package root. -/
abbrev root : NodeId := 0

/-- A tree that holds only the package root. -/
def bare (name : String) : Tree :=
  { name, nodes := #[{ toContent := rootContent }], units := [] }

/-! ## Reading -/

/-- Number of nodes, unlinked ones included. -/
def size (t : Tree) : Nat :=
  t.nodes.size

/-- The node at `id`. -/
def node (t : Tree) (id : NodeId) : Node :=
  t.nodes.getD id Node.absent

def kind (t : Tree) (id : NodeId) : String :=
  (t.node id).kind

def label (t : Tree) (id : NodeId) : String :=
  (t.node id).label

def role (t : Tree) (id : NodeId) : Role :=
  (t.node id).role

def isImplicit (t : Tree) (id : NodeId) : Bool :=
  (t.node id).implicit

def parent? (t : Tree) (id : NodeId) : Option NodeId :=
  (t.node id).parent

def children (t : Tree) (id : NodeId) : List NodeId :=
  (t.node id).children

def isLeaf (t : Tree) (id : NodeId) : Bool :=
  (t.children id).isEmpty

/-- Whether the tree holds nothing but a childless root. -/
def isEmpty (t : Tree) : Bool :=
  t.size == 1 && t.isLeaf root

def ref (t : Tree) (id : NodeId) : NodeRef :=
  { tree := t.name, node := id }

/-- Whether a reference addresses a node of this tree. -/
def owns (t : Tree) (r : NodeRef) : Bool :=
  r.tree == t.name && r.node < t.size

/-- The compilation unit of a tree that has exactly one. -/
def onlyUnit (t : Tree) : Except TreeError CompilationUnit :=
  match t.units with
  | [unit] => .ok unit
  | units => .error (.compilationUnitCount units.length)

/-- Children of `parent` that play `role`, in order. -/
def childrenWithRole (t : Tree) (parent : NodeId) (role : Role) : List NodeId :=
  (t.children parent).filter fun c => t.role c == role

/-- Position of a node among its parent's children. -/
def childPosition? (t : Tree) (child : NodeId) : Option Nat := do
  let parent ← t.parent? child
  (t.children parent).idxOf? child

/-- The node that names a declaration. -/
def nameNode? (t : Tree) (id : NodeId) : Option NodeId :=
  (t.childrenWithRole id (.slot .name)).head?

/-- The identifier of a declaration. -/
def simpleName? (t : Tree) (id : NodeId) : Option String :=
  (t.nameNode? id).map t.label

/-! ## Building -/

/-- The tree of a rose tree of contents, with nodes numbered in preorder. Its compilation unit
declares the top-level types in order. -/
def ofRose (name : String) (file : Option String) (r : Rose Content) : Tree :=
  let nodes := r.number (fun s parent children => ⟨s.value, parent, children⟩) 0 none
  let t : Tree := { name, nodes := nodes.toArray, units := [] }
  { t with units := [{ file, declaredTypes := t.childrenWithRole root .containedType }] }

/-! ## Walking -/

/-- The nodes strictly above `id`, nearest first. -/
def ancestors (t : Tree) (id : NodeId) : List NodeId :=
  Walk.upward t.parent? t.size id

/-- Whether `ancestor` lies strictly above `id`. -/
def isAncestor (t : Tree) (ancestor id : NodeId) : Bool :=
  (t.ancestors id).contains ancestor

/-- Whether a node can be reached from the root. -/
def isAttached (t : Tree) (id : NodeId) : Bool :=
  id == root || t.isAncestor root id

/-- The subtree under `id`, each node before its children. -/
def depthFirst (t : Tree) (id : NodeId) : List NodeId :=
  Walk.depthFirst t.children t.size [id]

/-- The subtree under `id`, level by level. -/
def breadthFirst (t : Tree) (id : NodeId) : List NodeId :=
  Walk.breadthFirst t.children t.size [id]

/-- The subtree under `id` as a rose tree of identifiers. -/
def subtree (t : Tree) (id : NodeId) : Rose NodeId :=
  Rose.unfold t.children t.size id

end Tree

end TreePatch
