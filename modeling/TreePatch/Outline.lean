import TreePatch.Source.Kind
import TreePatch.Tree.Basic

/-!
# Outlines

The view of a tree that matching works on: the tracked nodes under one extra root, numbered in
preorder. Implicit nodes and fixed punctuation are not tracked; they are paired later, by their place
among their siblings.
-/

namespace TreePatch

/-- Punctuation that every node of the enclosing kind carries. Semicolons and dots come and go with an
optional sibling, so they are not fixed. -/
def fixedPunctuation : List String :=
  ["(", ")", "\x7b", "\x7d", "@", "::"]

/-- Whether a node is left out of outlines. -/
def Tree.isIgnored (t : Tree) (id : NodeId) : Bool :=
  t.isImplicit id || (t.role id == .token && fixedPunctuation.contains (t.label id))

/-- What an outline keeps of a node. -/
structure Mark where
  kind : String
  label : String
  role : Role
  /-- The node that this one stands for; the extra root stands for none. -/
  origin : Option NodeRef
  /-- Whether the node is a token of the source text, and not a construct without children. -/
  terminal : Bool

/-- The form of a subtree: kinds, labels and the order of children. -/
abbrev Shape := Rose (String × String)

/-- A node of an outline. -/
structure OutlineNode extends Mark where
  parent : Option Nat
  children : List Nat
  shape : Shape

/-- The tracked nodes of a tree under an extra root, numbered in preorder. -/
structure Outline where
  nodes : Array OutlineNode

namespace Mark

/-- The extra root of every outline. -/
def top : Mark :=
  { kind := "root", label := "", role := .root, origin := none, terminal := false }

/-- What an outline keeps of the node `id`. -/
def ofNode (t : Tree) (id : NodeId) : Mark :=
  { kind := t.kind id, label := t.label id, role := t.role id, origin := some (t.ref id),
    terminal := t.isLeaf id && t.label id != "" }

end Mark

namespace Outline

/-- The form of a subtree of marks. -/
def shapeOf (r : Rose Mark) : Shape :=
  r.map fun m => (m.kind, m.label)

/-- The outline with the given marks. -/
def ofRose (r : Rose Mark) : Outline :=
  { nodes := (r.number (fun s parent children => ⟨s.value, parent, children, shapeOf s⟩) 0
      none).toArray }

/-- The outline that holds only the extra root. -/
def bare : Outline :=
  ofRose (.node .top [])

/-- The children of a node that are tracked. -/
def trackedChildren (t : Tree) (id : NodeId) : List NodeId :=
  (t.children id).filter fun c => !t.isIgnored c

/-- The outline of a tree. -/
def ofTree (t : Tree) : Outline :=
  let tracked := Rose.unfold (trackedChildren t) t.size Tree.root
  ofRose (.node .top [tracked.map (Mark.ofNode t)])

/-- The identifier of the extra root. -/
abbrev root : Nat := 0

def size (o : Outline) : Nat :=
  o.nodes.size

/-- What is read where an outline has no node. -/
def absent : OutlineNode :=
  ⟨.top, none, [], .node ("", "") []⟩

def node (o : Outline) (id : Nat) : OutlineNode :=
  o.nodes.getD id absent

def parent? (o : Outline) (id : Nat) : Option Nat :=
  (o.node id).parent

def children (o : Outline) (id : Nat) : List Nat :=
  (o.node id).children

def shape (o : Outline) (id : Nat) : Shape :=
  (o.node id).shape

def isTerminal (o : Outline) (id : Nat) : Bool :=
  (o.node id).terminal

/-- Number of nodes of the subtree under `id`. -/
def weight (o : Outline) (id : Nat) : Nat :=
  (o.shape id).size

/-- Whether the order of the children carries no meaning. -/
def isUnordered (o : Outline) (id : Nat) : Bool :=
  Source.isUnordered (o.node id).kind

/-- The node that stands for `r`. -/
def find? (o : Outline) (r : NodeRef) : Option Nat :=
  o.nodes.toList.findIdx? fun n => n.origin == some r

/-- The subtree under `id`, each node before its children. -/
def preorder (o : Outline) (id : Nat) : List Nat :=
  Walk.depthFirst o.children o.size [id]

/-- The nodes strictly above `id`, nearest first. -/
def ancestors (o : Outline) (id : Nat) : List Nat :=
  Walk.upward o.parent? o.size id

/-- Labels of the terminals under `id`, left to right. -/
def leafLabels (o : Outline) (id : Nat) : List String :=
  ((o.preorder id).filter o.isTerminal).map fun n => (o.node n).label

/-- Numbers the shapes of all nodes in the order in which they first occur. -/
def shapeClasses (o : Outline) : List Nat :=
  let shapes := o.nodes.toList.map (·.shape)
  let distinct := shapes.foldl (fun seen s => if seen.contains s then seen else seen ++ [s]) []
  shapes.map fun s => distinct.idxOf s

end Outline

end TreePatch
