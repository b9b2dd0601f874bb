import TreePatch.Tree.Basic

/-!
# Editing trees

Nodes are only ever added; linking and unlinking change the parent of a node and the child list of
that parent. An edit that is refused leaves the tree as it was.
-/

namespace TreePatch

namespace CompilationUnit

/-- Forgets a declared type. -/
def erase (u : CompilationUnit) (id : NodeId) : CompilationUnit :=
  { u with declaredTypes := u.declaredTypes.filter (· != id) }

/-- Declares `new` wherever `old` was declared. -/
def replace (u : CompilationUnit) (old new : NodeId) : CompilationUnit :=
  { u with declaredTypes := u.declaredTypes.map fun id => if id = old then new else id }

/-- Declares a type at `index`, or last when there are fewer types than that. -/
def insert (u : CompilationUnit) (index : Nat) (id : NodeId) : CompilationUnit :=
  { u with declaredTypes := u.declaredTypes.insertIdx (min index u.declaredTypes.length) id }

end CompilationUnit

namespace Tree

/-- Changes the node at `id`. -/
def modify (t : Tree) (id : NodeId) (f : Node → Node) : Tree :=
  { t with nodes := t.nodes.modify id f }

/-- Changes the compilation unit of a tree that has exactly one. -/
def modifyOnlyUnit (t : Tree) (f : CompilationUnit → CompilationUnit) : Except TreeError Tree := do
  let unit ← t.onlyUnit
  return { t with units := [f unit] }

def addUnit (t : Tree) (u : CompilationUnit) : Tree :=
  { t with units := t.units ++ [u] }

/-- Adds an unlinked node; its identifier is the old size. -/
def addNode (t : Tree) (c : Content) : Tree :=
  { t with nodes := t.nodes.push { toContent := c } }

/-- Adds a node as the last child of `parent`; its identifier is the old size. -/
def pushChild (t : Tree) (parent : NodeId) (c : Content) : Tree :=
  { t with nodes := t.nodes.push { toContent := c, parent := some parent } }.modify parent fun n =>
    { n with children := n.children ++ [t.size] }

def setLabel (t : Tree) (id : NodeId) (label : String) : Tree :=
  t.modify id fun n => { n with label }

/-- Unlinks `id` from its parent, and from the compilation units when it is a top-level type. -/
def detach (t : Tree) (id : NodeId) : Except TreeError Tree :=
  match t.parent? id with
  | none => .error (.detached id)
  | some parent =>
    let unlinked :=
      (t.modify parent fun n => { n with children := n.children.filter (· != id) }).modify id
        fun n => { n with parent := none }
    if t.role id = .containedType then
      .ok { unlinked with units := t.units.map (·.erase id) }
    else
      .ok unlinked

/-- Links the unlinked node `child` under `parent` at `index`. -/
def insertChild (t : Tree) (parent : NodeId) (index : Nat) (child : NodeId) :
    Except TreeError Tree :=
  if (t.parent? child).isSome then
    .error (.attached child)
  else if (t.children parent).length < index then
    .error (.indexOutOfBounds index (t.children parent).length)
  else
    .ok <| (t.modify parent fun n => { n with children := n.children.insertIdx index child }).modify
      child fun n => { n with parent := some parent }

/-- Links the unlinked node `child` as the last child of `parent`. -/
def appendChild (t : Tree) (parent child : NodeId) : Except TreeError Tree :=
  t.insertChild parent (t.children parent).length child

/-- Puts the unlinked node `new` where `old` is. The new node takes over the role of the old one,
which ends up unlinked. -/
def replace (t : Tree) (old new : NodeId) : Except TreeError Tree :=
  if (t.parent? new).isSome then
    .error (.attached new)
  else
    match t.parent? old with
    | none => .error (.detached old)
    | some parent =>
      if (t.children parent).contains old then
        let linked :=
          ((t.modify parent fun n => { n with children := n.children.replace old new }).modify new
            fun n => { n with parent := some parent, role := t.role old }).modify old
              fun n => { n with parent := none }
        if t.role old = .containedType then
          .ok { linked with units := t.units.map (·.replace old new) }
        else
          .ok linked
      else
        .error (.detached old)

/-- A tree with a freshly copied subtree. -/
structure Graft where
  tree : Tree
  /-- The unlinked top of the copy. -/
  copy : NodeId
  /-- Every copied node with its copy, in preorder. -/
  copies : List (NodeId × NodeId)

/-- Copies the subtree at `id` of the tree `donor`. The copies get the next free identifiers in
preorder. -/
def graft (t : Tree) (donor : Tree) (id : NodeId) : Graft :=
  let source := donor.subtree id
  let copied := source.number (fun r parent children =>
    { (donor.node r.value) with parent, children }) t.size none
  { tree := { t with nodes := t.nodes ++ copied.toArray }
    copy := t.size
    copies := source.preorder.zipIdx t.size }

end Tree

end TreePatch
