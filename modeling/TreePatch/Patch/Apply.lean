import TreePatch.Source.Kind
import TreePatch.Patch.Plan
import TreePatch.Tree.Edit

/-!
# Applying patches

Patches are applied in stages: deletions, then updates, then moves and insertions. A failure leaves
what was done before it in place.
-/

namespace TreePatch

/-- How far the application of patches has got. -/
inductive Stage where
  | built
  | deletionsApplied
  | updatesApplied
  | insertionsApplied
  | done
  deriving DecidableEq

def Stage.name : Stage → String
  | built => "built"
  | deletionsApplied => "deletions-applied"
  | updatesApplied => "updates-applied"
  | insertionsApplied => "insertions-applied"
  | done => "done"

/-- A tree in the course of being patched. -/
structure Workpiece where
  tree : Tree
  /-- Destination nodes with their copies in the tree, the latest first. -/
  copies : List (NodeId × NodeId) := []
  /-- The stages completed, in order. -/
  stages : List Stage := []

/-- A step of patching: it changes the workpiece, also when it fails. -/
abbrev Patching := EStateM PatchError Workpiece

namespace Patching

/-- Edits the tree; an edit that is refused changes nothing. -/
def edit (f : Tree → Except TreeError Tree) : Patching Unit := fun w =>
  match f w.tree with
  | .ok t => .ok () { w with tree := t }
  | .error e => .error (.tree e) w

def enter (stage : Stage) : Patching Unit :=
  modify fun w => { w with stages := w.stages ++ [stage] }

/-- The copy of a destination node. -/
def copyOf? (node : NodeId) : Patching (Option NodeId) := do
  return (← get).copies.lookup node

/-- Copies a subtree of the destination tree and records the copies. -/
def copyIn (dst : Tree) (node : NodeId) : Patching NodeId := fun w =>
  let g := w.tree.graft dst node
  .ok g.copy { w with tree := g.tree, copies := g.copies ++ w.copies }

/-- Removes a node that is still attached. -/
def delete (node : NodeId) : Patching Unit := do
  if (← get).tree.isAttached node then
    edit (·.detach node)

/-- Gives the name of the type declaration `old` to its copy `new`, so that replacing a declaration
does not rename it. -/
def keepName (old new : NodeId) (t : Tree) : Tree :=
  if Source.isTypeDeclaration (t.kind old) then
    match t.simpleName? old, t.nameNode? new with
    | some name, some target => t.setLabel target name
    | _, _ => t
  else
    t

/-- Puts a copy of the destination node `replacement` in place of an attached node. -/
def update (dst : Tree) (old replacement : NodeId) : Patching Unit := do
  if (← get).tree.isAttached old then
    let new ← copyIn dst replacement
    modify fun w => { w with tree := keepName old new w.tree }
    edit (·.replace old new)

/-- The sibling behind which an insertion goes; none puts it first. -/
def anchorOf (p : Placement) : Patching (Option NodeId) :=
  match p.insertion.anchor, p.anchor with
  | .start, _ => return none
  | .after _, some anchor => return some anchor
  | .after path, none => throw (.unresolved path)
  | .afterInserted node, _ => do
    match ← copyOf? node with
    | some anchor => return some anchor
    | none => throw (.unresolvedAnchor node)

/-- The position behind `anchor` among the children of `parent`. -/
def positionBehind (t : Tree) (parent : NodeId) : (anchor : Option NodeId) → Except PatchError Nat
  | none => .ok 0
  | some anchor =>
    if t.parent? anchor = some parent then
      match t.childPosition? anchor with
      | some position => .ok (position + 1)
      | none => .error .anchorNotInParent
    else
      .error .anchorNotInParent

/-- Links `node` under `parent` behind the anchor. -/
def linkAtAnchor (p : Placement) (parent node : NodeId) : Patching Unit := do
  let anchor ← anchorOf p
  match positionBehind (← get).tree parent anchor with
  | .ok position => edit (·.insertChild parent position node)
  | .error e => throw e

/-- The position among the children of `parent` at which a node becomes member `index` of the
collection `role`; none when the collection is empty. -/
def positionInCollection? (t : Tree) (parent : NodeId) (role : Role) (index : Nat) : Option Nat :=
  let members := t.childrenWithRole parent role
  match members[index]? with
  | some next => t.childPosition? next
  | none => (members.getLast?.bind t.childPosition?).map (· + 1)

/-- Links `node` under `parent` so that it becomes a member of its collection at the given index, or
behind the anchor when the collection is empty. -/
def linkAtIndex (p : Placement) (parent node : NodeId) : Patching Unit := do
  match p.insertion.index with
  | none => throw (.missingIndex p.insertion.role)
  | some index =>
    match positionInCollection? (← get).tree parent p.insertion.role index with
    | some position => edit (·.insertChild parent position node)
    | none => linkAtAnchor p parent node

/-- Links `node` under `parent` in place of `occupant` if there is one, else behind the anchor. -/
def linkOver (p : Placement) (parent node : NodeId) : (occupant : Option NodeId) → Patching Unit
  | some occupant => edit (·.replace occupant node)
  | none => linkAtAnchor p parent node

/-- Links the copy of one thrown type, or a new copy if the known one is already in use. -/
def linkThrown (dst : Tree) (parent node : NodeId) : Patching Unit := do
  let known ← copyOf? node
  let t := (← get).tree
  let copy ← match known.filter fun c => !t.isAttached c with
    | some copy => pure copy
    | none => copyIn dst node
  edit (·.appendChild parent copy)

/-- Thrown types are a set: the whole list is built anew from the siblings of `node`. -/
def renewThrown (dst : Tree) (parent node : NodeId) : Patching Unit := do
  ((← get).tree.childrenWithRole parent .thrown).forM fun old => edit (·.detach old)
  match dst.parent? node with
  | none => return
  | some p => (dst.childrenWithRole p .thrown).forM (linkThrown dst parent)

/-- Lists a new top-level type in the compilation unit. -/
def declare (index : Option Nat) (node : NodeId) : Patching Unit :=
  edit (·.modifyOnlyUnit fun u => u.insert (index.getD u.declaredTypes.length) node)

/-- Links `node`, the copy of the placed node, under `parent` as its role demands. -/
def link (dst : Tree) (p : Placement) (parent node : NodeId) : Patching Unit := do
  let t := (← get).tree
  let role := p.insertion.role
  match role with
  | .statement | .argument | .typeMember | .typeParameter | .parameter | .case | .annotationUse
  | .imported => linkAtIndex p parent node
  | .caseExpression =>
    if (t.childrenWithRole parent .caseExpression).isEmpty then
      edit (·.appendChild parent node)
    else
      linkAtIndex p parent node
  | .thrown => renewThrown dst parent p.insertion.node
  | .containedType => do
    linkAtIndex p parent node
    declare p.insertion.index node
  | .modifier =>
    let lists := (t.childrenWithRole parent .modifier).filter fun c => t.kind c == "modifiers"
    linkOver p parent node (if t.kind node = "modifiers" then lists.head? else none)
  | .packageDeclaration | .caseLabel | .slot _ | .child | .token =>
    let occupants := t.childrenWithRole parent role
    linkOver p parent node (if role.isSingleSlot then occupants.head? else none)
  | .root => throw (.unsupportedRole .root)

/-- The node under which a placed node goes. -/
def parentOf (p : Placement) : Patching NodeId :=
  match p.parent, p.insertion.parent with
  | some parent, _ => return parent
  | none, .existing path => throw (.unresolved path)
  | none, .inserted node => do
    match ← copyOf? node with
    | some parent => return parent
    | none => throw (.unmappedParent node)

/-- Brings in a copy of the placed node, unless it already came in with a node above it. -/
def place (dst : Tree) (p : Placement) : Patching Unit := do
  if (← copyOf? p.insertion.node).isNone then
    let parent ← parentOf p
    let node ← copyIn dst p.insertion.node
    link dst p parent node

/-- Carries out a plan. -/
def carryOut (dst : Tree) (plan : Plan) : Patching Unit := do
  enter .built
  plan.deletes.forM delete
  enter .deletionsApplied
  plan.updates.forM fun (old, replacement) => update dst old replacement
  enter .updatesApplied
  (plan.placements.filterMap Placement.source).forM delete
  plan.placements.forM (place dst)
  enter .insertionsApplied
  enter .done

end Patching

/-- What the application of patches leaves behind. -/
structure Outcome where
  tree : Tree
  stages : List Stage
  error : Option PatchError

/-- Applies a set of patches to a tree. -/
def PatchSet.apply (s : PatchSet) (t : Tree) : Outcome :=
  match Plan.make t s.patches with
  | .error e => { tree := t, stages := [], error := some e }
  | .ok plan =>
    match (Patching.carryOut s.destination plan).run { tree := t } with
    | .ok _ w => { tree := w.tree, stages := w.stages, error := none }
    | .error e w => { tree := w.tree, stages := w.stages, error := some e }

end TreePatch
