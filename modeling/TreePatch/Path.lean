import TreePatch.Tree.Collection

/-!
# Structural paths

A path addresses a node by the steps that lead to it from the package root, independently of
identifiers, so that it can be followed in any tree of the same form.
-/

namespace TreePatch

/-- One step down: members of a collection and repeatable roles carry an ordinal, single slots none. -/
structure Step where
  role : Role
  index : Option Nat
  deriving DecidableEq

def Step.text (s : Step) : String :=
  match s.index with
  | some i => s!"/#{s.role.name}[{i}]"
  | none => s!"/#{s.role.name}"

/-- The steps from the package root to a node. -/
structure Path where
  steps : List Step
  deriving DecidableEq

namespace Path

/-- The path of the root itself. -/
def empty : Path := ⟨[]⟩

def length (p : Path) : Nat :=
  p.steps.length

def isEmpty (p : Path) : Bool :=
  p.steps.isEmpty

/-- The written form of a path. -/
def text (p : Path) : String :=
  if p.isEmpty then "/" else String.join (p.steps.map Step.text)

end Path

namespace Tree

/-- The step that leads to `id` from its parent. -/
def stepTo (t : Tree) (id : NodeId) : Except RoleError Step :=
  let role := t.role id
  if role.isCollection then
    (t.indexInCollection id).map fun index => { role, index }
  else if role.isRepeatable then
    let siblings := (t.parent? id).elim [] (t.childrenWithRole · role)
    .ok { role, index := siblings.idxOf? id }
  else
    .ok { role, index := none }

/-- The path of `id`. Of several faults the one nearest to `id` is reported. -/
def pathOf (t : Tree) (id : NodeId) : Except RoleError Path := do
  let chain := id :: t.ancestors id
  let steps ← chain.dropLast.mapM t.stepTo
  let top := chain.getLastD id
  if top = root then
    return ⟨steps.reverse⟩
  else
    throw (.noParent top)

/-- The node one step below `id`. -/
def follow (t : Tree) (id : NodeId) (step : Step) : Option NodeId := do
  let candidates ←
    if step.role = .containedType then
      t.onlyUnit.toOption.map (·.declaredTypes)
    else
      some (t.childrenWithRole id step.role)
  candidates[step.index.getD 0]?

/-- The node that a path addresses. -/
def resolve (t : Tree) (p : Path) : Option NodeId :=
  p.steps.foldlM t.follow root

end Tree

end TreePatch
