import TreePatch.Tree.Basic

/-!
# Role collections

The ordered sibling collection that a collection role denotes, and the place of a node in it. Top-level
types are listed by the compilation unit, all other members by their parent.
-/

namespace TreePatch

/-- Why a node has no place in a role collection. -/
inductive RoleError where
  | unsupportedRole (role : Role)
  | noParent (node : NodeId)
  | tree (error : TreeError)
  deriving DecidableEq

def RoleError.message : RoleError → String
  | unsupportedRole r => s!"unsupported role: {r.name}"
  | noParent n => s!"node {n} has no parent"
  | tree e => e.message

namespace Tree

/-- The sibling collection that the role of `id` denotes. -/
def collection (t : Tree) (id : NodeId) : Except RoleError (List NodeId) :=
  let role := t.role id
  if role = .containedType then
    match t.onlyUnit with
    | .ok unit => .ok unit.declaredTypes
    | .error e => .error (.tree e)
  else if role.isCollection then
    match t.parent? id with
    | some parent => .ok (t.childrenWithRole parent role)
    | none => .error (.noParent id)
  else
    .error (.unsupportedRole role)

/-- The place of `id` in its collection; none when its role denotes no collection. -/
def indexInCollection (t : Tree) (id : NodeId) : Except RoleError (Option Nat) :=
  if (t.role id).isCollection then
    (t.collection id).map fun members => members.idxOf? id
  else
    .ok none

end Tree

end TreePatch
