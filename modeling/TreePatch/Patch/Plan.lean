import TreePatch.Patch.Basic

/-!
# Plans

A set of patches with all its paths resolved in the tree that is to be patched. A plan is made before
anything changes, so a path that leads nowhere stops the patches from being applied at all.
-/

namespace TreePatch

/-- An insertion with its paths resolved. -/
structure Placement where
  insertion : Insertion
  /-- The node that the insertion moves; it is removed first. -/
  source : Option NodeId
  /-- The parent, unless it is brought in by an earlier insertion. -/
  parent : Option NodeId
  /-- The anchor, if it is a node of the patched tree. -/
  anchor : Option NodeId

/-- Patches with their paths resolved. -/
structure Plan where
  deletes : List NodeId
  updates : List (NodeId × NodeId)
  placements : List Placement

namespace Plan

def empty : Plan := ⟨[], [], []⟩

/-- The node at a path, which has to exist. -/
def locate (t : Tree) (p : Path) : Except PatchError NodeId :=
  match t.resolve p with
  | some id => .ok id
  | none => .error (.unresolved p)

def locateParent (t : Tree) : ParentRef → Except PatchError (Option NodeId)
  | .existing p => (locate t p).map some
  | .inserted _ => .ok none

def locateAnchor (t : Tree) : Anchor → Except PatchError (Option NodeId)
  | .after p => (locate t p).map some
  | .start | .afterInserted _ => .ok none

def locateInsertion (t : Tree) (source : Option NodeId) (i : Insertion) :
    Except PatchError Placement := do
  let parent ← locateParent t i.parent
  let anchor ← locateAnchor t i.anchor
  return { insertion := i, source, parent, anchor }

/-- Adds a patch to a plan. -/
def add (t : Tree) (plan : Plan) : Patch → Except PatchError Plan
  | .delete target => do
    let id ← locate t target
    return { plan with deletes := plan.deletes ++ [id] }
  | .update target replacement => do
    let id ← locate t target
    return { plan with updates := plan.updates ++ [(id, replacement)] }
  | .insert i => do
    let placement ← locateInsertion t none i
    return { plan with placements := plan.placements ++ [placement] }
  | .move source i => do
    let id ← locate t source
    let placement ← locateInsertion t (some id) i
    return { plan with placements := plan.placements ++ [placement] }

/-- The plan for a list of patches. -/
def make (t : Tree) (patches : List Patch) : Except PatchError Plan :=
  patches.foldlM (add t) empty

end Plan

end TreePatch
