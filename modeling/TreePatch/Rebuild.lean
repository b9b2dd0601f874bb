import TreePatch.Source.Parse
import TreePatch.Layout.Program
import TreePatch.Log
import TreePatch.Patch.Apply
import TreePatch.Patch.Generate
import TreePatch.Settings.Basic

/-!
# Rebuilding a file

The whole way from two versions of a file to the older tree patched into the form of the newer one.
-/

namespace TreePatch

/-- Why a file cannot be rebuilt. -/
inductive RebuildError where
  | parse (error : Source.ParseError)
  | correspondence (error : CorrespondenceError)
  | patch (error : PatchError)
  | tree (error : TreeError)
  deriving DecidableEq

namespace RebuildError

def message : RebuildError → String
  | parse e => e.message
  | correspondence e => e.message
  | patch e => e.message
  | tree e => e.message

/-- The failure behind an error, if there is one. -/
def cause? : RebuildError → Option FileError
  | parse e => e.cause?
  | _ => none

end RebuildError

/-- A computation that records events, also when it fails. -/
abbrev Logged := EStateM RebuildError (List Event)

namespace Logged

def record (e : Event) : Logged Unit :=
  modify (· ++ [e])

def lift {ε α : Type} (wrap : ε → RebuildError) : Except ε α → Logged α
  | .ok a => return a
  | .error e => throw (wrap e)

end Logged

namespace Event

def compared (operations matched : Nat) : Event :=
  ⟨.info, "diffmin_core::diff", "computed tree diff",
    [("operations", toString operations), ("matched", toString matched)]⟩

def deferred (parent : NodeRef) : Event :=
  ⟨.warn, "diffmin_core::patch::generate",
    "inserted node's parent has no correspondent; deferring to an enclosing insert",
    [("parent", parent.text)]⟩

def generated (operations patches : Nat) : Event :=
  ⟨.info, "diffmin_core::patch::generate", "generated patches",
    [("operations", toString operations), ("patches", toString patches)]⟩

def reached (stage : Stage) : Event :=
  ⟨.info, "diffmin_core::patch::apply", "patch application", [("stage", stage.name)]⟩

end Event

/-- The destination node whose copy a patch waits for. -/
def Patch.awaited? (p : Patch) : Option NodeId :=
  match p.insertion?.map Insertion.parent with
  | some (.inserted node) => some node
  | _ => none

open Logged in
/-- The tree of the file `prev`, patched into the form of the file `new`. -/
def rebuild (grammar : Source.Grammar) (files : Folder) (settings : Settings) (prev new : String) :
    Logged Tree := do
  let src ← lift .parse (Source.parseFile grammar files "t1" prev)
  let dst ← lift .parse (Source.parseFile grammar files "t2" new)
  let diff := src.diff dst settings.matching.minMoveSize
  record (.compared diff.operations.length diff.pairs.length)
  let nodes ← lift .correspondence (Correspondence.resolve diff.pairing diff.pairs src dst)
  let revision : Revision := { src, dst, nodes }
  let patches ← lift .patch (revision.patches diff.operations)
  (patches.filterMap Patch.awaited?).forM fun n => record (.deferred (dst.ref n))
  let set := patches.foldl PatchSet.insert (.empty dst)
  record (.generated (Operation.outermost diff.operations src).length set.size)
  let outcome := set.apply src
  outcome.stages.forM fun stage => record (.reached stage)
  match outcome.error with
  | some e => throw (.patch e)
  | none => return outcome.tree

open Logged in
/-- The source text of the rebuilt file. -/
def rebuildText (grammar : Source.Grammar) (files : Folder) (settings : Settings)
    (prev new : String) : Logged String := do
  let tree ← rebuild grammar files settings prev new
  lift .tree (tree.print settings.printing.indentWidth)

end TreePatch
