import TreePatch.Source.Concrete
import TreePatch.Source.Kind
import TreePatch.Tree.Basic

/-!
# From concrete syntax to trees

Every kept node gets a role: members of collection kinds by the kind of their parent, named fields a
slot, and anonymous tokens the token role. Comments are dropped, and so is the punctuation of
collection kinds.
-/

namespace TreePatch.Source

/-- A source text to be converted, with the name under which positions record it. -/
structure Document where
  file : String
  bytes : ByteArray

namespace Document

def ofText (file text : String) : Document :=
  { file, bytes := text.toUTF8 }

/-- The text that a row covers; empty when its bytes are not a text. -/
def textOf (d : Document) (row : Row) : String :=
  (String.fromUTF8? (d.bytes.extract row.startByte row.endByte)).getD ""

def positionOf (d : Document) (row : Row) : Position :=
  { file := d.file, line := row.line + 1, column := row.column + 1 }

/-- The node for a row that is kept without the rows below it. -/
def leaf (d : Document) (role : Role) (row : Row) : Content :=
  if row.missing then
    { kind := row.kind, label := row.kind, role, implicit := true }
  else
    { kind := row.kind, label := d.textOf row, role, position := some (d.positionOf row) }

/-- The keyword that tells a switch label apart; other interior nodes have no label. -/
def interiorLabel (row : Row) (below : List Concrete) : String :=
  if row.kind = "switch_label" then
    if below.any fun r => r.value.kind == "default" then "default" else "case"
  else
    ""

/-- The node for a row that is kept together with rows below it. -/
def interior (d : Document) (role : Role) (row : Row) (below : List Concrete) : Content :=
  { kind := row.kind, label := interiorLabel row below, role,
    position := some (d.positionOf row), implicit := row.missing }

/-- The role of a row under a node of the given kind; none when the row is dropped. -/
def roleUnder? (parentKind : String) (row : Row) : Option Role :=
  if row.extra then
    none
  else if isCollectionKind parentKind then
    if row.named then some (memberRole parentKind row.kind)
    else if parentKind = "modifiers" then some .modifier
    else none
  else if !row.named then
    some .token
  else if row.kind = "modifiers" then
    some .modifier
  else
    some (((row.field.bind Slot.ofField?).map Role.slot).getD .child)

mutual

/-- The nodes made of a concrete subtree. -/
def convert (d : Document) (role : Role) : Concrete → Rose Content
  | .node row below =>
    if below.isEmpty || isAtomic row.kind then
      .node (d.leaf role row) []
    else
      .node (d.interior role row below) (d.convertBelow row.kind below)

/-- The nodes made of the concrete subtrees below a node of the given kind. -/
def convertBelow (d : Document) (parentKind : String) : List Concrete → List (Rose Content)
  | [] => []
  | r :: rs =>
    match roleUnder? parentKind r.value with
    | some role => d.convert role r :: d.convertBelow parentKind rs
    | none => d.convertBelow parentKind rs

end

/-- The nodes directly below the package root. -/
def convertTop (d : Document) (program : Concrete) : List (Rose Content) :=
  (program.children.filter fun r => !r.value.extra && r.value.named).map fun r =>
    d.convert (topLevelRole r.value.kind) r

end Document

end TreePatch.Source
