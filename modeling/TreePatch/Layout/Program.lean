import TreePatch.Layout.Item
import TreePatch.Text.Classes
import TreePatch.Tree.Basic

/-!
# Printing trees

The items that a tree prints as. Members and statements stand one to a line, and the punctuation of
collection kinds is supplied, so trees of the same form print alike however their sources were laid
out.
-/

namespace TreePatch.Layout

/-- A child that is already laid out, with its role. -/
structure Part where
  role : Role
  items : List Item

/-- The items of all parts, each on lines of its own. -/
def lines (parts : List Part) : List Item :=
  parts.flatMap fun p => p.items ++ [.newline]

/-- The items of all parts, with `separator` between them. -/
def separated (separator : List Item) (parts : List Part) : List Item :=
  ((parts.map Part.items).intersperse separator).flatten

def withRole (role : Role) (parts : List Part) : List Part :=
  parts.filter fun p => p.role == role

def commaList (parts : List Part) : List Item :=
  separated [.token ","] parts

/-- Parts on lines of their own between braces. -/
def braced (parts : List Part) : List Item :=
  [.token "\x7b", .newline, .indent] ++ lines parts ++ [.dedent, .token "\x7d"]

/-- Enum constants, then whatever else the body holds, between braces. -/
def enumBody (parts : List Part) : List Item :=
  [.token "\x7b", .newline, .indent] ++
    separated [.token ",", .newline] (withRole .typeMember parts) ++
    (parts.filter fun p => p.role != .typeMember).flatMap Part.items ++
    [.newline, .dedent, .token "\x7d"]

/-- Case labels with their colons, then the indented statements. -/
def switchGroup (parts : List Part) : List Item :=
  (withRole .caseLabel parts).flatMap (fun p => p.items ++ [.glued ":", .newline]) ++
    [.indent] ++ lines (withRole .statement parts) ++ [.dedent]

/-- A token, which is an angle bracket when it delimits type arguments. -/
def leaf (parentKind : Option String) (text : String) : List Item :=
  if parentKind = some "type_arguments" ∧ (text = "<" ∨ text = ">") then
    [.angle text]
  else
    [.token text]

/-- The items of a node of the given kind and label around those of its children. -/
def assemble (parentKind : Option String) (kind label : String) (parts : List Part) : List Item :=
  match kind with
  | "class_body" | "interface_body" | "block" | "constructor_body" | "switch_block" =>
    braced parts
  | "enum_body" => enumBody parts
  | "enum_body_declarations" => [.token ";", .newline] ++ lines parts
  | "switch_block_statement_group" => switchGroup parts
  | "switch_label" =>
    if label = "default" then [.token "default"] else .token "case" :: commaList parts
  | "argument_list" | "formal_parameters" =>
    [.token "("] ++ commaList parts ++ [.token ")"]
  | "type_parameters" => [.angle "<"] ++ commaList parts ++ [.angle ">"]
  | "throws" => .token "throws" :: commaList parts
  | _ => if parts.isEmpty then leaf parentKind label else parts.flatMap Part.items

mutual

/-- The items of a subtree below a node of kind `parentKind`. -/
def items (parentKind : Option String) : Rose Content → List Item
  | .node c below => assemble parentKind c.kind c.label (parts c.kind below)

/-- The children of a node of kind `kind`, laid out. -/
def parts (kind : String) : List (Rose Content) → List Part
  | [] => []
  | r :: rs => ⟨r.value.role, items kind r⟩ :: parts kind rs

end

end TreePatch.Layout

namespace TreePatch.Tree

open Layout

/-- The subtree under `id` as a rose tree of contents. -/
def contents (t : Tree) (id : NodeId) : Rose Content :=
  (t.subtree id).map fun n => (t.node n).toContent

/-- The items of the node `id`. -/
def itemsOf (t : Tree) (id : NodeId) : List Item :=
  items ((t.parent? id).map t.kind) (t.contents id)

/-- The package declaration and the imports. -/
def header (t : Tree) : List NodeId :=
  t.childrenWithRole root .packageDeclaration ++ t.childrenWithRole root .imported

/-- The items of a whole file: header, then the declared types, with empty lines between them. -/
def programItems (t : Tree) (types : List NodeId) : List Item :=
  let line := fun id => t.itemsOf id ++ [.newline]
  t.header.flatMap line ++
    (if t.header.isEmpty || types.isEmpty then [] else [.blankLine]) ++
    ((types.map line).intersperse [.blankLine]).flatten

/-- The source text of the only compilation unit. -/
def print (t : Tree) (indentWidth : Nat) : Except TreeError String := do
  let unit ← t.onlyUnit
  return render indentWidth (t.programItems unit.declaredTypes)

/-- The source text of one subtree. -/
def printNode (t : Tree) (indentWidth : Nat) (id : NodeId) : String :=
  Text.trimEnd (render indentWidth (t.itemsOf id))

end TreePatch.Tree
