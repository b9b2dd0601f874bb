import TreePatch.Role

/-!
# Kinds of Java syntax

How the kinds of nodes that the Java grammar knows are grouped, and the roles that they give to the
nodes below them.
-/

namespace TreePatch.Source

/-- Kinds whose text is kept whole instead of being split into tokens. -/
def isAtomic (kind : String) : Bool :=
  kind ∈ ["string_literal", "character_literal", "text_block"]

/-- Kinds whose delimiters and separators are not kept, because printing supplies them. -/
def isCollectionKind (kind : String) : Bool :=
  kind ∈ ["class_body", "interface_body", "enum_body", "enum_body_declarations", "block",
    "constructor_body", "switch_block", "switch_block_statement_group", "switch_label",
    "argument_list", "formal_parameters", "type_parameters", "throws", "modifiers"]

def isTypeDeclaration (kind : String) : Bool :=
  kind ∈ ["class_declaration", "interface_declaration", "enum_declaration", "record_declaration",
    "annotation_type_declaration"]

def isAnnotationKind (kind : String) : Bool :=
  kind ∈ ["annotation", "marker_annotation"]

/-- Kinds whose children form a set, so that their order carries no meaning. -/
def isUnordered (kind : String) : Bool :=
  kind ∈ ["modifiers", "throws"]

/-- The role of a named child of a collection kind. -/
def memberRole (parentKind childKind : String) : Role :=
  match parentKind with
  | "class_body" | "interface_body" | "enum_body_declarations" => .typeMember
  | "enum_body" => if childKind = "enum_body_declarations" then .slot .body else .typeMember
  | "block" | "constructor_body" => .statement
  | "switch_block" => .case
  | "switch_block_statement_group" => if childKind = "switch_label" then .caseLabel else .statement
  | "switch_label" => .caseExpression
  | "argument_list" => .argument
  | "formal_parameters" => .parameter
  | "type_parameters" => .typeParameter
  | "throws" => .thrown
  | "modifiers" => if isAnnotationKind childKind then .annotationUse else .modifier
  | _ => .child

/-- The role of a top-level node of a source file. -/
def topLevelRole (kind : String) : Role :=
  if kind = "package_declaration" then .packageDeclaration
  else if kind = "import_declaration" then .imported
  else if isTypeDeclaration kind then .containedType
  else .child

end TreePatch.Source
