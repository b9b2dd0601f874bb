/-!
# Roles

A role is the relationship of a node to its parent. Some roles denote an ordered sibling collection,
some may repeat under one parent without forming a collection, and some hold at most one node.
-/

namespace TreePatch

/-- A named field of a syntax node. -/
inductive Slot where
  | name
  | type
  | body
  | condition
  | consequence
  | alternative
  | value
  | left
  | right
  | operand
  | object
  | field
  | arguments
  | parameters
  | typeParameters
  | typeArguments
  | superclass
  | interfaces
  | permits
  | declarator
  | dimensions
  | init
  | update
  | index
  | array
  | element
  | pattern
  | resources
  | constructor
  | scope
  | key
  deriving DecidableEq

namespace Slot

/-- Every slot, in order. -/
def all : List Slot :=
  [name, type, body, condition, consequence, alternative, value, left, right, operand, object,
    field, arguments, parameters, typeParameters, typeArguments, superclass, interfaces, permits,
    declarator, dimensions, init, update, index, array, element, pattern, resources, constructor,
    scope, key]

/-- The field's name in the grammar. -/
def fieldName : Slot → String
  | name => "name"
  | type => "type"
  | body => "body"
  | condition => "condition"
  | consequence => "consequence"
  | alternative => "alternative"
  | value => "value"
  | left => "left"
  | right => "right"
  | operand => "operand"
  | object => "object"
  | field => "field"
  | arguments => "arguments"
  | parameters => "parameters"
  | typeParameters => "type_parameters"
  | typeArguments => "type_arguments"
  | superclass => "superclass"
  | interfaces => "interfaces"
  | permits => "permits"
  | declarator => "declarator"
  | dimensions => "dimensions"
  | init => "init"
  | update => "update"
  | index => "index"
  | array => "array"
  | element => "element"
  | pattern => "pattern"
  | resources => "resources"
  | constructor => "constructor"
  | scope => "scope"
  | key => "key"

/-- The slot with a given field name. -/
def ofField? (field : String) : Option Slot :=
  all.find? fun slot => slot.fieldName == field

/-- Several declarators, dimensions, initialisers and updates may stand under one parent. -/
def isRepeatable : Slot → Bool
  | declarator | dimensions | init | update => true
  | _ => false

end Slot

/-- How a node hangs off its parent. -/
inductive Role where
  /-- The package root, which has no parent. -/
  | root
  | statement
  | argument
  | typeMember
  | typeParameter
  | parameter
  /-- A top-level type of a compilation unit. -/
  | containedType
  | case
  | caseExpression
  | annotationUse
  | thrown
  | imported
  /-- A modifier keyword, or the modifier list of a declaration. -/
  | modifier
  | packageDeclaration
  | caseLabel
  /-- A named field of the parent. -/
  | slot (slot : Slot)
  /-- An unnamed child of a node that keeps its own tokens. -/
  | child
  /-- An anonymous token: keyword, operator or punctuation. -/
  | token
  deriving DecidableEq

namespace Role

/-- Every role, in order. -/
def all : List Role :=
  [root, statement, argument, typeMember, typeParameter, parameter, containedType, case,
    caseExpression, annotationUse, thrown, imported, modifier, packageDeclaration, caseLabel] ++
  Slot.all.map slot ++ [child, token]

/-- The display name of a role; a slot shows its field name. -/
def name : Role → String
  | root => "root"
  | statement => "statement"
  | argument => "argument"
  | typeMember => "type_member"
  | typeParameter => "type_parameter"
  | parameter => "parameter"
  | containedType => "contained_type"
  | case => "case"
  | caseExpression => "case_expression"
  | annotationUse => "annotation"
  | thrown => "thrown"
  | imported => "import"
  | modifier => "modifier"
  | packageDeclaration => "package_declaration"
  | caseLabel => "case_label"
  | slot s => s.fieldName
  | child => "child"
  | token => "token"

/-- The role with a given display name. -/
def ofName? (name : String) : Option Role :=
  all.find? fun role => role.name == name

/-- The place of a role in the order of `all`. -/
def rank (role : Role) : Nat :=
  all.idxOf role

/-- Whether the role denotes an ordered sibling collection. -/
def isCollection : Role → Bool
  | statement | argument | typeMember | typeParameter | parameter | containedType | case
  | caseExpression | annotationUse | thrown | imported => true
  | _ => false

/-- Whether several siblings may share the role although it denotes no collection, so that an
ordinal is needed to address one of them. -/
def isRepeatable : Role → Bool
  | child | token | caseLabel | modifier => true
  | slot s => s.isRepeatable
  | _ => false

/-- Whether the role holds at most one node per parent. -/
def isSingleSlot : Role → Bool
  | packageDeclaration => true
  | slot s => !s.isRepeatable
  | _ => false

end Role

end TreePatch
