import TreePatch.Rose

/-!
# Concrete syntax trees

The tree that the Java grammar makes of a source text, given as the preorder listing of its nodes,
and the written form of such a listing.
-/

namespace TreePatch.Source

/-- One node of a concrete syntax tree. -/
structure Row where
  depth : Nat
  kind : String
  named : Bool
  /-- A comment, which may stand anywhere. -/
  extra : Bool
  /-- Supplied by the parser where the text lacks a token. -/
  missing : Bool
  /-- Text that the grammar does not cover. -/
  faulty : Bool
  /-- The field of the parent that the node fills. -/
  field : Option String
  /-- Line of the first character, from zero. -/
  line : Nat
  /-- Column of the first character in bytes, from zero. -/
  column : Nat
  startByte : Nat
  endByte : Nat

/-- Sets the four marks of a row from the bits of a number: named, extra, missing and faulty. -/
def Row.withMarks (row : Row) (bits : Nat) : Row :=
  { row with
    named := bits.testBit 0, extra := bits.testBit 1, missing := bits.testBit 2,
    faulty := bits.testBit 3 }

/-- A concrete syntax tree. -/
abbrev Concrete := Rose Row

/-- The tree of a preorder listing. -/
def Concrete.ofRows? (rows : List Row) : Option Concrete :=
  (Rose.ofDepths Row.depth rows).head?

/-- The grammar: it lists the concrete syntax tree of a source text. -/
abbrev Grammar := String → List Row

/-!
### Written listings

One line per node in preorder, with the columns depth, kind, marks, field, line, column, first byte and
last byte, separated by tabs. An empty field column means that the node fills no field.
-/

/-- The row that a line of a listing writes. -/
def Row.ofLine? (line : String) : Option Row := do
  match line.splitOn "\t" with
  | [depth, kind, marks, field, row, column, startByte, endByte] =>
    let read : Row :=
      { depth := ← depth.toNat?, kind, field := if field.isEmpty then none else some field,
        line := ← row.toNat?, column := ← column.toNat?, startByte := ← startByte.toNat?,
        endByte := ← endByte.toNat?, named := false, extra := false, missing := false,
        faulty := false }
    return read.withMarks (← marks.toNat?)
  | _ => none

/-- The rows that a listing writes; none if one of its lines is malformed. -/
def Row.ofListing? (text : String) : Option (List Row) :=
  ((text.splitOn "\n").filter (· != "")).mapM Row.ofLine?

end TreePatch.Source
