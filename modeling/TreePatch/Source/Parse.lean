import TreePatch.File.Folder
import TreePatch.Source.Convert

/-!
# Trees of source files
-/

namespace TreePatch.Source

/-- Why a source file yields no tree. -/
inductive ParseError where
  | notFound (path : String)
  | unreadable (path : String) (cause : FileError)
  /-- The grammar does not cover the text from this place on. -/
  | malformed (path : String) (line column : Nat)
  deriving DecidableEq

namespace ParseError

def message : ParseError → String
  | notFound path => s!"file not found: {path}"
  | unreadable path _ => s!"could not read {path}"
  | malformed path line column => s!"syntax error in {path} at {line}:{column}"

/-- The failure behind an error, if there is one. -/
def cause? : ParseError → Option FileError
  | unreadable _ cause => some cause
  | _ => none

end ParseError

/-- The tree of a source text with the given concrete syntax. -/
def parse (name file text : String) (rows : List Row) : Except ParseError Tree :=
  match rows.find? Row.faulty with
  | some row => .error (.malformed file (row.line + 1) (row.column + 1))
  | none =>
    let document := Document.ofText file text
    let top := (Concrete.ofRows? rows).elim [] document.convertTop
    .ok (Tree.ofRose name file (.node Tree.rootContent top))

/-- The tree of a source file. -/
def parseFile (grammar : Grammar) (files : Folder) (name path : String) : Except ParseError Tree :=
  match files.read path with
  | .ok text => parse name path text (grammar text)
  | .error .notFound => .error (.notFound path)
  | .error cause => .error (.unreadable path cause)

end TreePatch.Source
