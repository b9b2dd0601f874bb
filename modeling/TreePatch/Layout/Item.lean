import TreePatch.Layout.Spacing

/-!
# Laying out tokens

A text to be printed is a list of items: tokens, line ends and changes of the indentation. Laying it
out yields pieces, each of which is either a token or white space put between tokens.
-/

namespace TreePatch.Layout

/-- What a text to be printed is made of. -/
inductive Item where
  | token (text : String)
  /-- An angle bracket of a type argument or type parameter list. -/
  | angle (text : String)
  /-- A token that follows the previous one without a blank. -/
  | glued (text : String)
  /-- Ends the line, unless nothing is on it. -/
  | newline
  /-- Ends the line and leaves one line empty. -/
  | blankLine
  | indent
  | dedent
  deriving DecidableEq

/-- A stretch of the printed text. -/
inductive Piece where
  | token (text : String)
  | blanks (count : Nat)
  | lineEnd
  deriving DecidableEq

def Piece.text : Piece → String
  | token text => text
  | blanks count => String.ofList (List.replicate count ' ')
  | lineEnd => "\n"

/-- Where printing has got to. -/
structure Pen where
  depth : Nat := 0
  lineStart : Bool := true
  last : Option Token := none
  deriving DecidableEq

namespace Pen

/-- The white space in front of `token`: the indentation at the start of a line, else a blank if one
is needed and not suppressed. -/
def gap (pen : Pen) (width : Nat) (token : Token) (glued : Bool) : List Piece :=
  if pen.lineStart then
    [.blanks (pen.depth * width)]
  else if !glued && pen.last.any (needsSpace · token) then
    [.blanks 1]
  else
    []

def writeToken (pen : Pen) (width : Nat) (token : Token) (glued : Bool) : List Piece × Pen :=
  (pen.gap width token glued ++ [.token token.text],
    { pen with lineStart := false, last := some token })

def endLine (pen : Pen) : List Piece × Pen :=
  if pen.lineStart then ([], pen) else ([.lineEnd], { pen with lineStart := true })

/-- Prints one item. -/
def write (pen : Pen) (width : Nat) : Item → List Piece × Pen
  | .token text => pen.writeToken width ⟨text, false⟩ false
  | .angle text => pen.writeToken width ⟨text, true⟩ false
  | .glued text => pen.writeToken width ⟨text, false⟩ true
  | .newline => pen.endLine
  | .blankLine =>
    let (pieces, pen) := pen.endLine
    (pieces ++ [.lineEnd], pen)
  | .indent => ([], { pen with depth := pen.depth + 1 })
  | .dedent => ([], { pen with depth := pen.depth - 1 })

end Pen

/-- The pieces that a list of items prints as, with `width` blanks per level of indentation. -/
def pieces (width : Nat) (pen : Pen) : List Item → List Piece
  | [] => []
  | item :: items =>
    let (printed, pen) := pen.write width item
    printed ++ pieces width pen items

/-- The text that a list of items prints as. -/
def render (width : Nat) (items : List Item) : String :=
  String.join ((pieces width {} items).map Piece.text)

end TreePatch.Layout
