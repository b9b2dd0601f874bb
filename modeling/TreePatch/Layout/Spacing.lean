import TreePatch.Text.Classes

/-!
# Spacing

Whether a blank separates two neighbouring tokens of one line.
-/

namespace TreePatch.Layout

/-- A printed token. Angle brackets of type argument and type parameter lists are marked, because
they are spaced unlike comparison operators. -/
structure Token where
  text : String
  angle : Bool
  deriving DecidableEq

/-- Keywords that are followed by a parenthesised clause. -/
def controlKeywords : List String :=
  ["if", "for", "while", "switch", "catch", "synchronized", "try", "return", "throw", "case",
    "assert", "yield"]

/-- Keywords that may directly precede a type parameter list. -/
def modifierKeywords : List String :=
  ["public", "protected", "private", "static", "final", "abstract", "synchronized", "native",
    "default", "strictfp"]

/-- Whether a character can be part of a word or ends a literal. -/
def isWordChar (c : Char) : Bool :=
  Text.isAlphanumeric c || c == '_' || c == '$' || c == '"' || c == '\''

/-- Whether a text ends like a word or a literal. -/
def endsInWord (text : String) : Bool :=
  text.toList.getLast?.any isWordChar

/-- Tokens that stand close to a closing angle bracket before them. -/
def closeToAngle : List String :=
  ["(", ")", ",", ".", ";", "[", "::"]

/-- Tokens that stand close to whatever is before them. -/
def closeBefore : List String :=
  [",", ";", ")", "]", ".", "::"]

/-- Tokens that stand close to whatever is after them. -/
def closeAfter : List String :=
  ["(", "[", ".", "@", "::", "!", "~"]

/-- Whether a blank stands between the token `prev` and the token `next` on one line. -/
def needsSpace (prev next : Token) : Bool :=
  if next.angle then
    next.text == "<" &&
      (modifierKeywords.contains prev.text || (!endsInWord prev.text && !prev.angle))
  else if prev.angle then
    prev.text == ">" && !closeToAngle.contains next.text
  else if closeBefore.contains next.text then
    false
  else if (next.text == "++" || next.text == "--") && endsInWord prev.text then
    false
  else if closeAfter.contains prev.text then
    false
  else if next.text == "(" || next.text == "[" then
    !(endsInWord prev.text && !controlKeywords.contains prev.text) && prev.text != ")" &&
      prev.text != "]"
  else
    true

end TreePatch.Layout
