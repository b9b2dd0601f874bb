import TreePatch.Settings.Basic

/-!
# Writing settings

Settings are written as JSON with two blanks per level, all fields in order.
-/

namespace TreePatch

namespace Json

/-- A character within a quoted text. -/
def escaped (ch : Char) : String :=
  if ch = '"' then "\\\""
  else if ch = '\\' then "\\\\"
  else if ch = '\x08' then "\\b"
  else if ch = '\t' then "\\t"
  else if ch = '\n' then "\\n"
  else if ch = '\x0c' then "\\f"
  else if ch = '\r' then "\\r"
  else if ch.toNat < 0x20 then
    "\\u00" ++ String.ofList [Nat.digitChar (ch.toNat / 16), Nat.digitChar (ch.toNat % 16)]
  else
    ch.toString

/-- A text as a JSON string. -/
def quote (text : String) : String :=
  "\"" ++ String.join (text.toList.map escaped) ++ "\""

/-- An object at nesting level `level`, with members that are already written. -/
def object (level : Nat) (members : List (String × String)) : String :=
  let indent := fun n => "\n" ++ String.ofList (List.replicate (2 * n) ' ')
  let written := members.map fun (key, value) => indent (level + 1) ++ quote key ++ ": " ++ value
  "\x7b" ++ String.intercalate "," written ++ indent level ++ "\x7d"

end Json

namespace Settings

/-- The text of a settings file. -/
def encode (s : Settings) : String :=
  Json.object 0 [
    ("matching", Json.object 1 [("min_move_size", toString s.matching.minMoveSize)]),
    ("printer", Json.object 1 [("indent_width", toString s.printing.indentWidth)]),
    ("logging", Json.object 1 [
      ("filter", Json.quote s.logging.filter),
      ("directory", (s.logging.directory.map Json.quote).getD "null")])]

end Settings

end TreePatch
