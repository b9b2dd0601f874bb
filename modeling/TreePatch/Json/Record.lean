import TreePatch.Json.Numeral
import TreePatch.Json.Skip
import TreePatch.Text.Quoted

/-!
# Reading records

Records are written as objects, where unknown members are passed over, or as lists of their fields in
order, where missing ones at the end keep their defaults.
-/

namespace TreePatch.Json

/-- A field of records of type `σ`: its name, and how its value is read into a record. -/
structure Member (σ : Type) where
  name : String
  read : σ → Reader σ

namespace Reader

variable {σ : Type}

/-! ## Single values -/

/-- What was found in place of an expected value. -/
inductive Found where
  | null
  | boolean (value : Bool)
  | natural (value : Nat)
  | negative (value : Nat)
  | real (minus : Bool) (value : Double)
  | text (value : String)
  | list
  | object

def Found.name : Found → String
  | null => "null"
  | boolean true => "boolean `true`"
  | boolean false => "boolean `false`"
  | natural n => s!"integer `{n}`"
  | negative n => s!"integer `-{n}`"
  | real minus value =>
    let sign := if minus then "-" else ""
    s!"floating point `{sign}{value.shortest.text}`"
  | text value => s!"string {Text.quoted value}"
  | list => "sequence"
  | object => "map"

def misfit {α : Type} (found : Found) (expected : String) : Reader α :=
  failHere (.misfit s!"invalid type: {found.name}, expected {expected}")

/-- A number as it is taken for a value: an integer if it is written as one and fits into 64 bits. -/
def number : Reader Found := do
  let n ← numeral .endInValue
  match n.natural? with
  | some value =>
    if !n.negative then return .natural value
    else if value = 0 || 0x8000000000000000 < value then
      match Double.nearest? value 1 with
      | some d => return .real true d
      | none => failHere .numberOutOfRange
    else return .negative value
  | none =>
    match n.double? with
    | .ok d => return .real n.negative d
    | .error unread => failBack unread .numberOutOfRange

/-- Reads the start of a value that does not fit, and stops. -/
def unexpected {α : Type} (expected : String) : Reader α := do
  match ← peek? with
  | some 'n' =>
    advance
    word ['u', 'l', 'l']
    misfit .null expected
  | some 't' =>
    advance
    word ['r', 'u', 'e']
    misfit (.boolean true) expected
  | some 'f' =>
    advance
    word ['a', 'l', 's', 'e']
    misfit (.boolean false) expected
  | some '"' =>
    advance
    misfit (.text (← text)) expected
  | some '[' => misfit .list expected
  | some '\x7b' => misfit .object expected
  | some ch =>
    if ch = '-' || isDigit ch then
      misfit (← number) expected
    else
      failAhead .expectedValue
  | none => failAhead .expectedValue

/-- A natural number below 2⁶⁴. -/
def natural : Reader Nat := do
  match ← peekValue? with
  | none => failAhead .endInValue
  | some ch =>
    if ch = '-' || isDigit ch then
      match ← number with
      | .natural value => return value
      | .negative value => failHere (.misfit s!"invalid value: integer `-{value}`, expected usize")
      | found => misfit found "usize"
    else
      unexpected "usize"

/-- A text, called `expected` in messages. -/
def quoted (expected : String) : Reader String := do
  match ← peekValue? with
  | none => failAhead .endInValue
  | some '"' =>
    advance
    text
  | some _ => unexpected expected

/-- A value that may be `null`. -/
def nullable {α : Type} (value : Reader α) : Reader (Option α) := do
  match ← peekValue? with
  | some 'n' =>
    advance
    word ['u', 'l', 'l']
    return none
  | _ => some <$> value

/-! ## Lists -/

/-- Whether a list goes on behind an element, or, if `first`, behind its bracket. -/
def hasElement (first : Bool) : Reader Bool := do
  match ← peekValue? with
  | some ']' => return false
  | none => failAhead .endInList
  | some ch =>
    if first then
      return true
    else if ch = ',' then
      advance
      match ← peekValue? with
      | some ']' => failAhead .trailingComma
      | some _ => return true
      | none => failAhead .endInValue
    else
      failAhead .expectedListEnd

/-- The fields of a record from the elements of a list. -/
def elements : (first : Bool) → List (Member σ) → σ → Reader σ
  | _, [], record => return record
  | first, field :: fields, record => do
    if ← hasElement first then
      elements false fields (← field.read record)
    else
      return record

/-- Passes the end of a list. -/
def endList : Reader Unit := do
  match ← peekValue? with
  | some ']' => advance
  | some ',' =>
    advance
    match ← peekValue? with
    | some ']' => failAhead .trailingComma
    | _ => failAhead .trailingCharacters
  | some _ => failAhead .trailingCharacters
  | none => failAhead .endInList

/-! ## Objects -/

/-- Whether an object goes on behind a member, or, if `first`, behind its brace. -/
def hasMember (first : Bool) : Reader Bool := do
  match ← peekValue? with
  | some '\x7d' => return false
  | none => failAhead .endInObject
  | some ch =>
    if first then
      if ch = '"' then return true else failAhead .keyNotText
    else if ch = ',' then
      advance
      match ← peekValue? with
      | some '"' => return true
      | some '\x7d' => failAhead .trailingComma
      | some _ => failAhead .keyNotText
      | none => failAhead .endInValue
    else
      failAhead .expectedObjectEnd

def colon : Reader Unit := do
  match ← peekValue? with
  | some ':' => advance
  | some _ => failAhead .expectedColon
  | none => failAhead .endInObject

/-- Stops at a member that occurs for the second time. The place is behind the brace that closes the
object, if that follows. -/
def duplicate {α : Type} (name : String) : Reader α := do
  if (← peekValue?) == some '\x7d' then
    advance
  failHere (.misfit s!"duplicate field `{name}`")

/-- The fields of a record from the members of an object, except those in `seen`. -/
def members (fields : List (Member σ)) : (bound : Nat) → (first : Bool) → (seen : List String) → σ →
    Reader σ
  | 0, _, _, _ => failHere .endInObject
  | bound + 1, first, seen, record => do
    if ← hasMember first then
      advance
      let key ← text
      match fields.find? fun field => field.name == key with
      | none =>
        colon
        skipValue
        members fields bound false seen record
      | some field =>
        if seen.contains key then
          duplicate key
        else
          colon
          members fields bound false (key :: seen) (← field.read record)
    else
      return record

/-- Passes the end of an object. -/
def endObject : Reader Unit := do
  match ← peekValue? with
  | some '\x7d' => advance
  | some ',' => failAhead .trailingComma
  | some _ => failAhead .trailingCharacters
  | none => failAhead .endInObject

/-- A record with the given fields, called `expected` in messages; fields that are not written are
those of `record`. -/
def record (expected : String) (fields : List (Member σ)) (record : σ) : Reader σ := do
  match ← peekValue? with
  | none => failAhead .endInValue
  | some '[' =>
    advance
    let read ← elements true fields record
    endList
    return read
  | some '\x7b' =>
    advance
    let read ← members fields ((← get).rest.length + 1) true [] record
    endObject
    return read
  | some _ => unexpected expected

/-- The value that a whole text writes. -/
def ofText {α : Type} (value : Reader α) (source : String) : Except Error α := do
  let whole : Reader α := do
    let read ← value
    match ← peekValue? with
    | none => return read
    | some _ => failAhead .trailingCharacters
  return (← whole.run (.ofText source)).1

end Reader

end TreePatch.Json
