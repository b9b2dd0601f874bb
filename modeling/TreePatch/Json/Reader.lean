/-!
# Reading JSON

A cursor over a JSON text and the readers of its smallest parts. Reading stops at the first fault,
which is reported with its line and its column in bytes.
-/

namespace TreePatch.Json

/-- What is wrong with a JSON text. -/
inductive Fault where
  | endInList
  | endInObject
  | endInString
  | endInValue
  | expectedColon
  | expectedListEnd
  | expectedObjectEnd
  | expectedWord
  | expectedValue
  | invalidEscape
  | invalidNumber
  | numberOutOfRange
  | controlCharacter
  | keyNotText
  | loneSurrogate
  | endOfHexEscape
  | trailingComma
  | trailingCharacters
  /-- A well-formed value that does not fit where it stands. -/
  | misfit (what : String)
  deriving DecidableEq

namespace Fault

def message : Fault → String
  | endInList => "EOF while parsing a list"
  | endInObject => "EOF while parsing an object"
  | endInString => "EOF while parsing a string"
  | endInValue => "EOF while parsing a value"
  | expectedColon => "expected `:`"
  | expectedListEnd => "expected `,` or `]`"
  | expectedObjectEnd => "expected `,` or `\x7d`"
  | expectedWord => "expected ident"
  | expectedValue => "expected value"
  | invalidEscape => "invalid escape"
  | invalidNumber => "invalid number"
  | numberOutOfRange => "number out of range"
  | controlCharacter => "control character (\\u0000-\\u001F) found while parsing a string"
  | keyNotText => "key must be a string"
  | loneSurrogate => "lone leading surrogate in hex escape"
  | endOfHexEscape => "unexpected end of hex escape"
  | trailingComma => "trailing comma"
  | trailingCharacters => "trailing characters"
  | misfit what => what

/-- Whether the text ends too early. -/
def isEnd : Fault → Bool
  | endInList | endInObject | endInString | endInValue => true
  | _ => false

/-- Whether the text is well-formed up to a value that does not fit. -/
def isMisfit : Fault → Bool
  | misfit _ => true
  | _ => false

end Fault

/-- A fault with its place: the line, and the bytes read of that line. -/
structure Error where
  fault : Fault
  line : Nat
  column : Nat
  deriving DecidableEq

def Error.message (e : Error) : String :=
  s!"{e.fault.message} at line {e.line} column {e.column}"

/-- What is left of a text, and the place reached. -/
structure Cursor where
  rest : List Char
  line : Nat := 1
  column : Nat := 0

namespace Cursor

def ofText (text : String) : Cursor :=
  { rest := text.toList }

/-- Passes one character. -/
def next (c : Cursor) : Cursor :=
  match c.rest with
  | [] => c
  | '\n' :: rest => { rest, line := c.line + 1, column := 0 }
  | ch :: rest => { c with rest, column := c.column + ch.utf8Size }

/-- Passes `count` characters. -/
def skip (c : Cursor) : (count : Nat) → Cursor
  | 0 => c
  | count + 1 => c.next.skip count

/-- Passes the characters with a property. -/
def skipWhile (c : Cursor) (p : Char → Bool) : Cursor :=
  c.skip (c.rest.takeWhile p).length

def skipBlanks (c : Cursor) : Cursor :=
  c.skipWhile fun ch => ch == ' ' || ch == '\n' || ch == '\t' || ch == '\r'

/-- A fault at the place reached. -/
def fault (c : Cursor) (f : Fault) : Error :=
  ⟨f, c.line, c.column⟩

/-- A fault one byte further on. -/
def faultAhead (c : Cursor) (f : Fault) : Error :=
  match c.rest with
  | [] => c.fault f
  | '\n' :: _ => ⟨f, c.line + 1, 0⟩
  | _ => ⟨f, c.line, c.column + 1⟩

/-- A fault some bytes further on, or at the end of the text. -/
def faultAfter (c : Cursor) (f : Fault) : (bytes : Nat) → List Char → Error
  | _, [] => c.fault f
  | bytes, ch :: rest =>
    if bytes < ch.utf8Size then ⟨f, c.line, c.column + bytes⟩
    else faultAfter c.next f (bytes - ch.utf8Size) rest

end Cursor

/-- A computation that reads on from a cursor. -/
abbrev Reader := StateT Cursor (Except Error)

namespace Reader

/-- Stops at the place reached. -/
def failHere {α : Type} (f : Fault) : Reader α := do
  throw ((← get).fault f)

/-- Stops one byte further on. -/
def failAhead {α : Type} (f : Fault) : Reader α := do
  throw ((← get).faultAhead f)

/-- Stops some bytes back on the same line. -/
def failBack {α : Type} (bytes : Nat) (f : Fault) : Reader α := do
  let c ← get
  throw ⟨f, c.line, c.column - bytes⟩

def advance : Reader Unit :=
  modify Cursor.next

def peek? : Reader (Option Char) := do
  return (← get).rest.head?

/-- The next character behind blanks. -/
def peekValue? : Reader (Option Char) := do
  modify Cursor.skipBlanks
  peek?

/-- Passes the characters with a property and returns them. -/
def span (p : Char → Bool) : Reader (List Char) := do
  let c ← get
  set (c.skipWhile p)
  return c.rest.takeWhile p

/-- Passes the rest of a word of which the first letter is known. -/
def word : List Char → Reader Unit
  | [] => return
  | letter :: letters => do
    match ← peek? with
    | none => failHere .endInValue
    | some ch =>
      if ch = letter then
        advance
        word letters
      else
        failAhead .expectedWord

/-! ## Numbers -/

/-- A number as written. -/
structure Numeral where
  negative : Bool
  whole : List Char
  fraction : List Char
  /-- Whether the exponent is negative, and its digits. -/
  exponent : Option (Bool × List Char)

def isDigit (ch : Char) : Bool :=
  '0' ≤ ch && ch ≤ '9'

/-- One or more digits; `atEnd` is the fault if the text ends before the first. -/
def digits (atEnd : Fault) : Reader (List Char) := do
  match ← peek? with
  | none => failHere atEnd
  | some ch => if isDigit ch then span isDigit else failAhead .invalidNumber

/-- The digits before the point, without superfluous zeros. -/
def wholeDigits (atEnd : Fault) : Reader (List Char) := do
  match ← peek? with
  | some '0' =>
    advance
    match ← peek? with
    | some ch => if isDigit ch then failAhead .invalidNumber else return ['0']
    | none => return ['0']
  | _ => digits atEnd

def fractionDigits (atEnd : Fault) : Reader (List Char) := do
  match ← peek? with
  | some '.' =>
    advance
    digits atEnd
  | _ => return []

def exponentDigits (atEnd : Fault) : Reader (Option (Bool × List Char)) := do
  match ← peek? with
  | some 'e' | some 'E' =>
    advance
    match ← peek? with
    | some '-' =>
      advance
      return some (true, ← digits atEnd)
    | some '+' =>
      advance
      return some (false, ← digits atEnd)
    | _ => return some (false, ← digits atEnd)
  | _ => return none

/-- A number. -/
def numeral (atEnd : Fault) : Reader Numeral := do
  let negative := (← peek?) == some '-'
  if negative then
    advance
  let whole ← wholeDigits atEnd
  let fraction ← fractionDigits atEnd
  let exponent ← exponentDigits atEnd
  return { negative, whole, fraction, exponent }

/-! ## Texts -/

def hexValue? (ch : Char) : Option Nat :=
  if isDigit ch then some (ch.toNat - '0'.toNat)
  else if 'a' ≤ ch && ch ≤ 'f' then some (ch.toNat - 'a'.toNat + 10)
  else if 'A' ≤ ch && ch ≤ 'F' then some (ch.toNat - 'A'.toNat + 10)
  else none

/-- Four hexadecimal digits. Of a text that goes on, four bytes are taken to see them. -/
def hexUnit : Reader Nat := do
  let c ← get
  match (c.rest.take 4).mapM hexValue? with
  | some [a, b, d, e] =>
    set (c.skip 4)
    return [a, b, d, e].foldl (fun n v => n * 16 + v) 0
  | _ =>
    let left := (String.ofList (c.rest.take 4)).utf8ByteSize
    throw (c.faultAfter (if left < 4 then .endInString else .invalidEscape) 4 c.rest)

def isLeading (unit : Nat) : Bool :=
  0xD800 ≤ unit && unit ≤ 0xDBFF

def isTrailing (unit : Nat) : Bool :=
  0xDC00 ≤ unit && unit ≤ 0xDFFF

/-- Passes a character that has to follow within an escape. -/
def expectInEscape (ch : Char) : Reader Unit := do
  match ← peek? with
  | none => failHere .endInString
  | some found =>
    if found = ch then
      advance
    else
      failAhead .endOfHexEscape

/-- The character written by a `u` escape, which is two such escapes beyond the first 2¹⁶. -/
def unicodeEscape : Reader Char := do
  let first ← hexUnit
  if isTrailing first then
    failHere .loneSurrogate
  else if isLeading first then
    expectInEscape '\\'
    expectInEscape 'u'
    let second ← hexUnit
    if isTrailing second then
      return Char.ofNat (0x10000 + (first - 0xD800) * 0x400 + (second - 0xDC00))
    else
      failHere .loneSurrogate
  else
    return Char.ofNat first

/-- The character that a one-letter escape stands for. -/
def shortEscape? : Char → Option Char
  | '"' => some '"'
  | '\\' => some '\\'
  | '/' => some '/'
  | 'b' => some '\x08'
  | 'f' => some '\x0c'
  | 'n' => some '\n'
  | 'r' => some '\r'
  | 't' => some '\t'
  | _ => none

/-- An escape behind its backslash, where `unicode` reads what follows a `u`. -/
def escape {α : Type} (short : Char → α) (unicode : Reader α) : Reader α := do
  match ← peek? with
  | none => failHere .endInString
  | some ch =>
    match shortEscape? ch with
    | some meant =>
      advance
      return short meant
    | none =>
      if ch = 'u' then
        advance
        unicode
      else
        failAhead .invalidEscape

/-- The characters up to the closing quote, in reverse in front of `read`. -/
def textFrom : (bound : Nat) → (read : List Char) → Reader (List Char)
  | 0, _ => failHere .endInString
  | bound + 1, read => do
    match ← peek? with
    | none => failHere .endInString
    | some '"' =>
      advance
      return read
    | some '\\' =>
      advance
      let ch ← escape id unicodeEscape
      textFrom bound (ch :: read)
    | some ch =>
      if ch.toNat < 0x20 then
        failAhead .controlCharacter
      else
        advance
        textFrom bound (ch :: read)

/-- A text behind its opening quote. -/
def text : Reader String := do
  let read ← textFrom ((← get).rest.length + 1) []
  return String.ofList read.reverse

/-- Passes a text of which the escaped characters do not matter. -/
def skipTextFrom : (bound : Nat) → Reader Unit
  | 0 => failHere .endInString
  | bound + 1 => do
    match ← peek? with
    | none => failHere .endInString
    | some '"' => advance
    | some '\\' =>
      advance
      escape (fun _ => ()) (hexUnit *> pure ())
      skipTextFrom bound
    | some ch =>
      if ch.toNat < 0x20 then
        failHere .controlCharacter
      else
        advance
        skipTextFrom bound

/-- Passes a text behind its opening quote. -/
def skipText : Reader Unit := do
  skipTextFrom ((← get).rest.length + 1)

end Reader

end TreePatch.Json
