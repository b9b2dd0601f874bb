import TreePatch.Json.Reader

/-!
# Passing over values

Values that nobody asks for have to be well-formed, but may be nested to any depth and hold numbers of
any size.
-/

namespace TreePatch.Json

/-- An open list or object. -/
inductive Frame where
  | list
  | object
  deriving DecidableEq

namespace Reader

/-- Passes the key of a member and its colon. -/
def skipKey : Reader Unit := do
  match ← peekValue? with
  | some '"' =>
    advance
    skipText
  | some _ => failAhead .keyNotText
  | none => failAhead .endInObject
  match ← peekValue? with
  | some ':' => advance
  | some _ => failAhead .expectedColon
  | none => failAhead .endInObject

/-- Passes a value without parts, or opens a list or an object. -/
def skipSimple : Reader (Option Frame) := do
  match ← peekValue? with
  | none => failAhead .endInValue
  | some ch =>
    match ch with
    | 'n' =>
      advance
      word ['u', 'l', 'l']
      return none
    | 't' =>
      advance
      word ['r', 'u', 'e']
      return none
    | 'f' =>
      advance
      word ['a', 'l', 's', 'e']
      return none
    | '"' =>
      advance
      skipText
      return none
    | '[' =>
      advance
      return some .list
    | '\x7b' =>
      advance
      return some .object
    | _ =>
      if ch = '-' || isDigit ch then
        let _ ← numeral .invalidNumber
        return none
      else
        failAhead .expectedValue

/-- Goes on behind a part of the innermost of the open `frames`, closing those that end here. The
result says which frame the next part belongs to, or none when everything is closed. -/
def closeFrames : (comma : Bool) → List Frame → Reader (List Frame)
  | _, [] => return []
  | comma, frame :: frames => do
    match ← peekValue?, frame with
    | some ']', .list | some '\x7d', .object =>
      advance
      closeFrames true frames
    | some ch, _ =>
      if comma then
        if ch = ',' then
          advance
          return frame :: frames
        else
          failAhead (if frame = .list then .expectedListEnd else .expectedObjectEnd)
      else
        return frame :: frames
    | none, _ => failAhead (if frame = .list then .endInList else .endInObject)

/-- Passes the next value and what the open `frames` still hold. -/
def skipParts : (bound : Nat) → List Frame → Reader Unit
  | 0, _ => failHere .endInValue
  | bound + 1, frames => do
    let opened ← skipSimple
    let frames ← match opened with
      | some frame => closeFrames false (frame :: frames)
      | none => closeFrames true frames
    match frames with
    | [] => return
    | .list :: _ => skipParts bound frames
    | .object :: _ =>
      skipKey
      skipParts bound frames

/-- Passes any value. -/
def skipValue : Reader Unit := do
  skipParts ((← get).rest.length + 1) []

end Reader

end TreePatch.Json
