/-!
# Log events
-/

namespace TreePatch

/-- How much an event matters, from most to least. -/
inductive Level where
  | error
  | warn
  | info
  | debug
  | trace
  deriving DecidableEq

namespace Level

def name : Level → String
  | error => "ERROR"
  | warn => "WARN"
  | info => "INFO"
  | debug => "DEBUG"
  | trace => "TRACE"

/-- The name, as wide as the longest. -/
def column (l : Level) : String :=
  if l.name.length < 5 then " " ++ l.name else l.name

/-- The number of levels up to and including this one. -/
def rank : Level → Nat
  | error => 1
  | warn => 2
  | info => 3
  | debug => 4
  | trace => 5

/-- The number of levels that a filter lets through; without a level it is errors only. -/
def admitted (filter : String) : Nat :=
  match filter with
  | "off" => 0
  | "warn" => 2
  | "info" => 3
  | "debug" => 4
  | "trace" => 5
  | _ => 1

end Level

/-- Something worth recording: where it happened, what, and with which values. -/
structure Event where
  level : Level
  place : String
  what : String
  values : List (String × String)
  deriving DecidableEq

namespace Event

/-- The line of an event that happened at a time. -/
def line (time : String) (e : Event) : String :=
  let values := e.values.map fun (name, value) => s!" {name}={value}"
  s!"{time} {e.level.column} {e.place}: {e.what}" ++ String.join values ++ "\n"

/-- The events that a filter lets through. -/
def select (filter : String) (events : List Event) : List Event :=
  events.filter fun e => e.level.rank ≤ Level.admitted filter

end Event

end TreePatch
