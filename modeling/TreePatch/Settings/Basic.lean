import TreePatch.File.Folder
import TreePatch.Json.Record

/-!
# Settings

What a run can be told, and the reading and writing of settings files.
-/

namespace TreePatch

structure MatchSettings where
  /-- Least number of tracked nodes of a subtree that is recognised as moved. -/
  minMoveSize : Nat := 2
  deriving DecidableEq

structure PrintSettings where
  /-- Number of blanks per level of indentation. -/
  indentWidth : Nat := 4
  deriving DecidableEq

structure LogSettings where
  filter : String := "warn"
  /-- Where the log file goes; without a directory none is written. -/
  directory : Option String := none
  deriving DecidableEq

structure Settings where
  matching : MatchSettings := {}
  printing : PrintSettings := {}
  logging : LogSettings := {}
  deriving DecidableEq

/-- Why settings cannot be loaded. -/
inductive SettingsError where
  | file (error : FileError)
  | json (error : Json.Error)
  deriving DecidableEq

def SettingsError.message : SettingsError → String
  | file e => e.message
  | json e => e.message

namespace Settings

open Json (Member Reader)

def matchFields : List (Member MatchSettings) :=
  [⟨"min_move_size", fun s => return { s with minMoveSize := ← Reader.natural }⟩]

def printFields : List (Member PrintSettings) :=
  [⟨"indent_width", fun s => return { s with indentWidth := ← Reader.natural }⟩]

def logFields : List (Member LogSettings) :=
  [⟨"filter", fun s => return { s with filter := ← Reader.quoted "a string" }⟩,
    ⟨"directory", fun s =>
      return { s with directory := ← Reader.nullable (Reader.quoted "path string") }⟩]

def fields : List (Member Settings) :=
  [⟨"matching", fun s =>
      return { s with matching := ← Reader.record "struct MatchSettings" matchFields {} }⟩,
    ⟨"printer", fun s =>
      return { s with printing := ← Reader.record "struct PrinterSettings" printFields {} }⟩,
    ⟨"logging", fun s =>
      return { s with logging := ← Reader.record "struct LoggingSettings" logFields {} }⟩]

/-- The settings that a JSON text writes. -/
def decode (text : String) : Except Json.Error Settings :=
  Reader.ofText (Reader.record "struct Settings" fields {}) text

/-- The settings in a file. -/
def load (files : Folder) (path : String) : Except SettingsError Settings := do
  let text ← (files.read path).mapError .file
  (decode text).mapError .json

end Settings

end TreePatch
