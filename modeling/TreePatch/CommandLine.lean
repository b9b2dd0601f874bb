import TreePatch.Rebuild

/-!
# The command line

What the arguments ask for, and the report of a run.
-/

namespace TreePatch

/-- What the arguments ask for. -/
inductive Request where
  | help
  | version
  | rebuild (prev new : String) (config : Option String)
  deriving DecidableEq

namespace Request

/-- The arguments understood so far. -/
structure Given where
  files : List String := []
  config : Option String := none
  /-- Whether all further arguments are file names. -/
  verbatim : Bool := false

namespace Given

/-- Takes a file name; there are at most two, and none is empty. -/
def addFile (g : Given) (name : String) : Option Given :=
  if name.isEmpty || 2 ≤ g.files.length then none else some { g with files := g.files ++ [name] }

/-- Takes the name of the settings file; there is at most one, and it is not empty. -/
def setConfig (g : Given) (name : String) : Option Given :=
  if name.isEmpty || g.config.isSome then none else some { g with config := some name }

/-- The request once all arguments are read. -/
def request? (g : Given) : Option Request :=
  match g.files with
  | [prev, new] => some (.rebuild prev new g.config)
  | _ => none

end Given

/-- Whether an argument is an option; a single dash is none. -/
def isOption (arg : String) : Bool :=
  arg.startsWith "-" && arg != "-"

/-- The request of an option other than the settings file. -/
def ofFlag? (arg : String) : Option Request :=
  match arg.toList with
  | '-' :: '-' :: name =>
    if name = "help".toList then some .help
    else if name = "version".toList then some .version
    else none
  | '-' :: 'h' :: _ => some .help
  | '-' :: 'V' :: _ => some .version
  | _ => none

/-- Reads arguments from left to right; none if they are rejected. -/
def read? (g : Given) : List String → Option Request
  | [] => g.request?
  | arg :: args =>
    if g.verbatim || !isOption arg then
      match g.addFile arg with
      | some g => read? g args
      | none => none
    else if arg = "--" then
      read? { g with verbatim := true } args
    else if arg = "--config" then
      match args with
      | [] => none
      | name :: args =>
        if isOption name then
          none
        else
          match g.setConfig name with
          | some g => read? g args
          | none => none
    else if arg.startsWith "--config=" then
      match g.setConfig (String.ofList (arg.toList.drop "--config=".length)) with
      | some g => read? g args
      | none => none
    else
      ofFlag? arg

/-- The request of a list of arguments. -/
def ofArgs? (args : List String) : Option Request :=
  read? {} args

end Request

/-- What a run leaves behind. -/
structure Report where
  exit : Nat
  output : String := ""
  complaint : Option String := none
  /-- The path of the log file, and what is added to it. -/
  log : Option (String × String) := none

namespace Report

def helpText : String :=
  "Rebuild a Java file's newer version by patching the older syntax tree

Usage: diffmin [OPTIONS] <PREV> <NEW>

Arguments:
  <PREV>  The previous version of the file
  <NEW>   The new version of the file

Options:
      --config <CONFIG>  JSON settings file
  -h, --help             Print help
  -V, --version          Print version
"

/-- The arguments were rejected. -/
def rejected : Report :=
  { exit := 1, complaint := some "Usage: diffmin <prev_file> <new_file>" }

/-- The run failed with a message, and perhaps a cause. -/
def failed (message : String) (cause : Option String) : Report :=
  let behind := cause.elim "" fun c => s!"\n\nCaused by:\n    {c}"
  { exit := 2, complaint := some s!"error: {message}{behind}" }

/-- The log file cannot be opened. -/
def aborted : Report :=
  { exit := 101 }

/-- The report of a run, and the events in it. -/
def ofRebuild (grammar : Source.Grammar) (files : Folder) (settings : Settings)
    (prev new : String) : Report × List Event :=
  let started : Event := ⟨.info, "diffmin", "patching", [("prev", prev), ("new", new)]⟩
  match (rebuildText grammar files settings prev new).run [started] with
  | .ok text events => ({ exit := 0, output := text }, events)
  | .error e events => (failed e.message (e.cause?.map FileError.message), events)

end Report

/-- The lines of the events that the settings let through. -/
def LogSettings.lines (s : LogSettings) (time : String) (events : List Event) : String :=
  String.join ((Event.select s.filter events).map (Event.line time))

/-- A run: its report, and the files after it. -/
abbrev Run := Report × Folder

namespace Run

open Report

/-- The run that logs into a directory, which is made first. -/
def loggedIn (directory : String) (grammar : Source.Grammar) (files : Folder) (time : String)
    (settings : Settings) (prev new : String) : Run :=
  let log := Route.join directory "diffmin.log"
  match files.makeDirectories directory with
  | .error e => (failed e.message none, files)
  | .ok files =>
    match files.append log "" with
    | .error _ => (aborted, files)
    | .ok files =>
      let (report, events) := ofRebuild grammar files settings prev new
      let added := settings.logging.lines time events
      ({ report with log := some (log, added) }, (files.append log added).toOption.getD files)

/-- The run with the given settings. -/
def ofSettings (grammar : Source.Grammar) (files : Folder) (time : String) (settings : Settings)
    (prev new : String) : Run :=
  match settings.logging.directory with
  | none => ((ofRebuild grammar files settings prev new).1, files)
  | some directory => loggedIn directory grammar files time settings prev new

/-- The run with the given arguments. -/
def ofArgs (grammar : Source.Grammar) (files : Folder) (time : String) (args : List String) : Run :=
  match Request.ofArgs? args with
  | none => (rejected, files)
  | some .help => ({ exit := 0, output := helpText }, files)
  | some .version => ({ exit := 0, output := "diffmin 0.1.0\n" }, files)
  | some (.rebuild prev new config) =>
    match config.elim (.ok {}) fun path => (Settings.load files path).mapError (path, ·) with
    | .error (path, e) => (failed s!"loading settings from {path}" (some e.message), files)
    | .ok settings => ofSettings grammar files time settings prev new

end Run

end TreePatch
