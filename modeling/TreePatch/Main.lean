import TreePatch.CommandLine
import TreePatch.Source.Concrete
import Std.Time

/-!
# The program

Reads the files that the arguments name and carries out the request. The concrete syntax of a source
file `F` is expected in the listing `F.rows` beside it.
-/

namespace TreePatch.Main

/-- What stands at a path, if anything does. -/
def readEntry (path : String) : IO (Option FileEntry) := do
  match ← (IO.FS.readBinFile path).toBaseIO with
  | .ok bytes => return some (.file bytes)
  | .error (.noFileOrDirectory ..) => return none
  | .error _ => return some .directory

/-- What stands on the way to the end of a path. -/
def survey (path : String) : IO (List (Place × FileEntry)) := do
  let route := Route.ofText path
  let mut place := route.start
  let mut passed := if route.absolute then "/" else ""
  let mut found := []
  for part in route.parts do
    passed := Route.join passed part
    if part = ".." then
      place := place.parent
    else if part != "." then
      place := place.child part
      if let some entry ← readEntry passed then
        found := found ++ [(place, entry)]
  return found

/-- The text of a source file with its concrete syntax. -/
def readSyntax (path : String) : IO (List (String × List Source.Row)) := do
  match ← (IO.FS.readFile path).toBaseIO, ← (IO.FS.readFile (path ++ ".rows")).toBaseIO with
  | .ok text, .ok listing => return [(text, (Source.Row.ofListing? listing).getD [])]
  | _, _ => return []

/-- The log file that the settings in a file ask for. -/
def logFile? (files : Folder) (config : Option String) : Option String := do
  let settings ← (Settings.load files (← config)).toOption
  return Route.join (← settings.logging.directory) "diffmin.log"

/-- Everything that a request can see. -/
def gather : Request → IO (Folder × Source.Grammar)
  | .rebuild prev new config => do
    let named ← (config.toList ++ [prev, new]).mapM survey
    let logged ← (logFile? ⟨named.flatten⟩ config).toList.mapM survey
    let sources := (← [prev, new].mapM readSyntax).flatten
    return (⟨(named ++ logged).flatten⟩, fun text => (sources.lookup text).getD [])
  | _ => return (⟨[]⟩, fun _ => [])

/-- Adds text to a log file. -/
def appendLog (path added : String) : IO Unit := do
  let directory := "/".intercalate (path.splitOn "/").dropLast
  if !directory.isEmpty then
    IO.FS.createDirAll directory
  let log ← IO.FS.Handle.mk path .append
  log.putStr added

/-- The time of day, as log lines show it. -/
def timeStamp : IO String := do
  let now := Std.Time.DateTime.ofTimestampWithZone (← Std.Time.Timestamp.now) .UTC
  return now.format "uuuu-MM-dd'T'HH:mm:ss.SSSSSS'Z'"

end TreePatch.Main

open TreePatch in
def main (args : List String) : IO UInt32 := do
  let (files, grammar) ← match Request.ofArgs? args with
    | some request => Main.gather request
    | none => pure (⟨[]⟩, fun _ => [])
  let (report, _) := Run.ofArgs grammar files (← Main.timeStamp) args
  report.log.forM fun (path, added) => Main.appendLog path added
  IO.print report.output
  report.complaint.forM IO.eprintln
  return UInt32.ofNat report.exit
