import TreePatch.File.Route

/-!
# Folders

The files that a run can see, and the requests of a run to the file system.
-/

namespace TreePatch

/-- What stands at a place. -/
inductive FileEntry where
  | directory
  | file (bytes : ByteArray)

/-- The known files and directories. Nothing else is around them but the directories that lead to
them and to the working directory. -/
structure Folder where
  entries : List (Place × FileEntry)

namespace Folder

/-- The folder with entries at paths that do not leave the working directory. -/
def ofPaths (entries : List (String × FileEntry)) : Folder where
  entries := entries.map fun (path, entry) =>
    (⟨.above 0, (Route.ofText path).parts.filter (· != ".")⟩, entry)

/-- What stands at a place. A directory need not be listed if something below it is. -/
def entryAt? (f : Folder) (p : Place) : Option FileEntry :=
  match f.entries.find? fun e => e.1 == p with
  | some e => some e.2
  | none =>
    if p.names.isEmpty || f.entries.any fun e => p.holds e.1 then some .directory else none

def hasDirectoryAt (f : Folder) (p : Place) : Bool :=
  match f.entryAt? p with
  | some .directory => true
  | _ => false

/-- Puts an entry at a place. -/
def put (f : Folder) (p : Place) (entry : FileEntry) : Folder where
  entries := (p, entry) :: f.entries.filter fun e => e.1 != p

/-- The place that a name leads to from another place, whether or not something stands there. -/
def step (f : Folder) (here : Place) (name : String) : Except FileError Place :=
  if !f.hasDirectoryAt here then .error .notDirectory
  else if name = "." then .ok here
  else if name = ".." then .ok here.parent
  else if Route.nameLimit < name.utf8ByteSize then .error .nameTooLong
  else .ok (here.child name)

/-- Goes from a place to something that stands there under a name. -/
def enter (f : Folder) (here : Place) (name : String) : Except FileError Place := do
  let there ← f.step here name
  if (f.entryAt? there).isSome then return there else throw .notFound

/-- The place at the end of a route. -/
def follow (f : Folder) (r : Route) : Except FileError Place := do
  let place ← r.parts.foldlM f.enter r.start
  if r.toDirectory && !f.hasDirectoryAt place then throw .notDirectory else return place

/-- The place at which a route would put something new. -/
def target (f : Folder) (r : Route) : Except FileError Place := do
  let directory ← r.parts.dropLast.foldlM f.enter r.start
  match r.parts.getLast? with
  | some name => f.step directory name
  | none => return directory

/-- The text of a file. -/
def read (f : Folder) (path : String) : Except FileError String := do
  let place ← f.follow (← Route.ofText? path)
  match f.entryAt? place with
  | some (.file bytes) =>
    match String.fromUTF8? bytes with
    | some text => return text
    | none => throw .notText
  | some .directory => throw .isDirectory
  | none => throw .notFound

/-- Makes one directory. -/
def makeDirectory (f : Folder) (r : Route) : Except FileError Folder := do
  let place ← f.target r
  if (f.entryAt? place).isSome then throw .alreadyExists else return f.put place .directory

/-- Whether a route leads to a directory. -/
def leadsToDirectory (f : Folder) (r : Route) : Bool :=
  match f.follow r with
  | .ok place => f.hasDirectoryAt place
  | .error _ => false

/-- Makes one directory unless it exists. -/
def ensureDirectory (f : Folder) (r : Route) : Except FileError Folder :=
  match f.makeDirectory r with
  | .error .alreadyExists => if f.leadsToDirectory r then .ok f else .error .alreadyExists
  | result => result

/-- Makes the first of some directories, after the others where that is needed. -/
def ensureAll (f : Folder) : List Route → Except FileError Folder
  | [] => .ok f
  | r :: above =>
    match f.ensureDirectory r with
    | .error .notFound => do
      let f ← f.ensureAll above
      f.ensureDirectory r
    | result => result

/-- Makes a directory and those above it, as far as they do not exist. -/
def makeDirectories (f : Folder) (path : String) : Except FileError Folder :=
  if (Route.ofText path).essentialParts.isEmpty then
    .ok f
  else do
    let r ← Route.ofText? path
    f.ensureAll (r :: r.ancestors)

/-- Adds text to the end of a file, which is made if it does not exist. -/
def append (f : Folder) (path : String) (text : String) : Except FileError Folder := do
  let place ← f.target (← Route.ofText? path)
  match f.entryAt? place with
  | none => return f.put place (.file text.toUTF8)
  | some (.file bytes) => return f.put place (.file (bytes ++ text.toUTF8))
  | some .directory => throw .isDirectory

end Folder

end TreePatch
