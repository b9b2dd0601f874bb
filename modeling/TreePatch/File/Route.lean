/-!
# Routes

Written paths of files, and the places that they lead to. Places are seen from the working directory:
some levels above it, or from the top of the file system, and then down by names.
-/

namespace TreePatch

/-- Why a request to the file system fails. -/
inductive FileError where
  | notFound
  | alreadyExists
  | notDirectory
  | isDirectory
  | nameTooLong
  /-- The path holds the character that ends a path. -/
  | nulInName
  /-- The contents are not valid UTF-8. -/
  | notText
  deriving DecidableEq

def FileError.message : FileError → String
  | notFound => "No such file or directory (os error 2)"
  | alreadyExists => "File exists (os error 17)"
  | notDirectory => "Not a directory (os error 20)"
  | isDirectory => "Is a directory (os error 21)"
  | nameTooLong => "File name too long (os error 36)"
  | nulInName => "file name contained an unexpected NUL byte"
  | notText => "stream did not contain valid UTF-8"

/-- Where the names of a place start. -/
inductive Base where
  /-- As many levels above the working directory. -/
  | above (levels : Nat)
  | top
  deriving DecidableEq

/-- A place in the file system. -/
structure Place where
  base : Base
  names : List String
  deriving DecidableEq

namespace Place

def workingDirectory : Place := ⟨.above 0, []⟩

def child (p : Place) (name : String) : Place :=
  { p with names := p.names ++ [name] }

/-- The directory of a place; that of the top is the top. -/
def parent (p : Place) : Place :=
  match p.base, p.names with
  | .above levels, [] => ⟨.above (levels + 1), []⟩
  | .top, [] => p
  | base, names => ⟨base, names.dropLast⟩

/-- Whether a place is `p` or lies below it. -/
def holds (p q : Place) : Bool :=
  p.base == q.base && p.names.isPrefixOf q.names

end Place

/-- A path as written. -/
structure Route where
  /-- Whether it starts at the top. -/
  absolute : Bool
  /-- The names between slashes, `.` and `..` among them. -/
  parts : List String
  /-- Whether it ends with a slash, so that it can only lead to a directory. -/
  toDirectory : Bool
  deriving DecidableEq

namespace Route

def ofText (path : String) : Route :=
  { absolute := path.startsWith "/"
    parts := (path.splitOn "/").filter (· != "")
    toDirectory := path.endsWith "/" }

def start (r : Route) : Place :=
  if r.absolute then ⟨.top, []⟩ else .workingDirectory

/-- The greatest length of a path in bytes. -/
def lengthLimit : Nat := 4095

/-- The greatest length of a name in bytes. -/
def nameLimit : Nat := 255

/-- The route of a path that the file system takes. -/
def ofText? (path : String) : Except FileError Route :=
  if path.toList.contains '\x00' then .error .nulInName
  else if lengthLimit < path.utf8ByteSize then .error .nameTooLong
  else if path.isEmpty then .error .notFound
  else .ok (ofText path)

/-- The parts that matter for the directory of a route: `.` only at the start. -/
def essentialParts (r : Route) : List String :=
  match r.absolute, r.parts with
  | false, "." :: parts => "." :: parts.filter (· != ".")
  | _, parts => parts.filter (· != ".")

/-- The routes to the directories above, from the innermost to the outermost. -/
def ancestors (r : Route) : List Route :=
  let parts := r.essentialParts
  ((List.range parts.length).drop 1).reverse.map fun n =>
    { absolute := r.absolute, parts := parts.take n, toDirectory := false }

/-- The path of a file in a directory. -/
def join (directory name : String) : String :=
  if directory.isEmpty || directory.endsWith "/" then directory ++ name
  else directory ++ "/" ++ name

end Route

end TreePatch
