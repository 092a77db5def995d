/-!
# Module paths

Paths of source files, read as steps.  A path is compared and stored in its normal form, in which
the steps `.` and `..` are carried out by name alone.
-/

namespace AtomicStyle

/-- One step of a path. -/
inductive Step where
  | here
  | up
  | name (text : String)
deriving DecidableEq, Repr

/-- A path: whether it starts at the root, and its steps. -/
structure ModulePath where
  rooted : Bool
  steps : List Step
deriving DecidableEq, Repr

namespace ModulePath

/-- The empty path. -/
def empty : ModulePath := ⟨false, []⟩

/-- The step that a piece between two slashes stands for. -/
def stepOf (piece : List Char) : Step :=
  if piece == ['.'] then .here else if piece == ['.', '.'] then .up else .name (String.ofList piece)

/-- Reads a path.  Repeated slashes count once, and a step `.` counts only where it opens a path
that does not start at the root. -/
def ofString (path : String) : ModulePath :=
  let chars := path.toList
  let rooted := chars.head? == some '/'
  let steps := ((chars.splitOnP (· == '/')).filter (!·.isEmpty)).map stepOf
  match steps with
  | .here :: rest =>
    ⟨rooted, (if rooted then [] else [.here]) ++ rest.filter (· != .here)⟩
  | _ => ⟨rooted, steps.filter (· != .here)⟩

/-- Carries out one step on the names reached so far, the last one first. -/
def walk (reached : List String) : Step → List String
  | .here => reached
  | .up => reached.tail
  | .name text => text :: reached

/-- The path with the steps `.` and `..` carried out; a step up from the start stays there. -/
def normalize (path : ModulePath) : ModulePath :=
  ⟨path.rooted, (path.steps.foldl walk []).reverse.map .name⟩

/-- The name at the end of a path, if the path ends with a name. -/
def fileName? (path : ModulePath) : Option String :=
  match path.steps.getLast? with
  | some (.name text) => some text
  | _ => none

/-- The path without its last step.  A path without steps has no directory and gives the empty
path. -/
def directory (path : ModulePath) : ModulePath :=
  if path.steps.isEmpty then empty else ⟨path.rooted, path.steps.dropLast⟩

/-- The relative path `other` taken from `path`. -/
def join (path other : ModulePath) : ModulePath :=
  match other.steps with
  | .here :: rest =>
    if path.rooted || !path.steps.isEmpty then ⟨path.rooted, path.steps ++ rest⟩
    else ⟨path.rooted, other.steps⟩
  | steps => ⟨path.rooted, path.steps ++ steps⟩

/-- The path with another name at its end. -/
def withFileName (path : ModulePath) (name : String) : ModulePath :=
  ⟨path.rooted, path.steps.dropLast ++ [.name name]⟩

/-- The path of a file in the directory `path`. -/
def child (path : ModulePath) (name : String) : ModulePath :=
  ⟨path.rooted, path.steps ++ [.name name]⟩

end ModulePath

end AtomicStyle
