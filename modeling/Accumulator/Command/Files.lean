/-!
# Files

The files that a command sees: those of one directory, whose contents are known, and around it
directories of which no more is known than that they are there. A path is followed step by step,
and every step but the last has to lead to a directory.
-/

namespace Accumulator

/-- Why a file cannot be read or written. -/
inductive FileError where
  | missing
  | notDirectory
  | isDirectory
  | nameTooLong
  | other (text : String)
  deriving DecidableEq

/-- The reason in words, with the number of the system's error. -/
def FileError.message : FileError → String
  | missing => "No such file or directory (os error 2)"
  | notDirectory => "Not a directory (os error 20)"
  | isDirectory => "Is a directory (os error 21)"
  | nameTooLong => "File name too long (os error 36)"
  | other text => text

/-- The files around a command. Places are lists of names, from the root on. -/
structure Files where
  /-- The directory whose files are known. -/
  directory : List String
  /-- Its files by name. -/
  files : List (String × String) := []
  /-- Where relative paths start. -/
  workingDirectory : List String := []
  /-- Other directories that are there. -/
  others : List (List String) := []
  /-- What has been written to the device for standard output. -/
  printed : String := ""

namespace Files

/-- What is at a place. -/
inductive Node where
  | missing
  | directory
  | file (name : String)
  /-- The device that is empty and forgets what is written. -/
  | sink
  /-- The device for standard output. -/
  | output
  deriving DecidableEq

/-- The largest number of bytes of a name. -/
def maxName : Nat := 255

/-- The largest number of bytes of a path. -/
def maxPath : Nat := 4095

/-- What is at a place. What a directory is in is a directory. -/
def node (fs : Files) (place : List String) : Node :=
  if (fs.directory :: fs.workingDirectory :: fs.others).any place.isPrefixOf then
    .directory
  else if place = ["dev", "null"] then
    .sink
  else if place = ["dev", "stdout"] then
    .output
  else if place.dropLast = fs.directory then
    match place.getLast? with
    | some name => if (fs.files.lookup name).isSome then .file name else .missing
    | none => .missing
  else
    .missing

/-- There has to be a directory at a place. -/
def requireDirectory (fs : Files) (place : List String) : Except FileError Unit :=
  match fs.node place with
  | .directory => .ok ()
  | .missing => .error .missing
  | .file _ | .sink | .output => .error .notDirectory

/-- Follow steps from a place. -/
def follow (fs : Files) (place : List String) : List String → Except FileError (List String)
  | [] => .ok place
  | step :: rest => do
    fs.requireDirectory place
    if step = "." then
      fs.follow place rest
    else if step = ".." then
      fs.follow place.dropLast rest
    else if maxName < step.utf8ByteSize then
      .error .nameTooLong
    else
      fs.follow (place ++ [step]) rest

/-- Where a path starts. -/
def start (fs : Files) (path : String) : List String :=
  if path.startsWith "/" then [] else fs.workingDirectory

/-- The steps of a path. -/
def steps (path : String) : List String :=
  (path.splitOn "/").filter (· ≠ "")

/-- The contents of a file. A path that ends with a slash leads to a directory. -/
def read (fs : Files) (path : String) : Except FileError String := do
  if maxPath < path.utf8ByteSize then
    throw .nameTooLong
  let place ← fs.follow (fs.start path) (steps path)
  if path.endsWith "/" then
    fs.requireDirectory place
  match fs.node place with
  | .missing => .error .missing
  | .directory => .error .isDirectory
  | .sink | .output => .ok ""
  | .file name =>
    match fs.files.lookup name with
    | some text => .ok text
    | none => .error .missing

/-- The files after a file of the directory has been written. -/
def replace (fs : Files) (name text : String) : Files :=
  if (fs.files.lookup name).isSome then
    { fs with files := fs.files.map fun file => if file.1 = name then (name, text) else file }
  else
    { fs with files := fs.files ++ [(name, text)] }

/-- Replace the contents of a file, or add one. Files that are added elsewhere are not kept. -/
def write (fs : Files) (path text : String) : Except FileError Files := do
  if maxPath < path.utf8ByteSize then
    throw .nameTooLong
  match (steps path).getLast? with
  | none => .error .isDirectory
  | some last =>
    let parent ← fs.follow (fs.start path) (steps path).dropLast
    fs.requireDirectory parent
    if last = "." ∨ last = ".." ∨ path.endsWith "/" then
      .error .isDirectory
    else
      let place ← fs.follow parent [last]
      match fs.node place with
      | .directory => .error .isDirectory
      | .sink => return fs
      | .output => return { fs with printed := fs.printed ++ text }
      | .file _ | .missing => return if parent = fs.directory then fs.replace last text else fs

/-- The files that others do not have with the same contents. -/
def changes (before after : Files) : List (String × String) :=
  after.files.filter fun file => before.files.lookup file.1 ≠ some file.2

end Files

end Accumulator
