import TableScript.Program.Source

/-!
# File trees

The files and directories that scripts are loaded from, and how a path leads to one of them. A path
is walked component by component: `.` and an empty component stay in a directory, `..` leaves it,
and any step from a file is refused. Around the tree there are only directories of which nothing is
known, so a name there is not found.
-/

namespace TableScript

/-- Why the text at a path cannot be read, apart from its absence. -/
inductive ReadError where
  | isDirectory | notDirectory | nameTooLong | nulInName | notUnicode
deriving Repr, DecidableEq

/-- The wording of the operating system. -/
def ReadError.message : ReadError → String
  | .isDirectory => "Is a directory (os error 21)"
  | .notDirectory => "Not a directory (os error 20)"
  | .nameTooLong => "File name too long (os error 36)"
  | .nulInName => "file name contained an unexpected NUL byte"
  | .notUnicode => "stream did not contain valid UTF-8"

/-- Files by their place below the root, and directories besides those that the files are in. -/
structure FileTree where
  files : List (List String × ByteArray) := []
  dirs : List (List String) := []

/-- The parts of a path between its slashes. -/
def pathParts (path : String) : List String := path.splitOn "/"

/-- A path relative to a base directory. A path from the root of the file system stands for
itself. -/
def joinPath (base path : String) : String :=
  if path.startsWith "/" then path else base ++ "/" ++ path

namespace FileTree

/-- Where a walk has come to. -/
inductive Place where
  | file (content : ByteArray)
  | dir (place : List String)
  /-- A directory that is not in the tree. -/
  | outside

/-- The place of a name, with `.` and `..` worked out. -/
def placeOf (name : String) : List String :=
  (pathParts name).foldl (fun place part =>
    if part = "" ∨ part = "." then place
    else if part = ".." then place.dropLast
    else place ++ [part]) []

/-- A tree with one more file. -/
def addFile (tree : FileTree) (name : String) (content : ByteArray) : FileTree :=
  { tree with files := (placeOf name, content) :: tree.files }

/-- A tree with one more directory. -/
def addDir (tree : FileTree) (name : String) : FileTree :=
  { tree with dirs := placeOf name :: tree.dirs }

/-- The content of the file at a place. -/
def content? (tree : FileTree) (place : List String) : Option ByteArray :=
  (tree.files.find? fun (p, _) => p = place).map (·.2)

/-- Whether there is a directory at a place: the root, one that was added, or one that something is
in. -/
def hasDir (tree : FileTree) (place : List String) : Bool :=
  place.isEmpty || tree.dirs.any (place.isPrefixOf ·)
    || tree.files.any fun (p, _) => place.isPrefixOf p && p != place

/-- The longest name of a file, in bytes. -/
def longestName : Nat := 255

/-- The longest path, in bytes. -/
def longestPath : Nat := 4095

/-- One step of a walk. `none` is a failure to find the name. -/
def step (tree : FileTree) (here : Place) (part : String) : Except (Option ReadError) Place :=
  match here with
  | .file _ => .error (some .notDirectory)
  | .outside =>
    if part = "" ∨ part = "." ∨ part = ".." then .ok .outside
    else if longestName < part.utf8ByteSize then .error (some .nameTooLong)
    else .error none
  | .dir place =>
    if part = "" ∨ part = "." then .ok (.dir place)
    else if part = ".." then .ok (if place.isEmpty then .outside else .dir place.dropLast)
    else if longestName < part.utf8ByteSize then .error (some .nameTooLong)
    else match tree.content? (place ++ [part]) with
      | some content => .ok (.file content)
      | none => if tree.hasDir (place ++ [part]) then .ok (.dir (place ++ [part])) else .error none

/-- Walks along a path. -/
def walk (tree : FileTree) (path : String) : Except (Option ReadError) Place :=
  let start : Place := if path.startsWith "/" then .outside else .dir []
  (pathParts path).foldlM tree.step start

/-- The text at a path. -/
def read (tree : FileTree) (path : String) : Except (Option ReadError) String :=
  if path.contains '\x00' then .error (some .nulInName)
  else if longestPath < path.utf8ByteSize then .error (some .nameTooLong)
  else match tree.walk path with
    | .error e => .error e
    | .ok (.file content) =>
      match String.fromUTF8? content with
      | some text => .ok text
      | none => .error (some .notUnicode)
    | .ok _ => .error (some .isDirectory)

/-- Loads scripts from below a base directory of the tree. -/
def loader (tree : FileTree) (base : String) : Loader := fun name =>
  match tree.read (joinPath base name) with
  | .ok text => .ok text
  | .error none => .error .notFound
  | .error (some e) => .error (.unreadable e.message)

end FileTree

end TableScript
