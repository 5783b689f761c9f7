import TableScript.Program.Statement
import TableScript.Supply
import TableScript.Token.Scan

/-!
# From text to program

`Program.ofSource` scans and parses a text. The files that it imports are asked of a loader and read
in the same way, in place. The files being imported at any time form a stack; a file on it may not
be imported again.

There may be no end to the files that a loader serves, but there are only finitely many names that
fit into a token, and each import that stands in a text takes one of them. That is why reading ends.
The recursion is on a supply of that many names, which is never used up.
-/

namespace TableScript

/-- Why a loader has no text for a name. -/
inductive LoadFailure where
  | notFound
  | unreadable (details : String)
deriving Repr, DecidableEq

/-- How a message words a failure to load. -/
def LoadFailure.message : LoadFailure → String
  | .notFound => "file not found"
  | .unreadable details => details

/-- Gives the text of a script by name. -/
abbrev Loader := String → Except LoadFailure String

/-- A loader that serves what a list says, the first that is said of a name. -/
def Loader.ofList (scripts : List (String × Except LoadFailure String)) : Loader := fun name =>
  (scripts.lookup name).getD (.error .notFound)

/-! ### Reading -/

namespace Program

/-- The program of a file that is imported on `line` while the files of `stack` are, given how to
read its text. -/
def fetchWith (load : Loader) (read : List String → String → Except Error Program)
    (stack : List String) (line : Nat) (file : String) : Except Error Program :=
  if stack.contains file then .error (.grammar line (.cyclicImport file))
  else match load file with
    | .error .notFound => .error (.grammar line (.importNotFound file))
    | .error (.unreadable details) => .error (.grammar line (.importUnreadable file details))
    | .ok text => (read (stack ++ [file]) text).mapError (Error.inFile file)

/-- Reads a text while the files of `stack` are being imported, the innermost last, with a supply of
names for further imports. If it is used up, every name is on the stack. -/
def readWith (load : Loader) (limits : Limits) :
    Supply → List String → String → Except Error Program
  | .empty, stack, _ => .error (.grammar 1 (.cyclicImport (stack.getLastD "")))
  | .more rest, stack, source =>
    match Token.scan limits.lexeme source with
    | .error e => .error e
    | .ok tokens =>
      let fetch := fetchWith load (readWith load limits (rest ())) stack
      (Parser.program ⟨limits, stack.getLast?, fetch⟩ (Cursor.ofList tokens)).1

/-- Reads a text while the files of `stack` are being imported, the innermost last. -/
def read (load : Loader) (limits : Limits) (stack : List String) (source : String) :
    Except Error Program :=
  readWith load limits (.texts limits.lexeme) stack source

/-- The program of a file that is imported on `line` while the files of `stack` are. -/
def fetch (load : Loader) (limits : Limits) (stack : List String) (line : Nat) (file : String) :
    Except Error Program :=
  fetchWith load (read load limits) stack line file

/-- The setting in which a text is parsed while the files of `stack` are being imported. -/
def setting (load : Loader) (limits : Limits) (stack : List String) : Setting :=
  ⟨limits, stack.getLast?, fetch load limits stack⟩

/-- Reads the text of the file `origin`, or a text from nowhere. -/
def ofSource (load : Loader) (limits : Limits) (origin : Option String) (source : String) :
    Except Error Program :=
  read load limits origin.toList source

/-! ### What a text may import -/

/-- The names that stand behind a `Get`. -/
def targets : List Located → List String
  | ⟨.keyword .getWord, _⟩ :: ⟨.text file, line⟩ :: rest =>
    file :: targets (⟨.text file, line⟩ :: rest)
  | _ :: rest => targets rest
  | [] => []

/-- The files that reading a text may ask for by itself. A text that cannot be scanned asks for
none. -/
def imports (limits : Limits) (source : String) : List String :=
  match Token.scan limits.lexeme source with
  | .ok tokens => targets tokens
  | .error _ => []

end Program

end TableScript
