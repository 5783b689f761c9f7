import TableScript.Operator
import TableScript.Token

/-!
# Errors

What can go wrong, as causes: in the text of a script, in its grammar, in finding the files that it
imports, and at run time. `Error.message` gives each its wording. An error also lists the files that
it came through, outermost first.
-/

namespace TableScript

/-- Why a text cannot be cut into tokens. -/
inductive LexicalError where
  | invalidCharacter (c : Char)
  | malformedNumber (lexeme : String)
  | tokenTooLong (lexeme : String) (limit : Nat)
  | unclosedText
deriving Repr, DecidableEq

/-- The wording of a lexical error. -/
def LexicalError.message : LexicalError → String
  | .invalidCharacter c => s!"Invalid token '{c}'."
  | .malformedNumber lexeme => s!"Malformed number '{lexeme}'."
  | .tokenTooLong lexeme limit => s!"Too long token '{lexeme}' (at most {limit} characters)."
  | .unclosedText => "Missing closing quote."

/-- What the grammar asks for at some place. -/
inductive Expectation where
  | mark (mark : Symbol)
  | name
  /-- A comma, or the mark that closes the list. -/
  | commaOr (closing : Symbol)
deriving Repr, DecidableEq

/-- How a message names what was asked for. -/
def Expectation.text : Expectation → String
  | .mark m => "'" ++ m.text ++ "'"
  | .name => "identifier"
  | .commaOr m => "',' or '" ++ m.text ++ "'"

/-- Why tokens are not a program. -/
inductive GrammarError where
  | unexpectedToken (token : Token)
  | expected (what : Expectation) (found : Token)
  | unexpectedEnd
  | trailingComma
  | chainedComparison
  | nestingTooDeep (limit : Nat)
  | invalidImportTarget (found : Token)
  | importNotFound (file : String)
  | importUnreadable (file details : String)
  | cyclicImport (file : String)
deriving Repr, DecidableEq

/-- The wording of a grammar error. -/
def GrammarError.message : GrammarError → String
  | .unexpectedToken token => "Unexpected token: " ++ token.display ++ "."
  | .expected what found => "Expected " ++ what.text ++ " but found " ++ found.display ++ "."
  | .unexpectedEnd => "Unexpected end of input."
  | .trailingComma => "Trailing comma is not allowed."
  | .chainedComparison => "Comparison operators cannot be chained."
  | .nestingTooDeep limit => s!"Nesting deeper than {limit} levels."
  | .invalidImportTarget found => "Invalid script file name " ++ found.display ++ "."
  | .importNotFound file => s!"Script file '{file}' is not in the current path."
  | .importUnreadable file details => s!"Failed to read script file '{file}': {details}."
  | .cyclicImport file => s!"Cyclic import of '{file}'."

/-- The kinds of values, as they are named in messages. -/
inductive ValueType where
  | number | text | bool | null | function | table
deriving Repr, DecidableEq

/-- How a message names a kind of value. -/
def ValueType.name : ValueType → String
  | .number => "Number"
  | .text => "Str"
  | .bool => "Bool"
  | .null => "Null"
  | .function => "Function"
  | .table => "Table"

/-- Why a program cannot go on. -/
inductive RuntimeError where
  | divisionByZero
  | undefinedName (name : String)
  | signMismatch (op : Sign) (operand : ValueType)
  | arithMismatch (op : ArithOp) (left right : ValueType)
  | compareMismatch (op : CompareOp) (left right : ValueType)
  | expectedBool (found : ValueType)
  | notCallable (found : ValueType)
  | notIndexable (found : ValueType)
  | nullKey
  | invalidKey (found : ValueType)
  | returnOutsideFunction
  | unboundReference (name : String)
  | invalidTarget
  | callDepthExceeded (limit : Nat)
deriving Repr, DecidableEq

/-- The wording of an error at run time. -/
def RuntimeError.message : RuntimeError → String
  | .divisionByZero => "Division by zero."
  | .undefinedName name => s!"Undefined identifier '{name}'."
  | .signMismatch op operand =>
    "Type mismatch: cannot apply unary '" ++ op.text ++ "' to " ++ operand.name ++ "."
  | .arithMismatch op left right => mismatch op.text left right
  | .compareMismatch op left right => mismatch op.text left right
  | .expectedBool found => "Expected boolean value, found " ++ found.name ++ "."
  | .notCallable found => "Value of type " ++ found.name ++ " is not callable."
  | .notIndexable found => "Value of type " ++ found.name ++ " cannot be indexed."
  | .nullKey => "Table key must not be Null."
  | .invalidKey found => "Value of type " ++ found.name ++ " cannot be used as a table key."
  | .returnOutsideFunction => "Return outside of a function frame (no function frame)."
  | .unboundReference name => s!"Referenced variable '{name}' is not identified."
  | .invalidTarget => "Invalid assignment target."
  | .callDepthExceeded limit => s!"Maximum call depth of {limit} exceeded."
where
  /-- An operator between values that it does not take. -/
  mismatch (op : String) (left right : ValueType) : String :=
    "Type mismatch: cannot apply '" ++ op ++ "' to " ++ left.name ++ " and " ++ right.name ++ "."

/-- What went wrong and on which line. -/
inductive Cause where
  | lexical (line : Nat) (e : LexicalError)
  | grammar (line : Nat) (e : GrammarError)
  /-- The script to run cannot be had at all, so there is no line. -/
  | unavailable (file details : String)
  | runtime (line : Nat) (e : RuntimeError)
deriving Repr, DecidableEq

/-- The wording of a cause, with its line. -/
def Cause.message : Cause → String
  | .lexical line e => s!"Error on line {line}: " ++ e.message
  | .grammar line e => s!"Error on line {line}: " ++ e.message
  | .unavailable file details => s!"Error: Failed to load script '{file}': {details}."
  | .runtime line e => s!"Error on line {line}: " ++ e.message

/-- The families of failures. Division by zero is one of its own, so that a host can tell it from
other errors at run time. -/
inductive ErrorKind where
  | lexical | grammar | divisionByZero | runtime
deriving Repr, DecidableEq

/-- The family of a cause. A script that cannot be had counts as one that is not a program. -/
def Cause.kind : Cause → ErrorKind
  | .lexical _ _ => .lexical
  | .grammar _ _ | .unavailable _ _ => .grammar
  | .runtime _ .divisionByZero => .divisionByZero
  | .runtime _ _ => .runtime

/-- A cause and the files around the place where it arose, outermost first. -/
structure Error where
  cause : Cause
  files : List String := []
deriving Repr, DecidableEq

namespace Error

/-- The same error, seen from outside of `file`. -/
def inFile (file : String) (e : Error) : Error := { e with files := file :: e.files }

/-- An error in the text of a script. -/
def lexical (line : Nat) (e : LexicalError) : Error := { cause := .lexical line e }

/-- An error in the grammar of a script. -/
def grammar (line : Nat) (e : GrammarError) : Error := { cause := .grammar line e }

/-- An error at run time. -/
def runtime (line : Nat) (e : RuntimeError) : Error := { cause := .runtime line e }

/-- The family of an error, whatever files it came through. -/
def kind (e : Error) : ErrorKind := e.cause.kind

/-- The wording of an error: its cause, then its files from the innermost out. -/
def message (e : Error) : String :=
  e.files.foldr (fun file text => text ++ " (in file '" ++ file ++ "')") e.cause.message

end Error

end TableScript
