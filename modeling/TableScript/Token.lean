import TableScript.Number.Text

/-!
# Tokens

The smallest units of a script that mean something, and how each is named in a message.
-/

namespace TableScript

/-- The reserved words that are not values. -/
inductive Keyword where
  | functionWord | ifWord | elseWord | loopWord | getWord | returnWord
deriving Repr, DecidableEq

/-- A keyword as it is spelled. -/
def Keyword.text : Keyword → String
  | .functionWord => "Function"
  | .ifWord => "If"
  | .elseWord => "Else"
  | .loopWord => "Loop"
  | .getWord => "Get"
  | .returnWord => "Return"

/-- The operators and marks. -/
inductive Symbol where
  | equal | notEqual | greaterEqual | lessEqual | refAssign | greater | less | assign
  | plus | minus | star | slash
  | leftParen | rightParen | leftBrace | rightBrace | leftBracket | rightBracket
  | semicolon | colon | comma
deriving Repr, DecidableEq

/-- A symbol as it is spelled. -/
def Symbol.text : Symbol → String
  | .equal => "=="
  | .notEqual => "!="
  | .greaterEqual => ">="
  | .lessEqual => "<="
  | .refAssign => "=&"
  | .greater => ">"
  | .less => "<"
  | .assign => "="
  | .plus => "+"
  | .minus => "-"
  | .star => "*"
  | .slash => "/"
  | .leftParen => "("
  | .rightParen => ")"
  | .leftBrace => "\x7b"
  | .rightBrace => "\x7d"
  | .leftBracket => "["
  | .rightBracket => "]"
  | .semicolon => ";"
  | .colon => ":"
  | .comma => ","

/-- A unit of a script. Comments, line breaks and blanks are units too, although scanning leaves
them out. -/
inductive Token where
  | number (value : Float)
  | bool (value : Bool)
  | keyword (word : Keyword)
  | name (text : String)
  | text (value : String)
  | symbol (mark : Symbol)
  | comment
  | newline
  | blank
  | endOfInput
deriving Repr, BEq, DecidableEq

/-- The two truth values as they are spelled. -/
def boolText : Bool → String
  | true => "True"
  | false => "False"

namespace Token

/-- How a token is named in a message. -/
def display : Token → String
  | .number x => Number.text x
  | .bool b => boolText b
  | .keyword w => w.text
  | .name s => s
  | .text s => "\"" ++ s ++ "\""
  | .symbol m => m.text
  | .comment | .newline | .blank => "whitespace"
  | .endOfInput => "end of input"

/-- Whether this is the mark at the end of the input. -/
def isEnd : Token → Bool
  | .endOfInput => true
  | _ => false

/-- A run of letters, digits and underscores is a truth value, a keyword or a name. -/
def ofWord : String → Token
  | "True" => .bool true
  | "False" => .bool false
  | "Function" => .keyword .functionWord
  | "If" => .keyword .ifWord
  | "Else" => .keyword .elseWord
  | "Loop" => .keyword .loopWord
  | "Get" => .keyword .getWord
  | "Return" => .keyword .returnWord
  | s => .name s

end Token

/-- A token and the line it starts on. -/
structure Located where
  token : Token
  line : Nat
deriving Repr, BEq, DecidableEq

end TableScript
