import Handheld.Source.Span

/-!
# Tokens of the calculator language

Each token has a text: what a program writes to get it. Texts drop only what
means nothing, such as the kind of a blank or a zero in front of a number.
-/

namespace Handheld

/-! ## The named buffers -/

inductive Buffer
  | l1 | l2 | l3 | l4 | l5 | l6
deriving DecidableEq

namespace Buffer

def all : List Buffer := [.l1, .l2, .l3, .l4, .l5, .l6]

def text : Buffer → String
  | .l1 => "L1"
  | .l2 => "L2"
  | .l3 => "L3"
  | .l4 => "L4"
  | .l5 => "L5"
  | .l6 => "L6"

def ofText? (s : String) : Option Buffer :=
  all.find? (·.text == s)

theorem ofText?_text (b : Buffer) : ofText? b.text = some b := by
  cases b <;> decide

end Buffer

/-! ## Words -/

inductive Word
  | ifWord | thenWord | elseWord | endWord
  | lbl | goto | disp
  | forWord | whileWord | repeatWord
  | pause
  | rect | rectI | circle | line
  | dispGraph | clrDraw | horizontal | vertical
  | rand | getKey
  | pxlOn | pxlOff | pxlChange | pxlTest
deriving DecidableEq

namespace Word

def all : List Word :=
  [.ifWord, .thenWord, .elseWord, .endWord, .lbl, .goto, .disp, .forWord, .whileWord,
    .repeatWord, .pause, .rect, .rectI, .circle, .line, .dispGraph, .clrDraw, .horizontal,
    .vertical, .rand, .getKey, .pxlOn, .pxlOff, .pxlChange, .pxlTest]

/-- The name of a word in an outline. -/
def name : Word → String
  | .ifWord => "If"
  | .thenWord => "Then"
  | .elseWord => "Else"
  | .endWord => "End"
  | .lbl => "Lbl"
  | .goto => "Goto"
  | .disp => "Disp"
  | .forWord => "For"
  | .whileWord => "While"
  | .repeatWord => "Repeat"
  | .pause => "Pause"
  | .rect => "Rect"
  | .rectI => "RectI"
  | .circle => "Circle"
  | .line => "Line"
  | .dispGraph => "DispGraph"
  | .clrDraw => "ClrDraw"
  | .horizontal => "Horizontal"
  | .vertical => "Vertical"
  | .rand => "Rand"
  | .getKey => "GetKey"
  | .pxlOn => "PxlOn"
  | .pxlOff => "PxlOff"
  | .pxlChange => "PxlChange"
  | .pxlTest => "PxlTest"

def text : Word → String
  | .rand => "rand"
  | .getKey => "getKey"
  | .pxlOn => "Pxl-On"
  | .pxlOff => "Pxl-Off"
  | .pxlChange => "Pxl-Change"
  | .pxlTest => "Pxl-Test"
  | w => w.name

/-- Two words may also be written with the other case of their first letter. -/
def spellings : Word → List String
  | .getKey => ["getKey", "GetKey"]
  | .pxlTest => ["Pxl-Test", "pxl-Test"]
  | w => [w.text]

def ofText? (s : String) : Option Word :=
  all.find? (·.spellings.contains s)

theorem ofText?_text (w : Word) : ofText? w.text = some w := by
  cases w <;> decide

end Word

/-! ## Operators, modifiers and commands -/

inductive Operator
  | plus | minus | multiply | divide | modulo
  | equal | notEqual | less | lessEqual | greater | greaterEqual
  | store | increment | decrement
deriving DecidableEq

namespace Operator

def name : Operator → String
  | .plus => "Plus"
  | .minus => "Minus"
  | .multiply => "Multiply"
  | .divide => "Divide"
  | .modulo => "Modulo"
  | .equal => "Equal"
  | .notEqual => "NotEqual"
  | .less => "Less"
  | .lessEqual => "LessEqual"
  | .greater => "Greater"
  | .greaterEqual => "GreaterEqual"
  | .store => "Store"
  | .increment => "Increment"
  | .decrement => "Decrement"

def text : Operator → String
  | .plus => "+"
  | .minus => "-"
  | .multiply => "*"
  | .divide => "/"
  | .modulo => "^"
  | .equal => "="
  | .notEqual => "!="
  | .less => "<"
  | .lessEqual => "<="
  | .greater => ">"
  | .greaterEqual => ">="
  | .store => "->"
  | .increment => "++"
  | .decrement => "--"

end Operator

/-- Calculator tokens, spelled the way they are typed on a computer: `^^r` picks the back
buffer or a two byte pointer, `^^2` squares, and `o^^` takes an address. -/
inductive Modifier
  | r | square | addressOf
deriving DecidableEq

namespace Modifier

def name : Modifier → String
  | .r => "R"
  | .square => "Square"
  | .addressOf => "AddressOf"

def text : Modifier → String
  | .r => "^^r"
  | .square => "^^2"
  | .addressOf => "o^^"

end Modifier

/-- Commands to the interpreter itself. -/
inductive CommandWord
  | exit | help | about | debug
deriving DecidableEq

namespace CommandWord

def all : List CommandWord := [.exit, .help, .about, .debug]

def name : CommandWord → String
  | .exit => "Exit"
  | .help => "Help"
  | .about => "About"
  | .debug => "Debug"

def text : CommandWord → String
  | .exit => "@EXIT"
  | .help => "@HELP"
  | .about => "@ABOUT"
  | .debug => "@DEBUG"

def ofText? (s : String) : Option CommandWord :=
  all.find? (·.text == s)

theorem ofText?_text (m : CommandWord) : ofText? m.text = some m := by
  cases m <;> decide

end CommandWord

/-! ## Tokens -/

inductive Token
  | whitespace (width : Nat)
  | comment (text : String)
  | newline
  | colon
  | number (n : UInt16)
  | var (name : Char)
  | buffer (b : Buffer)
  | name (s : String)
  | word (w : Word)
  | operator (op : Operator)
  | modifier (m : Modifier)
  | command (m : CommandWord)
  | leftParen
  | rightParen
  | leftBrace
  | rightBrace
  | comma
  | eof
deriving DecidableEq

namespace Token

/-- The name of a token in an outline. -/
def kind : Token → String
  | .whitespace _ => "Whitespace"
  | .comment _ => "Comment"
  | .newline => "Newline"
  | .colon => "Colon"
  | .number _ => "Number"
  | .var _ => "Var"
  | .buffer _ => "Buffer"
  | .name _ => "Name"
  | .word _ => "Word"
  | .operator _ => "Operator"
  | .modifier _ => "Modifier"
  | .command _ => "Meta"
  | .leftParen => "LParen"
  | .rightParen => "RParen"
  | .leftBrace => "LBrace"
  | .rightBrace => "RBrace"
  | .comma => "Comma"
  | .eof => "Eof"

/-- Blanks and comments mean nothing to the parser. -/
def isTrivia : Token → Bool
  | .whitespace _ | .comment _ => true
  | _ => false

/-- What may stand between two statements. -/
def isSeparator : Token → Bool
  | .newline | .colon => true
  | _ => false

def text : Token → String
  | .whitespace n => String.ofList (List.replicate n ' ')
  | .comment s => s
  | .newline => "\n"
  | .colon => ":"
  | .number n => toString n.toNat
  | .var c => c.toString
  | .buffer b => b.text
  | .name s => s
  | .word w => w.text
  | .operator op => op.text
  | .modifier m => m.text
  | .command m => m.text
  | .leftParen => "("
  | .rightParen => ")"
  | .leftBrace => "\x7b"
  | .rightBrace => "\x7d"
  | .comma => ","
  | .eof => ""

/-- How a message names a token that it did not expect. -/
def described : Token → String
  | .eof => "END OF INPUT"
  | .newline => "END OF LINE"
  | t => s!"'{t.text}'"

end Token

/-- A token and the place it was read from. -/
structure Lexeme where
  span : Span
  token : Token
deriving DecidableEq

end Handheld
