import Handheld.Source.Span
import Handheld.Source.Token

/-!
# What can go wrong, and how it is said

A `Cause` is one way for a program to be refused or to fail. It decides the code
of the report and its detail. A `Diagnostic` adds the place: a line and columns
of the source, an address of the code, or neither.
-/

namespace Handheld

/-! ## Codes -/

/-- The part of the tool that a code belongs to. -/
inductive Kind
  | lex | parse | runtime | internal | host
deriving DecidableEq

def Kind.name : Kind → String
  | .lex => "Lex"
  | .parse => "Parse"
  | .runtime => "Runtime"
  | .internal => "Internal"
  | .host => "Host"

inductive Code
  | unrecognizedCharacter
  | syntaxError
  | mismatchedBlock
  | invalidTarget
  | overflow
  | outOfMemory
  | undefinedLabel
  | duplicateLabel
  | divisionByZero
  | memoryFault
  | internalError
  | fileNotFound
deriving DecidableEq

namespace Code

def all : List Code :=
  [.unrecognizedCharacter, .syntaxError, .mismatchedBlock, .invalidTarget, .overflow,
    .outOfMemory, .undefinedLabel, .duplicateLabel, .divisionByZero, .memoryFault,
    .internalError, .fileNotFound]

def number : Code → Nat
  | .unrecognizedCharacter => 1
  | .syntaxError => 2
  | .mismatchedBlock => 3
  | .invalidTarget => 4
  | .overflow => 6
  | .outOfMemory => 7
  | .undefinedLabel => 8
  | .duplicateLabel => 9
  | .divisionByZero => 11
  | .memoryFault => 12
  | .internalError => 51
  | .fileNotFound => 53

def name : Code → String
  | .unrecognizedCharacter => "UnrecognizedCharacter"
  | .syntaxError => "SyntaxError"
  | .mismatchedBlock => "MismatchedBlock"
  | .invalidTarget => "InvalidTarget"
  | .overflow => "Overflow"
  | .outOfMemory => "OutOfMemory"
  | .undefinedLabel => "UndefinedLabel"
  | .duplicateLabel => "DuplicateLabel"
  | .divisionByZero => "DivisionByZero"
  | .memoryFault => "MemoryFault"
  | .internalError => "InternalError"
  | .fileNotFound => "FileNotFound"

def text : Code → String
  | .unrecognizedCharacter => "UNRECOGNIZED CHARACTER"
  | .syntaxError => "SYNTAX ERROR"
  | .mismatchedBlock => "MISMATCHED BLOCK"
  | .invalidTarget => "INVALID TARGET"
  | .overflow => "OVERFLOW"
  | .outOfMemory => "OUT OF MEMORY"
  | .undefinedLabel => "UNDEFINED LABEL"
  | .duplicateLabel => "DUPLICATE LABEL"
  | .divisionByZero => "DIVISION BY ZERO"
  | .memoryFault => "MEMORY FAULT"
  | .internalError => "INTERNAL ERROR"
  | .fileNotFound => "FILE NOT FOUND"

def kind : Code → Kind
  | .unrecognizedCharacter | .overflow => .lex
  | .syntaxError | .mismatchedBlock | .invalidTarget | .undefinedLabel | .duplicateLabel => .parse
  | .outOfMemory | .divisionByZero | .memoryFault => .runtime
  | .fileNotFound => .host
  | .internalError => .internal

def ofName? (s : String) : Option Code :=
  all.find? (·.name == s)

end Code

/-! ## Causes -/

/-- What the parser would have taken instead of the token it found. -/
inductive Expectation
  | token (t : Token)
  | endOfStatement
  | labelName
  | sign
  | expression
deriving DecidableEq

def Expectation.text : Expectation → String
  | .token t => s!"'{t.text}'"
  | .endOfStatement => "END OF STATEMENT"
  | .labelName => "LABEL NAME"
  | .sign => "'+' OR '-'"
  | .expression => "EXPRESSION"

inductive Cause
  -- reading characters
  | unexpectedCharacter (c : Char)
  | unknownCommand (text : String)
  | numberTooLarge (digits : String)
  -- reading tokens
  | expected (what : Expectation) (found : Token)
  | strayExpression
  | wrongArgumentCount
  | missingEnd
  | endWithoutBlock
  | elseWithoutIf
  | notAssignable (found : Option Token)
  -- building code
  | noEffect
  | unknownVariable
  | programTooLarge
  | duplicateLabel (name : String)
  | undefinedLabel (name : String)
  | linkFailure
  -- running code
  | stackUnderflow
  | expressionTooComplex
  | divisionByZero
  | badAddress (address : Int64)
  | jumpOutOfRange
  | drawArguments
  -- the host
  | malformedBinding
  | fileNotFound (path reason : String)
  | unreadableFile (path reason : String)
  | interrupted
  /-- A report of some other tool, in its own words. -/
  | reported (code : Code) (detail : String)
deriving DecidableEq

namespace Cause

def code : Cause → Code
  | .unexpectedCharacter _ | .unknownCommand _ => .unrecognizedCharacter
  | .numberTooLarge _ => .overflow
  | .expected .. | .strayExpression | .wrongArgumentCount | .malformedBinding => .syntaxError
  | .missingEnd | .endWithoutBlock | .elseWithoutIf => .mismatchedBlock
  | .notAssignable _ => .invalidTarget
  | .programTooLarge | .expressionTooComplex => .outOfMemory
  | .duplicateLabel _ => .duplicateLabel
  | .undefinedLabel _ => .undefinedLabel
  | .divisionByZero => .divisionByZero
  | .badAddress _ => .memoryFault
  | .fileNotFound .. => .fileNotFound
  | .noEffect | .unknownVariable | .linkFailure | .stackUnderflow | .jumpOutOfRange
  | .drawArguments | .unreadableFile .. | .interrupted => .internalError
  | .reported code _ => code

/-- What follows the semicolon of a report. It may be empty. -/
def detail : Cause → String
  | .unexpectedCharacter c => s!"UNEXPECTED '{c}'"
  | .unknownCommand s => s!"UNEXPECTED '@' IN {s}"
  | .numberTooLarge s => s!"NUMBER {s} TOO LARGE"
  | .expected what found => s!"EXPECTED {what.text}, FOUND {found.described}"
  | .strayExpression => "EXPECTED STATEMENT, FOUND EXPRESSION"
  | .wrongArgumentCount => "WRONG NUMBER OF ARGUMENTS"
  | .missingEnd => "MISSING END"
  | .endWithoutBlock => "END WITHOUT BLOCK"
  | .elseWithoutIf => "ELSE WITHOUT IF"
  | .notAssignable none => "ASSIGNMENT TO NON-VARIABLE"
  | .notAssignable (some t) => s!"ASSIGNMENT TO NON-VARIABLE {t.described}"
  | .noEffect => "EXPRESSION HAS NO EFFECT"
  | .unknownVariable => "UNKNOWN VARIABLE"
  | .programTooLarge => "PROGRAM TOO LARGE"
  | .duplicateLabel name | .undefinedLabel name => name
  | .linkFailure => "LINK FAILURE"
  | .stackUnderflow => "UNDERFLOW"
  | .expressionTooComplex => "EXPRESSION TOO COMPLEX"
  | .divisionByZero => ""
  | .badAddress a => s!"ADDRESS {a.toInt}"
  | .jumpOutOfRange => "UNDEFINED LABEL"
  | .drawArguments => "DRAW ARGUMENTS"
  | .malformedBinding => "EXPECTED NAME : CODE"
  | .fileNotFound path reason | .unreadableFile path reason => s!"{path}: {reason}"
  | .interrupted => "BREAK"
  | .reported _ detail => detail

end Cause

/-! ## Diagnostics -/

structure Diagnostic where
  cause : Cause
  line : Option Nat := none
  start : Nat := 0
  stop : Nat := 0
  address : Option Nat := none
deriving DecidableEq

namespace Diagnostic

def code (d : Diagnostic) : Code := d.cause.code

/-- The code, then the line, the columns, the address and the detail, those that there are. -/
def text (d : Diagnostic) : String :=
  let line := match d.line with
    | some n => s!" IN {n}"
    | none => ""
  let columns := if d.start = 0 ∧ d.stop = 0 then "" else s!" ({d.start}..{d.stop})"
  let address := match d.address with
    | some n => s!" AT {n}"
    | none => ""
  let detail := if d.cause.detail.isEmpty then "" else s!"; {d.cause.detail}"
  d.code.text ++ line ++ columns ++ address ++ detail

/-- The text with the kind of the value around it. -/
def outline (d : Diagnostic) : String :=
  "Error \x7b " ++ d.text ++ " \x7d"

end Diagnostic

namespace Cause

/-- A cause without a place. -/
def nowhere (c : Cause) : Diagnostic :=
  { cause := c }

/-- A cause at a place of the source. -/
def inSpan (c : Cause) (s : Span) : Diagnostic :=
  { cause := c, line := some s.line, start := s.start, stop := s.stop }

/-- A cause in a line, with no columns. -/
def inLine (c : Cause) (line : Nat) : Diagnostic :=
  { cause := c, line := some line }

end Cause

end Handheld
