import Handheld.Source.Token

/-!
# The statement tree

Statements keep the place where they begin, so that a failing program can point
at its source. Blocks are nested.
-/

namespace Handheld

/-! ## Small choices -/

inductive Width
  | byte | word
deriving DecidableEq

namespace Width

def bytes : Width → Nat
  | .byte => 1
  | .word => 2

def name : Width → String
  | .byte => "Byte"
  | .word => "Word"

end Width

inductive UnaryOp
  | negate | square
deriving DecidableEq

def UnaryOp.name : UnaryOp → String
  | .negate => "Negate"
  | .square => "Square"

inductive BinaryOp
  | add | subtract | multiply | divide | modulo
  | equal | notEqual | less | lessEqual | greater | greaterEqual
deriving DecidableEq

namespace BinaryOp

def all : List BinaryOp :=
  [.add, .subtract, .multiply, .divide, .modulo, .equal, .notEqual, .less, .lessEqual, .greater,
    .greaterEqual]

def name : BinaryOp → String
  | .add => "Add"
  | .subtract => "Subtract"
  | .multiply => "Multiply"
  | .divide => "Divide"
  | .modulo => "Modulo"
  | .equal => "Equal"
  | .notEqual => "NotEqual"
  | .less => "Less"
  | .lessEqual => "LessEqual"
  | .greater => "Greater"
  | .greaterEqual => "GreaterEqual"

def ofName? (s : String) : Option BinaryOp :=
  all.find? (·.name == s)

/-- Comparisons bind loosest, products tightest. -/
def precedence : BinaryOp → Nat
  | .multiply | .divide | .modulo => 3
  | .add | .subtract => 2
  | .equal | .notEqual | .less | .lessEqual | .greater | .greaterEqual => 1

end BinaryOp

inductive Graphic
  | pxlOn | pxlOff | pxlChange
  | line | rect | rectI | circle
  | clrDraw
  | shiftLeft | shiftRight | shiftUp | shiftDown
deriving DecidableEq

namespace Graphic

def all : List Graphic :=
  [.pxlOn, .pxlOff, .pxlChange, .line, .rect, .rectI, .circle, .clrDraw, .shiftLeft, .shiftRight,
    .shiftUp, .shiftDown]

def name : Graphic → String
  | .pxlOn => "PxlOn"
  | .pxlOff => "PxlOff"
  | .pxlChange => "PxlChange"
  | .line => "Line"
  | .rect => "Rect"
  | .rectI => "RectI"
  | .circle => "Circle"
  | .clrDraw => "ClrDraw"
  | .shiftLeft => "ShiftLeft"
  | .shiftRight => "ShiftRight"
  | .shiftUp => "ShiftUp"
  | .shiftDown => "ShiftDown"

def ofName? (s : String) : Option Graphic :=
  all.find? (·.name == s)

/-- How many values a drawing command takes. -/
def arity : Graphic → Nat
  | .pxlOn | .pxlOff | .pxlChange => 2
  | .circle => 3
  | .line | .rect | .rectI => 4
  | .clrDraw | .shiftLeft | .shiftRight | .shiftUp | .shiftDown => 0

end Graphic

/-- The screen has two buffers. Drawing goes to the main one unless `^^r` picks the other. -/
inductive Surface
  | main | back
deriving DecidableEq

def Surface.name : Surface → String
  | .main => "Main"
  | .back => "Back"

/-- How the two buffers make a picture: `DispGraph`, `DispGraph^^r` and `DispGraph^^r^^r`. -/
inductive Shade
  | mono | gray3 | gray4
deriving DecidableEq

def Shade.name : Shade → String
  | .mono => "Mono"
  | .gray3 => "Gray3"
  | .gray4 => "Gray4"

/-! ## Expressions -/

mutual

inductive Expr
  | number (n : Int64)
  | var (name : Char)
  | buffer (b : Buffer)
  | deref (address : Expr) (width : Width)
  | addressOf (target : Target)
  | unary (op : UnaryOp) (operand : Expr)
  | binary (op : BinaryOp) (lhs rhs : Expr)
  | assign (value : Expr) (target : Target)
  | increment (target : Target)
  | decrement (target : Target)
  | getKey (code : Expr)
  | rand
  | pxlTest (surface : Surface) (x y : Expr)

/-- Something that a value can be stored into. -/
inductive Target
  | var (name : Char)
  | pointer (address : Expr) (width : Width)

end

/-- Does the expression store something at its outermost level? Only such an expression may stand
as a statement. -/
def Expr.isEffect : Expr → Bool
  | .assign .. | .increment _ | .decrement _ => true
  | _ => false

/-- The place that an expression reads, if it reads just one. -/
def Expr.toTarget? : Expr → Option Target
  | .var c => some (.var c)
  | .deref address width => some (.pointer address width)
  | _ => none

/-! ## Statements -/

inductive Loop
  | whileTrue (condition : Expr)
  /-- Runs until the condition becomes true. -/
  | repeatUntil (condition : Expr)
  /-- Counts from `first` up to `last`, which is included. -/
  | count (target : Target) (first last : Expr)
  | times (n : Expr)

inductive Command
  | exit | help | about
  | debug (flag : Expr)

inductive Stmt
  | effect (span : Span) (e : Expr)
  | disp (span : Span) (values : List Expr)
  | pause (span : Span) (e : Expr)
  | draw (span : Span) (graphic : Graphic) (surface : Surface) (arguments : List Expr)
  | dispGraph (span : Span) (shade : Shade)
  | cond (span : Span) (condition : Expr) (yes no : List Stmt)
  | loop (span : Span) (kind : Loop) (body : List Stmt)
  | label (span : Span) (name : String)
  | goto (span : Span) (name : String)
  | command (span : Span) (c : Command)

end Handheld
