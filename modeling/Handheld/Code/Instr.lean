import Handheld.Tree.Basic

/-!
# Instructions

The machine has no registers: every instruction works on the stack. Blocks and
`Goto` share the three branches.
-/

namespace Handheld

/-- When a branch is taken. -/
inductive Branch
  /-- A value is taken off the stack, and it is not zero. -/
  | ifTrue
  /-- A value is taken off the stack, and it is zero. -/
  | ifFalse
  | always
deriving DecidableEq

inductive Instr
  | literal (n : Int64)
  | push (name : Char)
  /-- Stores the top of the stack in a variable, modulo 65536. -/
  | pop (name : Char)
  | peek (width : Width)
  /-- Takes an address and then the value to store there. -/
  | poke (width : Width)
  | dup
  /-- Reduces the top of the stack modulo 65536. -/
  | mask
  | branch (kind : Branch) (target : Nat)
  | disp
  | pause
  | draw (graphic : Graphic) (surface : Surface)
  | dispGraph (shade : Shade)
  | debug
  | exit
  | help
  | about
  | negate
  | binary (op : BinaryOp)
  | getKey
  | rand
  | pxlTest (surface : Surface)
deriving DecidableEq

def Surface.mark : Surface → String
  | .main => ""
  | .back => "^^R"

def Width.mark : Width → String
  | .byte => ""
  | .word => "^^R"

def Branch.text : Branch → String
  | .ifTrue => "IF"
  | .ifFalse => "IFNOT"
  | .always => "JUMP"

def BinaryOp.mnemonic : BinaryOp → String
  | .add => "ADD"
  | .subtract => "SUB"
  | .multiply => "MUL"
  | .divide => "DIV"
  | .modulo => "MOD"
  | .equal => "EQ"
  | .notEqual => "NOTEQ"
  | .less => "LT"
  | .lessEqual => "LTEQ"
  | .greater => "GT"
  | .greaterEqual => "GTEQ"

def Instr.text : Instr → String
  | .literal n => s!"LITERAL({n.toInt})"
  | .push c => s!"PUSH({c})"
  | .pop c => s!"POP({c})"
  | .peek w => "PEEK" ++ w.mark
  | .poke w => "POKE" ++ w.mark
  | .dup => "DUP"
  | .mask => "MASK"
  | .branch kind target => s!"{kind.text}({target})"
  | .disp => "DISP"
  | .pause => "PAUSE"
  | .draw g s => g.name.map Char.toUpper ++ s.mark
  | .dispGraph .mono => "DISPGRAPH"
  | .dispGraph .gray3 => "DISPGRAPH^^R"
  | .dispGraph .gray4 => "DISPGRAPH^^R^^R"
  | .debug => "DEBUG"
  | .exit => "EXIT"
  | .help => "HELP"
  | .about => "ABOUT"
  | .negate => "NEG"
  | .binary op => op.mnemonic
  | .getKey => "GETKEY"
  | .rand => "RAND"
  | .pxlTest s => "PXLTEST" ++ s.mark

end Handheld
