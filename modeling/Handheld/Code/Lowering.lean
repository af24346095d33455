import Handheld.Code.Assembly
import Handheld.Code.Layout
import Handheld.Source.Lexer
import Handheld.Tree.Parser

/-!
# From trees to code

A tree is lowered by an assembler. Where code branches over a block, the address
behind the block is not known yet: the branch goes to a symbol, and the symbol is
placed when the address is reached.
-/

namespace Handheld

open Assembler

/-! ## Expressions -/

/-- Code that keeps a copy of the value about to be stored. Word stores keep the wrapped word, byte
stores the value as it is. -/
def Target.keep : Target → Assembler Unit
  | .var _ | .pointer _ .word => do
    emit .mask
    emit .dup
  | .pointer _ .byte => emit .dup

mutual

/-- Code that leaves one value on the stack. -/
def Expr.lower : Expr → Assembler Unit
  | .number n => emit (.literal n)
  | .var c => emit (.push c)
  | .buffer b => emit (.literal (Int64.ofNat b.base))
  | .deref address width => do
    address.lower
    emit (.peek width)
  | .addressOf (.var c) =>
    match variableAddress? c with
    | some address => emit (.literal (Int64.ofNat address))
    | none => follow (.reject .unknownVariable)
  | .addressOf (.pointer address _) => address.lower
  | .unary .negate operand => do
    operand.lower
    emit .negate
  | .unary .square operand => do
    operand.lower
    emit .dup
    emit (.binary .multiply)
  | .binary op lhs rhs => do
    lhs.lower
    rhs.lower
    emit (.binary op)
  | .assign value target => do
    value.lower
    target.keep
    target.store
  | .increment target => do
    target.load
    emit (.literal 1)
    emit (.binary .add)
    target.keep
    target.store
  | .decrement target => do
    target.load
    emit (.literal 1)
    emit (.binary .subtract)
    target.keep
    target.store
  | .getKey key => do
    key.lower
    emit .getKey
  | .rand => emit .rand
  | .pxlTest surface x y => do
    x.lower
    y.lower
    emit (.pxlTest surface)

def Target.load : Target → Assembler Unit
  | .var c => emit (.push c)
  | .pointer address width => do
    address.lower
    emit (.peek width)

def Target.store : Target → Assembler Unit
  | .var c => emit (.pop c)
  | .pointer address width => do
    address.lower
    emit (.poke width)

end

/-- Adds 1 to a target, or takes it away. -/
def Target.step (target : Target) (op : BinaryOp) : Assembler Unit := do
  target.load
  emit (.literal 1)
  emit (.binary op)
  target.store

/-- Code that leaves nothing on the stack. -/
def Expr.lowerEffect : Expr → Assembler Unit
  | .assign value target => do
    value.lower
    target.store
  | .increment target => target.step .add
  | .decrement target => target.step .subtract
  | _ => follow (.reject .noEffect)

/-! ## Statements -/

def Command.lower : Command → Assembler Unit
  | .exit => emit .exit
  | .help => emit .help
  | .about => emit .about
  | .debug flag => do
    flag.lower
    emit .debug

/-- A loop that is left by a branch of the given kind behind the condition. -/
def lowerWhile (span : Span) (condition : Expr) (leave : Branch) (body : Assembler Unit) :
    Assembler Unit := do
  let top ← freshSymbol
  let exit ← freshSymbol
  follow (.place top)
  follow (.mark span)
  condition.lower
  follow (.branch leave span exit)
  body
  follow (.branch .always span top)
  follow (.place exit)

/-- A loop that counts `target` from `first`, as long as it compares to `last`. -/
def lowerFor (span : Span) (target : Target) (first last : Expr) (compare : BinaryOp)
    (body : Assembler Unit) : Assembler Unit := do
  let top ← freshSymbol
  let exit ← freshSymbol
  follow (.mark span)
  first.lower
  target.store
  follow (.place top)
  target.load
  last.lower
  emit (.binary compare)
  follow (.branch .ifFalse span exit)
  body
  follow (.mark span)
  target.step .add
  follow (.branch .always span top)
  follow (.place exit)

/-- The word that counts the passes of a `For(n)` loop. -/
def counter (depth : Nat) : Target :=
  .pointer (.number (Int64.ofNat (counterAddress depth))) .word

mutual

/-- Lowers a statement inside `depth` loops of the form `For(n)`. -/
def Stmt.lower (depth : Nat) : Stmt → Assembler Unit
  | .effect span e => do
    follow (.mark span)
    e.lowerEffect
  | .disp span values => do
    follow (.mark span)
    values.forM fun e => do
      e.lower
      emit .disp
  | .pause span e => do
    follow (.mark span)
    e.lower
    emit .pause
  | .draw span graphic surface arguments => do
    follow (.mark span)
    arguments.forM Expr.lower
    emit (.draw graphic surface)
  | .dispGraph span shade => do
    follow (.mark span)
    emit (.dispGraph shade)
  | .cond span condition yes no => do
    follow (.mark span)
    let other ← freshSymbol
    condition.lower
    follow (.branch .ifFalse span other)
    lowerBlock depth yes
    if no.isEmpty then
      follow (.place other)
    else
      let behind ← freshSymbol
      follow (.branch .always span behind)
      follow (.place other)
      lowerBlock depth no
      follow (.place behind)
  | .loop span (.whileTrue condition) body =>
    lowerWhile span condition .ifFalse (lowerBlock depth body)
  | .loop span (.repeatUntil condition) body =>
    lowerWhile span condition .ifTrue (lowerBlock depth body)
  | .loop span (.count target first last) body =>
    lowerFor span target first last .lessEqual (lowerBlock depth body)
  | .loop span (.times n) body =>
    lowerFor span (counter depth) (.number 0) n .less (lowerBlock (depth + 1) body)
  | .label span name => follow (.label span name)
  | .goto span name => do
    follow (.mark span)
    follow (.goto span name)
  | .command span c => do
    follow (.mark span)
    c.lower

def lowerBlock (depth : Nat) : List Stmt → Assembler Unit
  | [] => return
  | s :: ss => do
    s.lower depth
    lowerBlock depth ss

end

/-! ## Whole programs -/

/-- Turns a tree into a program. There is none unless every label that is gone to exists once. -/
def Program.ofTree (ss : List Stmt) : Except Diagnostic Program := do
  let ((), a) ← lowerBlock 0 ss {}
  a.link

def compile (source : String) : Except Diagnostic Program := do
  Program.ofTree (← parse (← lexemes source))

end Handheld
