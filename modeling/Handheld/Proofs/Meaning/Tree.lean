import Handheld.Code.Layout
import Handheld.Proofs.Run.Script

/-!
# What a tree means

A tree can be carried out as it stands, with no code and no stack. Expressions
are evaluated from left to right. Statements are taken one after the other, and
a list of frames says what is left to do around the block at hand, so `Goto` can
enter a block anywhere: it finds the label in the tree, with all that is around
it.
-/

namespace Handheld

/-! ## Evaluation -/

/-- What a program changes. -/
structure Store where
  memory : Memory
  debug : Bool

/-- A computation on the store. It comes to a value, or to the end of the program. -/
def Eval (α : Type) : Type := Store → Script (Except Status α × Store)

namespace Eval

variable {α β : Type}

def pure (a : α) : Eval α := fun s => .done (.ok a, s)

def bind (x : Eval α) (f : α → Eval β) : Eval β := fun s =>
  (x s).bind fun
    | (.ok a, s) => f a s
    | (.error status, s) => .done (.error status, s)

instance : Monad Eval where
  pure := pure
  bind := bind

def tell (e : Event) : Eval Unit := fun s => .tell e (.done (.ok (), s))

def call (c : Call) : Eval c.Answer := fun s => .call c fun answer => .done (.ok answer, s)

def finish (status : Status) : Eval α := fun s => .done (.error status, s)

def fail (cause : Cause) : Eval α := do
  tell (.fault cause.nowhere)
  finish .faulted

/-- Runs the computation if the bytes at an address are there. -/
def withAddress (a : Int64) (width : Width)
    (k : (a : Nat) → a + width.bytes ≤ memorySize → Eval α) : Eval α :=
  if h : a.toInt.toNat + width.bytes ≤ memorySize ∧ 0 ≤ a.toInt then k a.toInt.toNat h.1
  else fail (.badAddress a)

def read (width : Width) (a : Int64) : Eval Int64 :=
  withAddress a width fun a h s => .done (.ok (s.memory.read width a h), s)

def write (width : Width) (a v : Int64) : Eval Unit :=
  withAddress a width fun a h s =>
    .done (.ok (), { s with memory := s.memory.write width a v h })

/-- The address of a variable. Variables of a proper tree have one. -/
def addressOf (name : Char) : Eval Int64 :=
  match variableAddress? name with
  | some a => pure (Int64.ofNat a)
  | none => fail .unknownVariable

def setDebug (on : Bool) : Eval Unit := fun s => .done (.ok (), { s with debug := on })

end Eval

/-- The low 16 bits of a value. -/
def wrapped (v : Int64) : Int64 := Int64.ofNat v.toUInt64.toUInt16.toNat

/-! ## Expressions -/

def BinaryOp.value (op : BinaryOp) (a b : Int64) : Eval Int64 :=
  match op.eval a b with
  | .ok v => pure v
  | .error cause => Eval.fail cause

/-- What an assignment is worth. A word is wrapped as it is stored, a byte is not. -/
def Target.kept (v : Int64) : Target → Int64
  | .var _ | .pointer _ .word => wrapped v
  | .pointer _ .byte => v

mutual

def Expr.value : Expr → Eval Int64
  | .number n => pure n
  | .var name => do Eval.read .word (← Eval.addressOf name)
  | .buffer b => pure (Int64.ofNat b.base)
  | .deref address width => do Eval.read width (← address.value)
  | .addressOf (.var name) => Eval.addressOf name
  | .addressOf (.pointer address _) => address.value
  | .unary .negate operand => do return -(← operand.value)
  | .unary .square operand => do
    let v ← operand.value
    return v * v
  | .binary op lhs rhs => do
    let a ← lhs.value
    let b ← rhs.value
    op.value a b
  | .assign value target => do
    let v := target.kept (← value.value)
    target.assign v
    return v
  | .increment target => do
    let v := target.kept ((← target.content) + 1)
    target.assign v
    return v
  | .decrement target => do
    let v := target.kept ((← target.content) - 1)
    target.assign v
    return v
  | .getKey code => do
    let code ← code.value
    if 0 ≤ code ∧ code ≤ 255 then
      let pressed : Bool ← Eval.call (.keyPressed code.toUInt64.toUInt8)
      return truth pressed
    else
      return 0
  | .rand => do
    let r : UInt16 ← Eval.call .random
    return Int64.ofNat r.toNat
  | .pxlTest surface x y => do
    let x ← x.value
    let y ← y.value
    let lit : Bool ← Eval.call (.pixel surface x y)
    return truth lit

/-- What a target holds. The address is evaluated here. -/
def Target.content : Target → Eval Int64
  | .var name => do Eval.read .word (← Eval.addressOf name)
  | .pointer address width => do Eval.read width (← address.value)

/-- Stores a value. The address is evaluated here, after the value. -/
def Target.assign (v : Int64) : Target → Eval Unit
  | .var name => do Eval.write .word (← Eval.addressOf name) v
  | .pointer address width => do Eval.write width (← address.value) v

end

/-! ## Statements without blocks -/

/-- An expression whose value nobody wants. -/
def Expr.effect : Expr → Eval Unit
  | .assign value target => do target.assign (← value.value)
  | .increment target => do target.assign ((← target.content) + 1)
  | .decrement target => do target.assign ((← target.content) - 1)
  | _ => Eval.fail .noEffect

/-- Shows the values of expressions, each before the next one is evaluated. -/
def displayAll : List Expr → Eval Unit
  | [] => pure ()
  | e :: es => do
    let v ← e.value
    let () ← Eval.call (.display (toString v.toInt))
    displayAll es

/-- The values of expressions, from left to right. -/
def valuesOf : (es : List Expr) → Eval { vs : List Int64 // vs.length = es.length }
  | [] => pure ⟨[], rfl⟩
  | e :: es => do
    let v ← e.value
    let vs ← valuesOf es
    return ⟨v :: vs.1, congrArg (· + 1) vs.2⟩

/-- What a statement does by itself. Blocks, labels and jumps are not its business. -/
def Stmt.act : Stmt → Eval Unit
  | .effect _ e => e.effect
  | .disp _ values => displayAll values
  | .pause _ e => do
    let v ← e.value
    let () ← Eval.call (.pause (pauseMicroseconds v))
  | .draw _ graphic surface arguments => do
    let vs ← valuesOf arguments
    match Drawing.ofArguments? graphic vs.1 with
    | some drawing =>
      let () ← Eval.call (.draw surface drawing)
    | none => Eval.fail .drawArguments
  | .dispGraph _ shade => do
    let () ← Eval.call (.present shade)
  | .command _ .exit => do
    Eval.tell .exit
    Eval.finish .halted
  | .command _ .help => Eval.tell .help
  | .command _ .about => Eval.tell .about
  | .command _ (.debug flag) => do Eval.setDebug ((← flag.value) != 0)
  | .cond .. | .loop .. | .label .. | .goto .. => pure ()

/-! ## Loops -/

namespace Loop

/-- The address of the word that counts the passes of a `For(n)` loop inside `depth` others. -/
def slot (depth : Nat) : Int64 := Int64.ofNat (2000 + 2 * depth)

/-- What is done once, in front of the first test. -/
def start (depth : Nat) : Loop → Eval Unit
  | .whileTrue _ | .repeatUntil _ => pure ()
  | .count target first _ => do target.assign (← first.value)
  | .times _ => Eval.write .word (slot depth) 0

/-- The value that decides about the next pass. -/
def test (depth : Nat) : Loop → Eval Int64
  | .whileTrue condition | .repeatUntil condition => condition.value
  | .count target _ last => do
    let i ← target.content
    let n ← last.value
    return truth (i ≤ n)
  | .times n => do
    let i ← Eval.read .word (slot depth)
    let n ← n.value
    return truth (i < n)

def goesOn (v : Int64) : Loop → Bool
  | .repeatUntil _ => v = 0
  | .whileTrue _ | .count .. | .times _ => v ≠ 0

/-- What is done between a pass and the next test. -/
def next (depth : Nat) : Loop → Eval Unit
  | .whileTrue _ | .repeatUntil _ => pure ()
  | .count target _ _ => do target.assign ((← target.content) + 1)
  | .times _ => do Eval.write .word (slot depth) ((← Eval.read .word (slot depth)) + 1)

end Loop

/-! ## What is left to do -/

/-- What comes after the end of a block. -/
inductive Frame
  /-- The statements behind the block. -/
  | rest (ss : List Stmt)
  /-- The block is the body of a loop. -/
  | again (kind : Loop) (body : List Stmt)

/-- How many loops of the form `For(n)` are around. -/
def timesDepth : List Frame → Nat
  | [] => 0
  | .again (.times _) _ :: fs => timesDepth fs + 1
  | _ :: fs => timesDepth fs

mutual

/-- What is left to do behind a label, if it is inside the statement. Behind the statement are `ss`,
and then the frames. -/
def Stmt.behindLabel? (name : String) (ss : List Stmt) (fs : List Frame) :
    Stmt → Option (List Stmt × List Frame)
  | .label _ name' => if name' = name then some (ss, fs) else none
  | .cond _ _ yes no =>
    (behindLabel? name (.rest ss :: fs) yes).or (behindLabel? name (.rest ss :: fs) no)
  | .loop _ kind body => behindLabel? name (.again kind body :: .rest ss :: fs) body
  | _ => none

def behindLabel? (name : String) (fs : List Frame) : List Stmt → Option (List Stmt × List Frame)
  | [] => none
  | s :: ss => (s.behindLabel? name ss fs).or (behindLabel? name fs ss)

end

/-- A program on its way through the tree. -/
structure Config where
  todo : List Stmt
  frames : List Frame
  store : Store
  status : Status

namespace Config

def start (ss : List Stmt) (memory : Memory) (debug : Bool) : Config :=
  ⟨ss, [], ⟨memory, debug⟩, .running⟩

/-- Does a computation and goes on as its value says. -/
def doing {α : Type} (c : Config) (x : Eval α) (next : α → List Stmt × List Frame) :
    Script Config :=
  (x c.store).bind fun
    | (.ok a, store) => .done ⟨(next a).1, (next a).2, store, .running⟩
    | (.error status, store) => .done { c with store, status }

/-- Takes the next statement, or the next frame if there is none. -/
def turn (program : List Stmt) (c : Config) : Script Config :=
  if c.status = .running then
    match c.todo, c.frames with
    | [], [] => .tell .stopped (.done { c with status := .halted })
    | [], .rest ss :: fs => .done { c with todo := ss, frames := fs }
    | [], .again kind body :: fs =>
      c.doing (do kind.next (timesDepth fs); kind.test (timesDepth fs)) fun v =>
        if kind.goesOn v then (body, .again kind body :: fs) else ([], fs)
    | .cond _ condition yes no :: ss, fs =>
      c.doing condition.value fun v => (if v = 0 then no else yes, .rest ss :: fs)
    | .loop _ kind body :: ss, fs =>
      c.doing (do kind.start (timesDepth fs); kind.test (timesDepth fs)) fun v =>
        if kind.goesOn v then (body, .again kind body :: .rest ss :: fs) else (ss, fs)
    | .label .. :: ss, fs => .done { c with todo := ss, frames := fs }
    | .goto _ name :: _, _ =>
      match behindLabel? name [] program with
      | some (ss, fs) => .done { c with todo := ss, frames := fs }
      | none => c.doing (Eval.fail (α := Empty) (.undefinedLabel name)) nofun
    | s :: ss, fs => c.doing s.act fun _ => (ss, fs)
  else
    .done c

def turns (program : List Stmt) : Nat → Config → Script Config
  | 0, c => .done c
  | k + 1, c => (c.turn program).bind (turns program k)

end Config

end Handheld
