import Handheld.Code.Program
import Handheld.Machine.Arithmetic
import Handheld.Machine.Device
import Handheld.Machine.Memory
import Handheld.Machine.Stack

/-!
# One step of the machine

A step takes the instruction at the program counter. What it does is an `Action`:
it asks the device something, or it is over. So a step knows of its surroundings
only what its calls are answered.
-/

namespace Handheld

inductive Status
  | running | halted | faulted
deriving DecidableEq

def Status.name : Status → String
  | .running => "Running"
  | .halted => "Halted"
  | .faulted => "Faulted"

/-- Why the machine comes back to its host. -/
inductive Event
  /-- There is more to run. -/
  | running
  | stopped
  | exit
  | interrupted
  | help
  | about
  | fault (d : Diagnostic)
deriving DecidableEq

structure Machine where
  program : Program := {}
  memory : Memory := .blank
  stack : Stack Int64 := {}
  pc : Nat := 0
  debug : Bool := false
  status : Status := .halted

inductive Action
  | done (event : Event) (m : Machine)
  | call (c : Call) (resume : c.Answer → Action)

/-- Carries out an action on a device in the state `s`. -/
def Action.perform {σ : Type} (d : Device σ) : Action → σ → Event × Machine × σ
  | .done event m, s => (event, m, s)
  | .call c resume, s =>
    let (a, s) := d.perform c s
    (resume a).perform d s

/-- A failure of the instruction at `address`, with the statement it came from. -/
def Program.locate (p : Program) (address : Nat) (cause : Cause) : Diagnostic :=
  match p.spanAt? address with
  | some span => { cause.inSpan span with address := some address }
  | none => { cause.nowhere with address := some address }

/-- A pause counts 1800ths of a second and wraps to 16 bits like any stored value. -/
def pauseMicroseconds (v : Int64) : Nat :=
  v.toUInt64.toUInt16.toNat * 1000000 / 1800

namespace Machine

/-! ## Ends of an instruction -/

def next (m : Machine) : Action :=
  .done .running { m with pc := m.pc + 1 }

def fault (m : Machine) (cause : Cause) : Action :=
  .done (.fault (m.program.locate m.pc cause)) { m with pc := m.pc + 1, status := .faulted }

/-- The address behind the last instruction can be jumped to as well. -/
def jump (m : Machine) (target : Nat) : Action :=
  if target ≤ m.program.size then .done .running { m with pc := target }
  else m.fault .jumpOutOfRange

def push (m : Machine) (v : Int64) : Action :=
  let m := { m with stack := m.stack.push v }
  if m.stack.overflows then m.fault .expressionTooComplex else m.next

/-! ## Operands -/

@[inline] def withTop (m : Machine) (k : Machine → Int64 → Action) : Action :=
  match m.stack.pop with
  | (some v, stack) => k { m with stack } v
  | (none, stack) => fault { m with stack } .stackUnderflow

@[inline] def withPair (m : Machine) (k : Machine → Int64 → Int64 → Action) : Action :=
  match m.stack.pop2 with
  | (some (a, b), stack) => k { m with stack } a b
  | (none, stack) => fault { m with stack } .stackUnderflow

/-- Every access to memory goes through here. -/
@[inline] def withAddress (m : Machine) (a : Int64) (width : Width)
    (k : (a : Nat) → a + width.bytes ≤ memorySize → Action) : Action :=
  if h : 0 ≤ a.toInt ∧ a.toInt.toNat + width.bytes ≤ memorySize then k a.toInt.toNat h.2
  else m.fault (.badAddress a)

@[inline] def withVariable (m : Machine) (name : Char)
    (k : (a : Nat) → a + 2 ≤ memorySize → Action) : Action :=
  match h : variableAddress? name with
  | some a => k a (variableAddress?_le h)
  | none => m.fault .unknownVariable

/-! ## Instructions -/

/-- Carries out an instruction, which stands at the program counter. -/
def exec (m : Machine) : Instr → Action
  | .literal n => m.push n
  | .push name =>
    m.withVariable name fun a h => m.push (m.memory.read .word a h)
  | .pop name =>
    m.withVariable name fun a h =>
      m.withTop fun m v => next { m with memory := m.memory.write .word a v h }
  | .peek width =>
    m.withTop fun m a =>
      m.withAddress a width fun a h => m.push (m.memory.read width a h)
  | .poke width =>
    m.withTop fun m a =>
      m.withTop fun m v =>
        m.withAddress a width fun a h => next { m with memory := m.memory.write width a v h }
  | .dup => m.withTop fun m v => push { m with stack := m.stack.push v } v
  | .mask => m.withTop fun m v => m.push (Int64.ofNat v.toUInt64.toUInt16.toNat)
  | .branch .ifTrue target => m.withTop fun m v => if v = 0 then m.next else m.jump target
  | .branch .ifFalse target => m.withTop fun m v => if v = 0 then m.jump target else m.next
  | .branch .always target => m.jump target
  | .disp => m.withTop fun m v => .call (.display (toString v.toInt)) fun _ => m.next
  | .pause => m.withTop fun m v => .call (.pause (pauseMicroseconds v)) fun _ => m.next
  | .draw graphic surface =>
    match m.stack.popN graphic.arity with
    | (none, stack) => fault { m with stack } .stackUnderflow
    | (some vs, stack) =>
      match Drawing.ofArguments? graphic vs with
      | some drawing => .call (.draw surface drawing) fun _ => next { m with stack }
      | none => fault { m with stack } .drawArguments
  | .dispGraph shade => .call (.present shade) fun _ => m.next
  | .debug => m.withTop fun m v => next { m with debug := v != 0 }
  | .exit => .done .exit { m with pc := m.pc + 1, status := .halted }
  | .help => .done .help { m with pc := m.pc + 1 }
  | .about => .done .about { m with pc := m.pc + 1 }
  | .negate => m.withTop fun m v => m.push (-v)
  | .binary op =>
    m.withPair fun m a b =>
      match op.eval a b with
      | .ok v => m.push v
      | .error cause => m.fault cause
  | .getKey =>
    m.withTop fun m code =>
      if 0 ≤ code ∧ code ≤ 255 then
        .call (.keyPressed code.toUInt64.toUInt8) fun (pressed : Bool) => m.push (truth pressed)
      else
        m.push 0
  | .rand => .call .random fun (r : UInt16) => m.push (Int64.ofNat r.toNat)
  | .pxlTest surface =>
    m.withPair fun m x y =>
      .call (.pixel surface x y) fun (lit : Bool) => m.push (truth lit)

/-- What is logged before an instruction: its address, the instruction and the stack. -/
def record (m : Machine) (i : Instr) : String :=
  let stack := ", ".intercalate (m.stack.toList.map fun v => toString v.toInt)
  s!"{Text.alignedRight 5 (toString m.pc)} {Text.alignedLeft 14 i.text} [{stack}]"

/-- Carries out the instruction at the program counter. -/
def step (m : Machine) : Action :=
  if m.status = .running then
    match m.program.code[m.pc]? with
    | none => .done .stopped { m with status := .halted }
    | some i => if m.debug then .call (.log (m.record i)) fun _ => m.exec i else m.exec i
  else
    .done .stopped m

end Machine

end Handheld
