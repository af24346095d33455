import Handheld.Machine.Step

/-!
# Running a machine

`execute` runs a number of steps, and `run` slice after slice of them, so that
the host can stop a program that does not end.
-/

namespace Handheld.Machine

variable {σ : Type}

/-- A machine with nothing to run and nothing in memory. -/
def fresh : Machine := {}

/-- Starts a program at its first instruction. Memory and the debug flag stay as they are. -/
def load (m : Machine) (p : Program) : Machine :=
  { m with program := p, stack := {}, pc := 0, status := .running }

/-- Halts a running machine. Was it running? -/
def interrupt (m : Machine) : Bool × Machine :=
  if m.status = .running then (true, { m with status := .halted }) else (false, m)

def valueOf? (m : Machine) (name : Char) : Option UInt16 :=
  m.memory.valueOf? name

/-- Runs at most `cycles` instructions. -/
def execute (d : Device σ) (cycles : Nat) (m : Machine) (s : σ) : Event × Machine × σ :=
  match cycles with
  | 0 => (if m.status = .running then .running else .stopped, m, s)
  | cycles + 1 =>
    match m.step.perform d s with
    | (.running, m, s) => execute d cycles m s
    | r => r

/-- How many instructions run between two looks at the cancel flag. -/
def slice : Nat := 5000

/-- Runs until something other than the end of a slice brings the machine back. Before each slice it
looks at the cancel flag, and a raised flag is lowered and halts the machine. `raises` says for each
look whether the host raises the flag before it; when there are no more looks, the machine comes
back still running. The last component is the flag as it is left. -/
def run (d : Device σ) (flag : Bool) (raises : List Bool) (m : Machine) (s : σ) :
    (Event × Machine × σ) × Bool :=
  match raises with
  | [] => ((.running, m, s), flag)
  | raised :: raises =>
    if (flag || raised) ∧ m.status = .running then
      ((.interrupted, { m with status := .halted }, s), false)
    else
      match m.execute d slice s with
      | (.running, m, s) => run d false raises m s
      | r => (r, false)

end Handheld.Machine
