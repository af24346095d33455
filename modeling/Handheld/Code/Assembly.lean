import Handheld.Code.Program
import Handheld.Diagnostic

/-!
# Code with symbolic branches

An assembly grows by directives. A branch to a symbol keeps a placeholder until
`link`, when every symbol has its address. Labels of the source have the symbols
1, 2, … in the order of their first use; symbols that the assembly hands out are
−1, −2, ….
-/

namespace Handheld

abbrev Symbol := Int

/-- The symbol that an assembly hands out behind `n` others. -/
def Symbol.fresh (n : Nat) : Symbol := -(n + 1)

/-- How many instructions a program may have. -/
def codeLimit : Nat := 65535

inductive Directive
  | emit (i : Instr)
  /-- Code from here on comes from the statement at `span`. -/
  | mark (span : Span)
  /-- The symbol stands for the next address. -/
  | place (symbol : Symbol)
  | branch (kind : Branch) (span : Span) (symbol : Symbol)
  | label (span : Span) (name : String)
  | goto (span : Span) (name : String)
  /-- Nothing can be built here. -/
  | reject (cause : Cause)
deriving DecidableEq

/-- A branch whose target is not known yet. -/
structure Pending where
  address : Nat
  span : Span
  symbol : Symbol
deriving DecidableEq

structure Assembly where
  code : Array Instr := #[]
  /-- How many symbols have been handed out. -/
  handedOut : Nat := 0
  /-- Where symbols stand, the latest first. -/
  places : List (Symbol × Nat) := []
  labels : Array String := #[]
  pending : Array Pending := #[]
  marks : Array (Nat × Span) := #[]

namespace Assembly

def size (a : Assembly) : Nat := a.code.size

/-! ## Growing -/

def freshSymbol (a : Assembly) : Symbol × Assembly :=
  (.fresh a.handedOut, { a with handedOut := a.handedOut + 1 })

def place (a : Assembly) (symbol : Symbol) : Assembly :=
  { a with places := (symbol, a.size) :: a.places }

/-- The symbol of a label. A name seen for the first time gets the next one. -/
def labelSymbol (a : Assembly) (name : String) : Symbol × Assembly :=
  match a.labels.idxOf? name with
  | some i => (i + 1, a)
  | none => (a.labels.size + 1, { a with labels := a.labels.push name })

/-- The instruction stays, even if it is one too many. -/
def emit (a : Assembly) (i : Instr) : Assembly × Option Diagnostic :=
  let a := { a with code := a.code.push i }
  (a, if codeLimit < a.size then some Cause.programTooLarge.nowhere else none)

def branch (a : Assembly) (kind : Branch) (span : Span) (symbol : Symbol) :
    Assembly × Option Diagnostic :=
  emit { a with pending := a.pending.push ⟨a.size, span, symbol⟩ } (.branch kind 0)

def apply (a : Assembly) : Directive → Assembly × Option Diagnostic
  | .emit i => a.emit i
  | .mark span => ({ a with marks := a.marks.push (a.size, span) }, none)
  | .place symbol => (a.place symbol, none)
  | .branch kind span symbol => a.branch kind span symbol
  | .label span name =>
    let (symbol, a) := a.labelSymbol name
    if (a.places.lookup symbol).isSome then
      (a, some ((Cause.duplicateLabel name).inSpan span))
    else
      (a.place symbol, none)
  | .goto span name =>
    let (symbol, a) := a.labelSymbol name
    a.branch .always span symbol
  | .reject cause => (a, some cause.nowhere)

/-- Follows a directive, unless it fails. -/
def follow (a : Assembly) (d : Directive) : Except Diagnostic Assembly :=
  match a.apply d with
  | (a, none) => .ok a
  | (_, some e) => .error e

/-! ## Linking -/

def labelName (a : Assembly) (symbol : Symbol) : String :=
  (a.labels[(symbol - 1).toNat]?).getD ""

/-- The branch that is to stand where one waits: the one there, with the address of its symbol. -/
def resolved? (a : Assembly) (p : Pending) : Option Instr :=
  match a.places.lookup p.symbol, a.code[p.address]? with
  | some target, some (.branch kind _) => some (.branch kind target)
  | _, _ => none

/-- What is wrong with a branch that waits. -/
def unresolved? (a : Assembly) (p : Pending) : Option Diagnostic :=
  match a.resolved? p with
  | some _ => none
  | none =>
    let cause : Cause :=
      if a.places.lookup p.symbol = none ∧ 0 < p.symbol then
        .undefinedLabel (a.labelName p.symbol)
      else .linkFailure
    some (cause.inSpan p.span)

/-- Of two diagnostics the one that stands first in the source, or else the first one given. -/
def earlier (d e : Diagnostic) : Diagnostic :=
  let line := fun (x : Diagnostic) => x.line.getD 0
  if line e < line d ∨ (line e = line d ∧ e.start < d.start) then e else d

def earliest? : List Diagnostic → Option Diagnostic
  | [] => none
  | d :: ds => some (ds.foldl earlier d)

/-- Writes the address of its symbol into a branch. -/
def patch (a : Assembly) (code : Array Instr) (p : Pending) : Array Instr :=
  match a.resolved? p with
  | some i => code.setIfInBounds p.address i
  | none => code

def patched (a : Assembly) : Array Instr := a.pending.foldl a.patch a.code

/-- The labels that stand somewhere. -/
def labelAddresses (a : Assembly) : List (String × Nat) :=
  a.labels.toList.zipIdx.filterMap fun (name, i) =>
    (a.places.lookup (i + 1 : Symbol)).map (name, ·)

/-- Succeeds if every branch that waits can be resolved. -/
def link (a : Assembly) : Except Diagnostic Program :=
  match earliest? (a.pending.toList.filterMap a.unresolved?) with
  | some d => .error d
  | none => .ok { code := a.patched, labels := a.labelAddresses, marks := a.marks }

end Assembly

/-! ## Assemblers -/

/-- Something that makes an assembly grow, unless it fails. -/
abbrev Assembler := StateT Assembly (Except Diagnostic)

namespace Assembler

def follow (d : Directive) : Assembler Unit := fun a => do
  return ((), ← a.follow d)

def emit (i : Instr) : Assembler Unit := follow (.emit i)

def freshSymbol : Assembler Symbol := fun a => return a.freshSymbol

end Assembler

end Handheld
