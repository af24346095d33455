import Handheld.Code.Instr
import Handheld.Text.Aligned

/-!
# Programs that can run

Every branch of a program names an address. Beside the code, a program knows the
address of each of its labels and the statements its code came from.
-/

namespace Handheld

structure Program where
  code : Array Instr := #[]
  labels : List (String × Nat) := []
  /-- The places where the code of a statement begins, in the order of their addresses. -/
  marks : Array (Nat × Span) := #[]

namespace Program

def size (p : Program) : Nat := p.code.size

/-- The address of the instruction behind a label. -/
def label? (p : Program) (name : String) : Option Nat :=
  p.labels.lookup name

/-- The statement that an instruction came from: the last one marked no later than there. -/
def spanAt? (p : Program) (address : Nat) : Option Span :=
  (p.marks.findRev? fun m => m.1 ≤ address).map Prod.snd

/-- The labels at an address, by name. -/
def labelsAt (p : Program) (address : Nat) : List String :=
  ((p.labels.filter fun l => l.2 = address).map Prod.fst).mergeSort fun a b => a ≤ b

/-- One line for each instruction, and one for each label before what it labels. -/
def listing (p : Program) : String :=
  let withLabels := fun text address =>
    (p.labelsAt address).foldl (fun text name => text ++ name ++ ":\n") text
  let text := p.code.toList.zipIdx.foldl (fun text (i, address) =>
    withLabels text address ++ Text.alignedRight 5 (toString address) ++ "  " ++ i.text ++ "\n") ""
  withLabels text p.size

end Program

end Handheld
