import Handheld.Code.Lowering
import Handheld.Proofs.Code.Assembling
import Handheld.Proofs.Reading.Statements

/-!
# The code of a tree

The code of a proper tree, written down as lists: the instructions of an expression,
and the directives of a statement at a known address, where the target of each branch
over a block follows from the sizes of what stands before. All loops have one form:
code in front of the test, the test, the body, and code behind the body that goes
back to the test.
-/

namespace Handheld

/-! ## Expressions -/

/-- The code that keeps a copy of the value about to be stored. -/
def Target.keepCode : Target → List Instr
  | .var _ | .pointer _ .word => [.mask, .dup]
  | .pointer _ .byte => [.dup]

mutual

def Expr.code : Expr → List Instr
  | .number n => [.literal n]
  | .var c => [.push c]
  | .buffer b => [.literal (Int64.ofNat b.base)]
  | .deref address width => address.code ++ [.peek width]
  | .addressOf (.var c) => ((variableAddress? c).map fun a => .literal (Int64.ofNat a)).toList
  | .addressOf (.pointer address _) => address.code
  | .unary .negate operand => operand.code ++ [.negate]
  | .unary .square operand => operand.code ++ [.dup, .binary .multiply]
  | .binary op lhs rhs => lhs.code ++ rhs.code ++ [.binary op]
  | .assign value target => value.code ++ target.keepCode ++ target.storeCode
  | .increment target =>
    target.loadCode ++ [.literal 1, .binary .add] ++ target.keepCode ++ target.storeCode
  | .decrement target =>
    target.loadCode ++ [.literal 1, .binary .subtract] ++ target.keepCode ++ target.storeCode
  | .getKey key => key.code ++ [.getKey]
  | .rand => [.rand]
  | .pxlTest surface x y => x.code ++ y.code ++ [.pxlTest surface]

def Target.loadCode : Target → List Instr
  | .var c => [.push c]
  | .pointer address width => address.code ++ [.peek width]

def Target.storeCode : Target → List Instr
  | .var c => [.pop c]
  | .pointer address width => address.code ++ [.poke width]

end

/-- The code that adds 1 to a target, or takes it away. -/
def Target.stepCode (target : Target) (op : BinaryOp) : List Instr :=
  target.loadCode ++ [.literal 1, .binary op] ++ target.storeCode

def Expr.effectCode : Expr → List Instr
  | .assign value target => value.code ++ target.storeCode
  | .increment target => target.stepCode .add
  | .decrement target => target.stepCode .subtract
  | _ => []

theorem variableAddress?_isSome {c : Char} (h : c.isUpper) : ∃ a, variableAddress? c = some a := by
  simp [variableAddress?, h]

/-! ## Loops -/

namespace Loop

/-- The code that runs once, in front of the first test. -/
def startCode (depth : Nat) : Loop → List Instr
  | .whileTrue _ | .repeatUntil _ => []
  | .count target first _ => first.code ++ target.storeCode
  | .times _ => .literal 0 :: (counter depth).storeCode

/-- The code that leaves a value which decides about the next pass. -/
def testCode (depth : Nat) : Loop → List Instr
  | .whileTrue condition | .repeatUntil condition => condition.code
  | .count target _ last => target.loadCode ++ last.code ++ [.binary .lessEqual]
  | .times n => (counter depth).loadCode ++ n.code ++ [.binary .less]

def leaving : Loop → Branch
  | .repeatUntil _ => .ifTrue
  | .whileTrue _ | .count .. | .times _ => .ifFalse

/-- The code between a pass and the next test. -/
def nextCode (depth : Nat) : Loop → List Instr
  | .whileTrue _ | .repeatUntil _ => []
  | .count target _ _ => target.stepCode .add
  | .times _ => (counter depth).stepCode .add

/-- Loops that count have code of their own behind the body, and it is marked as such. -/
def returnMark (span : Span) : Loop → List Directive
  | .whileTrue _ | .repeatUntil _ => []
  | .count .. | .times _ => [.mark span]

/-- How many loops of the form `For(n)` are around the body. -/
def depthInside (depth : Nat) : Loop → Nat
  | .whileTrue _ | .repeatUntil _ | .count .. => depth
  | .times _ => depth + 1

def top (depth here : Nat) (kind : Loop) : Nat :=
  here + (kind.startCode depth).length

def inside (depth here : Nat) (kind : Loop) : Nat :=
  kind.top depth here + (kind.testCode depth).length + 1

/-- Where the code behind a loop begins, given the size of its body. -/
def exit (depth here bodySize : Nat) (kind : Loop) : Nat :=
  kind.inside depth here + bodySize + (kind.nextCode depth).length + 1

/-- The size of a loop apart from its body. -/
def size (kind : Loop) : Nat := kind.exit 0 0 0

theorem exit_eq (kind : Loop) (depth here bodySize : Nat) :
    kind.exit depth here bodySize = here + (kind.size + bodySize) := by
  cases kind <;>
    simp [size, exit, inside, top, startCode, testCode, nextCode, counter, Target.storeCode,
      Target.loadCode, Target.stepCode, Expr.code] <;>
    omega

theorem codeLength_returnMark (span : Span) (kind : Loop) :
    codeLength (kind.returnMark span) = 0 := by
  cases kind <;> rfl

end Loop

theorem counter_proper (depth : Nat) : (counter depth).Proper := trivial

/-! ## Statements -/

def Command.code : Command → List Instr
  | .exit => [.exit]
  | .help => [.help]
  | .about => [.about]
  | .debug flag => flag.code ++ [.debug]

/-- The code of a statement without a block, a label or a jump. -/
def Stmt.straight? : Stmt → Option (List Instr)
  | .effect _ e => some e.effectCode
  | .disp _ values => some (values.flatMap fun e => e.code ++ [.disp])
  | .pause _ e => some (e.code ++ [.pause])
  | .draw _ graphic surface arguments =>
    some (arguments.flatMap Expr.code ++ [.draw graphic surface])
  | .dispGraph _ shade => some [.dispGraph shade]
  | .command _ c => some c.code
  | .cond .. | .loop .. | .label .. | .goto .. => none

mutual

/-- How many instructions the code of a statement has. -/
def Stmt.size : Stmt → Nat
  | .cond _ condition yes [] => condition.code.length + 1 + blockSize yes
  | .cond _ condition yes no => condition.code.length + 1 + blockSize yes + 1 + blockSize no
  | .loop _ kind body => kind.size + blockSize body
  | .label .. => 0
  | .goto .. => 1
  | s => (s.straight?.getD []).length

def blockSize : List Stmt → Nat
  | [] => 0
  | s :: ss => s.size + blockSize ss

end

mutual

/-- The directives of a statement at the address `here`, inside `depth` loops of the form
`For(n)`. -/
def Stmt.directives (depth here : Nat) : Stmt → List Directive
  | .cond span condition yes no =>
    let inside := here + condition.code.length + 1
    let behind := inside + blockSize yes
    match no with
    | [] =>
      .mark span :: emits (condition.code ++ [.branch .ifFalse behind]) ++
        blockDirectives depth inside yes
    | no =>
      .mark span :: emits (condition.code ++ [.branch .ifFalse (behind + 1)]) ++
        blockDirectives depth inside yes ++
        emits [.branch .always (behind + 1 + blockSize no)] ++
        blockDirectives depth (behind + 1) no
  | .loop span kind body =>
    .mark span :: emits (kind.startCode depth ++ kind.testCode depth ++
        [.branch kind.leaving (kind.exit depth here (blockSize body))]) ++
      blockDirectives (kind.depthInside depth) (kind.inside depth here) body ++
      kind.returnMark span ++
      emits (kind.nextCode depth ++ [.branch .always (kind.top depth here)])
  | .label span name => [.label span name]
  | .goto span name => [.mark span, .goto span name]
  | s => .mark s.span :: emits (s.straight?.getD [])

def blockDirectives (depth here : Nat) : List Stmt → List Directive
  | [] => []
  | s :: ss => s.directives depth here ++ blockDirectives depth (here + s.size) ss

end

theorem Stmt.directives_of_straight {s : Stmt} {is : List Instr} (h : s.straight? = some is)
    (depth here : Nat) : s.directives depth here = .mark s.span :: emits is := by
  cases s with
  | cond | loop | label | goto => cases h
  | _ => simp [Stmt.directives, h]

theorem Stmt.flat_of_straight {s : Stmt} {is : List Instr} (h : s.straight? = some is) :
    s.flat = [s] := by
  cases s with
  | cond | loop | label | goto => cases h
  | _ => rfl

/-- A property of statements and one of blocks, proved together along the tree. -/
theorem tree_induction {P : Stmt → Prop} {Q : List Stmt → Prop}
    (straight : ∀ s is, s.straight? = some is → P s)
    (label : ∀ span name, P (.label span name))
    (goto : ∀ span name, P (.goto span name))
    (cond : ∀ span condition yes no, Q yes → Q no → P (.cond span condition yes no))
    (loop : ∀ span kind body, Q body → P (.loop span kind body))
    (nil : Q []) (cons : ∀ s ss, P s → Q ss → Q (s :: ss)) :
    (∀ s, P s) ∧ ∀ ss, Q ss := by
  have stmt : ∀ s, P s :=
    @Stmt.rec P Q (fun _ _ => straight _ _ rfl) (fun _ _ => straight _ _ rfl)
      (fun _ _ => straight _ _ rfl) (fun _ _ _ _ => straight _ _ rfl) (fun _ _ => straight _ _ rfl)
      cond loop label goto (fun _ _ => straight _ _ rfl) nil cons
  refine ⟨stmt, fun ss => ?_⟩
  induction ss with
  | nil => exact nil
  | cons s ss ih => exact cons s ss (stmt s) ih

theorem Stmt.length_of_straight {s : Stmt} {is : List Instr} (h : s.straight? = some is) :
    is.length = s.size := by
  cases s with
  | cond | loop | label | goto => cases h
  | _ =>
    cases h
    rfl

end Handheld
