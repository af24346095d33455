import Handheld.Diagnostic
import Handheld.Tree.Basic

/-!
# Arithmetic of the machine

Values are 64 bit integers that wrap around. They are cut to 16 bits only when
they are stored.
-/

namespace Handheld

/-- Comparisons answer with a number. -/
def truth (b : Bool) : Int64 := if b then 1 else 0

/-- Quotients are cut toward zero, and remainders have the sign of `a`. -/
def BinaryOp.eval (op : BinaryOp) (a b : Int64) : Except Cause Int64 :=
  match op with
  | .add => .ok (a + b)
  | .subtract => .ok (a - b)
  | .multiply => .ok (a * b)
  | .divide => if b = 0 then .error .divisionByZero else .ok (a / b)
  | .modulo => if b = 0 then .error .divisionByZero else .ok (a % b)
  | .equal => .ok (truth (a == b))
  | .notEqual => .ok (truth (a != b))
  | .less => .ok (truth (a < b))
  | .lessEqual => .ok (truth (a ≤ b))
  | .greater => .ok (truth (b < a))
  | .greaterEqual => .ok (truth (b ≤ a))

theorem BinaryOp.eval_eq_error_iff {op : BinaryOp} {a b : Int64} {c : Cause} :
    op.eval a b = .error c ↔ (op = .divide ∨ op = .modulo) ∧ b = 0 ∧ c = .divisionByZero := by
  cases op <;> simp [eval] <;> split <;> simp_all [eq_comm]

end Handheld
