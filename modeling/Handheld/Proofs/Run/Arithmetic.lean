import Handheld.Proofs.Run.Accesses
import Mathlib

/-!
# Laws of arithmetic

Sums, differences, products and opposites are those of all integers, up to
multiples of 2⁶⁴. Quotients are cut toward zero, with the remainder that belongs
to them; the one quotient that is too large wraps around, and its remainder is
still right. Of the three ways to compare two numbers exactly one is true.
-/

namespace Handheld

open BinaryOp

variable {a b : Int64}

/-! ## Quotients and remainders -/

theorem ofInt_tdiv (a b : Int64) : Int64.ofInt (a.toInt.tdiv b.toInt) = a / b :=
  Int64.toInt_inj.1 (Int64.toInt_ofInt.trans (Int64.toInt_div a b).symm)

theorem ofInt_tmod (a b : Int64) : Int64.ofInt (a.toInt.tmod b.toInt) = a % b := by
  rw [← Int64.toInt_mod, Int64.ofInt_toInt]

theorem div_mul_add_mod (a b : Int64) : a / b * b + a % b = a := by
  conv_lhs => rw [← ofInt_tdiv, ← ofInt_tmod, ← Int64.ofInt_toInt b, ← Int64.ofInt_mul,
    ← Int64.ofInt_add, Int64.ofInt_toInt, Int.tdiv_mul_add_tmod]
  exact Int64.ofInt_toInt a

theorem abs_mod_lt (hb : b ≠ 0) : |(a % b).toInt| < |b.toInt| := by
  have hpos : 0 < b.toInt.natAbs := Int.natAbs_pos.2 fun h => hb (Int64.toInt_inj.1 h)
  rw [Int64.toInt_mod, Int.abs_eq_natAbs, Int.abs_eq_natAbs, Int.natAbs_tmod]
  exact_mod_cast Nat.mod_lt _ hpos

theorem sign_mod (h : a % b ≠ 0) : (a % b).toInt.sign = a.toInt.sign := by
  have hne : (a % b).toInt ≠ 0 := fun hzero => h (Int64.toInt_inj.1 hzero)
  rw [Int64.toInt_mod] at hne ⊢
  rw [Int.sign_tmod, if_neg fun hdvd => hne (Int.tmod_eq_zero_of_dvd hdvd)]

theorem toInt_div_of_not (h : ¬ (a = .minValue ∧ b = -1)) :
    (a / b).toInt = a.toInt.tdiv b.toInt := by
  by_cases ha : a = .minValue
  · exact Int64.toInt_div_of_ne_right a b fun hb => h ⟨ha, hb⟩
  · exact Int64.toInt_div_of_ne_left a b ha

/-- The quotient `q` and the remainder `r` of `a` by `b`. -/
structure Division (a b q r : Int64) : Prop where
  whole : ∃ p, multiply.eval q b = .ok p ∧ add.eval p r = .ok a
  small : |r.toInt| < |b.toInt|
  sign : r ≠ 0 → r.toInt.sign = a.toInt.sign
  toward_zero : ¬ (a = .minValue ∧ b = -1) → q.toInt = a.toInt.tdiv b.toInt
  wraps : a = .minValue → b = -1 → q = .minValue

theorem division_of_ne_zero (hb : b ≠ 0) :
    divide.eval a b = .ok (a / b) ∧ modulo.eval a b = .ok (a % b) ∧
      Division a b (a / b) (a % b) := by
  refine ⟨if_neg hb, if_neg hb, ⟨_, rfl, congrArg Except.ok (div_mul_add_mod a b)⟩, abs_mod_lt hb,
    sign_mod, toInt_div_of_not, ?_⟩
  rintro rfl rfl
  exact Int64.minValue_div_neg_one

/-! ## Sums, differences and products -/

theorem bmod_modEq (z : Int) : z.bmod (2 ^ 64) ≡ z [ZMOD 2 ^ 64] := by
  exact_mod_cast Int.bmod_emod (x := z) (m := 2 ^ 64)

theorem toInt_add_modEq (a b : Int64) : (a + b).toInt ≡ a.toInt + b.toInt [ZMOD 2 ^ 64] := by
  rw [Int64.toInt_add]
  exact bmod_modEq _

theorem toInt_sub_modEq (a b : Int64) : (a - b).toInt ≡ a.toInt - b.toInt [ZMOD 2 ^ 64] := by
  rw [Int64.toInt_sub]
  exact bmod_modEq _

theorem toInt_mul_modEq (a b : Int64) : (a * b).toInt ≡ a.toInt * b.toInt [ZMOD 2 ^ 64] := by
  rw [Int64.toInt_mul]
  exact bmod_modEq _

theorem toInt_neg_modEq (a : Int64) : (-a).toInt ≡ -a.toInt [ZMOD 2 ^ 64] := by
  rw [Int64.toInt_neg]
  exact bmod_modEq _

/-! ## Comparisons -/

/-- The answers to `<`, `=` and `>`: yes to one of them, and no to the two others. -/
inductive Compared (a b : Int64) : Int64 → Int64 → Int64 → Prop
  | less (h : a.toInt < b.toInt) : Compared a b 1 0 0
  | equal (h : a.toInt = b.toInt) : Compared a b 0 1 0
  | greater (h : b.toInt < a.toInt) : Compared a b 0 0 1

theorem compared (a b : Int64) :
    Compared a b (truth (a < b)) (truth (a == b)) (truth (b < a)) := by
  rcases Int.lt_trichotomy a.toInt b.toInt with h | h | h
  · have hne : a ≠ b := fun heq => Int.ne_of_lt h (congrArg Int64.toInt heq)
    simpa [truth, Int64.lt_iff_toInt_lt, h, Int.lt_asymm h, hne] using Compared.less h
  · obtain rfl := Int64.toInt_inj.1 h
    simpa [truth] using Compared.equal (a := a) rfl
  · have hne : a ≠ b := fun heq => Int.ne_of_gt h (congrArg Int64.toInt heq)
    simpa [truth, Int64.lt_iff_toInt_lt, h, Int.lt_asymm h, hne] using Compared.greater h

theorem truth_not (p : Bool) : truth (!p) = 1 - truth p := by
  cases p <;> rfl

theorem eval_complements (a b : Int64) :
    lessEqual.eval a b = .ok (1 - truth (b < a)) ∧ greaterEqual.eval a b = .ok (1 - truth (a < b)) ∧
      notEqual.eval a b = .ok (1 - truth (a == b)) := by
  refine ⟨?_, ?_, ?_⟩
  all_goals
    rw [← truth_not, BinaryOp.eval]
    simp [bne, ← decide_not]

/-! ## The instructions -/

namespace Machine

variable {σ : Type} {m : Machine} {d : Device σ} {s : σ} {rest : List Int64}

theorem exec_binary (op : BinaryOp) (h : m.stack.items = b :: a :: rest) :
    m.exec (.binary op) = match op.eval a b with
      | .ok v => push { m with stack := .ofList rest } v
      | .error cause => fault { m with stack := .ofList rest } cause := by
  rw [exec, withPair, stack_eq_ofList h]
  rfl

theorem leaves_binary {op : BinaryOp} (hm : m.Poised (.binary op))
    (h : m.stack.items = b :: a :: rest) {v : Int64} (hv : op.eval a b = .ok v) :
    m.Leaves d s (v :: rest) m.memory := by
  have hroom : rest.length + 1 ≤ stackLimit := by
    have hsize := hm.room
    rw [m.stack.size_eq, h] at hsize
    exact Nat.le_of_succ_le hsize
  refine leaves_of_exec hm ?_
  rw [exec_binary op h, hv]
  exact (push_eq_done { m with stack := .ofList rest } v).2 hroom

theorem fails_binary {op : BinaryOp} (hm : m.Poised (.binary op))
    (h : m.stack.items = b :: a :: rest) {cause : Cause} (hcause : op.eval a b = .error cause) :
    ∃ e, (m.step.perform d s).1 = .fault e ∧ e.cause = cause := by
  rw [perform_step hm.running hm.code, exec_binary op h, hcause]
  exact ⟨_, rfl, Program.cause_locate ..⟩

theorem leaves_negate (hm : m.Poised .negate) (h : m.stack.items = a :: rest) :
    m.Leaves d s (-a :: rest) m.memory := by
  refine leaves_of_exec hm ?_
  rw [exec, withTop, stack_eq_ofList h]
  exact push_in_place hm.room h (-a)

end Machine

/-! ## All laws -/

/-- For any two values, what the operations give and how the results belong together, and that the
instructions leave them on the stack or fail as they do. -/
theorem arithmetic_laws (a b : Int64) :
    (∀ cause, divide.eval a b = .error cause ↔ b = 0 ∧ cause = .divisionByZero) ∧
    (∀ cause, modulo.eval a b = .error cause ↔ b = 0 ∧ cause = .divisionByZero) ∧
    (b ≠ 0 → ∃ q r, divide.eval a b = .ok q ∧ modulo.eval a b = .ok r ∧ Division a b q r) ∧
    (∃ sum difference product, add.eval a b = .ok sum ∧ subtract.eval a b = .ok difference ∧
      multiply.eval a b = .ok product ∧ sum.toInt ≡ a.toInt + b.toInt [ZMOD 2 ^ 64] ∧
      difference.toInt ≡ a.toInt - b.toInt [ZMOD 2 ^ 64] ∧
      product.toInt ≡ a.toInt * b.toInt [ZMOD 2 ^ 64] ∧
      (-a).toInt ≡ -a.toInt [ZMOD 2 ^ 64] ∧ add.eval a (-b) = .ok difference) ∧
    (∃ l e g, less.eval a b = .ok l ∧ equal.eval a b = .ok e ∧ greater.eval a b = .ok g ∧
      Compared a b l e g ∧ lessEqual.eval a b = .ok (1 - g) ∧
      greaterEqual.eval a b = .ok (1 - l) ∧ notEqual.eval a b = .ok (1 - e)) ∧
    ∀ {σ : Type} (d : Device σ) (s : σ) (m : Machine) (rest : List Int64),
      (∀ op, m.Poised (.binary op) → m.stack.items = b :: a :: rest →
        (∀ v, op.eval a b = .ok v → m.Leaves d s (v :: rest) m.memory) ∧
        ∀ cause, op.eval a b = .error cause →
          ∃ e, (m.step.perform d s).1 = .fault e ∧ e.cause = cause) ∧
      (m.Poised .negate → m.stack.items = a :: rest → m.Leaves d s (-a :: rest) m.memory) := by
  obtain ⟨hle, hge, hne⟩ := eval_complements a b
  refine ⟨fun cause => ?_, fun cause => ?_, fun hb => ⟨_, _, division_of_ne_zero hb⟩,
    ⟨a + b, a - b, a * b, rfl, rfl, rfl, toInt_add_modEq a b, toInt_sub_modEq a b,
      toInt_mul_modEq a b, toInt_neg_modEq a, congrArg Except.ok (Int64.sub_eq_add_neg a b).symm⟩,
    ⟨_, _, _, rfl, rfl, rfl, compared a b, hle, hge, hne⟩, fun d s m rest => ⟨?_, ?_⟩⟩
  · rw [eval_eq_error_iff]
    simp
  · rw [eval_eq_error_iff]
    simp
  · intro op hm h
    exact ⟨fun v hv => Machine.leaves_binary hm h hv, fun cause hc => Machine.fails_binary hm h hc⟩
  · exact fun hm h => Machine.leaves_negate hm h

/-- The least value has no opposite, so its quotient by −1 wraps around. A division of it by zero
fails. -/
theorem arithmetic_laws_least :
    let m : Machine :=
      { program := { code := #[.binary .divide] }, stack := .ofList [0, .minValue],
        status := .running }
    (-1 : Int64) ≠ 0 ∧
    (∃ q r, divide.eval .minValue (-1) = .ok q ∧ Division .minValue (-1) q r ∧ q = .minValue ∧
      |r.toInt| < 1) ∧
    ∃ e, (m.step.perform Recorder.device {}).1 = .fault e ∧ e.code = .divisionByZero := by
  intro m
  obtain ⟨-, -, hdivision, -⟩ := arithmetic_laws .minValue (-1)
  obtain ⟨hzero, -, -, -, -, hsteps⟩ := arithmetic_laws .minValue 0
  have hne : (-1 : Int64) ≠ 0 := by decide
  obtain ⟨q, r, hq, -, h⟩ := hdivision hne
  refine ⟨hne, ⟨q, r, hq, h, h.wraps rfl rfl, h.small⟩, ?_⟩
  have hm : m.Poised (.binary .divide) := ⟨rfl, rfl, by decide⟩
  obtain ⟨e, he, hcause⟩ :=
    ((hsteps Recorder.device {} m []).1 .divide hm rfl).2 _ ((hzero _).2 ⟨rfl, rfl⟩)
  exact ⟨e, he, congrArg Cause.code hcause⟩

end Handheld
