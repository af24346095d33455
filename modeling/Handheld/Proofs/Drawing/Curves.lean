import Handheld.Proofs.Drawing.Canvas
import Mathlib.Tactic.LinearCombination
import Mathlib.Tactic.Linarith
import Mathlib.Tactic.Ring

/-!
# Lines and circles

The pen of a line comes nearer to the end of the line with each move, in one
direction at least and never past it. The pen of a circle moves one column at a
time and stops before it has come as far as the radius. So both loops end, no
number in them grows large, and they draw what the screen draws.
-/

namespace Handheld

/-! ## Lines -/

namespace Plane.Line

/-- A line between two points whose coordinates fit 16 bits. -/
structure Sound (l : Line) : Prop where
  endX : Canvas.Short l.endX
  endY : Canvas.Short l.endY
  dx : 0 ≤ l.dx ∧ l.dx ≤ 65535
  dy : 0 ≤ l.dy ∧ l.dy ≤ 65535
  stepX : l.stepX = 1 ∨ l.stepX = -1
  stepY : l.stepY = 1 ∨ l.stepY = -1

/-- The pen still has `a` columns and `b` rows to go. What it is off the ideal line can be told from
these. -/
structure Ahead (l : Line) (pen : Pen) (a b : Nat) : Prop where
  x : pen.x = l.endX - l.stepX * a
  y : pen.y = l.endY - l.stepY * b
  error : pen.error = l.dx * (1 - b) - l.dy * (1 - a)
  columns : a ≤ l.dx
  rows : b ≤ l.dy

variable {l : Line} {pen : Pen} {a b : Nat}

theorem sound_between {x₀ y₀ x₁ y₁ : Int} (hx₀ : Canvas.Short x₀) (hy₀ : Canvas.Short y₀)
    (hx₁ : Canvas.Short x₁) (hy₁ : Canvas.Short y₁) : (between x₀ y₀ x₁ y₁).Sound where
  endX := hx₁
  endY := hy₁
  dx := by
    unfold Canvas.Short at hx₀ hx₁
    simp only [between]
    omega
  dy := by
    unfold Canvas.Short at hy₀ hy₁
    simp only [between]
    omega
  stepX := by
    simp only [between]
    split
    · exact .inl rfl
    · exact .inr rfl
  stepY := by
    simp only [between]
    split
    · exact .inl rfl
    · exact .inr rfl

theorem ahead_between (x₀ y₀ x₁ y₁ : Int) :
    (between x₀ y₀ x₁ y₁).Ahead
      ⟨x₀, y₀, (between x₀ y₀ x₁ y₁).dx - (between x₀ y₀ x₁ y₁).dy⟩
      (x₁ - x₀).natAbs (y₁ - y₀).natAbs where
  x := by
    simp only [between]
    split <;> omega
  y := by
    simp only [between]
    split <;> omega
  error := by
    simp only [between]
    ring
  columns := Int.le_refl _
  rows := Int.le_refl _

theorem Ahead.x_eq_end (hl : l.Sound) (h : l.Ahead pen a b) : pen.x = l.endX ↔ a = 0 := by
  have hx := h.x
  rcases hl.stepX with hstep | hstep
  · rw [hstep] at hx
    omega
  · rw [hstep] at hx
    omega

theorem Ahead.y_eq_end (hl : l.Sound) (h : l.Ahead pen a b) : pen.y = l.endY ↔ b = 0 := by
  have hy := h.y
  rcases hl.stepY with hstep | hstep
  · rw [hstep] at hy
    omega
  · rw [hstep] at hy
    omega

theorem Ahead.columns_pos (hl : l.Sound) (h : l.Ahead pen a b) (hab : 0 < a + b)
    (hright : -l.dy < 2 * pen.error) : 0 < a := by
  by_contra ha
  obtain rfl : a = 0 := by omega
  have hb : (1 : Int) - b ≤ 0 := by omega
  have hback : l.dx * (1 - b) ≤ 0 := Int.mul_nonpos_of_nonneg_of_nonpos hl.dx.1 hb
  have herror := h.error
  have hdy := hl.dy.1
  simp only [Nat.cast_zero, sub_zero, mul_one] at herror
  omega

theorem Ahead.rows_pos (hl : l.Sound) (h : l.Ahead pen a b) (hab : 0 < a + b)
    (hdown : 2 * pen.error < l.dx) : 0 < b := by
  by_contra hb
  obtain rfl : b = 0 := by omega
  have ha : (1 : Int) - a ≤ 0 := by omega
  have hback : l.dy * (1 - a) ≤ 0 := Int.mul_nonpos_of_nonneg_of_nonpos hl.dy.1 ha
  have herror := h.error
  have hdx := hl.dx.1
  simp only [Nat.cast_zero, sub_zero, mul_one] at herror
  omega

theorem Ahead.advance (hl : l.Sound) (h : l.Ahead pen a b) (hab : 0 < a + b) :
    ∃ a' b', l.Ahead (l.advance pen) a' b' ∧ a' + b' < a + b := by
  have hdx := hl.dx.1
  have hdy := hl.dy.1
  have hcolumns := h.columns
  have hrows := h.rows
  by_cases hright : -l.dy < 2 * pen.error
  · obtain ⟨a, rfl⟩ := Nat.exists_eq_add_one.2 (h.columns_pos hl hab hright)
    push_cast at hcolumns
    by_cases hdown : 2 * pen.error < l.dx
    · obtain ⟨b, rfl⟩ := Nat.exists_eq_add_one.2 (h.rows_pos hl hab hdown)
      push_cast at hrows
      refine ⟨a, b, ⟨?_, ?_, ?_, by omega, by omega⟩, by omega⟩
      · simp only [Line.advance, hright, if_true, h.x]
        push_cast
        ring
      · simp only [Line.advance, hdown, if_true, h.y]
        push_cast
        ring
      · simp only [Line.advance, hright, hdown, if_true]
        rw [h.error]
        push_cast
        ring
    · refine ⟨a, b, ⟨?_, ?_, ?_, by omega, hrows⟩, by omega⟩
      · simp only [Line.advance, hright, if_true, h.x]
        push_cast
        ring
      · simp only [Line.advance, hdown, if_false, h.y]
      · simp only [Line.advance, hright, hdown, if_true, if_false]
        rw [h.error]
        push_cast
        ring
  · have hdown : 2 * pen.error < l.dx := by
      -- otherwise the line has no length and the pen is at its end
      omega
    obtain ⟨b, rfl⟩ := Nat.exists_eq_add_one.2 (h.rows_pos hl hab hdown)
    push_cast at hrows
    refine ⟨a, b, ⟨?_, ?_, ?_, hcolumns, by omega⟩, by omega⟩
    · simp only [Line.advance, hright, if_false, h.x]
    · simp only [Line.advance, hdown, if_true, h.y]
      push_cast
      ring
    · simp only [Line.advance, hright, hdown, if_true, if_false]
      rw [h.error]
      push_cast
      ring

theorem Ahead.bounded (hl : l.Sound) (h : l.Ahead pen a b) :
    (-131072 ≤ pen.x ∧ pen.x ≤ 131072) ∧ (-131072 ≤ pen.y ∧ pen.y ≤ 131072) ∧
      -4294967296 ≤ pen.error ∧ pen.error ≤ 4294967296 := by
  obtain ⟨hdx, hdx'⟩ := hl.dx
  obtain ⟨hdy, hdy'⟩ := hl.dy
  have hendX := hl.endX
  have hendY := hl.endY
  have hcolumns := h.columns
  have hrows := h.rows
  unfold Canvas.Short at hendX hendY
  have hx := h.x
  have hy := h.y
  have herror : pen.error = l.dx - l.dx * b - l.dy + l.dy * a := by
    rw [h.error]
    ring
  have hdxb : 0 ≤ l.dx * b := mul_nonneg hdx (Int.natCast_nonneg b)
  have hdya : 0 ≤ l.dy * a := mul_nonneg hdy (Int.natCast_nonneg a)
  have hdxb' : l.dx * b ≤ 65535 * 65535 :=
    mul_le_mul hdx' (by omega) (Int.natCast_nonneg b) (by decide)
  have hdya' : l.dy * a ≤ 65535 * 65535 :=
    mul_le_mul hdy' (by omega) (Int.natCast_nonneg a) (by decide)
  refine ⟨?_, ?_, by omega, by omega⟩
  · rcases hl.stepX with hstep | hstep
    · rw [hstep] at hx
      omega
    · rw [hstep] at hx
      omega
  · rcases hl.stepY with hstep | hstep
    · rw [hstep] at hy
      omega
    · rw [hstep] at hy
      omega

end Plane.Line

namespace Canvas

open Plane (Line Pen)

section

variable {l : Line} (hl : l.Sound)
include hl

theorem lineRound?_buffer {pen : Pen} {a b : Nat} (h : l.Ahead pen a b) (p : Plane) :
    lineRound? l p.buffer pen =
      some (if pen.x = l.endX ∧ pen.y = l.endY then .inl (p.set pen.x pen.y true).buffer
        else .inr ((p.set pen.x pen.y true).buffer, l.advance pen)) := by
  obtain ⟨⟨hx, hx'⟩, ⟨hy, hy'⟩, herror, herror'⟩ := h.bounded hl
  obtain ⟨hdx, hdx'⟩ := hl.dx
  obtain ⟨hdy, hdy'⟩ := hl.dy
  have hstepX : -1 ≤ l.stepX ∧ l.stepX ≤ 1 := by rcases hl.stepX with h | h <;> omega
  have hstepY : -1 ≤ l.stepY ∧ l.stepY ≤ 1 := by rcases hl.stepY with h | h <;> omega
  have htwice : word? (2 * pen.error) = some (2 * pen.error) := word?_eq (by omega) (by omega)
  have hlimit : word? (-l.dy) = some (-l.dy) := word?_eq (by omega) (by omega)
  have hfirst : word? (pen.error - l.dy) = some (pen.error - l.dy) := word?_eq (by omega) (by omega)
  have hsecond : word? (pen.error + l.dx) = some (pen.error + l.dx) :=
    word?_eq (by omega) (by omega)
  have hboth : word? (pen.error - l.dy + l.dx) = some (pen.error - l.dy + l.dx) :=
    word?_eq (by omega) (by omega)
  have hright : word? (pen.x + l.stepX) = some (pen.x + l.stepX) := word?_eq (by omega) (by omega)
  have hdown : word? (pen.y + l.stepY) = some (pen.y + l.stepY) := word?_eq (by omega) (by omega)
  rw [lineRound?, set?_buffer]
  simp only [Option.bind_eq_bind, Option.bind_some, htwice, hlimit, Line.advance]
  by_cases hend : pen.x = l.endX ∧ pen.y = l.endY
  · rw [if_pos hend, if_pos hend]
    rfl
  · rw [if_neg hend, if_neg hend]
    by_cases h₁ : -l.dy < 2 * pen.error <;> by_cases h₂ : 2 * pen.error < l.dx <;>
      simp [h₁, h₂, hfirst, hsecond, hboth, hright, hdown]

/-- The loop ends, after no more moves than there are columns and rows to go. -/
theorem lineLoop?_buffer (moves : Nat) {pen : Pen} {a b : Nat} (h : l.Ahead pen a b)
    (hmoves : a + b ≤ moves) (p : Plane) :
    loop? (lineRound? l) p.buffer pen = some (l.draw moves pen p).buffer := by
  induction moves generalizing pen a b p with
  | zero =>
    have hend : pen.x = l.endX ∧ pen.y = l.endY :=
      ⟨(h.x_eq_end hl).2 (by omega), (h.y_eq_end hl).2 (by omega)⟩
    rw [loop?_eq, lineRound?_buffer hl h, if_pos hend]
    rfl
  | succ moves ih =>
    rw [loop?_eq, lineRound?_buffer hl h, Line.draw]
    by_cases hend : pen.x = l.endX ∧ pen.y = l.endY
    · rw [if_pos hend, if_pos hend]
      rfl
    · have hab : 0 < a + b := by
        rw [h.x_eq_end hl, h.y_eq_end hl] at hend
        omega
      obtain ⟨a', b', h', hlt⟩ := h.advance hl hab
      rw [if_neg hend, if_neg hend]
      exact ih h' (by omega) _

end

theorem line?_buffer {x₀ y₀ x₁ y₁ : Int} (hx₀ : Short x₀) (hy₀ : Short y₀) (hx₁ : Short x₁)
    (hy₁ : Short y₁) (p : Plane) :
    line? p.buffer x₀ y₀ x₁ y₁ = some (p.line x₀ y₀ x₁ y₁).buffer := by
  have hmoves : ((Line.between x₀ y₀ x₁ y₁).dx + (Line.between x₀ y₀ x₁ y₁).dy).toNat =
      (x₁ - x₀).natAbs + (y₁ - y₀).natAbs := by
    simp only [Line.between]
    omega
  have hloop := lineLoop?_buffer (Line.sound_between hx₀ hy₀ hx₁ hy₁) _
    (Line.ahead_between x₀ y₀ x₁ y₁) (Nat.le_of_eq hmoves.symm) p
  unfold Short at hx₀ hy₀ hx₁ hy₁
  rw [line?, word?_bind (by omega) (by omega), word?_bind (by omega) (by omega),
    word?_bind (by omega) (by omega), word?_bind (by omega) (by omega),
    word?_bind (by omega) (by omega)]
  exact hloop

/-! ## Circles -/

/-- The pen of a circle with so many columns left. What it is off the ideal circle grows with the
columns it has gone. -/
structure Round (radius : Int) (columns : Nat) (pen : Pen) : Prop where
  x : pen.x + columns = radius + 1
  nonneg : 0 ≤ pen.x
  high : pen.y ≤ radius
  low : pen.x - 2 ≤ pen.y
  error : -(70000 + 140000 * pen.x) ≤ pen.error ∧ pen.error ≤ 70000 + 140000 * pen.x

theorem mapM_word? {qs : List (Int × Int)}
    (h : ∀ q ∈ qs, (-131072 ≤ q.1 ∧ q.1 ≤ 131072) ∧ -131072 ≤ q.2 ∧ q.2 ≤ 131072) :
    (qs.mapM fun q => do
      let x ← word? q.1
      let y ← word? q.2
      pure (x, y)) = some qs := by
  induction qs with
  | nil => rfl
  | cons q qs ih =>
    obtain ⟨hq, hqs⟩ := List.forall_mem_cons.1 h
    rw [List.mapM_cons, word?_bind (by omega) (by omega), word?_bind (by omega) (by omega), ih hqs]
    rfl

/-- Where the pen of a circle goes next. -/
def turn (pen : Pen) : Pen :=
  if pen.error < 0 then ⟨pen.x + 1, pen.y, pen.error + 4 * pen.x + 6⟩
  else ⟨pen.x + 1, pen.y - 1, pen.error + 4 * (pen.x - pen.y) + 10⟩

section

variable {cx cy radius : Int} {columns : Nat} {pen : Pen}

theorem Round.turn (hradius : radius ≤ 32767) (h : Round radius (columns + 1) pen)
    (hup : ¬ pen.y < pen.x) : Round radius columns (turn pen) := by
  obtain ⟨hx, hx₀, hy, hlow, herror⟩ := h
  unfold Canvas.turn
  split
  all_goals
    constructor
    all_goals
      dsimp only
      omega

theorem arcRound?_buffer (hcx : Short cx) (hcy : Short cy) (hradius : radius ≤ 32767)
    (h : Round radius (columns + 1) pen) (hup : ¬ pen.y < pen.x) (p : Plane) :
    arcRound? cx cy p.buffer pen =
      let drawn := (Plane.octants cx cy pen.x pen.y).foldl (fun p q => p.set q.1 q.2 true) p
      some (.inr (drawn.buffer, turn pen)) := by
  obtain ⟨hx, hx₀, hy, hlow, herror⟩ := h
  unfold Short at hcx hcy
  have hpoints : ∀ q ∈ Plane.octants cx cy pen.x pen.y,
      (-131072 ≤ q.1 ∧ q.1 ≤ 131072) ∧ -131072 ≤ q.2 ∧ q.2 ≤ 131072 := by
    simp only [Plane.octants, List.forall_mem_cons]
    refine ⟨?_, ?_, ?_, ?_, ?_, ?_, ?_, ?_, by simp⟩ <;> omega
  have hset := foldlM_buffer (g := fun b q => set? b q.1 q.2 true)
    (fun p q (_ : q ∈ Plane.octants cx cy pen.x pen.y) => set?_buffer p q.1 q.2 true) p
  rw [arcRound?, turn, if_neg hup, mapM_word? hpoints, Option.bind_eq_bind, Option.bind_some, hset,
    Option.bind_eq_bind, Option.bind_some, word?_bind (by omega) (by omega)]
  by_cases hneg : pen.error < 0
  · rw [if_pos hneg, if_pos hneg, word?_bind (by omega) (by omega),
      word?_bind (by omega) (by omega), word?_bind (by omega) (by omega), ← Int.add_assoc]
    rfl
  · rw [if_neg hneg, if_neg hneg, word?_bind (by omega) (by omega),
      word?_bind (by omega) (by omega), word?_bind (by omega) (by omega),
      word?_bind (by omega) (by omega), word?_bind (by omega) (by omega), ← Int.add_assoc]
    rfl

theorem arcRound?_end (hdown : pen.y < pen.x) (b : Buffer) :
    arcRound? cx cy b pen = some (.inl b) :=
  if_pos hdown

end

/-- The loop ends before the pen has gone as many columns as the radius has, and one more. -/
theorem arcLoop?_buffer {cx cy radius : Int} (hcx : Short cx) (hcy : Short cy)
    (hradius : radius ≤ 32767) (columns : Nat) {pen : Pen} (h : Round radius columns pen)
    (p : Plane) :
    loop? (arcRound? cx cy) p.buffer pen = some (Plane.arc cx cy columns pen p).buffer := by
  induction columns generalizing pen p with
  | zero =>
    have hend : pen.y < pen.x := by
      have hx := h.x
      have hy := h.high
      omega
    rw [loop?_eq, arcRound?_end hend]
    rfl
  | succ columns ih =>
    rw [loop?_eq, Plane.arc]
    by_cases hend : pen.y < pen.x
    · rw [arcRound?_end hend, if_pos hend]
      rfl
    · rw [arcRound?_buffer hcx hcy hradius h hend, if_neg hend]
      exact ih (h.turn hradius hend) _

theorem circle?_buffer {cx cy radius : Int} (hcx : Short cx) (hcy : Short cy)
    (hradius : Short radius) (p : Plane) :
    circle? p.buffer cx cy radius = some (p.circle cx cy radius).buffer := by
  rw [circle?, Plane.circle]
  unfold Short at hradius
  by_cases h : radius ≤ 0
  · rw [if_pos h, if_pos h]
    rfl
  · rw [if_neg h, if_neg h, word?_bind (by omega) (by omega), word?_bind (by omega) (by omega)]
    refine arcLoop?_buffer hcx hcy hradius.2 _ ⟨?_, ?_, ?_, ?_, ?_⟩ p
    all_goals
      dsimp only
      omega

end Canvas

end Handheld
