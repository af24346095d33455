import Handheld.Proofs.Drawing.Curves

/-!
# Lines are exact

A line takes one step along its longer side with each move. Along the other side
it is always as near to the ideal line as a pixel can be, and where two pixels
are equally near it takes the one on the side of its start.
-/

namespace Handheld.Plane

/-! ## Points -/

/-- Switches on the pixels of a list, one after the other. -/
def light (p : Plane) (qs : List (Int × Int)) : Plane :=
  qs.foldl (fun p q => p.set q.1 q.2 true) p

theorem get_light (p : Plane) (qs : List (Int × Int)) {x y : Int} (hon : OnScreen x y) :
    (p.light qs).get x y = true ↔ p.get x y = true ∨ (x, y) ∈ qs := by
  induction qs generalizing p with
  | nil => simp [light]
  | cons q qs ih =>
    obtain ⟨u, v⟩ := q
    have hset : (p.set u v true).get x y = true ↔ p.get x y = true ∨ (x, y) = (u, v) := by
      rw [get_set, Prod.mk.injEq]
      by_cases hq : u = x ∧ v = y
      · simp [hon, hq]
      · have hne : ¬ (x = u ∧ y = v) := fun h => hq ⟨h.1.symm, h.2.symm⟩
        simp [hq, hne]
    rw [List.mem_cons, ← or_assoc, ← hset]
    exact ih _

/-- `j` is the whole number nearest to `n / d`. Of two that are equally near it is the lower one. -/
def Nearest (n d j : Nat) : Prop :=
  ∀ k : Nat, (j * d - n : Int).natAbs < (k * d - n : Int).natAbs ∨
    (j * d - n : Int).natAbs = (k * d - n : Int).natAbs ∧ j ≤ k

theorem nearest_of_bounds {n d j : Nat} (hlow : -(d : Int) ≤ 2 * (j * d - n))
    (hhigh : 2 * (j * d - n : Int) < d) : Nearest n d j := by
  intro k
  have hstep {a b : Nat} (hab : a < b) : (a * d + d : Int) ≤ b * d := by
    rw [← add_one_mul]
    exact mul_le_mul_of_nonneg_right (by omega) (Int.natCast_nonneg d)
  rcases Nat.lt_trichotomy k j with hlt | rfl | hgt
  · have hless := hstep hlt
    omega
  · exact .inr ⟨rfl, Nat.le_refl k⟩
  · have hmore := hstep hgt
    omega

namespace Line

/-- The points that are drawn from the pen to the end of the line, in no more than `moves` moves. -/
def trail (l : Line) : Nat → Pen → List (Int × Int)
  | 0, pen => [(pen.x, pen.y)]
  | moves + 1, pen =>
    (pen.x, pen.y) ::
      if pen.x = l.endX ∧ pen.y = l.endY then [] else l.trail moves (l.advance pen)

/-- The points of a line, in the order in which they are drawn. -/
def points (x₀ y₀ x₁ y₁ : Int) : List (Int × Int) :=
  let l := between x₀ y₀ x₁ y₁
  l.trail (l.dx + l.dy).toNat { x := x₀, y := y₀, error := l.dx - l.dy }

theorem draw_eq_light (l : Line) (moves : Nat) (pen : Pen) (p : Plane) :
    l.draw moves pen p = p.light (l.trail moves pen) := by
  induction moves generalizing pen p with
  | zero => rfl
  | succ moves ih =>
    rw [draw, trail]
    split
    · rfl
    · exact ih _ _

theorem trail_eq {l : Line} {n moves : Nat} {pen : Pen} (hmoves : n ≤ moves)
    (hbefore : ∀ i < n, ¬ ((l.advance^[i] pen).x = l.endX ∧ (l.advance^[i] pen).y = l.endY))
    (hend : (l.advance^[n] pen).x = l.endX ∧ (l.advance^[n] pen).y = l.endY) :
    l.trail moves pen =
      (List.range (n + 1)).map fun i => ((l.advance^[i] pen).x, (l.advance^[i] pen).y) := by
  induction n generalizing moves pen with
  | zero =>
    have hpen : pen.x = l.endX ∧ pen.y = l.endY := hend
    cases moves with
    | zero => rfl
    | succ moves =>
      rw [trail, if_pos hpen]
      rfl
  | succ n ih =>
    obtain ⟨moves, rfl⟩ := Nat.exists_eq_add_one.2 (Nat.lt_of_lt_of_le (Nat.succ_pos n) hmoves)
    have hpen : ¬ (pen.x = l.endX ∧ pen.y = l.endY) := hbefore 0 (Nat.succ_pos n)
    have htail := ih (Nat.le_of_succ_le_succ hmoves)
      (fun i hi => hbefore (i + 1) (Nat.succ_lt_succ hi)) hend
    rw [trail, if_neg hpen, htail, List.range_succ_eq_map (n := n + 1), List.map_cons, List.map_map]
    rfl

/-! ## Lines that are longer than high -/

/-- The pen has gone `i` columns and `j` rows, and no other number of rows is better for so many
columns. -/
structure Shallow (l : Line) (start : Pen) (i j : Nat) (pen : Pen) : Prop where
  x : pen.x = start.x + l.stepX * i
  y : pen.y = start.y + l.stepY * j
  error : pen.error = l.dx * (j + 1) - l.dy * (i + 1)
  low : -l.dx ≤ 2 * (j * l.dx - i * l.dy)
  high : 2 * (j * l.dx - i * l.dy) < l.dx

section

variable {l : Line} {start pen : Pen} {i j : Nat}

theorem Shallow.twice_error (h : l.Shallow start i j pen) :
    2 * pen.error = 2 * (j * l.dx - i * l.dy) + 2 * l.dx - 2 * l.dy := by
  rw [h.error]
  ring

variable (hdx : 0 < l.dx) (hdy : 0 ≤ l.dy) (hle : l.dy ≤ l.dx)
include hdx hle

theorem Shallow.goes_right (h : l.Shallow start i j pen) : -l.dy < 2 * pen.error := by
  have htwice := h.twice_error
  have hlow := h.low
  rcases Int.lt_or_eq_of_le hle with hlt | heq
  · omega
  · -- on a diagonal the pen is never off by just a half
    have hdiagonal : 2 * (j * l.dx - i * l.dy) = l.dx * (2 * (j - i)) := by
      rw [heq]
      ring
    have hgap : (-1 : Int) ≤ 2 * (j - i) := by
      refine Int.le_of_mul_le_mul_left ?_ hdx
      omega
    have hnonneg : 0 ≤ l.dx * (2 * ((j : Int) - i)) := mul_nonneg hdx.le (by omega)
    omega

include hdy

/-- Each move is one to the next column. It is one to the next row as well where this row would be
off by more than a half. -/
theorem Shallow.advance (h : l.Shallow start i j pen) :
    ∃ j', l.Shallow start (i + 1) j' (l.advance pen) := by
  have hright := h.goes_right hdx hle
  have htwice := h.twice_error
  obtain ⟨hx, hy, herror, hlow, hhigh⟩ := h
  have hcolumn : ((i + 1 : Nat) : Int) * l.dy = i * l.dy + l.dy := by
    push_cast
    ring
  by_cases hdown : 2 * pen.error < l.dx
  · have hrow : ((j + 1 : Nat) : Int) * l.dx = j * l.dx + l.dx := by
      push_cast
      ring
    refine ⟨j + 1, ?_, ?_, ?_, by omega, by omega⟩
    · simp only [Line.advance, hright, if_true, hx]
      push_cast
      ring
    · simp only [Line.advance, hdown, if_true, hy]
      push_cast
      ring
    · simp only [Line.advance, hright, hdown, if_true]
      rw [herror]
      push_cast
      ring
  · refine ⟨j, ?_, ?_, ?_, by omega, by omega⟩
    · simp only [Line.advance, hright, if_true, hx]
      push_cast
      ring
    · simp only [Line.advance, hdown, if_false, hy]
    · simp only [Line.advance, hright, hdown, if_true, if_false]
      rw [herror]
      push_cast
      ring

theorem shallow_iterate (herror : start.error = l.dx - l.dy) (i : Nat) :
    ∃ j, l.Shallow start i j (l.advance^[i] start) := by
  induction i with
  | zero =>
    refine ⟨0, by simp, by simp, by simp [herror], ?_, ?_⟩
    · simpa using hdx.le
    · simpa using hdx
  | succ i ih =>
    obtain ⟨j, h⟩ := ih
    rw [Function.iterate_succ_apply']
    exact h.advance hdx hdy hle

omit hdy hle in
theorem Shallow.rows_eq (h : l.Shallow start i j pen) (hi : i = l.dx) : j = l.dy := by
  have hlow := h.low
  have hhigh := h.high
  have hgap : 2 * (j * l.dx - i * l.dy) = l.dx * (2 * (j - l.dy)) := by
    rw [hi]
    ring
  have hleast : -1 ≤ 2 * (j - l.dy) := by
    refine Int.le_of_mul_le_mul_left ?_ hdx
    omega
  have hmost : 2 * (j - l.dy) < 1 := by
    refine Int.lt_of_mul_lt_mul_left ?_ hdx.le
    omega
  omega

end

/-- The place of `j` rows for `i` columns of a line that is `a` columns long and `b` rows high. -/
structure Fair (a b i j : Nat) : Prop where
  nearest : Nearest (i * b) a j
  near : 2 * (j * a - i * b : Int).natAbs ≤ a

/-- A line with this many columns and rows from the pen to its end. -/
structure Spans (l : Line) (start : Pen) (a b : Nat) : Prop where
  dx : l.dx = a
  dy : l.dy = b
  stepX : l.stepX ≠ 0
  endX : l.endX = start.x + l.stepX * a
  endY : l.endY = start.y + l.stepY * b
  error : start.error = l.dx - l.dy

section

variable {l : Line} {start : Pen} {a b : Nat}

theorem Spans.shallow (h : l.Spans start a b) (ha : 0 < a) (hle : b ≤ a) (i : Nat) :
    ∃ j, l.Shallow start i j (l.advance^[i] start) := by
  have hdx := h.dx
  have hdy := h.dy
  exact shallow_iterate (by omega) (by omega) (by omega) h.error i

theorem Spans.places (h : l.Spans start a b) (hle : b ≤ a) {i : Nat} (hi : i ≤ a) :
    ∃ j : Nat, (l.advance^[i] start).x = start.x + l.stepX * i ∧
      (l.advance^[i] start).y = start.y + l.stepY * j ∧ Fair a b i j := by
  rcases Nat.eq_zero_or_pos a with rfl | ha
  · -- the line is a single point
    obtain rfl : i = 0 := by omega
    refine ⟨0, by simp, by simp, fun k => ?_, by simp⟩
    simp
  · obtain ⟨j, hx, hy, -, hlow, hhigh⟩ := h.shallow ha hle i
    rw [h.dx, h.dy] at hlow hhigh
    refine ⟨j, hx, hy, nearest_of_bounds ?_ ?_, by omega⟩
    · push_cast
      exact hlow
    · push_cast
      exact hhigh

theorem Spans.ends (h : l.Spans start a b) (hle : b ≤ a) :
    (l.advance^[a] start).x = l.endX ∧ (l.advance^[a] start).y = l.endY := by
  rcases Nat.eq_zero_or_pos a with rfl | ha
  · obtain rfl : b = 0 := by omega
    simp [h.endX, h.endY]
  · obtain ⟨j, hshallow⟩ := h.shallow ha hle a
    have hrows := hshallow.rows_eq (by rw [h.dx]; omega) h.dx.symm
    rw [h.dy] at hrows
    rw [hshallow.x, hshallow.y, h.endX, h.endY, hrows]
    exact ⟨rfl, rfl⟩

theorem Spans.before_end (h : l.Spans start a b) (hle : b ≤ a) {i : Nat} (hi : i < a) :
    (l.advance^[i] start).x ≠ l.endX := by
  obtain ⟨j, hx, -⟩ := h.places hle (Nat.le_of_lt hi)
  rw [hx, h.endX]
  intro heq
  have hmul := mul_left_cancel₀ h.stepX (add_left_cancel heq)
  omega

end

/-! ## Lines that are higher than long -/

/-- The line with columns for rows. -/
def swap (l : Line) : Line := ⟨l.endY, l.endX, l.dy, l.dx, l.stepY, l.stepX⟩

end Line

def Pen.swap (pen : Pen) : Pen := ⟨pen.y, pen.x, -pen.error⟩

namespace Line

theorem advance_swap (l : Line) (pen : Pen) : l.swap.advance pen.swap = (l.advance pen).swap := by
  have hright : -l.dx < 2 * -pen.error ↔ 2 * pen.error < l.dx := by omega
  have hdown : 2 * -pen.error < l.dy ↔ -l.dy < 2 * pen.error := by omega
  simp only [advance, swap, Pen.swap, hright, hdown, Pen.mk.injEq, true_and]
  omega

theorem iterate_swap (l : Line) (pen : Pen) (i : Nat) :
    l.swap.advance^[i] pen.swap = (l.advance^[i] pen).swap := by
  induction i with
  | zero => rfl
  | succ i ih => rw [Function.iterate_succ_apply', Function.iterate_succ_apply', ih, advance_swap]

/-! ## Both -/

section

variable (x₀ y₀ x₁ y₁ : Int)

/-- The pen in front of the first move. -/
def start : Pen := ⟨x₀, y₀, (between x₀ y₀ x₁ y₁).dx - (between x₀ y₀ x₁ y₁).dy⟩

theorem spans_between :
    (between x₀ y₀ x₁ y₁).Spans (start x₀ y₀ x₁ y₁) (x₁ - x₀).natAbs (y₁ - y₀).natAbs where
  dx := rfl
  dy := rfl
  stepX := by
    simp only [between]
    split <;> decide
  endX := by
    simp only [between, start]
    split <;> omega
  endY := by
    simp only [between, start]
    split <;> omega
  error := rfl

theorem spans_swap :
    (between x₀ y₀ x₁ y₁).swap.Spans (start x₀ y₀ x₁ y₁).swap (y₁ - y₀).natAbs (x₁ - x₀).natAbs where
  dx := rfl
  dy := rfl
  stepX := by
    simp only [between, swap]
    split <;> decide
  endX := (spans_between x₀ y₀ x₁ y₁).endY
  endY := (spans_between x₀ y₀ x₁ y₁).endX
  error := by
    simp only [swap, start, Pen.swap]
    omega

/-- The pen after some moves. -/
def penAt (i : Nat) : Pen := (between x₀ y₀ x₁ y₁).advance^[i] (start x₀ y₀ x₁ y₁)

variable {x₀ y₀ x₁ y₁ : Int}

theorem places_shallow (hle : (y₁ - y₀).natAbs ≤ (x₁ - x₀).natAbs) {i : Nat}
    (hi : i ≤ (x₁ - x₀).natAbs) :
    ∃ j : Nat, (penAt x₀ y₀ x₁ y₁ i).x = x₀ + (if x₀ < x₁ then 1 else -1) * i ∧
      (penAt x₀ y₀ x₁ y₁ i).y = y₀ + (if y₀ < y₁ then 1 else -1) * j ∧
      Fair (x₁ - x₀).natAbs (y₁ - y₀).natAbs i j :=
  (spans_between x₀ y₀ x₁ y₁).places hle hi

theorem places_steep (hle : (x₁ - x₀).natAbs ≤ (y₁ - y₀).natAbs) {j : Nat}
    (hj : j ≤ (y₁ - y₀).natAbs) :
    ∃ i : Nat, (penAt x₀ y₀ x₁ y₁ j).x = x₀ + (if x₀ < x₁ then 1 else -1) * i ∧
      (penAt x₀ y₀ x₁ y₁ j).y = y₀ + (if y₀ < y₁ then 1 else -1) * j ∧
      Fair (y₁ - y₀).natAbs (x₁ - x₀).natAbs j i := by
  obtain ⟨i, hy, hx, hfair⟩ := (spans_swap x₀ y₀ x₁ y₁).places hle hj
  rw [iterate_swap] at hx hy
  exact ⟨i, hx, hy, hfair⟩

theorem points_eq : points x₀ y₀ x₁ y₁ =
    (List.range (max (x₁ - x₀).natAbs (y₁ - y₀).natAbs + 1)).map fun i =>
      ((penAt x₀ y₀ x₁ y₁ i).x, (penAt x₀ y₀ x₁ y₁ i).y) := by
  have hmoves : max (x₁ - x₀).natAbs (y₁ - y₀).natAbs ≤
      ((between x₀ y₀ x₁ y₁).dx + (between x₀ y₀ x₁ y₁).dy).toNat := by
    simp only [between]
    omega
  rcases Nat.le_total (y₁ - y₀).natAbs (x₁ - x₀).natAbs with hle | hle
  · have hspans := spans_between x₀ y₀ x₁ y₁
    rw [Nat.max_eq_left hle] at hmoves ⊢
    exact trail_eq hmoves (fun i hi hend => hspans.before_end hle hi hend.1) (hspans.ends hle)
  · have hspans := spans_swap x₀ y₀ x₁ y₁
    have hends := hspans.ends hle
    rw [iterate_swap] at hends
    rw [Nat.max_eq_right hle] at hmoves ⊢
    refine trail_eq hmoves (fun i hi hend => hspans.before_end hle hi ?_) ⟨hends.2, hends.1⟩
    rw [iterate_swap]
    exact hend.2

theorem getElem?_points {i : Nat} (hi : i ≤ max (x₁ - x₀).natAbs (y₁ - y₀).natAbs) :
    (points x₀ y₀ x₁ y₁)[i]? = some ((penAt x₀ y₀ x₁ y₁ i).x, (penAt x₀ y₀ x₁ y₁ i).y) := by
  rw [points_eq, List.getElem?_map, List.getElem?_range (Nat.lt_succ_of_le hi), Option.map_some]

theorem getLast?_points : (points x₀ y₀ x₁ y₁).getLast? = some (x₁, y₁) := by
  have hlength : (points x₀ y₀ x₁ y₁).length - 1 = max (x₁ - x₀).natAbs (y₁ - y₀).natAbs := by
    rw [points_eq, List.length_map, List.length_range, Nat.add_sub_cancel]
  rw [List.getLast?_eq_getElem?, hlength, getElem?_points (Nat.le_refl _)]
  rcases Nat.le_total (y₁ - y₀).natAbs (x₁ - x₀).natAbs with hle | hle
  · have hends := (spans_between x₀ y₀ x₁ y₁).ends hle
    rw [Nat.max_eq_left hle]
    exact congrArg some (Prod.ext hends.1 hends.2)
  · have hends := (spans_swap x₀ y₀ x₁ y₁).ends hle
    rw [iterate_swap] at hends
    rw [Nat.max_eq_right hle]
    exact congrArg some (Prod.ext hends.2 hends.1)

end

end Line

/-! ## The whole -/

/-- A line between two points whose coordinates fit 16 bits. Its loop ends, with all numbers in 64
bits, and lights the points of a list. There is one point more than the longer side has steps, from
the first end to the second. With each point the line goes on by one along the longer side. Along the
other it is at the nearest whole number of steps, or at the lower one of two that are equally near. A
pixel is on afterwards if it was on or is one of these points. -/
theorem line_exact {x₀ y₀ x₁ y₁ : Int} (hx₀ : Canvas.Short x₀) (hy₀ : Canvas.Short y₀)
    (hx₁ : Canvas.Short x₁) (hy₁ : Canvas.Short y₁) (p : Plane) :
    let dx := (x₁ - x₀).natAbs
    let dy := (y₁ - y₀).natAbs
    let sx : Int := if x₀ < x₁ then 1 else -1
    let sy : Int := if y₀ < y₁ then 1 else -1
    let points := Line.points x₀ y₀ x₁ y₁
    Canvas.line? p.buffer x₀ y₀ x₁ y₁ = some (p.line x₀ y₀ x₁ y₁).buffer ∧
    p.line x₀ y₀ x₁ y₁ = p.light points ∧
    points.length = max dx dy + 1 ∧
    points.head? = some (x₀, y₀) ∧ points.getLast? = some (x₁, y₁) ∧
    (dy ≤ dx → ∀ i ≤ dx, ∃ j : Nat, points[i]? = some (x₀ + sx * i, y₀ + sy * j) ∧
      Nearest (i * dy) dx j ∧ 2 * (j * dx - i * dy : Int).natAbs ≤ dx) ∧
    (dx < dy → ∀ j ≤ dy, ∃ i : Nat, points[j]? = some (x₀ + sx * i, y₀ + sy * j) ∧
      Nearest (j * dx) dy i ∧ 2 * (i * dy - j * dx : Int).natAbs ≤ dy) ∧
    ∀ x y, OnScreen x y →
      ((p.line x₀ y₀ x₁ y₁).get x y = true ↔ p.get x y = true ∨ (x, y) ∈ points) := by
  intro dx dy sx sy points
  have hline : p.line x₀ y₀ x₁ y₁ = p.light points := Line.draw_eq_light _ _ _ p
  refine ⟨Canvas.line?_buffer hx₀ hy₀ hx₁ hy₁ p, hline, ?_, ?_, Line.getLast?_points,
    fun hle i hi => ?_, fun hlt j hj => ?_, fun x y hon => ?_⟩
  · change (Line.points x₀ y₀ x₁ y₁).length = _
    rw [Line.points_eq, List.length_map, List.length_range]
  · rw [List.head?_eq_getElem?]
    exact Line.getElem?_points (Nat.zero_le _)
  · obtain ⟨j, hx, hy, hfair⟩ := Line.places_shallow hle hi
    refine ⟨j, ?_, hfair.nearest, hfair.near⟩
    rw [← hx, ← hy]
    exact Line.getElem?_points (Nat.le_trans hi (Nat.le_max_left _ _))
  · obtain ⟨i, hx, hy, hfair⟩ := Line.places_steep hlt.le hj
    refine ⟨i, ?_, hfair.nearest, hfair.near⟩
    rw [← hx, ← hy]
    exact Line.getElem?_points (Nat.le_trans hj (Nat.le_max_right _ _))
  · rw [hline, get_light p _ hon]

theorem line_exact_far :
    let points := Line.points (-32768) 5 20 32767
    points.length = 32789 ∧ points.getLast? = some (20, 32767) ∧
      ∃ j : Nat, points[16384]? = some (-16384, 5 + (j : Int)) ∧ Nearest (16384 * 32762) 32788 j := by
  have hshort : Canvas.Short (-32768) ∧ Canvas.Short 5 ∧ Canvas.Short 20 ∧ Canvas.Short 32767 := by
    unfold Canvas.Short
    decide
  obtain ⟨hx₀, hy₀, hx₁, hy₁⟩ := hshort
  obtain ⟨-, -, hlength, -, hlast, hshallow, -⟩ := line_exact hx₀ hy₀ hx₁ hy₁ blank
  obtain ⟨j, hj, hnearest, -⟩ := hshallow (by omega) 16384 (by omega)
  exact ⟨hlength, hlast, j, by simpa using hj, hnearest⟩

end Handheld.Plane
