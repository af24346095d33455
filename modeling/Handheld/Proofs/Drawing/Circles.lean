import Handheld.Proofs.Drawing.Lines
import Mathlib.Analysis.Real.Sqrt

/-!
# Circles are exact

The eighth of a circle from its top to the diagonal is drawn column by column. In
each column the pen is in the row nearest to the circle, and one row down for one
column to the right is always enough to keep it there. The other seven eighths are
mirror images of this one.
-/

namespace Handheld.Plane

/-! ## Rows nearest to a circle -/

/-- A point between the top of a circle around (0, 0) and the diagonal, in the row that is nearest
to the circle in its column. -/
structure OnArc (radius x y : Int) : Prop where
  right : 0 ≤ x
  above : x ≤ y
  low : y ^ 2 - y < radius ^ 2 - x ^ 2
  high : radius ^ 2 - x ^ 2 ≤ y ^ 2 + y

theorem sq_add_self_le {a b : Int} (ha : 0 ≤ a) (hab : a < b) : a ^ 2 + a ≤ b ^ 2 - b := by
  have hprod : 0 ≤ (b - a - 1) * (b + a) := mul_nonneg (by omega) (by omega)
  linarith

namespace OnArc

variable {radius x y : Int}

theorem row_unique {v : Int} (h : OnArc radius x y) (h' : OnArc radius x v) : y = v := by
  obtain ⟨hright, habove, hlow, hhigh⟩ := h
  obtain ⟨-, habove', hlow', hhigh'⟩ := h'
  rcases Int.lt_trichotomy y v with hlt | heq | hgt
  · have hstep := sq_add_self_le (hright.trans habove) hlt
    omega
  · exact heq
  · have hstep := sq_add_self_le (hright.trans habove') hgt
    omega

theorem inside (h : OnArc radius x y) : 0 < radius ^ 2 - x ^ 2 := by
  have hlow := h.low
  have hsquare := Int.le_self_sq y
  omega

theorem column_lt (hradius : 0 < radius) (h : OnArc radius x y) : x < radius :=
  lt_of_pow_lt_pow_left₀ 2 hradius.le (sub_pos.1 h.inside)

end OnArc

section

variable {n y : Int}

theorem sqrt_lt_iff (hy : 0 ≤ y) : √(n : ℝ) < y + 1 / 2 ↔ n ≤ y ^ 2 + y := by
  have hpos : (0 : ℝ) < y + 1 / 2 := by positivity
  have hsquare : ((y : ℝ) + 1 / 2) ^ 2 = (y ^ 2 + y : Int) + 1 / 4 := by
    push_cast
    ring
  rw [Real.sqrt_lt' hpos, hsquare, ← Int.lt_add_one_iff]
  constructor
  · intro h
    have hlt : (n : ℝ) < (y ^ 2 + y + 1 : Int) := by
      push_cast at h ⊢
      linarith
    exact_mod_cast hlt
  · intro h
    have hle : (n : ℝ) ≤ (y ^ 2 + y : Int) := by exact_mod_cast Int.lt_add_one_iff.1 h
    linarith

theorem lt_sqrt_iff (hy : 0 < y) : y - 1 / 2 < √(n : ℝ) ↔ y ^ 2 - y < n := by
  have hone : (1 : ℝ) ≤ y := by exact_mod_cast hy
  have hsquare : ((y : ℝ) - 1 / 2) ^ 2 = (y ^ 2 - y : Int) + 1 / 4 := by
    push_cast
    ring
  rw [Real.lt_sqrt (by linarith), hsquare]
  constructor
  · intro h
    have hlt : ((y ^ 2 - y : Int) : ℝ) < n := by linarith
    exact_mod_cast hlt
  · intro h
    have hle : ((y ^ 2 - y + 1 : Int) : ℝ) ≤ n := by exact_mod_cast h
    push_cast at hle ⊢
    linarith

end

theorem onArc_iff_near {radius x y : Int} (hradius : 0 < radius) :
    OnArc radius x y ↔ 0 ≤ x ∧ x ≤ y ∧ |√((radius : ℝ) ^ 2 - (x : ℝ) ^ 2) - y| < 1 / 2 := by
  have hcast : (radius : ℝ) ^ 2 - (x : ℝ) ^ 2 = (radius ^ 2 - x ^ 2 : Int) := by push_cast; rfl
  rw [hcast, abs_sub_lt_iff, sub_lt_iff_lt_add', sub_lt_comm]
  constructor
  · intro h
    have hy : 0 < y := by
      have hlow := h.low
      have hhigh := h.high
      have hnonneg := h.right.trans h.above
      rcases hnonneg.eq_or_lt with rfl | hpos
      · omega
      · exact hpos
    exact ⟨h.right, h.above, (sqrt_lt_iff hy.le).2 h.high, (lt_sqrt_iff hy).2 h.low⟩
  · rintro ⟨hright, habove, hup, hdown⟩
    have hhigh := (sqrt_lt_iff (hright.trans habove)).1 hup
    have hy : 0 < y := by
      rcases (hright.trans habove).eq_or_lt with rfl | hpos
      · -- only a circle without a radius has no height above its centre
        obtain rfl : x = 0 := by omega
        have hsquare : 0 < radius ^ 2 := pow_pos hradius 2
        omega
      · exact hpos
    exact ⟨hright, habove, (lt_sqrt_iff hy).1 hdown, hhigh⟩

/-! ## The pen -/

namespace Arc

/-- The pen has come to its column by rows nearest to the circle. What it is off the ideal circle
can be told from where it is. Below the diagonal, which is the end, only the upper bound is left. -/
structure Rolls (radius : Int) (pen : Pen) : Prop where
  right : 0 ≤ pen.x
  up : 0 ≤ pen.y
  error : pen.error =
    2 * (pen.x + 1) ^ 2 + pen.y ^ 2 + (pen.y - 1) ^ 2 - 2 * radius ^ 2
  high : radius ^ 2 - pen.x ^ 2 ≤ pen.y ^ 2 + pen.y
  low : pen.x ≤ pen.y → pen.y ^ 2 - pen.y < radius ^ 2 - pen.x ^ 2

section

variable {radius : Int} {pen : Pen}

theorem rolls_start (hradius : 0 < radius) : Rolls radius ⟨0, radius, 3 - 2 * radius⟩ where
  right := Int.le_refl 0
  up := hradius.le
  error := by ring
  high := by
    dsimp only
    omega
  low := by
    dsimp only
    omega

theorem Rolls.onArc (h : Rolls radius pen) (hup : pen.x ≤ pen.y) : OnArc radius pen.x pen.y :=
  ⟨h.right, hup, h.low hup, h.high⟩

/-- The error tells whether this row is still the nearest one in the next column. -/
theorem Rolls.error_neg_iff (h : Rolls radius pen) :
    pen.error < 0 ↔ pen.y ^ 2 - pen.y < radius ^ 2 - (pen.x + 1) ^ 2 := by
  have htwice : pen.error = 2 * (pen.y ^ 2 - pen.y - (radius ^ 2 - (pen.x + 1) ^ 2)) + 1 := by
    rw [h.error]
    ring
  omega

theorem Rolls.turn (hradius : 0 < radius) (h : Rolls radius pen) (hup : pen.x ≤ pen.y) :
    Rolls radius (Canvas.turn pen) := by
  have hsign := h.error_neg_iff
  have hlow := h.low hup
  obtain ⟨hright, -, herror, hhigh, -⟩ := h
  have hcolumn : (pen.x + 1) ^ 2 = pen.x ^ 2 + 2 * pen.x + 1 := by ring
  have hrow : (pen.y - 1) ^ 2 = pen.y ^ 2 - 2 * pen.y + 1 := by ring
  unfold Canvas.turn
  split
  · next hneg =>
    refine ⟨by dsimp only; omega, hright.trans hup, ?_, ?_, fun _ => hsign.1 hneg⟩
    · dsimp only
      rw [herror]
      ring
    · dsimp only
      omega
  · next hneg =>
    rw [hsign] at hneg
    have hpos : 0 < pen.y := by
      rcases (hright.trans hup).eq_or_lt with heq | hpos
      · have hx : pen.x = 0 := by omega
        have hsquare : 0 < radius ^ 2 := pow_pos hradius 2
        rw [← heq, hx] at hhigh
        omega
      · exact hpos
    refine ⟨by dsimp only; omega, by dsimp only; omega, ?_, ?_, ?_⟩
    · dsimp only
      rw [herror]
      ring
    · dsimp only
      omega
    · -- one row down is enough as long as the pen stays above the diagonal
      dsimp only
      intro hstill
      omega

theorem Rolls.not_onArc (h : Rolls radius pen) (hdown : pen.y < pen.x) {u v : Int}
    (hu : pen.x ≤ u) : ¬ OnArc radius u v := by
  intro hpoint
  have habove := hpoint.above
  have hlow := hpoint.low
  have hhigh := h.high
  have hstep : pen.y ^ 2 + pen.y ≤ v ^ 2 - v := sq_add_self_le h.up (by omega)
  have hcolumns : pen.x ^ 2 ≤ u ^ 2 := pow_le_pow_left₀ h.right hu 2
  omega

end

/-! ## Points of a circle -/

/-- The points of the eighth from the pen on, for at most `moves` columns. -/
def trail : Nat → Pen → List (Int × Int)
  | 0, _ => []
  | moves + 1, pen =>
    if pen.y < pen.x then [] else (pen.x, pen.y) :: trail moves (Canvas.turn pen)

/-- The points of a circle, in the order in which they are drawn. -/
def points (cx cy radius : Int) : List (Int × Int) :=
  (trail (radius.toNat + 1) ⟨0, radius, 3 - 2 * radius⟩).flatMap fun q => octants cx cy q.1 q.2

theorem arc_eq_light (cx cy : Int) (moves : Nat) (pen : Pen) (p : Plane) :
    arc cx cy moves pen p =
      p.light ((trail moves pen).flatMap fun q => octants cx cy q.1 q.2) := by
  induction moves generalizing pen p with
  | zero => rfl
  | succ moves ih =>
    rw [arc, trail]
    split
    · rfl
    · rw [List.flatMap_cons, light, List.foldl_append]
      exact ih _ _

theorem mem_trail {radius : Int} (hradius : 0 < radius) {moves : Nat} {pen : Pen}
    (h : Rolls radius pen) (hmoves : pen.x + moves = radius + 1) {u v : Int} :
    (u, v) ∈ trail moves pen ↔ pen.x ≤ u ∧ OnArc radius u v := by
  induction moves generalizing pen with
  | zero =>
    refine iff_of_false List.not_mem_nil ?_
    rintro ⟨hu, hpoint⟩
    have hlt := hpoint.column_lt hradius
    omega
  | succ moves ih =>
    rw [trail]
    split
    · next hdown =>
      refine iff_of_false List.not_mem_nil ?_
      rintro ⟨hu, hpoint⟩
      exact h.not_onArc hdown hu hpoint
    · next hdown =>
      have hup : pen.x ≤ pen.y := Int.not_lt.1 hdown
      have hnext : (Canvas.turn pen).x = pen.x + 1 := by
        unfold Canvas.turn
        split <;> rfl
      rw [List.mem_cons, ih (h.turn hradius hup) (by rw [hnext]; omega), hnext]
      constructor
      · rintro (heq | ⟨hu, hpoint⟩)
        · cases heq
          exact ⟨Int.le_refl _, h.onArc hup⟩
        · exact ⟨by omega, hpoint⟩
      · rintro ⟨hu, hpoint⟩
        rcases hu.eq_or_lt with rfl | hlt
        · exact .inl (by rw [hpoint.row_unique (h.onArc hup)])
        · exact .inr ⟨hlt, hpoint⟩

theorem mem_octants {cx cy x y px py : Int} :
    (px, py) ∈ octants cx cy x y ↔
      (px = cx + x ∨ px = cx - x) ∧ (py = cy + y ∨ py = cy - y) ∨
        (px = cx + y ∨ px = cx - y) ∧ (py = cy + x ∨ py = cy - x) := by
  simp only [octants, List.mem_cons, Prod.mk.injEq, List.not_mem_nil, or_false]
  constructor
  · rintro (⟨rfl, rfl⟩ | ⟨rfl, rfl⟩ | ⟨rfl, rfl⟩ | ⟨rfl, rfl⟩ | ⟨rfl, rfl⟩ | ⟨rfl, rfl⟩ |
      ⟨rfl, rfl⟩ | ⟨rfl, rfl⟩) <;> simp
  · rintro (⟨rfl | rfl, rfl | rfl⟩ | ⟨rfl | rfl, rfl | rfl⟩) <;> simp

theorem mem_points {cx cy radius : Int} (hradius : 0 < radius) {q : Int × Int} :
    q ∈ points cx cy radius ↔ ∃ x y, OnArc radius x y ∧ q ∈ octants cx cy x y := by
  have hmoves : (0 : Int) + (radius.toNat + 1 : Nat) = radius + 1 := by omega
  rw [points, List.mem_flatMap]
  constructor
  · rintro ⟨⟨x, y⟩, hmem, hq⟩
    exact ⟨x, y, ((mem_trail hradius (rolls_start hradius) hmoves).1 hmem).2, hq⟩
  · rintro ⟨x, y, hpoint, hq⟩
    exact ⟨(x, y), (mem_trail hradius (rolls_start hradius) hmoves).2 ⟨hpoint.right, hpoint⟩, hq⟩

/-! ## Symmetries -/

theorem mem_octants_add {cx cy x y u v : Int} :
    (cx + u, cy + v) ∈ octants cx cy x y ↔
      u.natAbs = x.natAbs ∧ v.natAbs = y.natAbs ∨ u.natAbs = y.natAbs ∧ v.natAbs = x.natAbs := by
  rw [mem_octants]
  simp only [sub_eq_add_neg, add_right_inj, Int.natAbs_eq_natAbs_iff]

theorem mem_octants_image {cx cy x y u v u' v' : Int} (h : (u', v') ∈ octants 0 0 u v) :
    (cx + u', cy + v') ∈ octants cx cy x y ↔ (cx + u, cy + v) ∈ octants cx cy x y := by
  rw [← zero_add u', ← zero_add v', mem_octants_add] at h
  rw [mem_octants_add, mem_octants_add]
  -- either the same lengths or the two exchanged
  rcases h with ⟨hu, hv⟩ | ⟨hu, hv⟩
  · rw [hu, hv]
  · rw [hu, hv]
    exact or_comm.trans (or_congr and_comm and_comm)

theorem mem_points_image {cx cy radius : Int} (hradius : 0 < radius) {u v u' v' : Int}
    (h : (u', v') ∈ octants 0 0 u v) :
    (cx + u', cy + v') ∈ points cx cy radius ↔ (cx + u, cy + v) ∈ points cx cy radius := by
  rw [mem_points hradius, mem_points hradius]
  exact exists_congr fun x => exists_congr fun y => and_congr_right fun _ => mem_octants_image h

end Arc

theorem circle_eq_light (p : Plane) (cx cy : Int) {radius : Int} (hradius : 0 < radius) :
    p.circle cx cy radius = p.light (Arc.points cx cy radius) := by
  rw [circle, if_neg (Int.not_le.2 hradius)]
  exact Arc.arc_eq_light ..

/-! ## The whole -/

/-- A circle whose centre and radius fit 16 bits. Its loop ends, with all numbers in 64 bits.
Without a positive radius nothing changes. Otherwise a pixel is on afterwards if it was on or if it
lies from the centre, in one of eight directions, as a column of the upper eighth and the row nearest
to the circle in it. So what a circle puts on a blank surface is the same on all eight sides. -/
theorem circle_exact {cx cy radius : Int} (hcx : Canvas.Short cx) (hcy : Canvas.Short cy)
    (hradius : Canvas.Short radius) (p : Plane) :
    Canvas.circle? p.buffer cx cy radius = some (p.circle cx cy radius).buffer ∧
    (radius ≤ 0 → p.circle cx cy radius = p) ∧
    (0 < radius →
      (∀ px py, OnScreen px py → ((p.circle cx cy radius).get px py = true ↔
        p.get px py = true ∨ ∃ x y, OnArc radius x y ∧
          ((px = cx + x ∨ px = cx - x) ∧ (py = cy + y ∨ py = cy - y) ∨
            (px = cx + y ∨ px = cx - y) ∧ (py = cy + x ∨ py = cy - x)))) ∧
      (∀ x y, OnArc radius x y ↔
        0 ≤ x ∧ x ≤ y ∧ |√((radius : ℝ) ^ 2 - (x : ℝ) ^ 2) - y| < 1 / 2) ∧
      ∀ u v u' v', (u', v') ∈ octants 0 0 u v → OnScreen (cx + u) (cy + v) →
        OnScreen (cx + u') (cy + v') →
        (blank.circle cx cy radius).get (cx + u') (cy + v') =
          (blank.circle cx cy radius).get (cx + u) (cy + v)) := by
  refine ⟨Canvas.circle?_buffer hcx hcy hradius p, fun hnone => if_pos hnone, fun hpos => ?_⟩
  refine ⟨fun px py hon => ?_, fun x y => onArc_iff_near hpos, fun u v u' v' himage hon hon' => ?_⟩
  · rw [circle_eq_light p cx cy hpos, get_light p _ hon, Arc.mem_points hpos]
    simp only [Arc.mem_octants]
  · rw [Bool.eq_iff_iff, circle_eq_light blank cx cy hpos, get_light _ _ hon, get_light _ _ hon',
      Arc.mem_points_image hpos himage, get_blank, get_blank]

/-- A circle whose centre is far left of the screen. Only its right end is on the screen, one column
wide in the row 60. -/
theorem circle_exact_far :
    (blank.circle (-32700) 20 32767).get 67 60 = true ∧
      (blank.circle (-32700) 20 32767).get 66 60 = false := by
  have hshort : Canvas.Short (-32700) ∧ Canvas.Short 20 ∧ Canvas.Short 32767 := by
    unfold Canvas.Short
    decide
  obtain ⟨hcx, hcy, hradius⟩ := hshort
  obtain ⟨-, -, hcircle⟩ := circle_exact hcx hcy hradius blank
  obtain ⟨hlit, -, -⟩ := hcircle (by decide)
  constructor
  · refine (hlit 67 60 (by decide)).2 (.inr ⟨40, 32767, ?_, .inr ⟨.inl rfl, .inl rfl⟩⟩)
    constructor <;> norm_num
  · rw [Bool.eq_false_iff, ne_eq, hlit 66 60 (by decide), get_blank]
    rintro (hoff | ⟨x, y, ⟨hright, habove, hlow, hhigh⟩, hplace⟩)
    · cases hoff
    · obtain ⟨rfl, rfl⟩ : x = 40 ∧ y = 32766 := by omega
      norm_num at hhigh

end Handheld.Plane
