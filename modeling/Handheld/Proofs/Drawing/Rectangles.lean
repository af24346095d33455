import Handheld.Proofs.Drawing.Safety

/-!
# Rectangles and flips

A rectangle is cut off at the edges of the screen. To fill it twice is to fill it
once, and to flip it twice is to do nothing. Of many commands that flip pixels it
only counts how many of them cover a pixel, whatever their order is.
-/

namespace Handheld

theorem coordinate_emod (v : Int64) : coordinate v % 65536 = v.toInt % 65536 := by
  rw [coordinate, Int64.toInt_toInt16]
  exact Int.bmod_emod

namespace Plane

/-! ## One rectangle -/

section

variable (p : Plane) {x y width height px py : Int}

theorem not_inside_of_empty (h : width ≤ 0 ∨ height ≤ 0) : ¬ Inside x y width height px py := by
  unfold Inside
  omega

theorem get_fill (hon : OnScreen px py) :
    (p.fill x y width height).get px py = (p.get px py || Inside x y width height px py) := by
  simp [fill, get_ofFn, hon]

theorem get_invert (hon : OnScreen px py) :
    (p.invert x y width height).get px py = (p.get px py ^^ Inside x y width height px py) := by
  simp [invert, get_ofFn, hon]

theorem fill_of_empty (h : width ≤ 0 ∨ height ≤ 0) : p.fill x y width height = p :=
  ext_get fun px py hon => by simp [get_fill p hon, not_inside_of_empty h]

theorem invert_of_empty (h : width ≤ 0 ∨ height ≤ 0) : p.invert x y width height = p :=
  ext_get fun px py hon => by simp [get_invert p hon, not_inside_of_empty h]

theorem fill_fill : (p.fill x y width height).fill x y width height = p.fill x y width height :=
  ext_get fun px py hon => by rw [get_fill _ hon, get_fill _ hon, Bool.or_assoc, Bool.or_self]

theorem invert_invert : (p.invert x y width height).invert x y width height = p :=
  ext_get fun px py hon => by
    rw [get_invert _ hon, get_invert _ hon, Bool.xor_assoc, Bool.xor_self, Bool.xor_false]

end

end Plane

/-! ## Flips -/

/-- A command that flips the pixels of a rectangle, or a single one. -/
inductive Flip
  | rect (x y width height : Int64)
  | pixel (x y : Int64)

namespace Flip

def drawing : Flip → Drawing
  | rect x y width height => .invert x y width height
  | pixel x y => .pixelChange x y

def stroke (surface : Surface) : Flip → Stroke
  | rect x y width height => ⟨surface, .rectI, [x, y, width, height]⟩
  | pixel x y => ⟨surface, .pxlChange, [x, y]⟩

/-- Does the command flip this pixel? -/
def Covers (f : Flip) (px py : Int) : Prop :=
  match f with
  | rect x y width height =>
    Plane.Inside (coordinate x) (coordinate y) (coordinate width) (coordinate height) px py
  | pixel x y => coordinate x = px ∧ coordinate y = py

instance (f : Flip) (px py : Int) : Decidable (f.Covers px py) := by
  unfold Covers
  cases f <;> infer_instance

theorem drawing?_stroke (f : Flip) (surface : Surface) :
    (f.stroke surface).drawing? = some f.drawing := by
  cases f <;> rfl

theorem get_draw (p : Plane) (f : Flip) {px py : Int} (hon : Plane.OnScreen px py) :
    (p.draw f.drawing).get px py = (p.get px py ^^ f.Covers px py) := by
  cases f with
  | rect x y width height => exact Plane.get_invert p hon
  | pixel x y =>
    change (p.set (coordinate x) (coordinate y) _).get px py = _
    rw [Plane.get_set]
    by_cases hcovers : coordinate x = px ∧ coordinate y = py
    · obtain ⟨rfl, rfl⟩ := hcovers
      simp [hon, Covers]
    · simp [hcovers, Covers]

end Flip

namespace Screen

theorem ext_plane {s t : Screen} (h : ∀ surface, s.plane surface = t.plane surface) : s = t := by
  obtain ⟨main, back⟩ := s
  obtain ⟨main', back'⟩ := t
  obtain rfl : main = main' := h .main
  obtain rfl : back = back' := h .back
  rfl

theorem plane_draw (s : Screen) (surface : Surface) (d : Drawing) :
    (s.draw surface d).plane surface = (s.plane surface).draw d := by
  cases surface <;> rfl

theorem plane_draw_of_ne (s : Screen) {surface other : Surface} (h : other ≠ surface)
    (d : Drawing) : (s.draw surface d).plane other = s.plane other := by
  cases surface <;> cases other <;> first | rfl | exact absurd rfl h

theorem draw_eq_self {s : Screen} {surface : Surface} {d : Drawing}
    (h : (s.plane surface).draw d = s.plane surface) : s.draw surface d = s := by
  refine ext_plane fun other => ?_
  by_cases hother : other = surface
  · rw [hother, plane_draw, h]
  · exact s.plane_draw_of_ne hother d

theorem draw_draw_eq_self {s : Screen} {surface : Surface} {d : Drawing}
    (h : ((s.plane surface).draw d).draw d = s.plane surface) :
    (s.draw surface d).draw surface d = s := by
  refine ext_plane fun other => ?_
  by_cases hother : other = surface
  · rw [hother, plane_draw, plane_draw, h]
  · rw [plane_draw_of_ne _ hother, plane_draw_of_ne _ hother]

/-- Flips on both surfaces, one after the other. -/
def flipAll (s : Screen) (fs : List (Surface × Flip)) : Screen :=
  fs.foldl (fun s f => s.draw f.1 f.2.drawing) s

theorem flipAll_cons (s : Screen) (f : Surface × Flip) (fs : List (Surface × Flip)) :
    s.flipAll (f :: fs) = (s.draw f.1 f.2.drawing).flipAll fs :=
  List.foldl_cons ..

end Screen

/-- How many of the commands flip this pixel. -/
def flipCount (fs : List (Surface × Flip)) (surface : Surface) (px py : Int) : Nat :=
  fs.countP fun f => f.1 = surface ∧ f.2.Covers px py

theorem flipCount_cons (f : Surface × Flip) (fs : List (Surface × Flip)) (surface : Surface)
    (px py : Int) :
    flipCount (f :: fs) surface px py =
      flipCount fs surface px py + if f.1 = surface ∧ f.2.Covers px py then 1 else 0 := by
  unfold flipCount
  rw [List.countP_cons]
  simp only [decide_eq_true_eq]

theorem odd_add_ite (n : Nat) (q : Prop) [Decidable q] :
    decide ((n + if q then 1 else 0) % 2 = 1) = (decide (n % 2 = 1) ^^ q) := by
  by_cases hq : q
  · rcases Nat.mod_two_eq_zero_or_one n with hn | hn <;> simp [hq, hn, Nat.add_mod]
  · simp [hq]

theorem xor_ne_self (on : Bool) (q : Prop) [Decidable q] : (on ^^ q) ≠ on ↔ q := by
  cases on <;> simp

namespace Screen

theorem get_draw_flip (s : Screen) (f : Surface × Flip) (surface : Surface) {px py : Int}
    (hon : Plane.OnScreen px py) :
    ((s.draw f.1 f.2.drawing).plane surface).get px py =
      ((s.plane surface).get px py ^^ (f.1 = surface ∧ f.2.Covers px py)) := by
  by_cases hsurface : f.1 = surface
  · rw [← hsurface, plane_draw, Flip.get_draw _ _ hon]
    simp
  · rw [plane_draw_of_ne s (Ne.symm hsurface)]
    simp [hsurface]

/-- Only an odd number of flips changes a pixel. -/
theorem get_flipAll (s : Screen) (fs : List (Surface × Flip)) (surface : Surface) {px py : Int}
    (hon : Plane.OnScreen px py) :
    ((s.flipAll fs).plane surface).get px py =
      ((s.plane surface).get px py ^^ (flipCount fs surface px py % 2 = 1)) := by
  induction fs generalizing s with
  | nil => simp [flipAll, flipCount]
  | cons f fs ih =>
    rw [flipAll_cons, ih, get_draw_flip s f surface hon, flipCount_cons, odd_add_ite,
      Bool.xor_assoc]
    exact congrArg _ (Bool.xor_comm ..)

theorem flipAll_perm (s : Screen) {fs gs : List (Surface × Flip)} (h : fs.Perm gs) :
    s.flipAll fs = s.flipAll gs :=
  ext_plane fun surface => Plane.ext_get fun px py hon => by
    rw [get_flipAll s fs surface hon, get_flipAll s gs surface hon, flipCount, h.countP_eq,
      flipCount]

theorem stroke?_flip (s : Screen) (f : Surface × Flip) :
    s.stroke? (f.2.stroke f.1) = some (s.draw f.1 f.2.drawing) := by
  rw [stroke?, Flip.drawing?_stroke, Option.map_some]
  cases f.2 <;> rfl

theorem canvas_flipAll (s : Screen) (fs : List (Surface × Flip)) :
    fs.foldlM (fun c f => c.stroke? (f.2.stroke f.1)) s.canvas = some (s.flipAll fs).canvas := by
  induction fs generalizing s with
  | nil => rfl
  | cons f fs ih =>
    rw [List.foldlM_cons, Canvas.stroke?_canvas (s.stroke?_flip f), flipAll_cons]
    exact ih _

end Screen

/-! ## The whole -/

/-- Commands for a rectangle, filled or flipped. The loops over the arrays pass all their checks. On
the screen a pixel is lit afterwards if it was or if it is in the rectangle, and it is flipped if it
is in there. So nothing comes of a rectangle without extent, and what a second command does is none
or the undoing of the first. Commands that flip pixels may be given in any order: it only counts
whether a pixel is covered by an odd number of them. -/
theorem rectangles_exact (s : Screen) (surface : Surface) (x y width height : Int64) :
    let Inside := Plane.Inside (coordinate x) (coordinate y) (coordinate width) (coordinate height)
    let filled := s.draw surface (.rect x y width height)
    let flipped := s.draw surface (.invert x y width height)
    (∀ v : Int64, Canvas.Short (coordinate v) ∧ coordinate v % 65536 = v.toInt % 65536) ∧
    (s.canvas.stroke? ⟨surface, .rect, [x, y, width, height]⟩ = some filled.canvas ∧
      s.canvas.stroke? ⟨surface, .rectI, [x, y, width, height]⟩ = some flipped.canvas) ∧
    (∀ other ≠ surface, filled.plane other = s.plane other ∧ flipped.plane other = s.plane other) ∧
    (∀ px py, Plane.OnScreen px py →
      ((filled.plane surface).get px py = true ↔
        (s.plane surface).get px py = true ∨ Inside px py) ∧
      ((flipped.plane surface).get px py ≠ (s.plane surface).get px py ↔ Inside px py)) ∧
    (coordinate width ≤ 0 ∨ coordinate height ≤ 0 → filled = s ∧ flipped = s) ∧
    (filled.draw surface (.rect x y width height) = filled ∧
      flipped.draw surface (.invert x y width height) = s) ∧
    ∀ fs gs : List (Surface × Flip), fs.Perm gs → s.flipAll fs = s.flipAll gs ∧
      fs.foldlM (fun c f => c.stroke? (f.2.stroke f.1)) s.canvas = some (s.flipAll fs).canvas ∧
      ∀ other px py, Plane.OnScreen px py →
        (((s.flipAll fs).plane other).get px py ≠ (s.plane other).get px py ↔
          flipCount fs other px py % 2 = 1) := by
  refine ⟨fun v => ⟨Canvas.short_coordinate v, coordinate_emod v⟩,
    ⟨Canvas.stroke?_canvas rfl, Canvas.stroke?_canvas rfl⟩,
    fun other hother => ⟨s.plane_draw_of_ne hother _, s.plane_draw_of_ne hother _⟩,
    fun px py hon => ⟨?_, ?_⟩, fun hempty => ⟨?_, ?_⟩, ⟨?_, ?_⟩,
    fun fs gs hperm => ⟨s.flipAll_perm hperm, s.canvas_flipAll fs, fun other px py hon => ?_⟩⟩
  · rw [s.plane_draw, Plane.draw, Plane.get_fill _ hon, Bool.or_eq_true, decide_eq_true_eq]
  · rw [s.plane_draw, Plane.draw, Plane.get_invert _ hon]
    exact xor_ne_self ..
  · exact Screen.draw_eq_self (Plane.fill_of_empty _ hempty)
  · exact Screen.draw_eq_self (Plane.invert_of_empty _ hempty)
  · refine Screen.draw_eq_self ?_
    rw [s.plane_draw]
    exact Plane.fill_fill _
  · exact Screen.draw_draw_eq_self (Plane.invert_invert _)
  · rw [s.get_flipAll fs other hon]
    exact xor_ne_self ..

/-- A rectangle over the lower right corner. The width 65534 reads as -2, and nothing comes of it. -/
theorem rectangles_exact_corner :
    let corner := ({} : Screen).draw .main (.rect 90 60 10 32767)
    corner.main.get 95 63 = true ∧ corner.main.get 89 63 = false ∧
      corner.draw .main (.rect 90 60 65534 10) = corner ∧
      corner.flipAll [(.main, .rect (-5) 62 200 1), (.back, .pixel 0 0), (.main, .pixel 95 62)] =
        corner.flipAll [(.main, .pixel 95 62), (.main, .rect (-5) 62 200 1), (.back, .pixel 0 0)] := by
  intro corner
  obtain ⟨-, -, -, hpixels, -⟩ := rectangles_exact {} .main 90 60 10 32767
  obtain ⟨-, -, -, -, hempty, -, hflips⟩ := rectangles_exact corner .main 90 60 65534 10
  refine ⟨(hpixels 95 63 (by decide)).1.2 (.inr (by decide)), ?_, (hempty (.inl (by decide))).1,
    (hflips _ _ ?_).1⟩
  · rw [← Bool.not_eq_true]
    intro hlit
    rcases (hpixels 89 63 (by decide)).1.1 hlit with hwas | hinside
    · cases (Plane.get_blank 89 63).symm.trans hwas
    · exact absurd hinside (by decide)
  · exact @List.perm_append_comm _ [_, _] [_]

end Handheld
