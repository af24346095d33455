import Handheld.Proofs.Drawing.Curves

/-!
# Drawing is safe

Whatever the values of drawing commands are, no check on the way fails and every
loop ends. A command changes nothing but the surface it is for, and its values
count only modulo 65536.
-/

namespace Handheld

/-! ## Commands -/

/-- A drawing command for a surface. -/
structure Stroke where
  surface : Surface
  graphic : Graphic
  values : List Int64

def Stroke.drawing? (s : Stroke) : Option Drawing := Drawing.ofArguments? s.graphic s.values

/-- There are as many values as the command takes. -/
def Stroke.Complete (s : Stroke) : Prop := s.values.length = s.graphic.arity

theorem Stroke.Complete.exists_drawing {s : Stroke} (h : s.Complete) :
    ∃ d, s.drawing? = some d := by
  have hsome := Drawing.isSome_ofArguments? s.graphic s.values
  rw [h, beq_self_eq_true] at hsome
  exact Option.isSome_iff_exists.1 hsome

/-- Carries out a command on the screen. -/
def Screen.stroke? (screen : Screen) (s : Stroke) : Option Screen :=
  s.drawing?.map (screen.draw s.surface)

/-- The two surfaces as arrays. -/
structure Canvas where
  main : Canvas.Buffer
  back : Canvas.Buffer

namespace Canvas

def blank : Canvas where
  main := .replicate (screenWidth * screenHeight) false
  back := .replicate (screenWidth * screenHeight) false

def buffer (c : Canvas) : Surface → Buffer
  | .main => c.main
  | .back => c.back

def withBuffer (c : Canvas) (surface : Surface) (b : Buffer) : Canvas :=
  match surface with
  | .main => { c with main := b }
  | .back => { c with back := b }

def pixel? (c : Canvas) (surface : Surface) (x y : Int64) : Option Bool :=
  get? (c.buffer surface) (coordinate x) (coordinate y)

/-- Carries out a command with checks. -/
noncomputable def stroke? (c : Canvas) (s : Stroke) : Option Canvas := do
  let d ← s.drawing?
  let b ← draw? (c.buffer s.surface) d
  return c.withBuffer s.surface b

theorem buffer_withBuffer_of_ne (c : Canvas) {surface other : Surface} (h : other ≠ surface)
    (b : Buffer) : (c.withBuffer surface b).buffer other = c.buffer other := by
  cases surface <;> cases other <;> first | rfl | exact absurd rfl h

end Canvas

/-! ## The screen as arrays -/

def Screen.canvas (screen : Screen) : Canvas := ⟨screen.main.buffer, screen.back.buffer⟩

theorem Screen.buffer_canvas (screen : Screen) (surface : Surface) :
    screen.canvas.buffer surface = (screen.plane surface).buffer := by
  cases surface <;> rfl

theorem Screen.canvas_draw (screen : Screen) (surface : Surface) (d : Drawing) :
    (screen.draw surface d).canvas =
      screen.canvas.withBuffer surface ((screen.plane surface).draw d).buffer := by
  cases surface <;> rfl

theorem Screen.canvas_blank : ({} : Screen).canvas = Canvas.blank := rfl

namespace Canvas

theorem short_of_shift {g : Graphic} {values : List Int64} {dx dy : Int}
    (h : Drawing.ofArguments? g values = some (.shift dx dy)) : Short dx ∧ Short dy := by
  match values with
  | [] =>
    cases g <;> cases h
    all_goals
      unfold Short
      decide
  | [_] | [_, _] | [_, _, _] | [_, _, _, _] | _ :: _ :: _ :: _ :: _ :: _ => cases g <;> cases h

theorem draw?_buffer {g : Graphic} {values : List Int64} {d : Drawing}
    (h : Drawing.ofArguments? g values = some d) (p : Plane) :
    draw? p.buffer d = some (p.draw d).buffer := by
  cases d with
  | pixelOn x y | pixelOff x y => exact set?_buffer p _ _ _
  | pixelChange x y => exact flip?_buffer p _ _
  | line x₁ y₁ x₂ y₂ =>
    exact line?_buffer (short_coordinate x₁) (short_coordinate y₁) (short_coordinate x₂)
      (short_coordinate y₂) p
  | rect x y width height =>
    exact rect?_buffer (short_coordinate x) (short_coordinate y) (short_coordinate width)
      (short_coordinate height) p false
  | invert x y width height =>
    exact rect?_buffer (short_coordinate x) (short_coordinate y) (short_coordinate width)
      (short_coordinate height) p true
  | circle x y radius =>
    exact circle?_buffer (short_coordinate x) (short_coordinate y) (short_coordinate radius) p
  | clear => exact congrArg some (clear_buffer p)
  | shift dx dy =>
    obtain ⟨hdx, hdy⟩ := short_of_shift h
    exact shift?_buffer hdx hdy p

theorem stroke?_canvas {screen next : Screen} {s : Stroke} (h : screen.stroke? s = some next) :
    screen.canvas.stroke? s = some next.canvas := by
  obtain ⟨d, hd, rfl⟩ := Option.map_eq_some_iff.1 h
  rw [stroke?, hd, Option.bind_eq_bind, Option.bind_some, Screen.buffer_canvas, draw?_buffer hd,
    Option.bind_eq_bind, Option.bind_some, Screen.canvas_draw]
  rfl

end Canvas

theorem Stroke.Complete.exists_next {s : Stroke} (h : s.Complete) (screen : Screen) :
    ∃ next, screen.stroke? s = some next := by
  obtain ⟨d, hd⟩ := h.exists_drawing
  exact ⟨screen.draw s.surface d, by rw [Screen.stroke?, hd]; rfl⟩

theorem strokes_canvas {ss : List Stroke} (hss : ∀ s ∈ ss, s.Complete) (screen : Screen) :
    ∃ last : Screen, ss.foldlM Screen.stroke? screen = some last ∧
      ss.foldlM Canvas.stroke? screen.canvas = some last.canvas := by
  induction ss generalizing screen with
  | nil => exact ⟨screen, rfl, rfl⟩
  | cons s ss ih =>
    obtain ⟨hs, hss⟩ := List.forall_mem_cons.1 hss
    obtain ⟨next, hnext⟩ := hs.exists_next screen
    obtain ⟨last, hlast, hcanvas⟩ := ih hss next
    refine ⟨last, ?_, ?_⟩
    · rw [List.foldlM_cons, hnext]
      exact hlast
    · rw [List.foldlM_cons, Canvas.stroke?_canvas hnext]
      exact hcanvas

/-! ## Values modulo 65536 -/

/-- The values have the same low 16 bits. -/
def Congruent (v w : Int64) : Prop := v.toInt % 65536 = w.toInt % 65536

/-- The commands differ at most in what counts for nothing. -/
structure Stroke.Alike (s t : Stroke) : Prop where
  surface : s.surface = t.surface
  graphic : s.graphic = t.graphic
  values : List.Forall₂ Congruent s.values t.values

/-- The value that is left of another one modulo 65536. -/
def reduced (v : Int64) : Int64 := v.toInt16.toInt64

theorem coordinate_reduced (v : Int64) : coordinate (reduced v) = coordinate v := by
  rw [coordinate, reduced, Int16.toInt16_toInt64, coordinate]

theorem Congruent.toInt16_eq {v w : Int64} (h : Congruent v w) : v.toInt16 = w.toInt16 := by
  have hmod : v.toInt % (2 ^ 16 : Nat) = w.toInt % (2 ^ 16 : Nat) := h
  apply Int16.toInt_inj.1
  rw [Int64.toInt_toInt16, Int64.toInt_toInt16]
  unfold Int.bmod
  rw [hmod]

theorem Congruent.coordinate_eq {v w : Int64} (h : Congruent v w) :
    coordinate v = coordinate w := by
  rw [coordinate, h.toInt16_eq, coordinate]

theorem map_reduced {vs ws : List Int64} (h : List.Forall₂ Congruent vs ws) :
    vs.map reduced = ws.map reduced := by
  induction h with
  | nil => rfl
  | cons h _ ih => rw [List.map_cons, List.map_cons, ih, reduced, h.toInt16_eq, reduced]

/-- The drawing with other values. -/
def Drawing.map (f : Int64 → Int64) : Drawing → Drawing
  | .pixelOn x y => .pixelOn (f x) (f y)
  | .pixelOff x y => .pixelOff (f x) (f y)
  | .pixelChange x y => .pixelChange (f x) (f y)
  | .line x₁ y₁ x₂ y₂ => .line (f x₁) (f y₁) (f x₂) (f y₂)
  | .rect x y width height => .rect (f x) (f y) (f width) (f height)
  | .invert x y width height => .invert (f x) (f y) (f width) (f height)
  | .circle x y radius => .circle (f x) (f y) (f radius)
  | .clear => .clear
  | .shift dx dy => .shift dx dy

theorem Drawing.ofArguments?_map (f : Int64 → Int64) (g : Graphic) (vs : List Int64) :
    ofArguments? g (vs.map f) = (ofArguments? g vs).map (.map f) := by
  match vs with
  | [] | [_] | [_, _] | [_, _, _] | [_, _, _, _] => cases g <;> rfl
  | _ :: _ :: _ :: _ :: _ :: _ => cases g <;> rfl

namespace Canvas

theorem draw?_reduced (b : Buffer) (d : Drawing) : draw? b (d.map reduced) = draw? b d := by
  cases d <;> simp only [Drawing.map, draw?, coordinate_reduced]

theorem stroke?_reduced (c : Canvas) (s : Stroke) :
    c.stroke? { s with values := s.values.map reduced } = c.stroke? s := by
  unfold stroke? Stroke.drawing?
  rw [Drawing.ofArguments?_map]
  cases Drawing.ofArguments? s.graphic s.values with
  | none => rfl
  | some d =>
    rw [Option.map_some, Option.bind_eq_bind, Option.bind_some, draw?_reduced]
    rfl

theorem stroke?_alike (c : Canvas) {s t : Stroke} (h : s.Alike t) : c.stroke? s = c.stroke? t := by
  rw [← stroke?_reduced c s, ← stroke?_reduced c t, h.surface, h.graphic, map_reduced h.values]

theorem strokes_alike {ss ts : List Stroke} (h : List.Forall₂ Stroke.Alike ss ts) (c : Canvas) :
    ss.foldlM stroke? c = ts.foldlM stroke? c := by
  induction h generalizing c with
  | nil => rfl
  | cons hs _ ih =>
    rw [List.foldlM_cons, List.foldlM_cons, stroke?_alike c hs]
    exact congrArg _ (funext ih)

end Canvas

/-! ## The whole -/

/-- Complete commands for a new screen, whatever their values are, pass all checks: no number
outgrows 64 bits, no access is outside of an array, and every loop ends. The arrays keep their size
and hold the pixels of the screen. One more command leaves the other surface as it is. Values that
are congruent modulo 65536 do the same, also in a question for a pixel. -/
theorem drawing_safe {ss : List Stroke} (hss : ∀ s ∈ ss, s.Complete) :
    ∃ screen : Screen, ss.foldlM Screen.stroke? {} = some screen ∧
      ss.foldlM Canvas.stroke? Canvas.blank = some screen.canvas ∧
      (∀ surface, (screen.canvas.buffer surface).size = 96 * 64) ∧
      (∀ surface x y, screen.canvas.pixel? surface x y = some (screen.pixel surface x y)) ∧
      (∀ s : Stroke, s.Complete → ∃ next : Screen, screen.stroke? s = some next ∧
        screen.canvas.stroke? s = some next.canvas ∧
        ∀ surface ≠ s.surface, next.canvas.buffer surface = screen.canvas.buffer surface) ∧
      (∀ ts, List.Forall₂ Stroke.Alike ss ts →
        ts.foldlM Canvas.stroke? Canvas.blank = some screen.canvas) ∧
      ∀ surface x y x' y', Congruent x x' → Congruent y y' →
        screen.canvas.pixel? surface x' y' = screen.canvas.pixel? surface x y := by
  obtain ⟨screen, hscreen, hcanvas⟩ := strokes_canvas hss {}
  rw [Screen.canvas_blank] at hcanvas
  refine ⟨screen, hscreen, hcanvas, fun surface => ?_, fun surface x y => ?_, fun s hs => ?_,
    fun ts hts => ?_, fun surface x y x' y' hx hy => ?_⟩
  · rw [Screen.buffer_canvas, Plane.size_buffer]
    rfl
  · rw [Canvas.pixel?, Screen.buffer_canvas, Canvas.get?_buffer]
    rfl
  · obtain ⟨d, hd⟩ := hs.exists_drawing
    have hnext : screen.stroke? s = some (screen.draw s.surface d) := by
      rw [Screen.stroke?, hd]
      rfl
    refine ⟨_, hnext, Canvas.stroke?_canvas hnext, fun surface hne => ?_⟩
    rw [Screen.canvas_draw, Canvas.buffer_withBuffer_of_ne _ hne]
  · rw [← Canvas.strokes_alike hts, hcanvas]
  · rw [Canvas.pixel?, Canvas.pixel?, hx.coordinate_eq, hy.coordinate_eq]

theorem drawing_safe_far :
    let ss : List Stroke :=
      [⟨.main, .line, [-9223372036854775808, 9223372036854775807, 32767, -32768]⟩,
        ⟨.back, .circle, [-32768, 98303, 32767]⟩]
    (∀ s ∈ ss, s.Complete) ∧ ∃ screen : Screen,
      ss.foldlM Canvas.stroke? Canvas.blank = some screen.canvas ∧
        screen.canvas.main.size = 6144 := by
  intro ss
  have hss : ∀ s ∈ ss, s.Complete := by
    unfold Stroke.Complete
    decide
  obtain ⟨screen, -, hcanvas, hsize, -⟩ := drawing_safe hss
  exact ⟨hss, screen, hcanvas, hsize .main⟩

end Handheld
