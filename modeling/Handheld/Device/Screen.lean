import Handheld.Machine.Device

/-!
# The screen

Two planes of 96 by 64 pixels. Drawing is clipped at the edges. The values of a
drawing command are read as signed 16 bit numbers, so −1 and 65535 are the same
column.
-/

namespace Handheld

def screenWidth : Nat := 96

def screenHeight : Nat := 64

/-- A coordinate is the signed reading of the low 16 bits of a value. -/
def coordinate (v : Int64) : Int := v.toInt16.toInt

/-! ## Planes -/

/-- Pixels by rows from the top, each row from the left. -/
structure Plane where
  pixels : Vector Bool (screenWidth * screenHeight)

namespace Plane

def blank : Plane := ⟨Vector.replicate _ false⟩

/-- Is a point on the screen? -/
def OnScreen (x y : Int) : Prop :=
  0 ≤ x ∧ x < screenWidth ∧ 0 ≤ y ∧ y < screenHeight

instance (x y : Int) : Decidable (OnScreen x y) :=
  inferInstanceAs (Decidable (_ ∧ _))

/-- The place of a pixel among all pixels. -/
@[inline] def index (x y : Int) : Nat :=
  y.toNat * screenWidth + x.toNat

theorem index_lt {x y : Int} (h : OnScreen x y) : index x y < screenWidth * screenHeight := by
  obtain ⟨_, hx, _, hy⟩ := h
  simp only [index, screenWidth, screenHeight] at *
  omega

theorem index_inj {x y u v : Int} (h : OnScreen x y) (h' : OnScreen u v) :
    index x y = index u v ↔ x = u ∧ y = v := by
  obtain ⟨_, _, _, _⟩ := h
  obtain ⟨_, _, _, _⟩ := h'
  simp only [index, screenWidth, screenHeight] at *
  omega

/-- Pixels off the screen are off. -/
def get (p : Plane) (x y : Int) : Bool :=
  if h : OnScreen x y then
    have := index_lt h
    p.pixels[index x y]
  else
    false

def set (p : Plane) (x y : Int) (on : Bool) : Plane :=
  if h : OnScreen x y then ⟨p.pixels.set (index x y) on (index_lt h)⟩ else p

/-- A plane with the pixels that `f` wants. -/
def ofFn (f : Int → Int → Bool) : Plane :=
  ⟨Vector.ofFn fun i => f (i % screenWidth : Nat) (i / screenWidth : Nat)⟩

@[simp] theorem get_blank (x y : Int) : blank.get x y = false := by
  simp [get, blank]

theorem get_set (p : Plane) (x y : Int) (on : Bool) (u v : Int) :
    (p.set x y on).get u v = if OnScreen u v ∧ x = u ∧ y = v then on else p.get u v := by
  by_cases h' : OnScreen u v
  · by_cases h : OnScreen x y
    · simp [get, set, h, h', Vector.getElem_set, index_inj]
    · have : ¬ (x = u ∧ y = v) := fun ⟨hx, hy⟩ => h (hx ▸ hy ▸ h')
      simp [set, h, this]
  · have : ∀ q : Plane, q.get u v = false := fun q => by simp [get, h']
    simp [this, h']

theorem index_mod_div {x y : Int} (h : OnScreen x y) :
    (index x y : Int) % screenWidth = x ∧ (index x y : Int) / screenWidth = y := by
  obtain ⟨_, _, _, _⟩ := h
  simp only [index, screenWidth] at *
  omega

theorem get_ofFn (f : Int → Int → Bool) (x y : Int) :
    (ofFn f).get x y = (decide (OnScreen x y) && f x y) := by
  by_cases h : OnScreen x y
  · simp [get, ofFn, h, index_mod_div h]
  · simp [get, h]

theorem exists_index {i : Nat} (hi : i < screenWidth * screenHeight) :
    ∃ x y, OnScreen x y ∧ index x y = i := by
  refine ⟨(i % screenWidth : Nat), (i / screenWidth : Nat), ?_, ?_⟩
  · simp only [OnScreen, screenWidth, screenHeight] at *
    omega
  · simp only [index, screenWidth, Int.toNat_natCast]
    omega

/-- Planes with the same pixels on the screen are equal. -/
theorem ext_get {p q : Plane} (h : ∀ x y, OnScreen x y → p.get x y = q.get x y) : p = q := by
  cases p with | mk a =>
  cases q with | mk b =>
  congr 1
  apply Vector.ext
  intro i hi
  obtain ⟨x, y, on, rfl⟩ := exists_index hi
  simpa [get, on] using h x y on

/-- How many pixels are on. -/
def count (p : Plane) : Nat := p.pixels.toArray.countP id

/-! ### Shapes -/

/-- Is a pixel inside a rectangle? -/
def Inside (x y width height px py : Int) : Prop :=
  x ≤ px ∧ px < x + width ∧ y ≤ py ∧ py < y + height

instance (x y width height px py : Int) : Decidable (Inside x y width height px py) :=
  inferInstanceAs (Decidable (_ ∧ _))

def fill (p : Plane) (x y width height : Int) : Plane :=
  ofFn fun px py => p.get px py || Inside x y width height px py

def invert (p : Plane) (x y width height : Int) : Plane :=
  ofFn fun px py => p.get px py ^^ Inside x y width height px py

/-- Pixels that come in from the edge are off. -/
def shift (p : Plane) (dx dy : Int) : Plane :=
  ofFn fun x y => p.get (x - dx) (y - dy)

/-- A straight line by its far end, the lengths of its two sides and the directions along them. -/
structure Line where
  endX : Int
  endY : Int
  dx : Int
  dy : Int
  stepX : Int
  stepY : Int

/-- Where the line has come to, and how far that is off the ideal line. -/
structure Pen where
  x : Int
  y : Int
  error : Int

namespace Line

def between (x₀ y₀ x₁ y₁ : Int) : Line where
  endX := x₁
  endY := y₁
  dx := (x₁ - x₀).natAbs
  dy := (y₁ - y₀).natAbs
  stepX := if x₀ < x₁ then 1 else -1
  stepY := if y₀ < y₁ then 1 else -1

/-- Moves the pen along one side or along both. -/
def advance (l : Line) (pen : Pen) : Pen :=
  let right := -l.dy < 2 * pen.error
  let down := 2 * pen.error < l.dx
  { x := if right then pen.x + l.stepX else pen.x
    y := if down then pen.y + l.stepY else pen.y
    error := pen.error - (if right then l.dy else 0) + (if down then l.dx else 0) }

/-- Draws from the pen to the end of the line, in no more than `moves` moves. -/
def draw (l : Line) (moves : Nat) (pen : Pen) (p : Plane) : Plane :=
  let p := p.set pen.x pen.y true
  match moves with
  | 0 => p
  | moves + 1 => if pen.x = l.endX ∧ pen.y = l.endY then p else l.draw moves (l.advance pen) p

end Line

/-- Each move brings the pen nearer to the end in one direction at least. -/
def line (p : Plane) (x₀ y₀ x₁ y₁ : Int) : Plane :=
  let l := Line.between x₀ y₀ x₁ y₁
  l.draw (l.dx + l.dy).toNat { x := x₀, y := y₀, error := l.dx - l.dy } p

/-- The eight points that lie like (x, y) around a centre. -/
def octants (cx cy x y : Int) : List (Int × Int) :=
  [(cx - x, cy - y), (cx - y, cy - x), (cx + y, cy - x), (cx + x, cy - y),
    (cx - x, cy + y), (cx - y, cy + x), (cx + y, cy + x), (cx + x, cy + y)]

/-- Draws an eighth of a circle and its seven images from `pen` on, for at most `moves` columns. -/
def arc (cx cy : Int) (moves : Nat) (pen : Pen) (p : Plane) : Plane :=
  match moves with
  | 0 => p
  | moves + 1 =>
    if pen.y < pen.x then p
    else
      let p := (octants cx cy pen.x pen.y).foldl (fun p (x, y) => p.set x y true) p
      let pen : Pen :=
        if pen.error < 0 then ⟨pen.x + 1, pen.y, pen.error + 4 * pen.x + 6⟩
        else ⟨pen.x + 1, pen.y - 1, pen.error + 4 * (pen.x - pen.y) + 10⟩
      arc cx cy moves pen p

/-- A radius of zero or less draws nothing. -/
def circle (p : Plane) (cx cy radius : Int) : Plane :=
  if radius ≤ 0 then p
  else arc cx cy (radius.toNat + 1) { x := 0, y := radius, error := 3 - 2 * radius } p

def draw (p : Plane) : Drawing → Plane
  | .pixelOn x y => p.set (coordinate x) (coordinate y) true
  | .pixelOff x y => p.set (coordinate x) (coordinate y) false
  | .pixelChange x y =>
    p.set (coordinate x) (coordinate y) (!p.get (coordinate x) (coordinate y))
  | .line x₁ y₁ x₂ y₂ => p.line (coordinate x₁) (coordinate y₁) (coordinate x₂) (coordinate y₂)
  | .rect x y width height =>
    p.fill (coordinate x) (coordinate y) (coordinate width) (coordinate height)
  | .invert x y width height =>
    p.invert (coordinate x) (coordinate y) (coordinate width) (coordinate height)
  | .circle x y radius => p.circle (coordinate x) (coordinate y) (coordinate radius)
  | .clear => blank
  | .shift dx dy => p.shift dx dy

end Plane

/-! ## Screens -/

/-- The character for a pixel of the main plane and one of the back plane. -/
def Shade.glyph (shade : Shade) (main back : Bool) : Char :=
  match shade, main, back with
  | .mono, true, _ => '█'
  | .mono, false, _ => ' '
  | _, true, true => '█'
  | _, false, false => ' '
  | .gray3, _, _ => '▒'
  | .gray4, true, false => '▓'
  | .gray4, false, true => '░'

structure Screen where
  main : Plane := .blank
  back : Plane := .blank

namespace Screen

def plane (s : Screen) : Surface → Plane
  | .main => s.main
  | .back => s.back

/-- Changes one plane and leaves the other. -/
@[inline] def onPlane (s : Screen) (surface : Surface) (f : Plane → Plane) : Screen :=
  match surface with
  | .main => { s with main := f s.main }
  | .back => { s with back := f s.back }

def draw (s : Screen) (surface : Surface) (d : Drawing) : Screen :=
  s.onPlane surface (·.draw d)

def pixel (s : Screen) (surface : Surface) (x y : Int64) : Bool :=
  (s.plane surface).get (coordinate x) (coordinate y)

/-! ## Pictures -/

/-- The characters of a row of pixels. -/
def row (s : Screen) (shade : Shade) (y : Nat) : List Char :=
  (List.range screenWidth).map fun (x : Nat) => shade.glyph (s.main.get x y) (s.back.get x y)

/-- One line for each row of pixels. -/
def picture (s : Screen) (shade : Shade) : String :=
  String.ofList ((List.range screenHeight).flatMap fun y => s.row shade y ++ ['\n'])

end Screen

end Handheld
