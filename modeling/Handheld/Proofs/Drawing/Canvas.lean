import Handheld.Device.Screen
import Mathlib.Data.Int.Range
import Mathlib.Data.List.Nodup
import Mathlib.Data.PFun

/-!
# Drawing with checks

The screen once more, as loops over arrays of pixels and numbers of 64 bits. Each
number that a loop computes is checked to fit, and each access to an array to be
inside of it. Where a check fails there is no result, and neither is there one
for a loop that does not end. Shapes that go through the pixels of a rectangle
have the result that the screen gives.
-/

namespace Handheld

/-! ## Checks -/

namespace Canvas

/-- The number, if it fits 64 bits. -/
def word? (z : Int) : Option Int :=
  if -2 ^ 63 ≤ z ∧ z < 2 ^ 63 then some z else none

/-- The pixels of a surface, by rows. -/
abbrev Buffer := Array Bool

def load? (b : Buffer) (i : Nat) : Option Bool := b[i]?

def store? (b : Buffer) (i : Nat) (on : Bool) : Option Buffer :=
  if h : i < b.size then some (b.set i on h) else none

/-! ## Pixels -/

/-- Where a pixel is stored, if it is on the screen. -/
def place? (x y : Int) : Option Nat :=
  if 0 ≤ x ∧ 0 ≤ y ∧ x.toNat < screenWidth ∧ y.toNat < screenHeight then
    some (y.toNat * screenWidth + x.toNat)
  else
    none

def get? (b : Buffer) (x y : Int) : Option Bool :=
  match place? x y with
  | some i => load? b i
  | none => some false

def set? (b : Buffer) (x y : Int) (on : Bool) : Option Buffer :=
  match place? x y with
  | some i => store? b i on
  | none => some b

def flip? (b : Buffer) (x y : Int) : Option Buffer :=
  match place? x y with
  | some i => do store? b i (!(← load? b i))
  | none => some b

/-! ## Shapes -/

/-- The rows and columns of the points in a rectangle, row by row. -/
def grid (left top right bottom : Int) : List (Int × Int) :=
  (Int.range top bottom).product (Int.range left right)

/-- Only the part of the rectangle that is on the screen is gone through. -/
def rect? (b : Buffer) (x y width height : Int) (invert : Bool) : Option Buffer := do
  let right ← word? (x + width)
  let bottom ← word? (y + height)
  (grid (max x 0) (max y 0) (min right screenWidth) (min bottom screenHeight)).foldlM
    (fun b q => if invert then flip? b q.2 q.1 else set? b q.2 q.1 true) b

/-- Each pixel takes what was `dx` columns and `dy` rows away before anything moved. -/
def shift? (b : Buffer) (dx dy : Int) : Option Buffer :=
  (grid 0 0 screenWidth screenHeight).foldlM
    (fun c q => do
      let x ← word? (q.2 - dx)
      let y ← word? (q.1 - dy)
      set? c q.2 q.1 (← get? b x y)) b

/-- Repeats a round, which goes on from a buffer and a pen to the next, until one has a result. -/
noncomputable def loop? (round? : Buffer → Plane.Pen → Option (Buffer ⊕ Buffer × Plane.Pen))
    (b : Buffer) (pen : Plane.Pen) : Option Buffer :=
  open Classical in (PFun.fix (fun s => Part.ofOption (round? s.1 s.2)) (b, pen)).toOption

/-- One pixel of a line, and the move to the next one unless this is its end. -/
def lineRound? (l : Plane.Line) (b : Buffer) (pen : Plane.Pen) :
    Option (Buffer ⊕ Buffer × Plane.Pen) := do
  let b ← set? b pen.x pen.y true
  if pen.x = l.endX ∧ pen.y = l.endY then
    return .inl b
  else
    let twice ← word? (2 * pen.error)
    let limit ← word? (-l.dy)
    let across : Plane.Pen ←
      if limit < twice then do
        let error ← word? (pen.error - l.dy)
        let x ← word? (pen.x + l.stepX)
        pure { pen with x, error }
      else
        pure pen
    let moved : Plane.Pen ←
      if twice < l.dx then do
        let error ← word? (across.error + l.dx)
        let y ← word? (across.y + l.stepY)
        pure { across with y, error }
      else
        pure across
    return .inr (b, moved)

noncomputable def line? (b : Buffer) (x₀ y₀ x₁ y₁ : Int) : Option Buffer := do
  let width ← word? (x₁ - x₀)
  let height ← word? (y₁ - y₀)
  let dx ← word? width.natAbs
  let dy ← word? height.natAbs
  let error ← word? (dx - dy)
  loop? (lineRound?
    { endX := x₁, endY := y₁, dx, dy
      stepX := if x₀ < x₁ then 1 else -1
      stepY := if y₀ < y₁ then 1 else -1 }) b ⟨x₀, y₀, error⟩

/-- A point of a circle with its images, and the move to the next column unless the pen has come to
the diagonal. -/
def arcRound? (cx cy : Int) (b : Buffer) (pen : Plane.Pen) :
    Option (Buffer ⊕ Buffer × Plane.Pen) := do
  if pen.y < pen.x then
    return .inl b
  else
    let points ← (Plane.octants cx cy pen.x pen.y).mapM fun q => do
      let x ← word? q.1
      let y ← word? q.2
      pure (x, y)
    let b ← points.foldlM (fun b q => set? b q.1 q.2 true) b
    let x ← word? (pen.x + 1)
    if pen.error < 0 then
      let part ← word? (4 * pen.x)
      let growth ← word? (part + 6)
      let error ← word? (pen.error + growth)
      return .inr (b, ⟨x, pen.y, error⟩)
    else
      let gap ← word? (pen.x - pen.y)
      let part ← word? (4 * gap)
      let growth ← word? (part + 10)
      let error ← word? (pen.error + growth)
      let y ← word? (pen.y - 1)
      return .inr (b, ⟨x, y, error⟩)

noncomputable def circle? (b : Buffer) (cx cy radius : Int) : Option Buffer := do
  if radius ≤ 0 then
    return b
  else
    let diameter ← word? (2 * radius)
    let error ← word? (3 - diameter)
    loop? (arcRound? cx cy) b ⟨0, radius, error⟩

noncomputable def draw? (b : Buffer) : Drawing → Option Buffer
  | .pixelOn x y => set? b (coordinate x) (coordinate y) true
  | .pixelOff x y => set? b (coordinate x) (coordinate y) false
  | .pixelChange x y => flip? b (coordinate x) (coordinate y)
  | .line x₁ y₁ x₂ y₂ =>
    line? b (coordinate x₁) (coordinate y₁) (coordinate x₂) (coordinate y₂)
  | .rect x y width height =>
    rect? b (coordinate x) (coordinate y) (coordinate width) (coordinate height) false
  | .invert x y width height =>
    rect? b (coordinate x) (coordinate y) (coordinate width) (coordinate height) true
  | .circle x y radius => circle? b (coordinate x) (coordinate y) (coordinate radius)
  | .clear => some (b.map fun _ => false)
  | .shift dx dy => shift? b dx dy

end Canvas

/-! ## The pixels of a plane -/

/-- The pixels of a plane as an array. -/
def Plane.buffer (p : Plane) : Canvas.Buffer := p.pixels.toArray

theorem Plane.size_buffer (p : Plane) : p.buffer.size = screenWidth * screenHeight :=
  p.pixels.size_toArray

namespace Canvas

theorem word?_eq {z : Int} (hlow : -9223372036854775808 ≤ z) (hhigh : z < 9223372036854775808) :
    word? z = some z :=
  if_pos ⟨hlow, hhigh⟩

theorem word?_bind {z : Int} (hlow : -9223372036854775808 ≤ z) (hhigh : z < 9223372036854775808)
    {α : Type} (f : Int → Option α) : (word? z >>= f) = f z := by
  rw [word?_eq hlow hhigh]
  rfl

theorem loop?_eq (round? : Buffer → Plane.Pen → Option (Buffer ⊕ Buffer × Plane.Pen)) (b : Buffer)
    (pen : Plane.Pen) :
    loop? round? b pen = (round? b pen).bind (Sum.elim some fun s => loop? round? s.1 s.2) := by
  apply Option.ext
  intro c
  simp only [loop?, ← Option.mem_def, Part.mem_toOption]
  refine PFun.mem_fix_iff.trans ?_
  cases round? b pen with
  | none => simp
  | some next =>
    cases next with
    | inl result => simp [eq_comm]
    | inr s => simp

theorem place?_eq (x y : Int) :
    place? x y = if Plane.OnScreen x y then some (Plane.index x y) else none := by
  unfold place? Plane.OnScreen Plane.index
  refine if_congr ?_ rfl rfl
  constructor <;> intro h <;> omega

theorem get?_buffer (p : Plane) (x y : Int) : get? p.buffer x y = some (p.get x y) := by
  unfold get? Plane.get
  rw [place?_eq]
  by_cases h : Plane.OnScreen x y
  · have hlt := Plane.index_lt h
    rw [if_pos h, dif_pos h]
    simp [load?, Plane.buffer, hlt]
  · rw [if_neg h, dif_neg h]

theorem set?_buffer (p : Plane) (x y : Int) (on : Bool) :
    set? p.buffer x y on = some (p.set x y on).buffer := by
  unfold set? Plane.set
  rw [place?_eq]
  by_cases h : Plane.OnScreen x y
  · have hlt : Plane.index x y < p.buffer.size := by
      rw [p.size_buffer]
      exact Plane.index_lt h
    rw [if_pos h, dif_pos h]
    simp only [store?, hlt, ↓reduceDIte]
    rfl
  · rw [if_neg h, dif_neg h]

theorem flip?_buffer (p : Plane) (x y : Int) :
    flip? p.buffer x y = some (p.set x y (!p.get x y)).buffer := by
  have hget := get?_buffer p x y
  have hset := set?_buffer p x y (!p.get x y)
  unfold flip?
  unfold get? at hget
  unfold set? at hset
  cases hplace : place? x y with
  | none =>
    rw [hplace] at hset
    exact hset
  | some i =>
    rw [hplace] at hget hset
    dsimp only at hget hset ⊢
    rw [hget]
    exact hset

/-! ## Going through points -/

theorem foldlM_buffer {α : Type} {g : Buffer → α → Option Buffer} {f : Plane → α → Plane}
    {qs : List α} (h : ∀ p, ∀ q ∈ qs, g p.buffer q = some (f p q).buffer) (p : Plane) :
    qs.foldlM g p.buffer = some (qs.foldl f p).buffer := by
  induction qs generalizing p with
  | nil => rfl
  | cons q qs ih =>
    obtain ⟨hq, hqs⟩ := List.forall_mem_cons.1 fun q hq => fun p => h p q hq
    rw [List.foldlM_cons, hq]
    exact ih (fun p q hq => hqs q hq p) _

theorem mem_grid {left top right bottom x y : Int} :
    (y, x) ∈ grid left top right bottom ↔ (top ≤ y ∧ y < bottom) ∧ left ≤ x ∧ x < right := by
  rw [grid, List.pair_mem_product, Int.mem_range_iff, Int.mem_range_iff]

theorem nodup_range (m n : Int) : (Int.range m n).Nodup := by
  refine List.Nodup.map (fun a b h => ?_) List.nodup_range
  omega

theorem nodup_grid (left top right bottom : Int) : (grid left top right bottom).Nodup :=
  (nodup_range top bottom).product (nodup_range left right)

/-- Gives each of the points the value that `g` makes of its old one. -/
def change (g : Int → Int → Bool → Bool) (p : Plane) (q : Int × Int) : Plane :=
  p.set q.2 q.1 (g q.2 q.1 (p.get q.2 q.1))

theorem get_foldl_change (g : Int → Int → Bool → Bool) {qs : List (Int × Int)} (hqs : qs.Nodup)
    (p : Plane) {x y : Int} (hon : Plane.OnScreen x y) :
    (qs.foldl (change g) p).get x y = if (y, x) ∈ qs then g x y (p.get x y) else p.get x y := by
  induction qs generalizing p with
  | nil => simp
  | cons q qs ih =>
    obtain ⟨hq, hqs⟩ := List.nodup_cons.1 hqs
    have hchange : (change g p q).get x y =
        if q = (y, x) then g x y (p.get x y) else p.get x y := by
      obtain ⟨v, u⟩ := q
      rw [change, Plane.get_set]
      by_cases heq : (v, u) = (y, x)
      · cases heq
        simp [hon]
      · have hne : ¬ (u = x ∧ v = y) := by
          rintro ⟨hu, hv⟩
          exact heq (by rw [hu, hv])
        simp [hne, heq]
    rw [List.foldl_cons, ih hqs, hchange]
    by_cases heq : q = (y, x)
    · subst heq
      simp [hq]
    · have hne : (y, x) ≠ q := fun h => heq h.symm
      simp [heq, hne]

/-! ## Shapes that are rectangles -/

/-- The number fits 16 bits. -/
def Short (z : Int) : Prop := -32768 ≤ z ∧ z ≤ 32767

theorem short_coordinate (v : Int64) : Short (coordinate v) := by
  have hlow := v.toInt16.le_toInt
  have hhigh := v.toInt16.toInt_lt
  unfold Short coordinate
  omega

theorem rect?_buffer {x y width height : Int} (hx : Short x) (hy : Short y) (hwidth : Short width)
    (hheight : Short height) (p : Plane) (invert : Bool) :
    rect? p.buffer x y width height invert =
      some (if invert then p.invert x y width height else p.fill x y width height).buffer := by
  let g : Int → Int → Bool → Bool := fun _ _ on => if invert then !on else true
  have hround : ∀ p : Plane, ∀ q ∈ grid (max x 0) (max y 0) (min (x + width) screenWidth)
      (min (y + height) screenHeight),
      (if invert then flip? p.buffer q.2 q.1 else set? p.buffer q.2 q.1 true) =
        some (change g p q).buffer := by
    intro p q _
    cases invert with
    | false => exact set?_buffer p q.2 q.1 true
    | true => exact flip?_buffer p q.2 q.1
  unfold Short at hx hy hwidth hheight
  rw [rect?, word?_bind (by omega) (by omega), word?_bind (by omega) (by omega)]
  refine (foldlM_buffer hround p).trans ?_
  refine congrArg (fun p => some (Plane.buffer p)) (Plane.ext_get fun u v hon => ?_)
  rw [get_foldl_change g (nodup_grid ..) p hon]
  -- on the screen, the points gone through are those inside
  have hinside : (v, u) ∈ grid (max x 0) (max y 0) (min (x + width) screenWidth)
      (min (y + height) screenHeight) ↔ Plane.Inside x y width height u v := by
    rw [mem_grid]
    unfold Plane.Inside
    unfold Plane.OnScreen at hon
    omega
  rw [if_congr hinside rfl rfl]
  by_cases h : Plane.Inside x y width height u v
  · cases invert with
    | false => simp [g, h, hon, Plane.fill, Plane.get_ofFn]
    | true => simp [g, h, hon, Plane.invert, Plane.get_ofFn]
  · cases invert with
    | false => simp [h, hon, Plane.fill, Plane.get_ofFn]
    | true => simp [h, hon, Plane.invert, Plane.get_ofFn]

theorem shift?_buffer {dx dy : Int} (hdx : Short dx) (hdy : Short dy) (p : Plane) :
    shift? p.buffer dx dy = some (p.shift dx dy).buffer := by
  let g : Int → Int → Bool → Bool := fun x y _ => p.get (x - dx) (y - dy)
  unfold Short at hdx hdy
  have hround : ∀ c : Plane, ∀ q ∈ grid 0 0 screenWidth screenHeight,
      (do
        let x ← word? (q.2 - dx)
        let y ← word? (q.1 - dy)
        set? c.buffer q.2 q.1 (← get? p.buffer x y)) = some (change g c q).buffer := by
    intro c q hq
    obtain ⟨hrow, hcolumn⟩ := mem_grid.1 hq
    simp only [screenWidth, screenHeight] at hrow hcolumn
    rw [word?_bind (by omega) (by omega), word?_bind (by omega) (by omega), get?_buffer]
    exact set?_buffer c q.2 q.1 _
  refine (foldlM_buffer hround p).trans ?_
  refine congrArg (fun p => some (Plane.buffer p)) (Plane.ext_get fun u v hon => ?_)
  have hall : (v, u) ∈ grid 0 0 screenWidth screenHeight := by
    rw [mem_grid]
    unfold Plane.OnScreen at hon
    omega
  rw [get_foldl_change g (nodup_grid ..) p hon, if_pos hall, Plane.shift, Plane.get_ofFn]
  simp [g, hon]

theorem clear_buffer (p : Plane) : (p.buffer.map fun _ => false) = Plane.blank.buffer := by
  apply Array.ext
  · rw [Array.size_map, p.size_buffer, Plane.size_buffer]
  · intro i h₁ h₂
    simp [Plane.buffer, Plane.blank]

end Canvas

end Handheld
