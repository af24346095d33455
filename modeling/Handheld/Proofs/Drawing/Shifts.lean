import Handheld.Proofs.Drawing.Canvas
import Mathlib.Data.List.Induction

/-!
# Shifts, one after the other

A shift moves a plane by one column or one row, and what leaves the screen is
lost. So a pixel is lit after some shifts if, walked back through them, it stays
on the screen and comes to one that was lit. All else follows from where a pixel
has been: what shifts in from an edge is off, columns and rows do not mind each
other, and a shift and its opposite clear one line.
-/

namespace Handheld

/-- The four ways to shift. -/
inductive Heading
  | left | right | up | down
deriving DecidableEq

namespace Heading

def graphic : Heading → Graphic
  | left => .shiftLeft
  | right => .shiftRight
  | up => .shiftUp
  | down => .shiftDown

def dx : Heading → Int
  | left => -1
  | right => 1
  | up | down => 0

def dy : Heading → Int
  | left | right => 0
  | up => -1
  | down => 1

def drawing (h : Heading) : Drawing :=
  .shift h.dx h.dy

def opposite : Heading → Heading
  | left => right
  | right => left
  | up => down
  | down => up

def IsHorizontal (h : Heading) : Prop := h = left ∨ h = right

/-- How many columns or rows there are on the way. -/
def extent : Heading → Nat
  | left | right => screenWidth
  | up | down => screenHeight

/-- Is a pixel among the first `k` columns or rows from the edge where new ones come in? -/
def Enters (h : Heading) (k : Nat) (x y : Int) : Prop :=
  match h with
  | left => screenWidth - k ≤ x
  | right => x < k
  | up => screenHeight - k ≤ y
  | down => y < k

instance (h : Heading) (k : Nat) (x y : Int) : Decidable (h.Enters k x y) := by
  unfold Enters
  cases h <;> infer_instance

/-- Where a pixel was before the shift. -/
def undo (h : Heading) (q : Int × Int) : Int × Int :=
  (q.1 - h.dx, q.2 - h.dy)

/-- Where a pixel was before all of the shifts. The last one is undone first. -/
def origin (hs : List Heading) (q : Int × Int) : Int × Int :=
  hs.foldr undo q

theorem ofArguments?_graphic (h : Heading) :
    Drawing.ofArguments? h.graphic [] = some h.drawing := by
  cases h <;> rfl

theorem IsHorizontal.dy_eq_zero {h : Heading} (hh : h.IsHorizontal) : h.dy = 0 := by
  obtain rfl | rfl := hh <;> rfl

theorem dx_eq_zero {h : Heading} (hh : ¬ h.IsHorizontal) : h.dx = 0 := by
  cases h <;> simp [IsHorizontal, dx] at *

@[simp] theorem dx_opposite (h : Heading) : h.opposite.dx = -h.dx := by
  cases h <;> rfl

@[simp] theorem dy_opposite (h : Heading) : h.opposite.dy = -h.dy := by
  cases h <;> rfl

theorem short (h : Heading) : Canvas.Short h.dx ∧ Canvas.Short h.dy := by
  unfold Canvas.Short
  cases h <;> decide

end Heading

namespace Plane

/-! ## One shift -/

theorem onScreen_of_get {p : Plane} {x y : Int} (h : p.get x y = true) : OnScreen x y := by
  by_contra hoff
  simp [get, hoff] at h

theorem get_draw_heading (p : Plane) (h : Heading) (x y : Int) :
    (p.draw h.drawing).get x y = true ↔ OnScreen x y ∧ p.get (x - h.dx) (y - h.dy) = true := by
  rw [Heading.drawing, draw, shift, get_ofFn, Bool.and_eq_true, decide_eq_true_eq]

theorem draw_comm (p : Plane) {h v : Heading} (hh : h.IsHorizontal) (hv : ¬ v.IsHorizontal) :
    (p.draw h.drawing).draw v.drawing = (p.draw v.drawing).draw h.drawing := by
  refine ext_get fun x y hon => Bool.eq_iff_iff.2 ?_
  simp only [get_draw_heading, hh.dy_eq_zero, Heading.dx_eq_zero hv, Int.sub_zero, hon, true_and,
    and_congr_left_iff]
  intro hlit
  have hfrom := onScreen_of_get hlit
  unfold OnScreen at *
  omega

/-! ## Many shifts -/

/-- Shifts one after the other. -/
def shiftAll (p : Plane) (hs : List Heading) : Plane :=
  hs.foldl (fun p h => p.draw h.drawing) p

theorem shiftAll_cons (p : Plane) (h : Heading) (hs : List Heading) :
    p.shiftAll (h :: hs) = (p.draw h.drawing).shiftAll hs :=
  List.foldl_cons ..

theorem shiftAll_append (p : Plane) (hs ks : List Heading) :
    p.shiftAll (hs ++ ks) = (p.shiftAll hs).shiftAll ks :=
  List.foldl_append

/-- Walked back through the shifts, a lit pixel stays on the screen and ends on a lit one. -/
theorem get_shiftAll (p : Plane) (hs : List Heading) (q : Int × Int) :
    (p.shiftAll hs).get q.1 q.2 = true ↔
      (∀ behind, behind <:+ hs →
        OnScreen (Heading.origin behind q).1 (Heading.origin behind q).2) ∧
      p.get (Heading.origin hs q).1 (Heading.origin hs q).2 = true := by
  induction hs using List.reverseRecOn generalizing q with
  | nil =>
    simp only [List.suffix_nil, forall_eq]
    exact ⟨fun h => ⟨onScreen_of_get h, h⟩, And.right⟩
  | append_singleton hs h ih =>
    have hundo (ks : List Heading) : Heading.origin (ks ++ [h]) q = Heading.origin ks (h.undo q) :=
      List.foldr_append
    rw [shiftAll_append, hundo]
    change ((p.shiftAll hs).draw h.drawing).get q.1 q.2 = true ↔ _
    rw [get_draw_heading]
    refine (and_congr_right fun _ => ih (h.undo q)).trans ?_
    rw [← and_assoc]
    refine and_congr_left fun _ => ⟨?_, fun hall => ⟨hall [] List.nil_suffix, ?_⟩⟩
    · rintro ⟨hon, hall⟩ behind hbehind
      obtain rfl | ⟨ks, rfl, hks⟩ := List.suffix_concat_iff.1 hbehind
      · exact hon
      · rw [hundo]
        exact hall ks hks
    · intro ks hks
      rw [← hundo]
      exact hall _ (List.suffix_concat_iff.2 (.inr ⟨ks, rfl, hks⟩))

theorem shiftAll_comm_one (p : Plane) {h : Heading} {vs : List Heading} (hh : h.IsHorizontal)
    (hvs : ∀ v ∈ vs, ¬ v.IsHorizontal) : p.shiftAll (h :: vs) = p.shiftAll (vs ++ [h]) := by
  induction vs generalizing p with
  | nil => rfl
  | cons v vs ih =>
    obtain ⟨hv, hvs⟩ := List.forall_mem_cons.1 hvs
    calc p.shiftAll (h :: v :: vs)
        = ((p.draw h.drawing).draw v.drawing).shiftAll vs := by simp only [shiftAll_cons]
      _ = (p.draw v.drawing).shiftAll (h :: vs) := by rw [draw_comm p hh hv, shiftAll_cons]
      _ = (p.draw v.drawing).shiftAll (vs ++ [h]) := ih _ hvs
      _ = p.shiftAll (v :: vs ++ [h]) := by rw [List.cons_append, shiftAll_cons]

theorem shiftAll_comm (p : Plane) {hs vs : List Heading} (hhs : ∀ h ∈ hs, h.IsHorizontal)
    (hvs : ∀ v ∈ vs, ¬ v.IsHorizontal) : p.shiftAll (hs ++ vs) = p.shiftAll (vs ++ hs) := by
  induction hs generalizing p with
  | nil => rw [List.nil_append, List.append_nil]
  | cons h hs ih =>
    obtain ⟨hh, hhs⟩ := List.forall_mem_cons.1 hhs
    calc p.shiftAll (h :: hs ++ vs)
        = (p.draw h.drawing).shiftAll (hs ++ vs) := by rw [List.cons_append, shiftAll_cons]
      _ = (p.draw h.drawing).shiftAll (vs ++ hs) := ih _ hhs
      _ = (p.shiftAll (h :: vs)).shiftAll hs := by rw [shiftAll_append, ← shiftAll_cons]
      _ = (p.shiftAll (vs ++ [h])).shiftAll hs := by rw [shiftAll_comm_one p hh hvs]
      _ = p.shiftAll (vs ++ h :: hs) := by
          rw [← shiftAll_append, List.append_assoc, List.singleton_append]

/-! ## The same shift again -/

theorem get_shiftAll_replicate (p : Plane) (k : Nat) (h : Heading) (x y : Int) :
    (p.shiftAll (List.replicate k h)).get x y = true ↔
      OnScreen x y ∧ p.get (x - k * h.dx) (y - k * h.dy) = true := by
  induction k generalizing x y with
  | zero => simpa [shiftAll] using onScreen_of_get
  | succ k ih =>
    rw [List.replicate_succ', shiftAll_append]
    change ((p.shiftAll _).draw h.drawing).get x y = true ↔ _
    have hx : x - h.dx - k * h.dx = x - (k + 1 : Nat) * h.dx := by grind
    have hy : y - h.dy - k * h.dy = y - (k + 1 : Nat) * h.dy := by grind
    rw [get_draw_heading, ih, hx, hy]
    refine and_congr_right fun hon => and_iff_right_of_imp fun hlit => ?_
    -- the place one shift before lies between the first and the last one
    have hfirst := onScreen_of_get hlit
    unfold OnScreen at *
    cases h <;> simp only [Heading.dx, Heading.dy] at * <;> omega

theorem onScreen_before_iff {x y : Int} (hon : OnScreen x y) (k : Nat) (h : Heading) :
    OnScreen (x - k * h.dx) (y - k * h.dy) ↔ ¬ h.Enters k x y := by
  unfold OnScreen Heading.Enters at *
  cases h <;> simp only [Heading.dx, Heading.dy] <;> omega

theorem get_shiftAll_of_enters (p : Plane) {k : Nat} {h : Heading} {x y : Int}
    (henters : h.Enters k x y) : (p.shiftAll (List.replicate k h)).get x y = false := by
  rw [← Bool.not_eq_true, get_shiftAll_replicate]
  rintro ⟨hon, hlit⟩
  exact (onScreen_before_iff hon k h).1 (onScreen_of_get hlit) henters

theorem shiftAll_eq_blank (p : Plane) {k : Nat} {h : Heading} (hk : h.extent ≤ k) :
    p.shiftAll (List.replicate k h) = blank := by
  refine ext_get fun x y hon => ?_
  rw [get_blank]
  refine p.get_shiftAll_of_enters ?_
  unfold OnScreen Heading.Enters Heading.extent at *
  cases h <;> simp only at * <;> omega

theorem get_shiftAll_opposite (p : Plane) (h : Heading) (x y : Int) :
    (p.shiftAll [h, h.opposite]).get x y = true ↔
      p.get x y = true ∧ ¬ h.opposite.Enters 1 x y := by
  change ((p.draw h.drawing).draw h.opposite.drawing).get x y = true ↔ _
  have hback (hon : OnScreen x y) :
      OnScreen (x + h.dx) (y + h.dy) ↔ ¬ h.opposite.Enters 1 x y := by
    simpa using onScreen_before_iff hon 1 h.opposite
  simp only [get_draw_heading, Heading.dx_opposite, Heading.dy_opposite, Int.sub_neg,
    Int.add_sub_cancel]
  constructor
  · rintro ⟨hon, hmid, hlit⟩
    exact ⟨hlit, (hback hon).1 hmid⟩
  · rintro ⟨hlit, hstays⟩
    have hon := onScreen_of_get hlit
    exact ⟨hon, (hback hon).2 hstays, hlit⟩

end Plane

/-! ## Screens -/

namespace Screen

theorem onPlane_onPlane (s : Screen) (surface : Surface) (f g : Plane → Plane) :
    (s.onPlane surface f).onPlane surface g = s.onPlane surface fun p => g (f p) := by
  cases surface <;> rfl

/-- Shift commands for a surface, one after the other. -/
def shiftAll (s : Screen) (surface : Surface) (hs : List Heading) : Screen :=
  hs.foldl (fun s h => s.draw surface h.drawing) s

theorem shiftAll_cons (s : Screen) (surface : Surface) (h : Heading) (hs : List Heading) :
    s.shiftAll surface (h :: hs) = (s.draw surface h.drawing).shiftAll surface hs :=
  List.foldl_cons ..

theorem shiftAll_eq (s : Screen) (surface : Surface) (hs : List Heading) :
    s.shiftAll surface hs = s.onPlane surface (·.shiftAll hs) := by
  induction hs generalizing s with
  | nil => cases surface <;> rfl
  | cons h hs ih =>
    rw [shiftAll_cons, ih, draw, onPlane_onPlane]
    simp only [Plane.shiftAll_cons]

theorem plane_shiftAll (s : Screen) (surface : Surface) (hs : List Heading) :
    (s.shiftAll surface hs).plane surface = (s.plane surface).shiftAll hs := by
  rw [shiftAll_eq]
  cases surface <;> rfl

theorem plane_shiftAll_of_ne (s : Screen) {surface other : Surface} (h : other ≠ surface)
    (hs : List Heading) : (s.shiftAll surface hs).plane other = s.plane other := by
  rw [shiftAll_eq]
  cases surface <;> cases other <;> first | rfl | exact absurd rfl h

end Screen

theorem Canvas.shiftAll_buffer (p : Plane) (hs : List Heading) :
    hs.foldlM (fun b h => Canvas.shift? b h.dx h.dy) p.buffer = some (p.shiftAll hs).buffer := by
  induction hs generalizing p with
  | nil => rfl
  | cons h hs ih =>
    rw [List.foldlM_cons, shift?_buffer h.short.1 h.short.2 p, Plane.shiftAll_cons]
    exact ih (p.shift h.dx h.dy)

/-- What any shift commands make of a surface, said by the way of each pixel, and what follows for
columns and rows, for the same shift many times, and for a shift and its opposite. -/
theorem shifts_compose (s : Screen) (surface : Surface) :
    (∀ h : Heading, Drawing.ofArguments? h.graphic [] = some h.drawing) ∧
    (∀ hs other, other ≠ surface → (s.shiftAll surface hs).plane other = s.plane other) ∧
    (∀ hs : List Heading,
      hs.foldlM (fun b h => Canvas.shift? b h.dx h.dy) (s.plane surface).buffer =
        some ((s.shiftAll surface hs).plane surface).buffer) ∧
    (∀ hs (q : Int × Int), ((s.shiftAll surface hs).plane surface).get q.1 q.2 = true ↔
      (∀ behind, behind <:+ hs →
        Plane.OnScreen (Heading.origin behind q).1 (Heading.origin behind q).2) ∧
      (s.plane surface).get (Heading.origin hs q).1 (Heading.origin hs q).2 = true) ∧
    (∀ hs vs, (∀ h ∈ hs, h.IsHorizontal) → (∀ v ∈ vs, ¬ v.IsHorizontal) →
      s.shiftAll surface (hs ++ vs) = s.shiftAll surface (vs ++ hs)) ∧
    (∀ (k : Nat) (h : Heading),
      let p := (s.shiftAll surface (List.replicate k h)).plane surface
      (∀ x y, p.get x y = true ↔
        Plane.OnScreen x y ∧ (s.plane surface).get (x - k * h.dx) (y - k * h.dy) = true) ∧
      (∀ x y, h.Enters k x y → p.get x y = false) ∧ (h.extent ≤ k → p = .blank)) ∧
    ∀ (h : Heading) (x y : Int),
      ((s.shiftAll surface [h, h.opposite]).plane surface).get x y = true ↔
        (s.plane surface).get x y = true ∧ ¬ h.opposite.Enters 1 x y := by
  refine ⟨Heading.ofArguments?_graphic, fun hs other hne => s.plane_shiftAll_of_ne hne hs,
    fun hs => ?_, fun hs q => ?_, fun hs vs hhs hvs => ?_, fun k h => ?_, fun h x y => ?_⟩
  · rw [s.plane_shiftAll]
    exact Canvas.shiftAll_buffer _ hs
  · rw [s.plane_shiftAll]
    exact Plane.get_shiftAll _ hs q
  · rw [s.shiftAll_eq, s.shiftAll_eq]
    exact congrArg _ (funext fun p => p.shiftAll_comm hhs hvs)
  · simp only [s.plane_shiftAll]
    exact ⟨Plane.get_shiftAll_replicate _ k h, fun x y => Plane.get_shiftAll_of_enters _,
      Plane.shiftAll_eq_blank _⟩
  · rw [s.plane_shiftAll]
    exact Plane.get_shiftAll_opposite _ h x y

/-- A pixel in the upper right corner: one shift to the right loses it, and one to the left does
not. -/
theorem shifts_compose_corner :
    let s : Screen := { main := Plane.blank.set 95 0 true }
    (s.shiftAll .main [.right, .left]).main.get 95 0 = false ∧
    (s.shiftAll .main [.left, .right]).main.get 95 0 = true ∧
    (s.shiftAll .main [.left, .down, .left]).main.get 93 1 = true ∧
    s.shiftAll .main ([.left, .left] ++ [.down]) = s.shiftAll .main ([.down] ++ [.left, .left]) ∧
    (s.shiftAll .main (List.replicate 2 .left)).main.get 94 0 = false ∧
    (s.shiftAll .main (List.replicate 96 .left)).main = .blank ∧
    (s.shiftAll .main [.right, .left]).back = .blank := by
  intro s
  have hlit : s.main.get 95 0 = true := by
    rw [Plane.get_set, if_pos ⟨by decide, rfl, rfl⟩]
  obtain ⟨-, hother, -, hway, hcomm, hsame, hopposite⟩ := shifts_compose s .main
  refine ⟨?_, (hopposite .left 95 0).2 ⟨hlit, by decide⟩, (hway _ (93, 1)).2 ⟨?_, hlit⟩,
    hcomm _ _ (by simp [Heading.IsHorizontal]) (by simp [Heading.IsHorizontal]),
    (hsame 2 .left).2.1 94 0 (by decide), (hsame 96 .left).2.2 (by decide),
    hother _ .back (by decide)⟩
  · rw [← Bool.not_eq_true]
    exact fun h => ((hopposite .right 95 0).1 h).2 (by decide)
  · intro behind hbehind
    simp only [List.suffix_cons_iff, List.suffix_nil] at hbehind
    obtain rfl | rfl | rfl | rfl := hbehind <;> decide

end Handheld
