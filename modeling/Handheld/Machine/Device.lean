import Handheld.Tree.Basic

/-!
# What a machine asks of its surroundings

The machine owns no screen, keyboard or clock. It reaches everything outside of
its memory by calls, and a device answers them.
-/

namespace Handheld

/-- A drawing command with its values. -/
inductive Drawing
  | pixelOn (x y : Int64)
  | pixelOff (x y : Int64)
  | pixelChange (x y : Int64)
  | line (x₁ y₁ x₂ y₂ : Int64)
  | rect (x y width height : Int64)
  | invert (x y width height : Int64)
  | circle (x y radius : Int64)
  | clear
  /-- Moves everything by one column or one row. -/
  | shift (dx dy : Int)
deriving DecidableEq

/-- Takes the values in the order of the source. There must be as many as the command takes. -/
def Drawing.ofArguments? : Graphic → List Int64 → Option Drawing
  | .pxlOn, [x, y] => some (.pixelOn x y)
  | .pxlOff, [x, y] => some (.pixelOff x y)
  | .pxlChange, [x, y] => some (.pixelChange x y)
  | .line, [x₁, y₁, x₂, y₂] => some (.line x₁ y₁ x₂ y₂)
  | .rect, [x, y, width, height] => some (.rect x y width height)
  | .rectI, [x, y, width, height] => some (.invert x y width height)
  | .circle, [x, y, radius] => some (.circle x y radius)
  | .clrDraw, [] => some .clear
  | .shiftLeft, [] => some (.shift (-1) 0)
  | .shiftRight, [] => some (.shift 1 0)
  | .shiftUp, [] => some (.shift 0 (-1))
  | .shiftDown, [] => some (.shift 0 1)
  | _, _ => none

theorem Drawing.isSome_ofArguments? (g : Graphic) (vs : List Int64) :
    (ofArguments? g vs).isSome = (vs.length == g.arity) := by
  match vs with
  | [] | [_] | [_, _] | [_, _, _] | [_, _, _, _] => cases g <;> rfl
  | a :: b :: c :: d :: e :: rest =>
    -- Five values are too many for every command.
    have few : g.arity ≤ 4 := by cases g <;> decide
    have refused : ofArguments? g (a :: b :: c :: d :: e :: rest) = none := by cases g <;> rfl
    rw [refused, Option.isSome_none, eq_comm, beq_eq_false_iff_ne]
    simp only [List.length_cons]
    omega

inductive Call
  /-- Shows a line of text. -/
  | display (text : String)
  | draw (surface : Surface) (drawing : Drawing)
  /-- Is a pixel on? -/
  | pixel (surface : Surface) (x y : Int64)
  /-- Shows the picture that the two buffers make. -/
  | present (shade : Shade)
  /-- Is a key with this code held? Code 0 asks for any key. -/
  | keyPressed (code : UInt8)
  | random
  | pause (microseconds : Nat)
  /-- Takes a record of the machine while `@DEBUG` is on. -/
  | log (text : String)

def Call.Answer : Call → Type
  | .pixel .. | .keyPressed _ => Bool
  | .random => UInt16
  | .display _ | .draw .. | .present _ | .pause _ | .log _ => Unit

/-- Something that answers calls and has a state of its own. -/
structure Device (σ : Type) where
  perform : (c : Call) → σ → c.Answer × σ

end Handheld
