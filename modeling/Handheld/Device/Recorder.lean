import Handheld.Device.Keys
import Handheld.Device.Random
import Handheld.Device.Screen

/-!
# A device that keeps what it is told

Nothing is shown. Lines, records, pauses and pictures are kept for a look at them
later, and random numbers can be repeated.
-/

namespace Handheld

/-- Where random numbers come from. -/
inductive Chance (γ : Type)
  /-- The given ones, and then zeros. -/
  | script (values : List UInt16)
  | generator (g : γ)

def Chance.next {γ : Type} [RandomSource γ] : Chance γ → UInt16 × Chance γ
  | .script [] => (0, .script [])
  | .script (v :: vs) => (v, .script vs)
  | .generator g =>
    let (w, g) := RandomSource.next g
    (w.toUInt16, .generator g)

/-- What has been kept, with a source of random words of any kind. -/
structure Recording (γ : Type) [RandomSource γ] where
  screen : Screen := {}
  keypad : Keypad := {}
  /-- Answers to questions about keys, to be given instead of those of the keypad. -/
  answers : Option (List Bool) := none
  chance : Chance γ := .generator (RandomSource.ofSeed 0)
  output : Array String := #[]
  records : Array String := #[]
  pauses : Array Nat := #[]
  frames : Array String := #[]

namespace Recording

variable {γ : Type} [RandomSource γ]

/-- Once the given answers are used up, no key is held. -/
def keyPressed (r : Recording γ) (code : UInt8) : Bool × Recording γ :=
  match r.answers with
  | none => (r.keypad.isPressed code, r)
  | some [] => (false, r)
  | some (a :: rest) => (a, { r with answers := some rest })

def perform (c : Call) (r : Recording γ) : c.Answer × Recording γ :=
  match c with
  | .display text => ((), { r with output := r.output.push text })
  | .draw surface drawing => ((), { r with screen := r.screen.draw surface drawing })
  | .pixel surface x y => (r.screen.pixel surface x y, r)
  | .present shade => ((), { r with frames := r.frames.push (r.screen.picture shade) })
  | .keyPressed code => r.keyPressed code
  | .random =>
    let (v, chance) := r.chance.next
    (v, { r with chance })
  | .pause microseconds => ((), { r with pauses := r.pauses.push microseconds })
  | .log text => ((), { r with records := r.records.push text })

def device : Device (Recording γ) where
  perform := perform

/-- Drops what has been kept. -/
def forget (r : Recording γ) : Recording γ :=
  { r with output := #[], records := #[], pauses := #[], frames := #[] }

end Recording

abbrev Recorder := Recording Generator

def Recorder.device : Device Recorder := Recording.device

end Handheld
