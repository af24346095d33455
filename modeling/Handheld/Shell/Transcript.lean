import Handheld.Device.Random
import Handheld.Device.Screen
import Handheld.Shell.Messages

/-!
# A device that writes

Lines and pictures go to the output, records to the error output. Nobody holds a
key, and a pause is over at once.
-/

namespace Handheld.Shell

structure Transcript where
  screen : Screen := {}
  generator : Generator := .ofSeed 0
  out : String := ""
  err : String := ""

namespace Transcript

def perform (c : Call) (t : Transcript) : c.Answer × Transcript :=
  match c with
  | .display text => ((), { t with out := t.out ++ text ++ "\n" })
  | .draw surface drawing => ((), { t with screen := t.screen.draw surface drawing })
  | .pixel surface x y => (t.screen.pixel surface x y, t)
  | .present shade => ((), { t with out := t.out ++ t.screen.picture shade })
  | .keyPressed _ => (false, t)
  | .random =>
    let (w, generator) := t.generator.next
    (w.toUInt16, { t with generator })
  | .pause _ => ((), t)
  | .log text => ((), { t with err := t.err ++ dimmed text ++ "\n" })

def device : Device Transcript where
  perform := perform

end Transcript

end Handheld.Shell
