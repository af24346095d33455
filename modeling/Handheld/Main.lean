import Handheld.Shell.Respond

/-!
# The command line

Reads the files that a request names, and writes the answer.
-/

namespace Handheld.Shell

def readText (path : String) : IO (Except FileError String) := do
  try
    let bytes ← IO.FS.readBinFile path
    match String.fromUTF8? bytes with
    | some text => return .ok text
    | none => return .error .notUtf8
  catch e =>
    match e with
    | .noFileOrDirectory .. => return .error .notFound
    | .inappropriateType .. => return .error .isDirectory
    | e => return .error (.other (toString e))

/-- The paths of a request. -/
def paths : Request → List String
  | .run o file => o.keys.toList ++ [file]
  | .nothing o => o.keys.toList
  | .show _ | .badUsage => []

/-- More slices of instructions than anyone waits for. -/
def patience : Nat := 1000000000000000

end Handheld.Shell

open Handheld.Shell in
def main (args : List String) : IO UInt32 := do
  let request := Request.ofArguments args
  let texts ← (paths request).mapM fun path => return (path, ← readText path)
  let files : Files := fun path => (texts.lookup path).getD (.error .notFound)
  let outcome := respond patience files request
  (← IO.getStdout).putStr outcome.out
  (← IO.getStderr).putStr outcome.err
  return UInt32.ofNat outcome.code
