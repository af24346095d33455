import Handheld.Code.Lowering
import Handheld.Device.Recorder
import Handheld.Machine.Run
import Handheld.Shell.Arguments
import Handheld.Shell.Transcript
import Handheld.Text.Aligned
import Handheld.Tree.Outline

/-!
# What the command line answers

Key bindings are read before the program. A stage that is tested alone shows its
result: the lexer its lexemes, the parser its tree and the code, the interpreter
what a recorder has kept.
-/

namespace Handheld.Shell

/-! ## Files -/

inductive FileError
  | notFound
  | isDirectory
  | notDirectory
  | notUtf8
  | other (reason : String)

def FileError.reason : FileError → String
  | .notFound => "No such file or directory (os error 2)"
  | .isDirectory => "Is a directory (os error 21)"
  | .notDirectory => "Not a directory (os error 20)"
  | .notUtf8 => "stream did not contain valid UTF-8"
  | .other reason => reason

/-- The text of each file, or why there is none. -/
abbrev Files := String → Except FileError String

def readSource (files : Files) (path : String) : Except Diagnostic String :=
  match files path with
  | .ok text => .ok text
  | .error .notFound => .error (Cause.fileNotFound path FileError.notFound.reason).nowhere
  | .error e => .error (Cause.unreadableFile path e.reason).nowhere

/-! ## Running to the end -/

/-- Runs for at most `slices` slices, and on after `@HELP` and `@ABOUT`, whose texts the device
shows. The result is what went wrong, if anything did. -/
def play {σ : Type} (d : Device σ) (slices : Nat) (m : Machine) (s : σ) : Option Diagnostic × σ :=
  let display := fun (lines : List String) (s : σ) =>
    lines.foldl (fun s line => (d.perform (.display line) s).2) s
  match slices with
  | 0 => (some Cause.interrupted.nowhere, s)
  | slices + 1 =>
    match m.execute d Machine.slice s with
    | (.running, m, s) => play d slices m s
    | (.help, m, s) => play d slices m (display helpLines s)
    | (.about, m, s) => play d slices m (display aboutLines s)
    | (.fault e, _, s) => (some e, s)
    | (.interrupted, _, s) => (some Cause.interrupted.nowhere, s)
    | (.stopped, _, s) | (.exit, _, s) => (none, s)

/-! ## Answers -/

structure Outcome where
  code : Nat := 0
  out : String := ""
  err : String := ""

/-- Ends with a diagnostic, behind what has been written before. -/
def Outcome.failed (d : Diagnostic) (out err : String) : Outcome :=
  { code := 1, out, err := err ++ bold d.text ++ "\n" }

def Outcome.ended (d : Option Diagnostic) (out err : String) : Outcome :=
  match d with
  | some d => .failed d out err
  | none => { out, err }

def showLexemes (source : String) : Outcome :=
  match lexemes source with
  | .error d => .failed d "" ""
  | .ok ts =>
    let shown := ts.filter fun t => !t.token.isTrivia
    { out := shown.foldl (fun out t =>
        out ++ Text.alignedLeft 12 t.span.text ++ " " ++ t.token.outline.line ++ "\n") "" }

/-- The tree is shown even if there is no code for it. -/
def showTree (source : String) : Outcome :=
  match lexemes source >>= parse with
  | .error d => .failed d "" ""
  | .ok ss =>
    let out := (Text.Outline.items (outlines ss)).block ++ "\n"
    match Program.ofTree ss with
    | .error d => .failed d out ""
    | .ok p => { out := out ++ p.listing }

/-- Records come before lines. -/
def rehearse (slices : Nat) (keys : KeyMap) (source : String) : Outcome :=
  match compile source with
  | .error d => .failed d "" ""
  | .ok p =>
    let (d, r) := play Recorder.device slices (Machine.fresh.load p) { keypad := { keys } }
    let out := r.records.foldl (fun out text => out ++ dimmed text ++ "\n") ""
    .ended d (r.output.foldl (fun out line => out ++ line ++ "\n") out) ""

def perform (slices : Nat) (source : String) : Outcome :=
  match compile source with
  | .error d => .failed d "" ""
  | .ok p =>
    let (d, t) := play Transcript.device slices (Machine.fresh.load p) {}
    .ended d t.out t.err

/-- The key map that the options name, or else the standard one. -/
def readKeys (files : Files) (o : Options) : Except Diagnostic KeyMap :=
  match o.keys with
  | some path => readSource files path >>= KeyMap.read
  | none => .ok .standard

/-- Answers a request to run a file, for at most `slices` slices of instructions. -/
def runFile (slices : Nat) (files : Files) (o : Options) (file : String) : Outcome :=
  match readKeys files o with
  | .error d => .failed d "" ""
  | .ok keys =>
    match readSource files file with
    | .error d => .failed d "" ""
    | .ok source =>
      match o.stage with
      | some .lexer => showLexemes source
      | some .parser => showTree source
      | some .interpreter => rehearse slices keys source
      | none => perform slices source

def respond (slices : Nat) (files : Files) : Request → Outcome
  | .run o file => runFile slices files o file
  | .show text => { out := text }
  | .nothing o =>
    match readKeys files o with
    | .error d => .failed d "" ""
    | .ok _ => { code := 2, err := usage }
  | .badUsage => { code := 2, err := usage }

end Handheld.Shell
