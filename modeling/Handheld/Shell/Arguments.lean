import Handheld.Shell.Messages

/-!
# Arguments of the command line

    [--test STAGE] [--keys PATH] run FILE

Options may stand before `run` and after it. If one stands at both places, the
later one counts; at one place it may stand only once. A value that stands as an
argument of its own is looked at when the next argument has been read, and a
command counts as one argument with all that follows it. So a command that only
shows its usage does so even behind a bad value.
-/

namespace Handheld.Shell

/-- The part of the tool that `--test` asks for. -/
inductive Stage
  | lexer | parser | interpreter
deriving DecidableEq

def Stage.ofText? : String → Option Stage
  | "lexer" => some .lexer
  | "parser" => some .parser
  | "interpreter" => some .interpreter
  | _ => none

structure Options where
  stage : Option Stage := none
  keys : Option String := none
deriving DecidableEq

/-- Options of `o`, and of `outer` where `o` has none. -/
def Options.orElse (o outer : Options) : Options where
  stage := o.stage.or outer.stage
  keys := o.keys.or outer.keys

inductive Request
  | run (options : Options) (file : String)
  /-- Options without a command. -/
  | nothing (options : Options)
  | show (text : String)
  | badUsage
deriving DecidableEq

/-! ## Single arguments -/

/-- How an argument looks, whatever it means. -/
inductive Shape
  /-- Two dashes: all that follows is taken as it is. -/
  | escape
  | long (name : String) (value : Option String)
  /-- The letters behind a single dash. -/
  | short (letters : List Char)
  | plain (text : String)
deriving DecidableEq

def Shape.ofText (s : String) : Shape :=
  match s.toList with
  | ['-', '-'] => .escape
  | '-' :: '-' :: cs =>
    let name := String.ofList (cs.takeWhile (· != '='))
    match cs.dropWhile (· != '=') with
    | [] => .long name none
    | _ :: value => .long name (some (String.ofList value))
  | '-' :: c :: cs => .short (c :: cs)
  | _ => .plain s

/-- An argument that can be the value of an option: one that does not look like an option. -/
def isValue (s : String) : Bool :=
  match Shape.ofText s with
  | .plain _ => true
  | _ => false

/-- Gives an option its value, unless it has one already or the value is no good. -/
def Options.put? (o : Options) (name value : String) : Option Options :=
  match name with
  | "test" =>
    match o.stage, Stage.ofText? value with
    | none, some stage => some { o with stage }
    | _, _ => none
  | "keys" =>
    if o.keys.isNone ∧ value ≠ "" then some { o with keys := some value } else none
  | _ => none

def isOption (name : String) : Bool :=
  name == "test" || name == "keys"

/-! ## Behind `run` -/

/-- Reads the arguments of `run`. After an escape, none of them is an option. -/
def readRun (outer o : Options) (file : Option String) (escaped : Bool) : List String → Request
  | [] =>
    match file with
    | some file => .run (o.orElse outer) file
    | none => .badUsage
  | arg :: args =>
    let positional := fun (_ : Unit) =>
      if file.isNone ∧ arg ≠ "" then readRun outer o (some arg) escaped args else .badUsage
    if escaped then positional ()
    else
      match Shape.ofText arg with
      | .escape => readRun outer o file true args
      | .plain _ => positional ()
      | .short ('h' :: _) => .show runUsage
      | .short _ => .badUsage
      | .long "help" none => .show runUsage
      | .long name (some value) =>
        match o.put? name value with
        | some o => readRun outer o file escaped args
        | none => .badUsage
      | .long name none =>
        match isOption name, args with
        | true, value :: args =>
          match isValue value, o.put? name value with
          | true, some o => readRun outer o file escaped args
          | _, _ => .badUsage
        | _, _ => .badUsage

/-! ## Before the command -/

def readHelp : List String → Request
  | [] => .show usage
  | ["run"] => .show runUsage
  | ["help"] => .show helpUsage
  | _ => .badUsage

/-- The command in front, if there is one. -/
def readCommand? (o : Options) : List String → Option Request
  | "run" :: args => some (readRun o {} none false args)
  | "help" :: args => some (readHelp args)
  | _ => none

/-- What becomes of a request behind a bad value: usage is shown all the same. -/
def Request.behindBadValue : Option Request → Request
  | some (.show text) => .show text
  | _ => .badUsage

def readArguments (o : Options) : List String → Request
  | [] => .nothing o
  | arg :: args =>
    match readCommand? o (arg :: args), Shape.ofText arg with
    | some request, _ => request
    | none, .escape => if args.isEmpty then .nothing o else .badUsage
    | none, .plain _ => .badUsage
    | none, .short ('h' :: _) => .show usage
    | none, .short ('V' :: _) => .show versionText
    | none, .short _ => .badUsage
    | none, .long "help" none => .show usage
    | none, .long "version" none => .show versionText
    | none, .long name (some value) =>
      match o.put? name value with
      | some o => readArguments o args
      | none => .badUsage
    | none, .long name none =>
      match isOption name, args with
      | true, value :: args =>
        match isValue value, o.put? name value with
        | true, some o => readArguments o args
        | true, none => .behindBadValue (readCommand? o args)
        | false, _ => .badUsage
      | _, _ => .badUsage

def Request.ofArguments (args : List String) : Request :=
  readArguments {} args

end Handheld.Shell
