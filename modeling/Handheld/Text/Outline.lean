/-!
# Outlines of values

A value is shown by its name and its parts, either in one line or with each part
in a line of its own, four columns further in.
-/

namespace Handheld.Text

inductive Outline
  | leaf (text : String)
  /-- A name and its parts in parentheses. There is at least one part. -/
  | node (name : String) (parts : List Outline)
  /-- A name and its labelled fields in braces. -/
  | record (name : String) (fields : List (String × String))
  | items (elements : List Outline)

namespace Outline

/-! ## In one line -/

mutual

/-- Appends the outline to `acc`. -/
def writeLine (acc : String) : Outline → String
  | .leaf text => acc ++ text
  | .node name parts => writeParts (acc ++ name ++ "(") true parts ++ ")"
  | .record name fields =>
    acc ++ name ++ " \x7b " ++ ", ".intercalate (fields.map fun (k, v) => k ++ ": " ++ v) ++ " \x7d"
  | .items elements => writeParts (acc ++ "[") true elements ++ "]"

/-- Appends the outlines with a comma between them. -/
def writeParts (acc : String) (first : Bool) : List Outline → String
  | [] => acc
  | o :: os => writeParts (o.writeLine (if first then acc else acc ++ ", ")) false os

end

def line (o : Outline) : String :=
  o.writeLine ""

/-! ## One part a line -/

def margin (depth : Nat) : String :=
  String.ofList (List.replicate (4 * depth) ' ')

mutual

def writeBlock (acc : String) (depth : Nat) : Outline → String
  | .leaf text => acc ++ text
  | .node name parts => writeRows (acc ++ name ++ "(\n") (depth + 1) parts ++ margin depth ++ ")"
  | .record name fields =>
    fields.foldl (fun acc (k, v) => acc ++ margin (depth + 1) ++ k ++ ": " ++ v ++ ",\n")
      (acc ++ name ++ " \x7b\n") ++ margin depth ++ "\x7d"
  | .items [] => acc ++ "[]"
  | .items elements => writeRows (acc ++ "[\n") (depth + 1) elements ++ margin depth ++ "]"

def writeRows (acc : String) (depth : Nat) : List Outline → String
  | [] => acc
  | o :: os => writeRows (o.writeBlock (acc ++ margin depth) depth ++ ",\n") depth os

end

def block (o : Outline) : String :=
  o.writeBlock "" 0

end Outline

end Handheld.Text
