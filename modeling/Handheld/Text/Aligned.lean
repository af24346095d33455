/-!
# Text in columns
-/

namespace Handheld.Text

/-- Blanks in front, up to `width` characters. -/
def alignedRight (width : Nat) (s : String) : String :=
  String.ofList (List.replicate (width - s.length) ' ') ++ s

/-- Blanks behind, up to `width` characters. -/
def alignedLeft (width : Nat) (s : String) : String :=
  s ++ String.ofList (List.replicate (width - s.length) ' ')

end Handheld.Text
