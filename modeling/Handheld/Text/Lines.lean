/-!
# Lines of a text
-/

namespace Handheld.Text

/-- The pieces between newlines. There is always one more piece than there are newlines. -/
def pieces (text : String) : List (List Char) :=
  text.toList.splitOn '\n'

/-- Drops a carriage return at the end. -/
def withoutReturn (line : List Char) : List Char :=
  if line.getLast? = some '\r' then line.dropLast else line

/-- The lines of a text. Each ends with a newline, which may have a carriage return before it; the
last one need not. -/
def lines (text : String) : List String :=
  let ps := pieces text
  let last := ps.getLast?.getD []
  ps.dropLast.map (fun line => String.ofList (withoutReturn line))
    ++ (if last.isEmpty then [] else [String.ofList last])

end Handheld.Text
