import Handheld.Text.Printable

/-!
# Quoted characters and strings

The quote itself, the backslash, the common controls and every character that
does not print are written as escapes.
-/

namespace Handheld.Text

/-- One character between quotes of the given kind. -/
def escaped (quote c : Char) : String :=
  if c = '\x00' then "\\0"
  else if c = '\t' then "\\t"
  else if c = '\r' then "\\r"
  else if c = '\n' then "\\n"
  else if c = '\\' then "\\\\"
  else if c = quote then "\\" ++ quote.toString
  else if isPrintable c then c.toString
  else "\\u\x7b" ++ String.ofList (Nat.toDigits 16 c.toNat) ++ "\x7d"

def quotedChar (c : Char) : String :=
  "'" ++ escaped '\x27' c ++ "'"

def quotedString (s : String) : String :=
  s.toList.foldl (fun acc c => acc ++ escaped '\x22' c) "\"" ++ "\""

end Handheld.Text
