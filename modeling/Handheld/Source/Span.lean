/-!
# Places in a source text

Lines count from 1. Columns count characters from 0, and the end of a range is
left out of it.
-/

namespace Handheld

structure Span where
  line : Nat := 0
  start : Nat := 0
  stop : Nat := 0
deriving DecidableEq, Inhabited

namespace Span

def text (s : Span) : String :=
  s!"{s.line}:{s.start}..{s.stop}"

end Span

end Handheld
