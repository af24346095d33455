import Handheld.Diagnostic

/-!
# From text to lexemes

`Token.scan` reads one token and says how many characters it takes. `lexemes`
reads a whole text, so that the tokens follow each other without a gap and the
last one is `eof`.
-/

namespace Handheld

/-! ## Classes of characters -/

def isBlank (c : Char) : Bool :=
  c == ' ' || c == '\t' || c == '\r'

def isWordChar (c : Char) : Bool :=
  c.isAlphanum || c == '_'

/-! ## One token

Each scanner gets the characters after the first one and counts those of them
that belong to the token. -/

/-- The characters up to the end of the next three dots, or all of them. -/
def dotsEnd (count : Nat) : List Char → Nat
  | '.' :: '.' :: '.' :: _ => count + 3
  | _ :: cs => dotsEnd (count + 1) cs
  | [] => count

/-- Three dots open a comment that runs to the next three, over lines if need be. Any other
comment ends with its line. -/
def commentEnd : List Char → Nat
  | '.' :: '.' :: cs => dotsEnd 2 cs
  | cs => (cs.takeWhile (· != '\n')).length

def decimalValue (digits : List Char) : Nat :=
  digits.foldl (fun n d => 10 * n + (d.toNat - '0'.toNat)) 0

/-- A word and a hyphenated ending, such as `Pxl` and `-On`. -/
def hyphenated? (word : String) (rest : List Char) : Option (Word × Nat) :=
  if word = "Pxl" ∨ word = "pxl" then
    ["-Change", "-Test", "-Off", "-On"].findSome? fun ending =>
      if ending.toList.isPrefixOf rest then
        (Word.ofText? (word ++ ending)).map (·, ending.length)
      else none
  else none

/-- A word without an ending: a word of the language, a buffer, a variable or a name. -/
def Token.ofWord (s : String) : Token :=
  match Word.ofText? s with
  | some w => .word w
  | none =>
    match Buffer.ofText? s with
    | some b => .buffer b
    | none =>
      match s.toList with
      | [c] => if c.isUpper then .var c else .name s
      | _ => .name s

def Token.scanWord (c : Char) (cs : List Char) : Token × Nat :=
  let tail := cs.takeWhile isWordChar
  let rest := cs.drop tail.length
  let word := String.ofList (c :: tail)
  if word = "o" ∧ ['^', '^'].isPrefixOf rest then
    (.modifier .addressOf, tail.length + 2)
  else
    match hyphenated? word rest with
    | some (w, n) => (.word w, tail.length + n)
    | none => (.ofWord word, tail.length)

def Token.scanSymbol : Char → List Char → Option (Token × Nat)
  | '^', '^' :: 'r' :: _ => some (.modifier .r, 2)
  | '^', '^' :: '2' :: _ => some (.modifier .square, 2)
  | '^', '^' :: _ => none
  | '^', _ => some (.operator .modulo, 0)
  | '-', '>' :: _ => some (.operator .store, 1)
  | '-', '-' :: _ => some (.operator .decrement, 1)
  | '-', _ => some (.operator .minus, 0)
  | '+', '+' :: _ => some (.operator .increment, 1)
  | '+', _ => some (.operator .plus, 0)
  | '*', _ => some (.operator .multiply, 0)
  | '/', _ => some (.operator .divide, 0)
  | '=', _ => some (.operator .equal, 0)
  | '!', '=' :: _ => some (.operator .notEqual, 1)
  | '<', '=' :: _ => some (.operator .lessEqual, 1)
  | '<', _ => some (.operator .less, 0)
  | '>', '=' :: _ => some (.operator .greaterEqual, 1)
  | '>', _ => some (.operator .greater, 0)
  | '(', _ => some (.leftParen, 0)
  | ')', _ => some (.rightParen, 0)
  | '\x7b', _ => some (.leftBrace, 0)
  | '\x7d', _ => some (.rightBrace, 0)
  | ',', _ => some (.comma, 0)
  | ':', _ => some (.colon, 0)
  | _, _ => none

/-- The token that starts with `c`, and how many characters of `cs` it takes. A refusal says how
many characters it is about. -/
def Token.scan (c : Char) (cs : List Char) : Except (Cause × Nat) (Token × Nat) :=
  if isBlank c then
    let n := (cs.takeWhile isBlank).length
    .ok (.whitespace (n + 1), n)
  else if c = '\n' then
    .ok (.newline, 0)
  else if c = '.' then
    let n := commentEnd cs
    .ok (.comment (String.ofList (c :: cs.take n)), n)
  else if c.isDigit then
    let digits := c :: cs.takeWhile Char.isDigit
    let n := decimalValue digits
    if n < 65536 then .ok (.number (UInt16.ofNat n), digits.length - 1)
    else .error (.numberTooLarge (String.ofList digits), digits.length)
  else if c = '@' then
    let letters := cs.takeWhile Char.isAlpha
    let text := String.ofList (c :: letters)
    match CommandWord.ofText? text with
    | some m => .ok (.command m, letters.length)
    | none => .error (.unknownCommand text, 1)
  else if c.isAlpha then
    .ok (Token.scanWord c cs)
  else
    match Token.scanSymbol c cs with
    | some t => .ok t
    | none => .error (.unexpectedCharacter c, 1)

/-! ## All tokens of a text -/

structure Position where
  line : Nat := 1
  column : Nat := 0
deriving DecidableEq

namespace Position

def step (p : Position) (c : Char) : Position :=
  if c = '\n' then { line := p.line + 1, column := 0 } else { p with column := p.column + 1 }

def advance (p : Position) (cs : List Char) : Position :=
  cs.foldl step p

/-- The next `width` characters, as if they all stood in one line. -/
def span (p : Position) (width : Nat) : Span :=
  { line := p.line, start := p.column, stop := p.column + width }

end Position

/-- Reads `cs`, which stands at `p`, behind the lexemes `done`. -/
def lexFrom (p : Position) (done : Array Lexeme) (cs : List Char) :
    Except Diagnostic (Array Lexeme) :=
  match cs with
  | [] => .ok (done.push ⟨p.span 0, .eof⟩)
  | c :: cs =>
    match Token.scan c cs with
    | .error (cause, width) => .error (cause.inSpan (p.span width))
    | .ok (token, n) =>
      lexFrom (p.advance (c :: cs.take n)) (done.push ⟨p.span (n + 1), token⟩) (cs.drop n)
termination_by cs.length
decreasing_by simp only [List.length_drop, List.length_cons]; omega

/-- What has been read before does not matter. -/
theorem lexFrom_eq_map (p : Position) (done : Array Lexeme) (cs : List Char) :
    lexFrom p done cs = (lexFrom p #[] cs).map (done ++ ·) := by
  match cs with
  | [] => simp [lexFrom, Except.map]
  | c :: cs =>
    rw [lexFrom, lexFrom]
    split
    · simp [Except.map]
    · next token n _ =>
      rw [lexFrom_eq_map _ (done.push _), lexFrom_eq_map _ (#[].push _)]
      cases lexFrom (p.advance (c :: cs.take n)) #[] (cs.drop n) <;> simp [Except.map]
termination_by cs.length
decreasing_by all_goals simp only [List.length_drop, List.length_cons]; omega

/-- Splits a text into lexemes. -/
def lexemes (source : String) : Except Diagnostic (List Lexeme) :=
  (lexFrom {} #[] source.toList).map Array.toList

end Handheld
