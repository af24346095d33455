import Handheld.Diagnostic
import Handheld.Tree.Basic

/-!
# From lexemes to a statement tree

Only the lexemes before the end of the input count, and of them neither blanks
nor comments. Every reader takes a list of such lexemes and returns what it left
of it, with a proof that this is shorter. That is what makes reading end.
-/

namespace Handheld

/-! ## What is read -/

/-- The lexemes that the parser looks at. -/
def significant (ts : List Lexeme) : List Lexeme :=
  (ts.takeWhile fun t => t.token ≠ .eof).filter fun t => !t.token.isTrivia

/-- The place that stands for the end of the input: that of `eof`, or else of the last lexeme. -/
def inputEnd (ts : List Lexeme) : Span :=
  match ts.find? (·.token = .eof) with
  | some t => t.span
  | none => (ts.getLast?.map Lexeme.span).getD {}

/-- A value read from the front of some lexemes. Fewer than `n` are left. -/
structure Parsed (α : Type) (n : Nat) where
  value : α
  rest : List Lexeme
  shorter : rest.length < n := by (try simp only [List.length_cons] at *); omega

namespace Parser

/-! ## Single lexemes -/

/-- A refusal of the next lexeme. If there is none, the end of the input is refused, at `stop`. -/
def refuse (cause : Token → Cause) (stop : Span) : List Lexeme → Diagnostic
  | [] => (cause .eof).inSpan stop
  | t :: _ => (cause t.token).inSpan t.span

def expect (stop : Span) (token : Token) (ts : List Lexeme) :
    Except Diagnostic (Parsed Unit ts.length) :=
  match ts with
  | [] => .error (refuse (.expected (.token token)) stop [])
  | t :: rest =>
    if t.token = token then .ok { value := (), rest }
    else .error (refuse (.expected (.token token)) stop (t :: rest))

/-- Takes the next lexeme if it is `token`. -/
def accept (token : Token) (ts : List Lexeme) : Parsed Bool (ts.length + 1) :=
  match ts with
  | [] => { value := false, rest := [] }
  | t :: rest =>
    if t.token = token then { value := true, rest } else { value := false, rest := t :: rest }

def width (ts : List Lexeme) : Parsed Width (ts.length + 1) :=
  let ⟨r, rest, _⟩ := accept (.modifier .r) ts
  { value := if r then .word else .byte, rest }

def surface (ts : List Lexeme) : Parsed Surface (ts.length + 1) :=
  let ⟨r, rest, _⟩ := accept (.modifier .r) ts
  { value := if r then .back else .main, rest }

def shade (ts : List Lexeme) : Parsed Shade (ts.length + 1) :=
  let ⟨r, rest, _⟩ := accept (.modifier .r) ts
  if r then
    let ⟨rr, rest, _⟩ := accept (.modifier .r) rest
    { value := if rr then .gray4 else .gray3, rest }
  else
    { value := .mono, rest }

def labelName (stop : Span) (ts : List Lexeme) : Except Diagnostic (Parsed String ts.length) :=
  match ts with
  | ⟨_, .name s⟩ :: rest => .ok { value := s, rest }
  | ⟨_, .number n⟩ :: rest => .ok { value := toString n.toNat, rest }
  | ⟨_, .var c⟩ :: rest => .ok { value := c.toString, rest }
  | ts => .error (refuse (.expected .labelName) stop ts)

/-! ## Expressions

From loose to tight: stores, comparisons, sums, products, signs, suffixes. -/

def binary? : Operator → Option BinaryOp
  | .plus => some .add
  | .minus => some .subtract
  | .multiply => some .multiply
  | .divide => some .divide
  | .modulo => some .modulo
  | .equal => some .equal
  | .notEqual => some .notEqual
  | .less => some .less
  | .lessEqual => some .lessEqual
  | .greater => some .greater
  | .greaterEqual => some .greaterEqual
  | .store | .increment | .decrement => none

/-- The operator in front, if it is a binary one that binds at least as tightly as `level`. -/
def operator? (level : Nat) : List Lexeme → Option BinaryOp
  | ⟨_, .operator op⟩ :: _ => (binary? op).filter fun b => level ≤ b.precedence
  | _ => none

/-- Squares, increments and decrements behind `e`. -/
def suffixes (e : Expr) (ts : List Lexeme) : Except Diagnostic (Parsed Expr (ts.length + 1)) :=
  match ts with
  | ⟨_, .modifier .square⟩ :: ts => do
    let ⟨e, rest, _⟩ ← suffixes (.unary .square e) ts
    return { value := e, rest }
  | ⟨span, .operator .increment⟩ :: ts => do
    let some target := e.toTarget? | throw ((Cause.notAssignable none).inSpan span)
    let ⟨e, rest, _⟩ ← suffixes (.increment target) ts
    return { value := e, rest }
  | ⟨span, .operator .decrement⟩ :: ts => do
    let some target := e.toTarget? | throw ((Cause.notAssignable none).inSpan span)
    let ⟨e, rest, _⟩ ← suffixes (.decrement target) ts
    return { value := e, rest }
  | ts => return { value := e, rest := ts }

mutual

def expression (stop : Span) (ts : List Lexeme) : Except Diagnostic (Parsed Expr ts.length) := do
  let ⟨e, rest, _⟩ ← operation stop 1 ts
  let ⟨e, rest, _⟩ ← stores stop e rest
  return { value := e, rest }
termination_by 8 * ts.length + 4

/-- Stores of `e`, from left to right: each stores the value of what stands before it. -/
def stores (stop : Span) (e : Expr) (ts : List Lexeme) :
    Except Diagnostic (Parsed Expr (ts.length + 1)) :=
  match ts with
  | ⟨_, .operator .store⟩ :: ts => do
    let ⟨t, rest, _⟩ ← target stop ts
    let ⟨e, rest, _⟩ ← stores stop (.assign e t) rest
    return { value := e, rest }
  | ts => return { value := e, rest := ts }
termination_by 8 * ts.length
decreasing_by all_goals simp only [List.length_cons]; omega

def target (stop : Span) (ts : List Lexeme) : Except Diagnostic (Parsed Target ts.length) :=
  match ts with
  | ⟨_, .var c⟩ :: rest => return { value := .var c, rest }
  | ⟨_, .leftBrace⟩ :: ts => do
    let ⟨address, rest, _⟩ ← expression stop ts
    let ⟨_, rest, _⟩ ← expect stop .rightBrace rest
    let ⟨w, rest, _⟩ := width rest
    return { value := .pointer address w, rest }
  | ts => throw (refuse (fun t => .notAssignable (some t)) stop ts)
termination_by 8 * ts.length
decreasing_by all_goals simp only [List.length_cons]; omega

/-- An operand and the operators behind it that bind at least as tightly as `level`. -/
def operation (stop : Span) (level : Nat) (ts : List Lexeme) :
    Except Diagnostic (Parsed Expr ts.length) := do
  let ⟨e, rest, _⟩ ← operand stop ts
  let ⟨e, rest, _⟩ ← operations stop level e rest
  return { value := e, rest }
termination_by 8 * ts.length + 3

def operations (stop : Span) (level : Nat) (lhs : Expr) (ts : List Lexeme) :
    Except Diagnostic (Parsed Expr (ts.length + 1)) :=
  match operator? level ts, ts with
  | some op, _ :: ts => do
    let ⟨rhs, rest, _⟩ ← operation stop (op.precedence + 1) ts
    let ⟨e, rest, _⟩ ← operations stop level (.binary op lhs rhs) rest
    return { value := e, rest }
  | _, ts => return { value := lhs, rest := ts }
termination_by 8 * ts.length
decreasing_by all_goals simp only [List.length_cons]; omega

def operand (stop : Span) (ts : List Lexeme) : Except Diagnostic (Parsed Expr ts.length) :=
  match ts with
  | ⟨_, .operator .minus⟩ :: ts => do
    let ⟨e, rest, _⟩ ← operand stop ts
    return { value := .unary .negate e, rest }
  | ts => do
    let ⟨e, rest, _⟩ ← primary stop ts
    let ⟨e, rest, _⟩ ← suffixes e rest
    return { value := e, rest }
termination_by 8 * ts.length + 2
decreasing_by
  · simp only [List.length_cons]; omega
  · omega

def primary (stop : Span) (ts : List Lexeme) : Except Diagnostic (Parsed Expr ts.length) :=
  match ts with
  | ⟨_, .number n⟩ :: rest => return { value := .number (Int64.ofNat n.toNat), rest }
  | ⟨_, .var c⟩ :: rest => return { value := .var c, rest }
  | ⟨_, .buffer b⟩ :: rest => return { value := .buffer b, rest }
  | ⟨_, .leftParen⟩ :: ts => do
    let ⟨e, rest, _⟩ ← expression stop ts
    let ⟨_, rest, _⟩ ← expect stop .rightParen rest
    return { value := e, rest }
  | ⟨_, .leftBrace⟩ :: ts => do
    let ⟨address, rest, _⟩ ← expression stop ts
    let ⟨_, rest, _⟩ ← expect stop .rightBrace rest
    let ⟨w, rest, _⟩ := width rest
    return { value := .deref address w, rest }
  | ⟨_, .modifier .addressOf⟩ :: ts => do
    let ⟨t, rest, _⟩ ← target stop ts
    return { value := .addressOf t, rest }
  | ⟨_, .word .rand⟩ :: rest => return { value := .rand, rest }
  | ⟨_, .word .getKey⟩ :: ts => do
    let ⟨_, rest, _⟩ ← expect stop .leftParen ts
    let ⟨code, rest, _⟩ ← expression stop rest
    let ⟨_, rest, _⟩ ← expect stop .rightParen rest
    return { value := .getKey code, rest }
  | ⟨_, .word .pxlTest⟩ :: ts => do
    let ⟨_, rest, _⟩ ← expect stop .leftParen ts
    let ⟨x, rest, _⟩ ← expression stop rest
    let ⟨_, rest, _⟩ ← expect stop .comma rest
    let ⟨y, rest, _⟩ ← expression stop rest
    let ⟨_, rest, _⟩ ← expect stop .rightParen rest
    let ⟨s, rest, _⟩ := surface rest
    return { value := .pxlTest s x y, rest }
  | ts => throw (refuse (.expected .expression) stop ts)
termination_by 8 * ts.length + 1
decreasing_by all_goals simp only [List.length_cons]; omega

end

/-- The expressions after a first one, with a comma before each. -/
def moreExpressions (stop : Span) (ts : List Lexeme) :
    Except Diagnostic (Parsed (List Expr) (ts.length + 1)) :=
  match ts with
  | ⟨_, .comma⟩ :: ts => do
    let ⟨e, rest, _⟩ ← expression stop ts
    let ⟨es, rest, _⟩ ← moreExpressions stop rest
    return { value := e :: es, rest }
  | ts => return { value := [], rest := ts }
termination_by ts.length
decreasing_by simp only [List.length_cons]; omega

def expressions (stop : Span) (ts : List Lexeme) :
    Except Diagnostic (Parsed (List Expr) ts.length) := do
  let ⟨e, rest, _⟩ ← expression stop ts
  let ⟨es, rest, _⟩ ← moreExpressions stop rest
  return { value := e :: es, rest }

/-! ## Simple statements

Those without a block. -/

/-- The words that draw something. -/
def graphic? : Word → Option Graphic
  | .pxlOn => some .pxlOn
  | .pxlOff => some .pxlOff
  | .pxlChange => some .pxlChange
  | .line => some .line
  | .rect => some .rect
  | .rectI => some .rectI
  | .circle => some .circle
  | .clrDraw => some .clrDraw
  | _ => none

def drawing (stop span : Span) (graphic : Graphic) (ts : List Lexeme) :
    Except Diagnostic (Parsed Stmt (ts.length + 1)) := do
  if graphic.arity = 0 then
    let ⟨s, rest, _⟩ := surface ts
    return { value := .draw span graphic s [], rest }
  else
    let ⟨_, rest, _⟩ ← expect stop .leftParen ts
    let ⟨arguments, rest, _⟩ ← expressions stop rest
    let ⟨_, rest, _⟩ ← expect stop .rightParen rest
    if arguments.length ≠ graphic.arity then
      throw (Cause.wrongArgumentCount.inSpan span)
    let ⟨s, rest, _⟩ := surface rest
    return { value := .draw span graphic s arguments, rest }

/-- `Horizontal` and `Vertical` shift one way for `+` and the other for `-`. -/
def shift (stop span : Span) (plus minus : Graphic) (ts : List Lexeme) :
    Except Diagnostic (Parsed Stmt (ts.length + 1)) :=
  match ts with
  | ⟨_, .operator .plus⟩ :: ts =>
    let ⟨s, rest, _⟩ := surface ts
    return { value := .draw span plus s [], rest }
  | ⟨_, .operator .minus⟩ :: ts =>
    let ⟨s, rest, _⟩ := surface ts
    return { value := .draw span minus s [], rest }
  | ts => throw (refuse (.expected .sign) stop ts)

def effect (stop span : Span) (ts : List Lexeme) : Except Diagnostic (Parsed Stmt ts.length) := do
  let ⟨e, rest, _⟩ ← expression stop ts
  if e.isEffect then
    return { value := .effect span e, rest }
  else
    throw (Cause.strayExpression.inSpan span)

def command (stop span : Span) (word : CommandWord) (ts : List Lexeme) :
    Except Diagnostic (Parsed Stmt (ts.length + 1)) := do
  match word with
  | .exit => return { value := .command span .exit, rest := ts }
  | .help => return { value := .command span .help, rest := ts }
  | .about => return { value := .command span .about, rest := ts }
  | .debug =>
    let ⟨e, rest, _⟩ ← expression stop ts
    return { value := .command span (.debug e), rest }

def simple (stop : Span) (ts : List Lexeme) : Except Diagnostic (Parsed Stmt ts.length) :=
  match ts with
  | ⟨span, .word .lbl⟩ :: ts => do
    let ⟨name, rest, _⟩ ← labelName stop ts
    return { value := .label span name, rest }
  | ⟨span, .word .goto⟩ :: ts => do
    let ⟨name, rest, _⟩ ← labelName stop ts
    return { value := .goto span name, rest }
  | ⟨span, .word .disp⟩ :: ts => do
    let ⟨es, rest, _⟩ ← expressions stop ts
    return { value := .disp span es, rest }
  | ⟨span, .word .pause⟩ :: ts => do
    let ⟨e, rest, _⟩ ← expression stop ts
    return { value := .pause span e, rest }
  | ⟨span, .word .dispGraph⟩ :: ts =>
    let ⟨s, rest, _⟩ := shade ts
    return { value := .dispGraph span s, rest }
  | ⟨span, .word .horizontal⟩ :: ts => shift stop span .shiftRight .shiftLeft ts
  | ⟨span, .word .vertical⟩ :: ts => shift stop span .shiftDown .shiftUp ts
  | ⟨span, .word w⟩ :: ts =>
    match graphic? w with
    | some graphic => drawing stop span graphic ts
    | none => effect stop span (⟨span, .word w⟩ :: ts)
  | ⟨span, .command word⟩ :: ts => command stop span word ts
  | ⟨span, token⟩ :: ts => effect stop span (⟨span, token⟩ :: ts)
  | [] => effect stop stop []

/-! ## Blocks -/

/-- What stands between the parentheses of `For`, and the parentheses. -/
def forHead (stop : Span) (ts : List Lexeme) : Except Diagnostic (Parsed Loop ts.length) := do
  let ⟨_, rest, _⟩ ← expect stop .leftParen ts
  let span := match rest with
    | [] => stop
    | t :: _ => t.span
  let ⟨first, rest, _⟩ ← expression stop rest
  let ⟨more, rest, _⟩ := accept .comma rest
  if more then
    let some target := first.toTarget? | throw ((Cause.notAssignable none).inSpan span)
    let ⟨start, rest, _⟩ ← expression stop rest
    let ⟨_, rest, _⟩ ← expect stop .comma rest
    let ⟨last, rest, _⟩ ← expression stop rest
    let ⟨_, rest, _⟩ ← expect stop .rightParen rest
    return { value := .count target start last, rest }
  else
    let ⟨_, rest, _⟩ ← expect stop .rightParen rest
    return { value := .times first, rest }

/-- What a block ends with. -/
inductive Closing
  | inputEnd
  | endWord (span : Span)
  | elseWord (span : Span)

def endOfStatement (stop : Span) : List Lexeme → Except Diagnostic Unit
  | [] => .ok ()
  | t :: ts =>
    if t.token.isSeparator then .ok ()
    else .error (refuse (.expected .endOfStatement) stop (t :: ts))

mutual

def statement (stop : Span) (ts : List Lexeme) : Except Diagnostic (Parsed Stmt ts.length) :=
  match ts with
  | ⟨span, .word .ifWord⟩ :: ts => do
    let ⟨condition, rest, _⟩ ← expression stop ts
    let ⟨_, rest, _⟩ := accept (.word .thenWord) rest
    let ⟨(yes, closing), rest, _⟩ ← block stop (rest.length + 1) #[] rest (by simp)
    match closing with
    | .endWord _ => return { value := .cond span condition yes [], rest }
    | .elseWord _ =>
      let ⟨no, rest, _⟩ ← body stop rest
      return { value := .cond span condition yes no, rest }
    | .inputEnd => throw (Cause.missingEnd.inSpan stop)
  | ⟨span, .word .whileWord⟩ :: ts => do
    let ⟨condition, rest, _⟩ ← expression stop ts
    let ⟨ss, rest, _⟩ ← body stop rest
    return { value := .loop span (.whileTrue condition) ss, rest }
  | ⟨span, .word .repeatWord⟩ :: ts => do
    let ⟨condition, rest, _⟩ ← expression stop ts
    let ⟨ss, rest, _⟩ ← body stop rest
    return { value := .loop span (.repeatUntil condition) ss, rest }
  | ⟨span, .word .forWord⟩ :: ts => do
    let ⟨head, rest, _⟩ ← forHead stop ts
    let ⟨ss, rest, _⟩ ← body stop rest
    return { value := .loop span head ss, rest }
  | ts => simple stop ts
termination_by 4 * ts.length
decreasing_by all_goals simp only [List.length_cons]; omega

/-- Statements up to the end of their block, behind those in `done`. -/
def block (stop : Span) (n : Nat) (done : Array Stmt) (ts : List Lexeme) (h : ts.length < n) :
    Except Diagnostic (Parsed (List Stmt × Closing) n) :=
  match ts with
  | [] => .ok ⟨(done.toList, .inputEnd), [], h⟩
  | t :: ts =>
    have ht : ts.length < n := Nat.lt_of_succ_lt h
    match t.token with
    | .newline | .colon => block stop n done ts ht
    | .word .endWord => .ok ⟨(done.toList, .endWord t.span), ts, ht⟩
    | .word .elseWord => .ok ⟨(done.toList, .elseWord t.span), ts, ht⟩
    | _ => do
      let ⟨s, rest, _⟩ ← statement stop (t :: ts)
      endOfStatement stop rest
      block stop n (done.push s) rest (by omega)
termination_by 4 * ts.length + 1
decreasing_by all_goals simp only [List.length_cons] at *; omega

/-- A block that only `End` may close. -/
def body (stop : Span) (ts : List Lexeme) :
    Except Diagnostic (Parsed (List Stmt) (ts.length + 1)) := do
  let ⟨(ss, closing), rest, _⟩ ← block stop (ts.length + 1) #[] ts (by simp)
  match closing with
  | .endWord _ => return { value := ss, rest }
  | .inputEnd => throw (Cause.missingEnd.inSpan stop)
  | .elseWord span => throw (Cause.elseWithoutIf.inSpan span)
termination_by 4 * ts.length + 2

end

end Parser

/-- Builds the statement tree of a whole program. -/
def parse (ts : List Lexeme) : Except Diagnostic (List Stmt) := do
  let stop := inputEnd ts
  let rest := significant ts
  let ⟨(ss, closing), _, _⟩ ← Parser.block stop (rest.length + 1) #[] rest (by simp)
  match closing with
  | .inputEnd => return ss
  | .endWord span => throw (Cause.endWithoutBlock.inSpan span)
  | .elseWord span => throw (Cause.elseWithoutIf.inSpan span)

end Handheld
