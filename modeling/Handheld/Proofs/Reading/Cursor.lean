import Handheld.Proofs.Reading.Joining

/-!
# The parser as a cursor

A cursor stands somewhere among all the lexemes, blanks and comments included.
Whoever looks at the next lexeme passes over those first. Statements and
expressions are read by moving the cursor on, and nobody says beforehand that
this ends: there is only a limit to how deep calls may be nested.

`Cursor.parse_eq` says that such a cursor finds what the parser finds.
-/

namespace Handheld

def Lexeme.isTrivia (t : Lexeme) : Bool :=
  t.token.isTrivia

/-- Something that is done with a cursor. It has no outcome if its calls are nested too deeply. -/
abbrev Cursor := StateT Nat (ExceptT Diagnostic Option)

namespace Cursor

def tooDeep {α : Type} : Cursor α :=
  fun _ => (none : Option _)

variable (ts : List Lexeme)

/-! ## Single lexemes -/

/-- The place behind the blanks and comments. -/
def skip (pos : Nat) : Nat :=
  pos + ((ts.drop pos).takeWhile Lexeme.isTrivia).length

def peek : Cursor Token := do
  modify (skip ts)
  return (ts[← get]?.map Lexeme.token).getD .eof

/-- Where the next lexeme stands. Behind the last one that is where the last one stands. -/
def here : Cursor Span := do
  modify (skip ts)
  return (ts[← get]?.or ts.getLast?).elim {} Lexeme.span

def next : Cursor Token := do
  let token ← peek ts
  modify fun pos => if pos < ts.length then pos + 1 else pos
  return token

def eat (token : Token) : Cursor Bool := do
  if (← peek ts) = token then
    let _ ← next ts
    return true
  else
    return false

def expect (token : Token) : Cursor Unit := do
  let span ← here ts
  let found ← next ts
  if found = token then
    return ()
  else
    throw ((Cause.expected (.token token) found).inSpan span)

def width : Cursor Width := do
  return if ← eat ts (.modifier .r) then .word else .byte

def surface : Cursor Surface := do
  return if ← eat ts (.modifier .r) then .back else .main

def shade : Cursor Shade := do
  let once ← eat ts (.modifier .r)
  let twice ← eat ts (.modifier .r)
  return match once, twice with
    | false, _ => .mono
    | true, false => .gray3
    | true, true => .gray4

def labelName : Cursor String := do
  let span ← here ts
  match ← next ts with
  | .name s => return s
  | .number n => return toString n.toNat
  | .var c => return c.toString
  | token => throw ((Cause.expected .labelName token).inSpan span)

/-! ## Expressions -/

def intoTarget (e : Expr) (span : Span) : Cursor Target :=
  match e.toTarget? with
  | some target => return target
  | none => throw ((Cause.notAssignable none).inSpan span)

/-- The binary operator that a token is, if it binds at least as tightly as `level`. -/
def operator? (level : Nat) : Token → Option BinaryOp
  | .operator op => (Parser.binary? op).filter fun b => level ≤ b.precedence
  | _ => none

def suffixes : Nat → Expr → Cursor Expr
  | 0, _ => tooDeep
  | depth + 1, e => do
    let span ← here ts
    match ← peek ts with
    | .modifier .square =>
      let _ ← next ts
      suffixes depth (.unary .square e)
    | .operator .increment =>
      let _ ← next ts
      let target ← intoTarget e span
      suffixes depth (.increment target)
    | .operator .decrement =>
      let _ ← next ts
      let target ← intoTarget e span
      suffixes depth (.decrement target)
    | _ => return e

mutual

def expression : Nat → Cursor Expr
  | 0 => tooDeep
  | depth + 1 => do
    let e ← operation depth 1
    stores depth e

def stores : Nat → Expr → Cursor Expr
  | 0, _ => tooDeep
  | depth + 1, e => do
    if ← eat ts (.operator .store) then
      let t ← target depth
      stores depth (.assign e t)
    else
      return e

def target : Nat → Cursor Target
  | 0 => tooDeep
  | depth + 1 => do
    let span ← here ts
    match ← next ts with
    | .var c => return .var c
    | .leftBrace =>
      let address ← expression depth
      expect ts .rightBrace
      return .pointer address (← width ts)
    | token => throw ((Cause.notAssignable (some token)).inSpan span)

def operation : Nat → Nat → Cursor Expr
  | 0, _ => tooDeep
  | depth + 1, level => do
    let e ← operand depth
    operations depth level e

def operations : Nat → Nat → Expr → Cursor Expr
  | 0, _, _ => tooDeep
  | depth + 1, level, lhs => do
    match operator? level (← peek ts) with
    | some op =>
      let _ ← next ts
      let rhs ← operation depth (op.precedence + 1)
      operations depth level (.binary op lhs rhs)
    | none => return lhs

def operand : Nat → Cursor Expr
  | 0 => tooDeep
  | depth + 1 => do
    if ← eat ts (.operator .minus) then
      return .unary .negate (← operand depth)
    else
      let e ← primary depth
      suffixes ts depth e

def primary : Nat → Cursor Expr
  | 0 => tooDeep
  | depth + 1 => do
    let span ← here ts
    match ← next ts with
    | .number n => return .number (Int64.ofNat n.toNat)
    | .var c => return .var c
    | .buffer b => return .buffer b
    | .leftParen =>
      let e ← expression depth
      expect ts .rightParen
      return e
    | .leftBrace =>
      let address ← expression depth
      expect ts .rightBrace
      return .deref address (← width ts)
    | .modifier .addressOf => return .addressOf (← target depth)
    | .word .rand => return .rand
    | .word .getKey =>
      expect ts .leftParen
      let code ← expression depth
      expect ts .rightParen
      return .getKey code
    | .word .pxlTest =>
      expect ts .leftParen
      let x ← expression depth
      expect ts .comma
      let y ← expression depth
      expect ts .rightParen
      return .pxlTest (← surface ts) x y
    | token => throw ((Cause.expected .expression token).inSpan span)

end

def moreExpressions : Nat → Cursor (List Expr)
  | 0 => tooDeep
  | depth + 1 => do
    if ← eat ts .comma then
      let e ← expression ts depth
      return e :: (← moreExpressions depth)
    else
      return []

def expressions (depth : Nat) : Cursor (List Expr) := do
  let e ← expression ts depth
  return e :: (← moreExpressions ts depth)

/-! ## Statements -/

def drawing (depth : Nat) (span : Span) (graphic : Graphic) : Cursor Stmt := do
  let _ ← next ts
  let arguments ←
    if 0 < graphic.arity then do
      expect ts .leftParen
      let es ← expressions ts depth
      expect ts .rightParen
      pure es
    else
      pure []
  if arguments.length = graphic.arity then
    return .draw span graphic (← surface ts) arguments
  else
    throw (Cause.wrongArgumentCount.inSpan span)

def shift (span : Span) (plus minus : Graphic) : Cursor Stmt := do
  let _ ← next ts
  let place ← here ts
  match ← next ts with
  | .operator .plus => return .draw span plus (← surface ts) []
  | .operator .minus => return .draw span minus (← surface ts) []
  | token => throw ((Cause.expected .sign token).inSpan place)

def effect (depth : Nat) (span : Span) : Cursor Stmt := do
  let e ← expression ts depth
  if e.isEffect then
    return .effect span e
  else
    throw (Cause.strayExpression.inSpan span)

def command (depth : Nat) (span : Span) (word : CommandWord) : Cursor Stmt := do
  let _ ← next ts
  match word with
  | .exit => return .command span .exit
  | .help => return .command span .help
  | .about => return .command span .about
  | .debug => return .command span (.debug (← expression ts depth))

/-- Statements without a block, by the token in front. -/
def simple (depth : Nat) (span : Span) : Token → Cursor Stmt
  | .word .lbl => do
    let _ ← next ts
    return .label span (← labelName ts)
  | .word .goto => do
    let _ ← next ts
    return .goto span (← labelName ts)
  | .word .disp => do
    let _ ← next ts
    return .disp span (← expressions ts depth)
  | .word .pause => do
    let _ ← next ts
    return .pause span (← expression ts depth)
  | .word .dispGraph => do
    let _ ← next ts
    return .dispGraph span (← shade ts)
  | .word .horizontal => shift ts span .shiftRight .shiftLeft
  | .word .vertical => shift ts span .shiftDown .shiftUp
  | .word w =>
    match Parser.graphic? w with
    | some graphic => drawing ts depth span graphic
    | none => effect ts depth span
  | .command word => command ts depth span word
  | _ => effect ts depth span

def forHead (depth : Nat) : Cursor Loop := do
  let _ ← next ts
  expect ts .leftParen
  let span ← here ts
  let first ← expression ts depth
  let kind ←
    if ← eat ts .comma then do
      let target ← intoTarget first span
      let start ← expression ts depth
      expect ts .comma
      let last ← expression ts depth
      pure (.count target start last)
    else
      pure (.times first)
  expect ts .rightParen
  return kind

/-- What a block ends with, and where that is. -/
inductive Terminator
  | inputEnd (span : Span)
  | endWord (span : Span)
  | elseWord (span : Span)

def endOfStatement : Cursor Unit := do
  let span ← here ts
  let token ← peek ts
  if token.isSeparator ∨ token = .eof then
    return ()
  else
    throw ((Cause.expected .endOfStatement token).inSpan span)

mutual

def statement : Nat → Cursor Stmt
  | 0 => tooDeep
  | depth + 1 => do
    let span ← here ts
    match ← peek ts with
    | .word .ifWord =>
      let _ ← next ts
      let condition ← expression ts depth
      let _ ← eat ts (.word .thenWord)
      let (yes, terminator) ← block depth #[]
      match terminator with
      | .endWord _ => return .cond span condition yes []
      | .elseWord _ => return .cond span condition yes (← body depth)
      | .inputEnd place => throw (Cause.missingEnd.inSpan place)
    | .word .whileWord =>
      let _ ← next ts
      let condition ← expression ts depth
      return .loop span (.whileTrue condition) (← body depth)
    | .word .repeatWord =>
      let _ ← next ts
      let condition ← expression ts depth
      return .loop span (.repeatUntil condition) (← body depth)
    | .word .forWord =>
      let head ← forHead ts depth
      return .loop span head (← body depth)
    | token => simple ts depth span token

def block : Nat → Array Stmt → Cursor (List Stmt × Terminator)
  | 0, _ => tooDeep
  | depth + 1, done => do
    let span ← here ts
    match ← peek ts with
    | .newline | .colon =>
      let _ ← next ts
      block depth done
    | .eof => return (done.toList, .inputEnd span)
    | .word .endWord =>
      let _ ← next ts
      return (done.toList, .endWord span)
    | .word .elseWord =>
      let _ ← next ts
      return (done.toList, .elseWord span)
    | _ =>
      let s ← statement depth
      endOfStatement ts
      block depth (done.push s)

def body : Nat → Cursor (List Stmt)
  | 0 => tooDeep
  | depth + 1 => do
    let (ss, terminator) ← block depth #[]
    match terminator with
    | .endWord _ => return ss
    | .inputEnd span => throw (Cause.missingEnd.inSpan span)
    | .elseWord span => throw (Cause.elseWithoutIf.inSpan span)

end

/-- What a program amounts to that ends so. -/
def Terminator.program (ss : List Stmt) : Terminator → Except Diagnostic (List Stmt)
  | .inputEnd _ => .ok ss
  | .endWord span => .error (Cause.endWithoutBlock.inSpan span)
  | .elseWord span => .error (Cause.elseWithoutIf.inSpan span)

/-- The tree that a cursor finds from the front on. -/
def parse (depth : Nat) (ts : List Lexeme) : Option (Except Diagnostic (List Stmt)) :=
  (block ts depth #[] 0).run.map fun outcome => do
    let ((ss, terminator), _) ← outcome
    terminator.program ss

/-! ## What is left to read -/

/-- Where the input ends for a cursor at this place. -/
def inputEndFrom (ts : List Lexeme) (pos : Nat) : Span :=
  match (ts.drop pos).find? (·.token = .eof) with
  | some t => t.span
  | none => (ts.getLast?.map Lexeme.span).getD {}

/-- From this place on these lexemes count, up to the end of the input at `stop`. -/
structure Stands (ts : List Lexeme) (stop : Span) (pos : Nat) (rest : List Lexeme) : Prop where
  within : pos ≤ ts.length
  left : significant (ts.drop pos) = rest
  ends : inputEndFrom ts pos = stop

/-- The token in front. -/
def first : List Lexeme → Token
  | [] => .eof
  | t :: _ => t.token

def firstSpan (stop : Span) : List Lexeme → Span
  | [] => stop
  | t :: _ => t.span

variable {ts rest : List Lexeme} {stop : Span} {pos : Nat}

theorem drop_skip (ts : List Lexeme) (pos : Nat) :
    ts.drop (skip ts pos) = (ts.drop pos).dropWhile Lexeme.isTrivia := by
  unfold skip
  rw [← List.drop_drop]
  generalize ts.drop pos = us
  calc us.drop (us.takeWhile Lexeme.isTrivia).length
      = (us.takeWhile Lexeme.isTrivia ++ us.dropWhile Lexeme.isTrivia).drop
          (us.takeWhile Lexeme.isTrivia).length := by rw [List.takeWhile_append_dropWhile]
    _ = us.dropWhile Lexeme.isTrivia := List.drop_left

theorem Stands.skip (h : Stands ts stop pos rest) : Stands ts stop (skip ts pos) rest := by
  obtain ⟨hwithin, hleft, hends⟩ := h
  have hsplit : (ts.drop pos).takeWhile Lexeme.isTrivia ++ ts.drop (Cursor.skip ts pos) =
      ts.drop pos := by rw [drop_skip, List.takeWhile_append_dropWhile]
  have hpos : Cursor.skip ts pos = pos + ((ts.drop pos).takeWhile Lexeme.isTrivia).length := rfl
  have htrivia : ∀ t ∈ (ts.drop pos).takeWhile Lexeme.isTrivia, t.isTrivia :=
    fun t => List.mem_takeWhile_imp
  generalize (ts.drop pos).takeWhile Lexeme.isTrivia = us at *
  have hne : ∀ t ∈ us, t.token ≠ .eof := by
    intro t ht heof
    have := htrivia t ht
    simp [Lexeme.isTrivia, heof, Token.isTrivia] at this
  refine ⟨?_, ?_, ?_⟩
  · have hlength := congrArg List.length hsplit
    simp at hlength
    omega
  · have hnone : significant us = [] := by
      unfold significant
      rw [List.filter_eq_nil_iff]
      intro t ht
      simp [show t.token.isTrivia from htrivia t ((List.takeWhile_subset _) ht)]
    rw [← hleft, ← hsplit, significant_append hne, hnone, List.nil_append]
  · have hnone : us.find? (·.token = .eof) = none := by simpa using hne
    rw [← hends]
    unfold inputEndFrom
    rw [← hsplit, List.find?_append, hnone, Option.none_or]

/-- What a cursor that is not in front of trivia finds. -/
inductive Front (ts : List Lexeme) (stop : Span) (pos : Nat) : List Lexeme → Prop
  | nothing (h : ts[pos]? = none) (hend : (ts.getLast?.map Lexeme.span).getD {} = stop) :
      Front ts stop pos []
  | eof {t : Lexeme} (h : ts[pos]? = some t) (ht : t.token = .eof) (hspan : t.span = stop) :
      Front ts stop pos []
  | lexeme {t : Lexeme} {rest : List Lexeme} (h : ts[pos]? = some t)
      (hrest : Stands ts stop (pos + 1) rest) : Front ts stop pos (t :: rest)

theorem Stands.front (h : Stands ts stop pos rest) : Front ts stop (Cursor.skip ts pos) rest := by
  obtain ⟨hwithin, hleft, hends⟩ := h.skip
  have hnot := List.head?_dropWhile_not Lexeme.isTrivia (ts.drop pos)
  rw [← drop_skip] at hnot
  generalize Cursor.skip ts pos = pos at *
  have hhead : (ts.drop pos).head? = ts[pos]? := List.head?_drop
  have htail : ts.drop (pos + 1) = (ts.drop pos).tail := by simp
  unfold inputEndFrom at hends
  cases hdrop : ts.drop pos with
  | nil =>
    rw [hdrop] at hhead hleft hends
    obtain rfl : [] = rest := hleft
    exact .nothing hhead.symm hends
  | cons t us =>
    rw [hdrop] at hhead hleft hends hnot htail
    by_cases ht : t.token = .eof
    · obtain rfl : [] = rest := by simpa [significant, ht] using hleft
      simp [ht] at hends
      exact .eof hhead.symm ht hends
    · have hlength := congrArg List.length hdrop
      obtain rfl : t :: significant us = rest := by
        simpa [significant, ht, show t.token.isTrivia = false from hnot] using hleft
      refine .lexeme hhead.symm ⟨by simp at hlength; omega, by rw [htail]; rfl, ?_⟩
      rw [← hends, inputEndFrom, htail]
      simp [ht]

/-! ### Looking at the next lexeme -/

theorem peek_apply (ts : List Lexeme) (pos : Nat) :
    peek ts pos = pure ((ts[skip ts pos]?.map Lexeme.token).getD .eof, skip ts pos) := rfl

theorem here_apply (ts : List Lexeme) (pos : Nat) :
    here ts pos = pure ((ts[skip ts pos]?.or ts.getLast?).elim {} Lexeme.span, skip ts pos) := rfl

theorem next_apply (ts : List Lexeme) (pos : Nat) :
    next ts pos = pure ((ts[skip ts pos]?.map Lexeme.token).getD .eof,
      if skip ts pos < ts.length then skip ts pos + 1 else skip ts pos) := rfl

theorem Stands.peek_eq (h : Stands ts stop pos rest) :
    peek ts pos = pure (first rest, Cursor.skip ts pos) := by
  rw [peek_apply]
  cases h.front with
  | nothing hat => rw [hat]; rfl
  | eof hat ht => rw [hat, Option.map_some, ht]; rfl
  | lexeme hat => rw [hat]; rfl

theorem Stands.here_eq (h : Stands ts stop pos rest) :
    here ts pos = pure (firstSpan stop rest, Cursor.skip ts pos) := by
  rw [here_apply]
  cases h.front with
  | nothing hat hend =>
    rw [hat, Option.none_or, ← hend]
    cases ts.getLast? <;> rfl
  | eof hat _ hspan => rw [hat, ← hspan]; rfl
  | lexeme hat => rw [hat]; rfl

theorem Stands.next_eq {t : Lexeme} (h : Stands ts stop pos (t :: rest)) :
    next ts pos = pure (t.token, Cursor.skip ts pos + 1) ∧
      Stands ts stop (Cursor.skip ts pos + 1) rest := by
  rw [next_apply]
  cases h.front with
  | lexeme hat hrest =>
    obtain ⟨hlt, -⟩ := List.getElem?_eq_some_iff.1 hat
    rw [hat, if_pos hlt]
    exact ⟨rfl, hrest⟩

theorem Stands.next_eof (h : Stands ts stop pos []) : ∃ pos', next ts pos = pure (.eof, pos') := by
  rw [next_apply]
  cases h.front with
  | nothing hat => exact ⟨_, by rw [hat]; rfl⟩
  | eof hat ht => exact ⟨_, by rw [hat, Option.map_some, ht]; rfl⟩

end Cursor

end Handheld
