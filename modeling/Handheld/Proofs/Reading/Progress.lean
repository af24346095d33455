import Handheld.Proofs.Reading.Rounds
import Handheld.Proofs.Reading.Walking

/-!
# Reading gets on

A reader that succeeds has moved the cursor on, and a loop goes round once more
only if it has. The cursor never goes back and never beyond the last lexeme. So
there is an end to reading, be it with a tree or with a refusal, and calls are
not nested more deeply than the number of lexemes allows.
-/

namespace Handheld.Cursor

variable {ts : List Lexeme} {pos : Nat}

/-! ## Expressions -/

/-- What the readers of expressions with this limit do to the cursor. -/
structure Progress (ts : List Lexeme) (depth : Nat) : Prop where
  expression : Advances ts (expression ts depth)
  stores : ∀ e, Forward ts (stores ts depth e)
  target : Advances ts (target ts depth)
  operation : ∀ level, Advances ts (operation ts depth level)
  operations : ∀ level lhs, Forward ts (operations ts depth level lhs)
  operand : Advances ts (operand ts depth)
  primary : Advances ts (primary ts depth)

section

variable {depth : Nat} (ih : Progress ts depth)
include ih

theorem Progress.expression_succ : Advances ts (Cursor.expression ts (depth + 1)) := by
  intro pos hpos
  rw [Cursor.expression]
  exact (ih.operation 1 pos hpos).bind fun e p hp hlen => (ih.stores e p hlen).mono hp

theorem Progress.stores_succ (e : Expr) : Forward ts (Cursor.stores ts (depth + 1) e) := by
  rw [stores_unrolls]
  exact (storeRound_turns ih.target e).forward ih.stores

theorem Progress.target_succ : Advances ts (Cursor.target ts (depth + 1)) := by
  intro pos hpos
  refine .here hpos fun span p hp hlen => .next (fun p => .throw) fun token q hq hlen => ?_
  cases token with
  | var => exact .pure ⟨by omega, hlen⟩
  | leftBrace =>
    refine (ih.expression q hlen).bind fun address p hp hlen => ?_
    refine (expect_advances (by decide) p hlen).bind fun _ p hp hlen => ?_
    exact (width_forward p hlen).bind fun w p hp hlen => .pure ⟨by omega, hlen⟩
  | _ => exact .throw

theorem Progress.operation_succ (level : Nat) :
    Advances ts (Cursor.operation ts (depth + 1) level) := by
  intro pos hpos
  rw [Cursor.operation]
  exact (ih.operand pos hpos).bind fun e p hp hlen => (ih.operations level e p hlen).mono hp

theorem Progress.operations_succ (level : Nat) (lhs : Expr) :
    Forward ts (Cursor.operations ts (depth + 1) level lhs) := by
  rw [operations_unrolls]
  exact (operationRound_turns ih.operation level lhs).forward (ih.operations level)

theorem Progress.operand_succ : Advances ts (Cursor.operand ts (depth + 1)) := by
  intro pos hpos
  rw [Cursor.operand]
  refine .eat (by decide) hpos (fun p hp hlen => ?_) fun p hp hlen => ?_
  · refine (ih.primary p hlen).bind fun e p hp hlen => ?_
    exact (suffixes_forward depth e p hlen).mono (by omega)
  · exact (ih.operand p hlen).bind fun e p hp hlen => .pure ⟨by omega, hlen⟩

theorem Progress.primary_succ : Advances ts (Cursor.primary ts (depth + 1)) := by
  intro pos hpos
  refine .here hpos fun span p hp hlen => .next (fun p => .throw) fun token q hq hlen => ?_
  cases token with
  | number | var | buffer => exact .pure ⟨by omega, hlen⟩
  | leftParen =>
    refine (ih.expression q hlen).bind fun e p hp hlen => ?_
    exact (expect_advances (by decide) p hlen).bind fun _ p hp hlen => .pure ⟨by omega, hlen⟩
  | leftBrace =>
    refine (ih.expression q hlen).bind fun address p hp hlen => ?_
    refine (expect_advances (by decide) p hlen).bind fun _ p hp hlen => ?_
    exact (width_forward p hlen).bind fun w p hp hlen => .pure ⟨by omega, hlen⟩
  | modifier m =>
    cases m with
    | addressOf => exact (ih.target q hlen).bind fun t p hp hlen => .pure ⟨by omega, hlen⟩
    | _ => exact .throw
  | word w =>
    cases w with
    | rand => exact .pure ⟨by omega, hlen⟩
    | getKey =>
      refine (expect_advances (by decide) q hlen).bind fun _ p hp hlen => ?_
      refine (ih.expression p hlen).bind fun code p hp hlen => ?_
      exact (expect_advances (by decide) p hlen).bind fun _ p hp hlen => .pure ⟨by omega, hlen⟩
    | pxlTest =>
      refine (expect_advances (by decide) q hlen).bind fun _ p hp hlen => ?_
      refine (ih.expression p hlen).bind fun x p hp hlen => ?_
      refine (expect_advances (by decide) p hlen).bind fun _ p hp hlen => ?_
      refine (ih.expression p hlen).bind fun y p hp hlen => ?_
      refine (expect_advances (by decide) p hlen).bind fun _ p hp hlen => ?_
      exact (surface_forward p hlen).bind fun s p hp hlen => .pure ⟨by omega, hlen⟩
    | _ => exact .throw
  | _ => exact .throw

end

theorem progress (ts : List Lexeme) (depth : Nat) : Progress ts depth := by
  induction depth with
  | zero => constructor <;> intros <;> exact fun _ _ => .tooDeep
  | succ depth ih =>
    exact ⟨ih.expression_succ, ih.stores_succ, ih.target_succ, ih.operation_succ, ih.operations_succ,
      ih.operand_succ, ih.primary_succ⟩

theorem expression_advances (depth : Nat) : Advances ts (expression ts depth) :=
  (progress ts depth).expression

theorem arguments_repeats : Repeats ts (argumentRound ts) (arguments ts) where
  unrolls _ := arguments_unrolls
  turns depth := argumentRound_turns (expression_advances depth)

theorem arguments_forward (depth : Nat) (done : List Expr) : Forward ts (arguments ts depth done) :=
  arguments_repeats.forward (fun _ _ _ => .tooDeep) depth done

theorem expressions_advances (depth : Nat) : Advances ts (expressions ts depth) := by
  intro pos hpos
  rw [expressions_eq]
  exact (expression_advances depth pos hpos).bind fun e p hp hlen =>
    (arguments_forward depth [e] p hlen).mono hp

/-! ## Statements -/

section

variable (depth : Nat) (span : Span)

theorem drawing_reaches (graphic : Graphic) (hpos : pos < ts.length) :
    Reaches ts (drawing ts depth span graphic) pos (pos + 1) := by
  unfold drawing
  refine (next_reaches hpos).bind fun _ p hp hlen => ?_
  have hend (arguments : List Expr) {p : Nat} (hp : pos < p) (hlen : p ≤ ts.length) :
      Reaches ts (if arguments.length = graphic.arity then
        surface ts >>= fun s => pure (Stmt.draw span graphic s arguments)
        else throw (Cause.wrongArgumentCount.inSpan span)) p (pos + 1) := by
    split
    · exact (surface_forward p hlen).bind fun s p hp hlen => .pure ⟨by omega, hlen⟩
    · exact .throw
  split
  · refine (expect_advances (by decide) p hlen).bind fun _ p hp hlen => ?_
    refine (expressions_advances depth p hlen).bind fun arguments p hp hlen => ?_
    refine (expect_advances (by decide) p hlen).bind fun _ p hp hlen => ?_
    exact hend arguments (by omega) hlen
  · exact hend [] hp hlen

theorem shift_reaches (plus minus : Graphic) (hpos : pos < ts.length) :
    Reaches ts (shift ts span plus minus) pos (pos + 1) := by
  unfold shift
  refine (next_reaches hpos).bind fun _ p hp hlen => ?_
  refine .here hlen fun place p hp hlen => .next (fun p => .throw) fun token p hp hlen => ?_
  cases token with
  | operator op =>
    cases op with
    | plus | minus => exact (surface_forward p hlen).bind fun s p hp hlen => .pure ⟨by omega, hlen⟩
    | _ => exact .throw
  | _ => exact .throw

theorem effect_advances : Advances ts (effect ts depth span) := by
  intro pos hpos
  refine (expression_advances depth pos hpos).bind fun e p hp hlen => ?_
  split
  · exact .pure ⟨hp, hlen⟩
  · exact .throw

theorem command_reaches (word : CommandWord) (hpos : pos < ts.length) :
    Reaches ts (command ts depth span word) pos (pos + 1) := by
  unfold command
  refine (next_reaches hpos).bind fun _ p hp hlen => ?_
  cases word with
  | exit | help | about => exact .pure ⟨hp, hlen⟩
  | debug => exact (expression_advances depth p hlen).bind fun e p hp hlen => .pure ⟨by omega, hlen⟩

theorem simple_reaches (token : Token) (hpos : pos < ts.length) :
    Reaches ts (simple ts depth span token) pos (pos + 1) := by
  cases token with
  | word w =>
    cases w with
    | lbl | goto =>
      refine (next_reaches hpos).bind fun _ p hp hlen => ?_
      exact (labelName_advances p hlen).bind fun name p hp hlen => .pure ⟨by omega, hlen⟩
    | disp =>
      refine (next_reaches hpos).bind fun _ p hp hlen => ?_
      exact (expressions_advances depth p hlen).bind fun es p hp hlen => .pure ⟨by omega, hlen⟩
    | pause =>
      refine (next_reaches hpos).bind fun _ p hp hlen => ?_
      exact (expression_advances depth p hlen).bind fun e p hp hlen => .pure ⟨by omega, hlen⟩
    | dispGraph =>
      refine (next_reaches hpos).bind fun _ p hp hlen => ?_
      exact (shade_forward p hlen).bind fun s p hp hlen => .pure ⟨by omega, hlen⟩
    | horizontal | vertical => exact shift_reaches span _ _ hpos
    | pxlOn | pxlOff | pxlChange | line | rect | rectI | circle | clrDraw =>
      exact drawing_reaches depth span _ hpos
    | _ => exact effect_advances depth span pos hpos.le
  | command word => exact command_reaches depth span word hpos
  | _ => exact effect_advances depth span pos hpos.le

theorem forHead_reaches (hpos : pos < ts.length) : Reaches ts (forHead ts depth) pos (pos + 1) := by
  unfold forHead
  refine (next_reaches hpos).bind fun _ p hp hlen => ?_
  refine (expect_advances (by decide) p hlen).bind fun _ p hp hlen => ?_
  refine .here hlen fun place p hp hlen => ?_
  refine (expression_advances depth p hlen).bind fun first p hp hlen => ?_
  refine (eat_forward (by decide) p hlen).bind fun more p hp hlen => ?_
  have hend (kind : Loop) {p : Nat} (hp : pos < p) (hlen : p ≤ ts.length) :
      Reaches ts (expect ts .rightParen >>= fun _ => pure kind) p (pos + 1) :=
    (expect_advances (by decide) p hlen).bind fun _ p hp hlen => .pure ⟨by omega, hlen⟩
  split
  · refine (intoTarget_forward first place p hlen).bind fun target p hp hlen => ?_
    refine (expression_advances depth p hlen).bind fun start p hp hlen => ?_
    refine (expect_advances (by decide) p hlen).bind fun _ p hp hlen => ?_
    refine (expression_advances depth p hlen).bind fun last p hp hlen => ?_
    exact hend (.count target start last) (by omega) hlen
  · exact hend (.times first) (by omega) hlen

end

structure BlockProgress (ts : List Lexeme) (depth : Nat) : Prop where
  statement : Advances ts (statement ts depth)
  block : ∀ done, Forward ts (block ts depth done)
  body : Forward ts (body ts depth)

section

variable {depth : Nat} (ih : BlockProgress ts depth)
include ih

theorem BlockProgress.body_succ : Forward ts (Cursor.body ts (depth + 1)) := by
  intro pos hpos
  rw [Cursor.body]
  refine (ih.block _ pos hpos).bind fun v p hp hlen => ?_
  obtain ⟨ss, terminator⟩ := v
  cases terminator with
  | endWord => exact .pure ⟨hp, hlen⟩
  | inputEnd | elseWord => exact .throw

theorem BlockProgress.block_succ (done : Array Stmt) :
    Forward ts (Cursor.block ts (depth + 1) done) := by
  rw [block_unrolls]
  exact (blockRound_turns ih.statement done).forward ih.block

theorem BlockProgress.statement_succ : Advances ts (Cursor.statement ts (depth + 1)) := by
  intro pos hpos
  rw [Cursor.statement]
  refine .here hpos fun span p hp hlen => .peek hlen (fun q hq hlen => ?_) fun token q hq hlen => ?_
  · exact (effect_advances depth span q hlen).mono (by omega)
  · have hsimple : Reaches ts (simple ts depth span token) q (pos + 1) :=
      (simple_reaches depth span token hlen).mono (by omega)
    cases token with
    | word w =>
      cases w with
      | ifWord =>
        refine (next_reaches hlen).bind fun _ p hp hlen => ?_
        refine (expression_advances depth p hlen).bind fun condition p hp hlen => ?_
        refine (eat_forward (by decide) p hlen).bind fun _ p hp hlen => ?_
        refine (ih.block _ p hlen).bind fun v p hp hlen => ?_
        obtain ⟨yes, terminator⟩ := v
        cases terminator with
        | endWord => exact .pure ⟨by omega, hlen⟩
        | elseWord => exact (ih.body p hlen).bind fun no p hp hlen => .pure ⟨by omega, hlen⟩
        | inputEnd => exact .throw
      | whileWord | repeatWord =>
        refine (next_reaches hlen).bind fun _ p hp hlen => ?_
        refine (expression_advances depth p hlen).bind fun condition p hp hlen => ?_
        exact (ih.body p hlen).bind fun ss p hp hlen => .pure ⟨by omega, hlen⟩
      | forWord =>
        refine (forHead_reaches depth hlen).bind fun head p hp hlen => ?_
        exact (ih.body p hlen).bind fun ss p hp hlen => .pure ⟨by omega, hlen⟩
      | _ => exact hsimple
    | _ => exact hsimple

end

theorem blockProgress (ts : List Lexeme) (depth : Nat) : BlockProgress ts depth := by
  induction depth with
  | zero => constructor <;> intros <;> exact fun _ _ => .tooDeep
  | succ depth ih => exact ⟨ih.statement_succ, ih.block_succ, ih.body_succ⟩

/-! ## Loops -/

theorem stores_repeats : Repeats ts (storeRound ts) (stores ts) where
  unrolls _ := stores_unrolls
  turns depth := storeRound_turns (progress ts depth).target

theorem operations_repeats (level : Nat) :
    Repeats ts (operationRound ts level) fun depth => operations ts depth level where
  unrolls _ := operations_unrolls level
  turns depth := operationRound_turns (progress ts depth).operation level

theorem block_repeats : Repeats ts (blockRound ts) (block ts) where
  unrolls _ := block_unrolls
  turns depth := blockRound_turns (blockProgress ts depth).statement

/-! ## Outcomes -/

/-- From this place, the readers with this limit find what those of the parser find in the lexemes
that are left. So each of them comes to a value or to a refusal. -/
structure Answers (ts : List Lexeme) (stop : Span) (depth pos : Nat) (rest : List Lexeme) : Prop where
  expression : Agrees ts stop id (Parser.expression stop rest) (expression ts depth pos)
  operation : ∀ level,
    Agrees ts stop id (Parser.operation stop level rest) (operation ts depth level pos)
  operand : Agrees ts stop id (Parser.operand stop rest) (operand ts depth pos)
  primary : Agrees ts stop id (Parser.primary stop rest) (primary ts depth pos)
  target : Agrees ts stop id (Parser.target stop rest) (target ts depth pos)
  labelName : Agrees ts stop id (Parser.labelName stop rest) (labelName ts pos)
  statement : Agrees ts stop id (Parser.statement stop rest) (statement ts depth pos)
  block : ∀ done, Agrees ts stop (Prod.map id (terminator stop))
    (Parser.block stop (rest.length + 1) done rest (Nat.lt_succ_self _)) (block ts depth done pos)
  body : Agrees ts stop id (Parser.body stop rest) (body ts depth pos)

theorem answers {pos depth : Nat} (hpos : pos ≤ ts.length)
    (hdepth : 16 * (ts.length - pos) + 8 < depth) :
    Answers ts (inputEndFrom ts pos) depth pos (significant (ts.drop pos)) := by
  have hlength := length_significant_le (ts.drop pos)
  rw [List.length_drop] at hlength
  have hstands : Stands ts (inputEndFrom ts pos) pos (significant (ts.drop pos)) := ⟨hpos, rfl, rfl⟩
  have hmirrors := mirrors ts (inputEndFrom ts pos) depth
  have hblocks := mirrorsBlocks ts (inputEndFrom ts pos) depth
  exact {
    expression := hmirrors.expression hstands (by omega)
    operation := fun level => hmirrors.operation level hstands (by omega)
    operand := hmirrors.operand hstands (by omega)
    primary := hmirrors.primary hstands (by omega)
    target := hmirrors.target hstands (by omega)
    labelName := labelName_agrees hstands
    statement := hblocks.statement hstands (by omega)
    block := fun done => hblocks.block _ done (Nat.lt_succ_self _) hstands (by omega)
    body := hblocks.body hstands (by omega) }

/-- Wherever a cursor stands among any lexemes: statements, expressions and their parts, and names of
labels are read only by moving it on, and blocks do not move it back. In each of the five loops, a
round that goes on has moved it on. So every reader has an outcome, which is that of the parser. A
limit to how deep calls are nested is never met if it is sixteen for each lexeme left and nine more.
For a whole program, sixteen times the number of lexemes and one is enough. -/
theorem reading_progresses (ts : List Lexeme) :
    (∀ depth, Progress ts depth ∧ BlockProgress ts depth) ∧ Advances ts (labelName ts) ∧
    (Repeats ts (blockRound ts) (block ts) ∧ Repeats ts (storeRound ts) (stores ts) ∧
      (∀ level, Repeats ts (operationRound ts level) fun depth => operations ts depth level) ∧
      Repeats ts (fun _ => suffixRound ts) (suffixes ts) ∧
      Repeats ts (argumentRound ts) (arguments ts) ∧
      ∀ depth, expressions ts depth = expression ts depth >>= fun e => arguments ts depth [e]) ∧
    (∀ pos ≤ ts.length, ∀ depth, 16 * (ts.length - pos) + 8 < depth →
      Answers ts (inputEndFrom ts pos) depth pos (significant (ts.drop pos))) ∧
    ∀ depth, 16 * (ts.length + 1) ≤ depth → Cursor.parse depth ts = some (Handheld.parse ts) :=
  ⟨fun depth => ⟨progress ts depth, blockProgress ts depth⟩, labelName_advances,
    ⟨block_repeats, stores_repeats, operations_repeats, suffixes_repeats, arguments_repeats,
      expressions_eq⟩,
    fun _ hpos _ hdepth => answers hpos hdepth, fun _ hdepth => parse_eq ts (by omega)⟩

theorem reading_progresses_cutOff :
    let ts : List Lexeme := [⟨⟨1, 0, 2⟩, .word .ifWord⟩, ⟨⟨1, 2, 3⟩, .whitespace 1⟩,
      ⟨⟨1, 3, 4⟩, .var 'A'⟩]
    Cursor.parse 64 ts = some (.error (Cause.missingEnd.inSpan ⟨1, 3, 4⟩)) ∧
      (∀ depth v pos', expression ts depth 1 = pure (v, pos') → 1 < pos' ∧ pos' ≤ 3) ∧
      Agrees ts ⟨1, 3, 4⟩ id (Parser.expression ⟨1, 3, 4⟩ [⟨⟨1, 3, 4⟩, .var 'A'⟩])
        (expression ts 41 1) := by
  intro ts
  obtain ⟨hprogress, -, -, hanswers, hparse⟩ := reading_progresses ts
  refine ⟨?_, fun depth v pos' h => (hprogress depth).1.expression 1 (by decide) v pos' h,
    (hanswers 1 (by decide) 41 (by decide)).expression⟩
  rw [hparse 64 (by decide)]
  cbv

end Handheld.Cursor
