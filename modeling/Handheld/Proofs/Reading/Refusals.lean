import Handheld.Proofs.Reading.Joining

/-!
# Where a text is refused

A refusal names a place of the text, with a line that the text has. The lexer
refuses a character where it stands. The parser refuses a lexeme or the end of
the input, and it knows no places but those it was given: whatever holds of them
holds of the place it `Points` at.
-/

namespace Handheld

/-- The line is one of the first `n`. -/
def Span.InLines (n : Nat) (s : Span) : Prop := 1 ≤ s.line ∧ s.line ≤ n

/-- The diagnostic has a line and columns, and `P` holds of its place. -/
def Diagnostic.At (P : Span → Prop) (d : Diagnostic) : Prop :=
  ∃ cause span, P span ∧ d = Cause.inSpan cause span

theorem Cause.at_inSpan {P : Span → Prop} {span : Span} (h : P span) (cause : Cause) :
    (cause.inSpan span).At P := ⟨cause, span, h, rfl⟩

/-! ## Lexing -/

theorem Position.line_le_advance (p : Position) (cs : List Char) :
    p.line ≤ (p.advance cs).line := by
  induction cs generalizing p with
  | nil => exact Nat.le_refl _
  | cons c cs ih =>
    have hstep : p.line ≤ (p.step c).line := by
      unfold step
      split
      · exact Nat.le_succ _
      · exact Nat.le_refl _
    exact Nat.le_trans hstep (ih (p.step c))

theorem lexFrom_inLines {n : Nat} (p : Position) (done : Array Lexeme) (cs : List Char)
    (hp : 1 ≤ p.line) (hn : (p.advance cs).line ≤ n)
    (hdone : ∀ t ∈ done, t.span.InLines n) :
    (∀ ts, lexFrom p done cs = .ok ts → ∀ t ∈ ts, t.span.InLines n) ∧
      ∀ e, lexFrom p done cs = .error e → e.At (Span.InLines n) := by
  fun_induction lexFrom p done cs with
  | case1 p done =>
    refine ⟨?_, fun e he => ?_⟩
    · rintro _ ⟨⟩ t ht
      rcases Array.mem_push.1 ht with ht | rfl
      · exact hdone t ht
      · exact ⟨hp, hn⟩
    · cases he
  | case2 p done c cs cause width hscan =>
    refine ⟨fun ts hts => ?_, ?_⟩
    · cases hts
    · rintro _ ⟨⟩
      exact Cause.at_inSpan ⟨hp, Nat.le_trans (p.line_le_advance (c :: cs)) hn⟩ cause
  | case3 p done c cs token k hscan ih =>
    have hsplit : p.advance (c :: cs) = (p.advance (c :: cs.take k)).advance (cs.drop k) := by
      rw [← Position.advance_append, List.cons_append, List.take_append_drop]
    rw [hsplit] at hn
    have hhere : (p.span (k + 1)).InLines n :=
      ⟨hp, Nat.le_trans (p.line_le_advance _) (Nat.le_trans (Position.line_le_advance _ _) hn)⟩
    refine ih (Nat.le_trans hp (p.line_le_advance _)) hn fun t ht => ?_
    rcases Array.mem_push.1 ht with ht | rfl
    · exact hdone t ht
    · exact hhere

theorem advance_source (source : String) :
    (Position.advance {} source.toList).line ≤ linesAbove source := by
  rw [Position.advance_eq_behind, Position.behind, linesAbove, Nat.add_comm]

theorem lexemes_inLines {source : String} {ts : List Lexeme} (h : lexemes source = .ok ts) :
    ∀ t ∈ ts, t.span.InLines (linesAbove source) := by
  obtain ⟨done, hdone, rfl⟩ := lexemes_eq_ok.1 h
  have hlines := (lexFrom_inLines {} #[] source.toList (Nat.le_refl 1) (advance_source source)
    (by simp)).1 done hdone
  exact fun t ht => hlines t (Array.mem_toList_iff.1 ht)

theorem lexemes_error_at {source : String} {e : Diagnostic} (h : lexemes source = .error e) :
    e.At (Span.InLines (linesAbove source)) := by
  refine (lexFrom_inLines {} #[] source.toList (Nat.le_refl 1) (advance_source source)
    (by simp)).2 e ?_
  unfold lexemes at h
  cases hlex : lexFrom {} #[] source.toList with
  | error e' =>
    rw [hlex] at h
    cases h
    rfl
  | ok done =>
    rw [hlex] at h
    cases h

namespace Parser

/-! ## Readers -/

/-- All lexemes stand at places where `P` holds. -/
def Stand (P : Span → Prop) (ts : List Lexeme) : Prop := ∀ t ∈ ts, P t.span

/-- What a reader comes to. A refusal is at a place where `P` holds, and so are the lexemes that are
left. Of what was read, `V` holds. -/
inductive Points (P : Span → Prop) {α : Type} (V : α → Prop) {n : Nat} :
    Except Diagnostic (Parsed α n) → Prop
  | error {e : Diagnostic} (h : e.At P) : Points P V (.error e)
  | ok {r : Parsed α n} (hvalue : V r.value) (hrest : Stand P r.rest) : Points P V (.ok r)

/-- Nothing is said of what was read. -/
abbrev Points.Only (P : Span → Prop) {α : Type} {n : Nat} (x : Except Diagnostic (Parsed α n)) :
    Prop :=
  Points P (fun _ => True) x

variable {P : Span → Prop} {stop : Span} {ts : List Lexeme}

theorem Points.bind {α β : Type} {V : α → Prop} {W : β → Prop} {m n : Nat}
    {x : Except Diagnostic (Parsed α m)} {f : Parsed α m → Except Diagnostic (Parsed β n)}
    (h : Points P V x) (hf : ∀ r, V r.value → Stand P r.rest → Points P W (f r)) :
    Points P W (x >>= f) := by
  cases h with
  | error h => exact .error h
  | ok hvalue hrest => exact hf _ hvalue hrest

theorem Stand.tail {t : Lexeme} (h : Stand P (t :: ts)) : Stand P ts :=
  fun u hu => h u (List.mem_cons_of_mem t hu)

theorem Stand.head {t : Lexeme} (h : Stand P (t :: ts)) : P t.span := h t List.mem_cons_self

section

variable (hstop : P stop)
include hstop

theorem refuse_at (cause : Token → Cause) (hts : Stand P ts) : (refuse cause stop ts).At P := by
  cases ts with
  | nil => exact Cause.at_inSpan hstop _
  | cons t ts => exact Cause.at_inSpan hts.head _

theorem expect_points (token : Token) (hts : Stand P ts) :
    Points.Only P (expect stop token ts) := by
  cases ts with
  | nil => exact .error (refuse_at hstop _ hts)
  | cons t ts =>
    rw [expect]
    split
    · exact .ok trivial hts.tail
    · exact .error (refuse_at hstop _ hts)

theorem labelName_points (hts : Stand P ts) : Points.Only P (labelName stop ts) := by
  unfold labelName
  split
  · exact .ok trivial hts.tail
  · exact .ok trivial hts.tail
  · exact .ok trivial hts.tail
  · exact .error (refuse_at hstop _ hts)

end

theorem accept_stand (token : Token) (hts : Stand P ts) : Stand P (accept token ts).rest := by
  cases ts with
  | nil => exact hts
  | cons t ts =>
    rw [accept]
    split
    · exact hts.tail
    · exact hts

theorem width_stand (hts : Stand P ts) : Stand P (width ts).rest :=
  accept_stand (.modifier .r) hts

theorem surface_stand (hts : Stand P ts) : Stand P (surface ts).rest :=
  accept_stand (.modifier .r) hts

theorem shade_stand (hts : Stand P ts) : Stand P (shade ts).rest := by
  unfold shade
  dsimp only
  split
  · exact accept_stand _ (accept_stand _ hts)
  · exact accept_stand _ hts

/-! ## Expressions -/

theorem suffixes_points (e : Expr) (hts : Stand P ts) : Points.Only P (suffixes e ts) := by
  induction e, ts using suffixes.induct with
  | case1 e span ts ih =>
    rw [suffixes]
    exact (ih hts.tail).bind fun r _ hr => .ok trivial hr
  | case2 e span ts target he ih | case4 e span ts target he ih =>
    rw [suffixes]
    simp only [he]
    exact (ih hts.tail).bind fun r _ hr => .ok trivial hr
  | case3 e span ts he | case5 e span ts he =>
    rw [suffixes]
    simp only [toTarget?_eq_none he]
    exact .error (Cause.at_inSpan hts.head _)
  | case6 e ts h₁ h₂ h₃ =>
    rw [suffixes]
    · exact .ok trivial hts
    all_goals assumption

theorem expression_point (hoperation : Stand P ts → Points.Only P (operation stop 1 ts))
    (hstores : ∀ e us, us.length < ts.length → Stand P us → Points.Only P (stores stop e us))
    (hts : Stand P ts) : Points.Only P (expression stop ts) := by
  rw [expression]
  refine (hoperation hts).bind ?_
  rintro ⟨e, rest, h⟩ - hrest
  exact (hstores e rest h hrest).bind fun r _ hr => .ok trivial hr

theorem stores_point {e : Expr}
    (htarget : ∀ us, us.length < ts.length → Stand P us → Points.Only P (target stop us))
    (hstores : ∀ e us, us.length < ts.length → Stand P us → Points.Only P (stores stop e us))
    (hts : Stand P ts) : Points.Only P (stores stop e ts) := by
  rw [stores.eq_def]
  split
  next span us =>
    refine (htarget us (Nat.lt_succ_self _) hts.tail).bind ?_
    rintro ⟨t, rest, h⟩ - hrest
    exact (hstores (.assign e t) rest (Nat.lt_succ_of_lt h) hrest).bind fun r _ hr => .ok trivial hr
  next => exact .ok trivial hts

theorem target_point (hstop : P stop)
    (hexpression : ∀ us, us.length < ts.length → Stand P us → Points.Only P (expression stop us))
    (hts : Stand P ts) : Points.Only P (target stop ts) := by
  rw [target.eq_def]
  split
  next => exact .ok trivial hts.tail
  next span us =>
    refine (hexpression us (Nat.lt_succ_self _) hts.tail).bind ?_
    rintro ⟨e, rest, _⟩ - hrest
    exact (expect_points hstop _ hrest).bind fun r _ hr => .ok trivial (width_stand hr)
  next => exact .error (refuse_at hstop _ hts)

theorem operation_point {level : Nat} (hoperand : Stand P ts → Points.Only P (operand stop ts))
    (hoperations : ∀ lhs us, us.length < ts.length → Stand P us →
      Points.Only P (operations stop level lhs us))
    (hts : Stand P ts) : Points.Only P (operation stop level ts) := by
  rw [operation]
  refine (hoperand hts).bind ?_
  rintro ⟨e, rest, h⟩ - hrest
  exact (hoperations e rest h hrest).bind fun r _ hr => .ok trivial hr

theorem operations_point {level : Nat} {lhs : Expr}
    (hoperation : ∀ level us, us.length < ts.length → Stand P us →
      Points.Only P (operation stop level us))
    (hoperations : ∀ lhs us, us.length < ts.length → Stand P us →
      Points.Only P (operations stop level lhs us))
    (hts : Stand P ts) : Points.Only P (operations stop level lhs ts) := by
  cases hop : operator? level ts with
  | none =>
    rw [operations.eq_def, hop]
    exact .ok trivial hts
  | some op =>
    obtain ⟨-, span, us, rfl⟩ := operator?_eq_some hop
    rw [operations.eq_def, hop]
    refine (hoperation (op.precedence + 1) us (Nat.lt_succ_self _) hts.tail).bind ?_
    rintro ⟨rhs, rest, h⟩ - hrest
    refine (hoperations (.binary op lhs rhs) rest (Nat.lt_succ_of_lt h) hrest).bind ?_
    exact fun r _ hr => .ok trivial hr

theorem operand_point (hprimary : Stand P ts → Points.Only P (primary stop ts))
    (hoperand : ∀ us, us.length < ts.length → Stand P us → Points.Only P (operand stop us))
    (hts : Stand P ts) : Points.Only P (operand stop ts) := by
  rw [operand.eq_def]
  split
  next span us =>
    exact (hoperand us (Nat.lt_succ_self _) hts.tail).bind fun r _ hr => .ok trivial hr
  next =>
    refine (hprimary hts).bind ?_
    rintro ⟨e, rest, _⟩ - hrest
    exact (suffixes_points e hrest).bind fun r _ hr => .ok trivial hr

theorem primary_point (hstop : P stop)
    (hexpression : ∀ us, us.length < ts.length → Stand P us → Points.Only P (expression stop us))
    (htarget : ∀ us, us.length < ts.length → Stand P us → Points.Only P (target stop us))
    (hts : Stand P ts) : Points.Only P (primary stop ts) := by
  rw [primary.eq_def]
  split
  next => exact .ok trivial hts.tail
  next => exact .ok trivial hts.tail
  next => exact .ok trivial hts.tail
  next span us =>
    -- something in parentheses
    refine (hexpression us (Nat.lt_succ_self _) hts.tail).bind ?_
    rintro ⟨e, rest, _⟩ - hrest
    exact (expect_points hstop _ hrest).bind fun r _ hr => .ok trivial hr
  next span us =>
    -- something in braces
    refine (hexpression us (Nat.lt_succ_self _) hts.tail).bind ?_
    rintro ⟨e, rest, _⟩ - hrest
    exact (expect_points hstop _ hrest).bind fun r _ hr => .ok trivial (width_stand hr)
  next span us =>
    -- the address of a target
    exact (htarget us (Nat.lt_succ_self _) hts.tail).bind fun r _ hr => .ok trivial hr
  next => exact .ok trivial hts.tail
  next span us =>
    -- a key code in parentheses
    refine (expect_points hstop _ hts.tail).bind ?_
    rintro ⟨_, rest, h⟩ - hrest
    refine (hexpression rest (Nat.lt_succ_of_lt h) hrest).bind ?_
    rintro ⟨code, rest, _⟩ - hrest
    exact (expect_points hstop _ hrest).bind fun r _ hr => .ok trivial hr
  next span us =>
    -- two expressions with a comma between them
    refine (expect_points hstop _ hts.tail).bind ?_
    rintro ⟨_, rest₁, h₁⟩ - hrest₁
    refine (hexpression rest₁ (Nat.lt_succ_of_lt h₁) hrest₁).bind ?_
    rintro ⟨x, rest₂, h₂⟩ - hrest₂
    refine (expect_points hstop _ hrest₂).bind ?_
    rintro ⟨_, rest₃, h₃⟩ - hrest₃
    have hshorter : rest₃.length < us.length := Nat.lt_trans h₃ (Nat.lt_trans h₂ h₁)
    refine (hexpression rest₃ (Nat.lt_succ_of_lt hshorter) hrest₃).bind ?_
    rintro ⟨y, rest₄, _⟩ - hrest₄
    exact (expect_points hstop _ hrest₄).bind fun r _ hr => .ok trivial (surface_stand hr)
  next =>
    -- no other lexeme begins an operand
    exact .error (refuse_at hstop _ hts)

section

variable (hstop : P stop)
include hstop

theorem expression_points (hts : Stand P ts) : Points.Only P (expression stop ts) :=
  expression_induction (fun _ => expression_point) (fun _ _ => stores_point)
    (fun _ => target_point hstop) (fun _ _ => operation_point) (fun _ _ _ => operations_point)
    (fun _ => operand_point) (fun _ => primary_point hstop) ts hts

theorem moreExpressions_points (hts : Stand P ts) : Points.Only P (moreExpressions stop ts) := by
  induction ts using moreExpressions.induct with
  | case1 span ts ih =>
    rw [moreExpressions]
    refine (expression_points hstop hts.tail).bind ?_
    rintro ⟨e, rest, h⟩ - hrest
    exact (ih rest h hrest).bind fun r _ hr => .ok trivial hr
  | case2 ts hne =>
    rw [moreExpressions]
    · exact .ok trivial hts
    · exact hne

theorem expressions_points (hts : Stand P ts) : Points.Only P (expressions stop ts) := by
  rw [expressions]
  refine (expression_points hstop hts).bind ?_
  rintro ⟨e, rest, _⟩ - hrest
  exact (moreExpressions_points hstop hrest).bind fun r _ hr => .ok trivial hr

/-! ## Simple statements -/

theorem drawing_points {span : Span} (hspan : P span) (graphic : Graphic) (hts : Stand P ts) :
    Points.Only P (drawing stop span graphic ts) := by
  rw [drawing]
  split
  · exact .ok trivial (surface_stand hts)
  · refine (expect_points hstop _ hts).bind ?_
    rintro ⟨_, rest, _⟩ - hrest
    refine (expressions_points hstop hrest).bind ?_
    rintro ⟨arguments, rest, _⟩ - hrest
    refine (expect_points hstop _ hrest).bind ?_
    rintro ⟨_, rest, _⟩ - hrest
    dsimp only
    split
    · exact .error (Cause.at_inSpan hspan _)
    · exact .ok trivial (surface_stand hrest)

theorem shift_points (span : Span) (plus minus : Graphic) (hts : Stand P ts) :
    Points.Only P (shift stop span plus minus ts) := by
  unfold shift
  split
  · exact .ok trivial (surface_stand hts.tail)
  · exact .ok trivial (surface_stand hts.tail)
  · exact .error (refuse_at hstop _ hts)

theorem effect_points {span : Span} (hspan : P span) (hts : Stand P ts) :
    Points.Only P (effect stop span ts) := by
  rw [effect]
  refine (expression_points hstop hts).bind ?_
  rintro ⟨e, rest, _⟩ - hrest
  dsimp only
  split
  · exact .ok trivial hrest
  · exact .error (Cause.at_inSpan hspan _)

theorem command_points (span : Span) (word : CommandWord) (hts : Stand P ts) :
    Points.Only P (command stop span word ts) := by
  cases word with
  | debug => exact (expression_points hstop hts).bind fun r _ hr => .ok trivial hr
  | exit | help | about => exact .ok trivial hts

theorem simple_points (hts : Stand P ts) : Points.Only P (simple stop ts) := by
  cases ts with
  | nil => exact effect_points hstop hstop hts
  | cons t ts =>
    obtain ⟨span, token⟩ := t
    have hspan : P span := hts.head
    cases token with
    | word w =>
      cases w with
      | lbl | goto =>
        exact (labelName_points hstop hts.tail).bind fun r _ hr => .ok trivial hr
      | disp => exact (expressions_points hstop hts.tail).bind fun r _ hr => .ok trivial hr
      | pause => exact (expression_points hstop hts.tail).bind fun r _ hr => .ok trivial hr
      | dispGraph => exact .ok trivial (shade_stand hts.tail)
      | horizontal | vertical => exact shift_points hstop span _ _ hts.tail
      | pxlOn | pxlOff | pxlChange | line | rect | rectI | circle | clrDraw =>
        exact drawing_points hstop hspan _ hts.tail
      | _ => exact effect_points hstop hspan hts
    | command word => exact command_points hstop span word hts.tail
    | _ => exact effect_points hstop hspan hts

/-! ## Blocks -/

theorem forHead_points (hts : Stand P ts) : Points.Only P (forHead stop ts) := by
  rw [forHead]
  refine (expect_points hstop _ hts).bind ?_
  rintro ⟨_, rest₁, _⟩ - hrest₁
  refine (expression_points hstop hrest₁).bind ?_
  rintro ⟨first, rest₂, _⟩ - hrest₂
  have hrest₃ := accept_stand .comma hrest₂
  dsimp only
  split
  · cases first.toTarget? with
    | none =>
      refine .error (Cause.at_inSpan ?_ _)
      cases rest₁ with
      | nil => exact hstop
      | cons t rest₁ => exact hrest₁.head
    | some target =>
      refine (expression_points hstop hrest₃).bind ?_
      rintro ⟨start, rest₄, _⟩ - hrest₄
      refine (expect_points hstop _ hrest₄).bind ?_
      rintro ⟨_, rest₅, _⟩ - hrest₅
      refine (expression_points hstop hrest₅).bind ?_
      rintro ⟨last, rest₆, _⟩ - hrest₆
      exact (expect_points hstop _ hrest₆).bind fun r _ hr => .ok trivial hr
  · exact (expect_points hstop _ hrest₃).bind fun r _ hr => .ok trivial hr

end

/-- The word that closes a block stands where `P` holds. -/
def Closing.Stands (P : Span → Prop) : Closing → Prop
  | .inputEnd => True
  | .endWord span | .elseWord span => P span

theorem statement_point (hstop : P stop)
    (hblock : ∀ us, us.length < ts.length → ∀ n done h, Stand P us →
      Points P (fun v => v.2.Stands P) (block stop n done us h))
    (hbody : ∀ us, us.length < ts.length → Stand P us → Points.Only P (body stop us))
    (hts : Stand P ts) : Points.Only P (statement stop ts) := by
  rw [statement.eq_def]
  split
  next span us =>
    -- `If`: what closes the first block decides whether there is a second one
    refine (expression_points hstop hts.tail).bind ?_
    rintro ⟨c, rest₁, h₁⟩ - hrest₁
    have hrest₂ := accept_stand (.word .thenWord) hrest₁
    have hshorter₂ : (accept (.word .thenWord) rest₁).rest.length < us.length + 1 :=
      Nat.lt_of_lt_of_le (accept (.word .thenWord) rest₁).shorter (Nat.le_succ_of_le h₁)
    refine (hblock _ hshorter₂ _ _ _ hrest₂).bind ?_
    rintro ⟨⟨yes, closing⟩, rest₃, h₃⟩ - hrest₃
    have hshorter₃ : rest₃.length < us.length + 1 := Nat.lt_of_lt_of_le h₃ hshorter₂
    cases closing with
    | inputEnd => exact .error (Cause.at_inSpan hstop _)
    | endWord => exact .ok trivial hrest₃
    | elseWord => exact (hbody rest₃ hshorter₃ hrest₃).bind fun r _ hr => .ok trivial hr
  case h_2 span us | h_3 span us =>
    -- `While` and `Repeat`
    refine (expression_points hstop hts.tail).bind ?_
    rintro ⟨c, rest, h⟩ - hrest
    exact (hbody rest (Nat.lt_succ_of_lt h) hrest).bind fun r _ hr => .ok trivial hr
  next span us =>
    -- `For`
    refine (forHead_points hstop hts.tail).bind ?_
    rintro ⟨head, rest, h⟩ - hrest
    exact (hbody rest (Nat.lt_succ_of_lt h) hrest).bind fun r _ hr => .ok trivial hr
  next => exact simple_points hstop hts

theorem block_point (hstop : P stop) (hstatement : Stand P ts → Points.Only P (statement stop ts))
    (hblock : ∀ us, us.length < ts.length → ∀ n done h, Stand P us →
      Points P (fun v => v.2.Stands P) (block stop n done us h))
    (n : Nat) (done : Array Stmt) (h : ts.length < n) (hts : Stand P ts) :
    Points P (fun v => v.2.Stands P) (block stop n done ts h) := by
  cases ts with
  | nil =>
    rw [block]
    exact .ok trivial hts
  | cons t ts =>
    by_cases hsep : t.token.isSeparator
    · rw [block_separator hsep]
      exact hblock ts (Nat.lt_succ_self _) _ _ _ hts.tail
    by_cases hend : t.token = .word .endWord
    · rw [block_end hend]
      exact .ok hts.head hts.tail
    by_cases helse : t.token = .word .elseWord
    · rw [block_else helse]
      exact .ok hts.head hts.tail
    rw [block_cons hsep hend helse]
    refine (hstatement hts).bind ?_
    rintro ⟨s, rest, hrest⟩ - hstand
    dsimp only
    cases hok : endOfStatement stop rest with
    | ok => exact hblock rest hrest _ _ _ hstand
    | error e =>
      cases rest with
      | nil => cases hok
      | cons u rest =>
        rw [endOfStatement] at hok
        split at hok
        · cases hok
        · cases hok
          exact .error (refuse_at hstop _ hstand)

theorem body_point (hstop : P stop)
    (hblock : ∀ n done h, Stand P ts → Points P (fun v => v.2.Stands P) (block stop n done ts h))
    (hts : Stand P ts) : Points.Only P (body stop ts) := by
  rw [body]
  refine (hblock _ _ _ hts).bind ?_
  rintro ⟨⟨ss, closing⟩, rest, _⟩ hclosing hrest
  cases closing with
  | endWord => exact .ok trivial hrest
  | inputEnd => exact .error (Cause.at_inSpan hstop _)
  | elseWord => exact .error (Cause.at_inSpan hclosing _)

theorem block_points (hstop : P stop) (ts : List Lexeme) :
    ∀ n done h, Stand P ts → Points P (fun v => v.2.Stands P) (block stop n done ts h) :=
  block_induction (fun _ => statement_point hstop) (fun _ => block_point hstop)
    (fun _ => body_point hstop) ts

end Parser

/-- The parser refuses a program at one of its lexemes. -/
theorem parse_error_at {P : Span → Prop} {ts : List Lexeme} {e : Diagnostic}
    (hts : ∀ t ∈ ts, P t.span) (hend : P (inputEnd ts)) (h : parse ts = .error e) : e.At P := by
  have hstand : Parser.Stand P (significant ts) :=
    fun t ht => hts t ((significant_sublist ts).subset ht)
  rw [parse_eq rfl rfl] at h
  have hpoints := Parser.block_points hend _ _ #[] (Nat.lt_succ_self _) hstand
  generalize Parser.block (inputEnd ts) _ #[] (significant ts) _ = x at h hpoints
  cases hpoints with
  | error hat =>
    cases h
    exact hat
  | @ok r hclosing _ =>
    obtain ⟨⟨ss, closing⟩, rest, _⟩ := r
    cases closing with
    | inputEnd => cases h
    | endWord | elseWord =>
      cases h
      exact Cause.at_inSpan hclosing _

end Handheld
