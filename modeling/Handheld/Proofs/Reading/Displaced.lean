import Handheld.Proofs.Reading.Derivation

/-!
# Texts further down

A text that stands some lines further down is read in the same way. Only the
line numbers grow, in lexemes, statements and refusals alike. For the parser
that is so because it hands places on and never looks at them: one run
`Echoes` the other.
-/

namespace Handheld

/-! ## Some lines down -/

def Span.down (k : Nat) (s : Span) : Span :=
  { s with line := s.line + k }

def Position.down (k : Nat) (p : Position) : Position :=
  { p with line := p.line + k }

def Lexeme.down (k : Nat) (t : Lexeme) : Lexeme :=
  { t with span := t.span.down k }

/-- A diagnostic without a line has nothing to move. -/
def Diagnostic.down (k : Nat) (d : Diagnostic) : Diagnostic :=
  { d with line := d.line.map (· + k) }

mutual

/-- The statement and those inside of it some lines down. -/
def Stmt.down (k : Nat) : Stmt → Stmt
  | .effect span e => .effect (span.down k) e
  | .disp span values => .disp (span.down k) values
  | .pause span e => .pause (span.down k) e
  | .draw span graphic surface arguments => .draw (span.down k) graphic surface arguments
  | .dispGraph span shade => .dispGraph (span.down k) shade
  | .cond span condition yes no => .cond (span.down k) condition (downBlock k yes) (downBlock k no)
  | .loop span kind body => .loop (span.down k) kind (downBlock k body)
  | .label span name => .label (span.down k) name
  | .goto span name => .goto (span.down k) name
  | .command span c => .command (span.down k) c

def downBlock (k : Nat) : List Stmt → List Stmt
  | [] => []
  | s :: ss => s.down k :: downBlock k ss

end

theorem downBlock_eq_map (k : Nat) (ss : List Stmt) : downBlock k ss = ss.map (.down k) := by
  induction ss with
  | nil => rfl
  | cons s ss ih => rw [downBlock, ih, List.map_cons]

/-! ## Lexing -/

theorem Position.down_advance (k : Nat) (p : Position) (cs : List Char) :
    (p.down k).advance cs = (p.advance cs).down k := by
  induction cs generalizing p with
  | nil => rfl
  | cons c cs ih =>
    have hstep : (p.down k).step c = (p.step c).down k := by
      unfold step
      split
      · simp only [down, Nat.add_right_comm]
      · rfl
    change ((p.down k).step c).advance cs = ((p.step c).advance cs).down k
    rw [hstep, ih]

theorem lexFrom_down (k : Nat) (p : Position) (done : Array Lexeme) (cs : List Char) :
    lexFrom (p.down k) (done.map (.down k)) cs =
      ((lexFrom p done cs).map (Array.map (.down k))).mapError (.down k) := by
  fun_induction lexFrom p done cs with
  | case1 p done =>
    rw [lexFrom]
    refine congrArg Except.ok ?_
    rw [Array.map_push]
    rfl
  | case2 p done c cs cause width hscan =>
    rw [lexFrom, hscan]
    rfl
  | case3 p done c cs token n hscan ih =>
    rw [lexFrom, hscan]
    dsimp only
    rw [Position.down_advance]
    rw [Array.map_push] at ih
    exact ih

namespace Parser

/-! ## Readers -/

/-- What the second reader comes to is what the first one does, `k` lines down. Values change as
`f` says. -/
inductive Echoes (k : Nat) {α : Type} (f : α → α) {m n : Nat} :
    Except Diagnostic (Parsed α m) → Except Diagnostic (Parsed α n) → Prop
  | error (e : Diagnostic) : Echoes k f (.error e) (.error (e.down k))
  | ok {v : α} {rest : List Lexeme} {h : rest.length < m}
      {h' : (rest.map (Lexeme.down k)).length < n} :
      Echoes k f (.ok ⟨v, rest, h⟩) (.ok ⟨f v, rest.map (.down k), h'⟩)

variable {k : Nat} {stop : Span}

theorem Echoes.bind {α β : Type} {f : α → α} {g : β → β} {m n m' n' : Nat}
    {x : Except Diagnostic (Parsed α m)} {y : Except Diagnostic (Parsed α n)}
    {p : Parsed α m → Except Diagnostic (Parsed β m')}
    {q : Parsed α n → Except Diagnostic (Parsed β n')} (h : Echoes k f x y)
    (hpq : ∀ v rest h h', Echoes k g (p ⟨v, rest, h⟩) (q ⟨f v, rest.map (.down k), h'⟩)) :
    Echoes k g (x >>= p) (y >>= q) := by
  cases h with
  | error e => exact .error e
  | ok => exact hpq _ _ _ _

theorem map_down_ne {ts : List Lexeme} {token : Token}
    (h : ∀ span ts', ts = ⟨span, token⟩ :: ts' → False) (span : Span) (ts' : List Lexeme) :
    ts.map (.down k) = ⟨span, token⟩ :: ts' → False := by
  intro heq
  obtain ⟨t, us, rfl, ht, -⟩ := List.map_eq_cons_iff.1 heq
  exact h t.span us (by rw [← (Lexeme.mk.inj ht).2])

theorem refuse_down (cause : Token → Cause) (stop : Span) (ts : List Lexeme) :
    refuse cause (stop.down k) (ts.map (.down k)) = (refuse cause stop ts).down k := by
  cases ts with
  | nil => rfl
  | cons t ts => rfl

theorem echoes_refuse {α : Type} {f : α → α} {m n : Nat} (cause : Token → Cause) (stop : Span)
    (ts : List Lexeme) :
    Echoes k f (m := m) (n := n) (.error (refuse cause stop ts))
      (.error (refuse cause (stop.down k) (ts.map (.down k)))) := by
  rw [refuse_down]
  exact .error _

theorem expect_echoes (stop : Span) (token : Token) (ts : List Lexeme) :
    Echoes k id (expect stop token ts) (expect (stop.down k) token (ts.map (.down k))) := by
  cases ts with
  | nil => exact echoes_refuse _ stop []
  | cons t ts =>
    obtain ⟨span, found⟩ := t
    change Echoes k id _ (expect _ _ (⟨_, found⟩ :: _))
    rw [expect, expect]
    split
    · exact .ok
    · exact echoes_refuse _ stop (⟨span, found⟩ :: ts)

theorem accept_down (k : Nat) (token : Token) (ts : List Lexeme) :
    ∃ v rest h h', accept token ts = ⟨v, rest, h⟩ ∧
      accept token (ts.map (.down k)) = ⟨v, rest.map (.down k), h'⟩ := by
  cases ts with
  | nil => exact ⟨_, _, _, _, rfl, rfl⟩
  | cons t ts =>
    obtain ⟨span, found⟩ := t
    change ∃ v rest h h', _ ∧ accept token (⟨span.down k, found⟩ :: ts.map (.down k)) = ⟨v, _, h'⟩
    rw [accept, accept]
    split
    · have hlt (us : List Lexeme) : us.length < us.length + 1 + 1 := by omega
      exact ⟨true, ts, hlt ts, hlt _, rfl, rfl⟩
    · exact ⟨false, ⟨span, found⟩ :: ts, Nat.lt_succ_self _, Nat.lt_succ_self _, rfl, rfl⟩

theorem width_down (k : Nat) (ts : List Lexeme) :
    ∃ v rest h h', width ts = ⟨v, rest, h⟩ ∧
      width (ts.map (.down k)) = ⟨v, rest.map (.down k), h'⟩ := by
  obtain ⟨r, rest, h, h', hx, hy⟩ := accept_down k (.modifier .r) ts
  rw [width, width, hx, hy]
  exact ⟨_, _, _, _, rfl, rfl⟩

theorem surface_down (k : Nat) (ts : List Lexeme) :
    ∃ v rest h h', surface ts = ⟨v, rest, h⟩ ∧
      surface (ts.map (.down k)) = ⟨v, rest.map (.down k), h'⟩ := by
  obtain ⟨r, rest, h, h', hx, hy⟩ := accept_down k (.modifier .r) ts
  rw [surface, surface, hx, hy]
  exact ⟨_, _, _, _, rfl, rfl⟩

/-! ## Expressions -/

theorem toTarget?_eq_none {e : Expr} (h : ∀ target, e.toTarget? = some target → False) :
    e.toTarget? = none := by
  cases he : e.toTarget? with
  | none => rfl
  | some target => exact (h target he).elim

theorem suffixes_echoes (e : Expr) (ts : List Lexeme) :
    Echoes k id (suffixes e ts) (suffixes e (ts.map (.down k))) := by
  induction e, ts using suffixes.induct with
  | case1 e span ts ih =>
    change Echoes k id _ (suffixes e (⟨_, .modifier .square⟩ :: _))
    rw [suffixes, suffixes]
    exact ih.bind fun _ _ _ _ => .ok
  | case2 e span ts target he ih =>
    change Echoes k id _ (suffixes e (⟨_, .operator .increment⟩ :: _))
    rw [suffixes, suffixes]
    simp only [he]
    exact ih.bind fun _ _ _ _ => .ok
  | case3 e span ts he =>
    change Echoes k id _ (suffixes e (⟨_, .operator .increment⟩ :: _))
    rw [suffixes, suffixes]
    simp only [toTarget?_eq_none he]
    exact .error _
  | case4 e span ts target he ih =>
    change Echoes k id _ (suffixes e (⟨_, .operator .decrement⟩ :: _))
    rw [suffixes, suffixes]
    simp only [he]
    exact ih.bind fun _ _ _ _ => .ok
  | case5 e span ts he =>
    change Echoes k id _ (suffixes e (⟨_, .operator .decrement⟩ :: _))
    rw [suffixes, suffixes]
    simp only [toTarget?_eq_none he]
    exact .error _
  | case6 e ts h₁ h₂ h₃ =>
    rw [suffixes, suffixes]
    · exact .ok
    · exact map_down_ne h₁
    · exact map_down_ne h₂
    · exact map_down_ne h₃
    all_goals assumption

theorem operator?_down (level : Nat) (ts : List Lexeme) :
    operator? level (ts.map (.down k)) = operator? level ts := by
  cases ts with
  | nil => rfl
  | cons t ts =>
    obtain ⟨span, token⟩ := t
    cases token with
    | _ => rfl

section

variable {ts : List Lexeme}

theorem expression_echo
    (hoperation : Echoes k id (operation stop 1 ts)
      (operation (stop.down k) 1 (ts.map (.down k))))
    (hstores : ∀ e us, us.length < ts.length →
      Echoes k id (stores stop e us) (stores (stop.down k) e (us.map (.down k)))) :
    Echoes k id (expression stop ts) (expression (stop.down k) (ts.map (.down k))) := by
  rw [expression, expression]
  exact hoperation.bind fun e rest h _ => (hstores e rest h).bind fun _ _ _ _ => .ok

theorem stores_echo {e : Expr}
    (htarget : ∀ us, us.length < ts.length →
      Echoes k id (target stop us) (target (stop.down k) (us.map (.down k))))
    (hstores : ∀ e us, us.length < ts.length →
      Echoes k id (stores stop e us) (stores (stop.down k) e (us.map (.down k)))) :
    Echoes k id (stores stop e ts) (stores (stop.down k) e (ts.map (.down k))) := by
  rw [stores.eq_def stop e ts]
  split
  next span us =>
    change Echoes k id _ (stores _ e (⟨_, .operator .store⟩ :: _))
    rw [stores]
    refine (htarget us (Nat.lt_succ_self _)).bind fun t rest h _ => ?_
    exact (hstores (.assign e t) rest (Nat.lt_succ_of_lt h)).bind fun _ _ _ _ => .ok
  next hstore =>
    rw [stores]
    · exact .ok
    · exact map_down_ne hstore

theorem target_echo
    (hexpression : ∀ us, us.length < ts.length →
      Echoes k id (expression stop us) (expression (stop.down k) (us.map (.down k)))) :
    Echoes k id (target stop ts) (target (stop.down k) (ts.map (.down k))) := by
  rw [target.eq_def stop ts]
  split
  next span c us =>
    change Echoes k id _ (target _ (⟨_, .var c⟩ :: _))
    rw [target]
    exact .ok
  next span us =>
    change Echoes k id _ (target _ (⟨_, .leftBrace⟩ :: _))
    rw [target]
    refine (hexpression us (Nat.lt_succ_self _)).bind fun e rest _ _ => ?_
    refine (expect_echoes stop _ rest).bind fun _ rest _ _ => ?_
    obtain ⟨w, rest', _, _, hx, hy⟩ := width_down k rest
    dsimp only
    rw [hx, hy]
    exact .ok
  next hvar hbrace =>
    rw [target]
    · exact echoes_refuse _ stop ts
    · exact fun span c => map_down_ne (fun span => hvar span c) span
    · exact map_down_ne hbrace

theorem operation_echo {level : Nat}
    (hoperand : Echoes k id (operand stop ts) (operand (stop.down k) (ts.map (.down k))))
    (hoperations : ∀ lhs us, us.length < ts.length → Echoes k id (operations stop level lhs us)
      (operations (stop.down k) level lhs (us.map (.down k)))) :
    Echoes k id (operation stop level ts) (operation (stop.down k) level (ts.map (.down k))) := by
  rw [operation, operation]
  exact hoperand.bind fun e rest h _ => (hoperations e rest h).bind fun _ _ _ _ => .ok

theorem operations_echo {level : Nat} {lhs : Expr}
    (hoperation : ∀ level us, us.length < ts.length → Echoes k id (operation stop level us)
      (operation (stop.down k) level (us.map (.down k))))
    (hoperations : ∀ lhs us, us.length < ts.length → Echoes k id (operations stop level lhs us)
      (operations (stop.down k) level lhs (us.map (.down k)))) :
    Echoes k id (operations stop level lhs ts)
      (operations (stop.down k) level lhs (ts.map (.down k))) := by
  have hdown : operator? level (ts.map (.down k)) = operator? level ts := operator?_down level ts
  cases hop : operator? level ts with
  | none =>
    rw [operations.eq_def, operations.eq_def, hdown, hop]
    exact .ok
  | some op =>
    obtain ⟨-, span, us, rfl⟩ := operator?_eq_some hop
    rw [operations.eq_def, operations.eq_def, hdown, hop]
    refine (hoperation (op.precedence + 1) us (Nat.lt_succ_self _)).bind fun rhs rest h _ => ?_
    exact (hoperations (.binary op lhs rhs) rest (Nat.lt_succ_of_lt h)).bind fun _ _ _ _ => .ok

theorem operand_echo
    (hprimary : Echoes k id (primary stop ts) (primary (stop.down k) (ts.map (.down k))))
    (hoperand : ∀ us, us.length < ts.length →
      Echoes k id (operand stop us) (operand (stop.down k) (us.map (.down k)))) :
    Echoes k id (operand stop ts) (operand (stop.down k) (ts.map (.down k))) := by
  rw [operand.eq_def stop ts]
  split
  next span us =>
    change Echoes k id _ (operand _ (⟨_, .operator .minus⟩ :: _))
    rw [operand]
    exact (hoperand us (Nat.lt_succ_self _)).bind fun _ _ _ _ => .ok
  next hminus =>
    rw [operand]
    · exact hprimary.bind fun e rest _ _ => (suffixes_echoes e rest).bind fun _ _ _ _ => .ok
    · exact map_down_ne hminus

theorem primary_echo
    (hexpression : ∀ us, us.length < ts.length →
      Echoes k id (expression stop us) (expression (stop.down k) (us.map (.down k))))
    (htarget : ∀ us, us.length < ts.length →
      Echoes k id (target stop us) (target (stop.down k) (us.map (.down k)))) :
    Echoes k id (primary stop ts) (primary (stop.down k) (ts.map (.down k))) := by
  rw [primary.eq_def stop ts]
  split
  next span n us =>
    change Echoes k id _ (primary _ (⟨_, .number n⟩ :: _))
    rw [primary]
    exact .ok
  next span c us =>
    change Echoes k id _ (primary _ (⟨_, .var c⟩ :: _))
    rw [primary]
    exact .ok
  next span b us =>
    change Echoes k id _ (primary _ (⟨_, .buffer b⟩ :: _))
    rw [primary]
    exact .ok
  next span us =>
    -- something in parentheses
    change Echoes k id _ (primary _ (⟨_, .leftParen⟩ :: _))
    rw [primary]
    refine (hexpression us (Nat.lt_succ_self _)).bind fun e rest _ _ => ?_
    exact (expect_echoes stop _ rest).bind fun _ _ _ _ => .ok
  next span us =>
    -- something in braces
    change Echoes k id _ (primary _ (⟨_, .leftBrace⟩ :: _))
    rw [primary]
    refine (hexpression us (Nat.lt_succ_self _)).bind fun e rest _ _ => ?_
    refine (expect_echoes stop _ rest).bind fun _ rest _ _ => ?_
    obtain ⟨w, rest', _, _, hx, hy⟩ := width_down k rest
    dsimp only
    rw [hx, hy]
    exact .ok
  next span us =>
    -- the address of a target
    change Echoes k id _ (primary _ (⟨_, .modifier .addressOf⟩ :: _))
    rw [primary]
    exact (htarget us (Nat.lt_succ_self _)).bind fun _ _ _ _ => .ok
  next span us =>
    change Echoes k id _ (primary _ (⟨_, .word .rand⟩ :: _))
    rw [primary]
    exact .ok
  next span us =>
    -- a key code in parentheses
    change Echoes k id _ (primary _ (⟨_, .word .getKey⟩ :: _))
    rw [primary]
    refine (expect_echoes stop _ us).bind fun _ rest h _ => ?_
    refine (hexpression rest (Nat.lt_succ_of_lt h)).bind fun code rest _ _ => ?_
    exact (expect_echoes stop _ rest).bind fun _ _ _ _ => .ok
  next span us =>
    -- two expressions with a comma between them
    change Echoes k id _ (primary _ (⟨_, .word .pxlTest⟩ :: _))
    rw [primary]
    refine (expect_echoes stop _ us).bind fun _ rest₁ h₁ _ => ?_
    refine (hexpression rest₁ (Nat.lt_succ_of_lt h₁)).bind fun x rest₂ h₂ _ => ?_
    refine (expect_echoes stop _ rest₂).bind fun _ rest₃ h₃ _ => ?_
    have hshorter : rest₃.length < us.length := by omega
    refine (hexpression rest₃ (Nat.lt_succ_of_lt hshorter)).bind fun y rest₄ _ _ => ?_
    refine (expect_echoes stop _ rest₄).bind fun _ rest₅ _ _ => ?_
    obtain ⟨s, rest₆, _, _, hx, hy⟩ := surface_down k rest₅
    dsimp only
    rw [hx, hy]
    exact .ok
  next h₁ h₂ h₃ h₄ h₅ h₆ h₇ h₈ h₉ =>
    -- no other lexeme begins an operand
    rw [primary]
    · exact echoes_refuse _ stop ts
    · exact fun span n => map_down_ne (fun span => h₁ span n) span
    · exact fun span c => map_down_ne (fun span => h₂ span c) span
    · exact fun span b => map_down_ne (fun span => h₃ span b) span
    · exact map_down_ne h₄
    · exact map_down_ne h₅
    · exact map_down_ne h₆
    · exact map_down_ne h₇
    · exact map_down_ne h₈
    · exact map_down_ne h₉

end

theorem expression_echoes (k : Nat) (stop : Span) (ts : List Lexeme) :
    Echoes k id (expression stop ts) (expression (stop.down k) (ts.map (.down k))) :=
  expression_induction (fun _ => expression_echo) (fun _ _ => stores_echo) (fun _ => target_echo)
    (fun _ _ => operation_echo) (fun _ _ _ => operations_echo) (fun _ => operand_echo)
    (fun _ => primary_echo) ts

theorem moreExpressions_echoes (stop : Span) (ts : List Lexeme) :
    Echoes k id (moreExpressions stop ts) (moreExpressions (stop.down k) (ts.map (.down k))) := by
  induction ts using moreExpressions.induct with
  | case1 span ts ih =>
    change Echoes k id _ (moreExpressions _ (⟨_, .comma⟩ :: _))
    rw [moreExpressions, moreExpressions]
    exact (expression_echoes k stop ts).bind fun e rest h _ =>
      (ih rest h).bind fun _ _ _ _ => .ok
  | case2 ts hts =>
    rw [moreExpressions, moreExpressions]
    · exact .ok
    · exact map_down_ne hts
    · exact hts

theorem expressions_echoes (stop : Span) (ts : List Lexeme) :
    Echoes k id (expressions stop ts) (expressions (stop.down k) (ts.map (.down k))) := by
  rw [expressions, expressions]
  exact (expression_echoes k stop ts).bind fun e rest _ _ =>
    (moreExpressions_echoes stop rest).bind fun _ _ _ _ => .ok

/-! ## Simple statements -/

theorem shade_down (k : Nat) (ts : List Lexeme) :
    ∃ v rest h h', shade ts = ⟨v, rest, h⟩ ∧
      shade (ts.map (.down k)) = ⟨v, rest.map (.down k), h'⟩ := by
  obtain ⟨r, rest, h, h', hx, hy⟩ := accept_down k (.modifier .r) ts
  rw [shade, shade, hx, hy]
  dsimp only
  cases r with
  | false => exact ⟨_, _, _, _, rfl, rfl⟩
  | true =>
    obtain ⟨rr, rest', h, h', hx', hy'⟩ := accept_down k (.modifier .r) rest
    rw [if_pos rfl, if_pos rfl, hx', hy']
    exact ⟨_, _, _, _, rfl, rfl⟩

theorem labelName_echoes (stop : Span) (ts : List Lexeme) :
    Echoes k id (labelName stop ts) (labelName (stop.down k) (ts.map (.down k))) := by
  cases ts with
  | nil => exact echoes_refuse _ stop []
  | cons t ts =>
    obtain ⟨span, token⟩ := t
    cases token with
    | name | number | var => exact .ok
    | _ => exact echoes_refuse _ stop (⟨span, _⟩ :: ts)

theorem drawing_echoes (stop span : Span) (graphic : Graphic) (ts : List Lexeme) :
    Echoes k (.down k) (drawing stop span graphic ts)
      (drawing (stop.down k) (span.down k) graphic (ts.map (.down k))) := by
  rw [drawing, drawing]
  by_cases harity : graphic.arity = 0
  · obtain ⟨s, rest, _, _, hx, hy⟩ := surface_down k ts
    rw [if_pos harity, if_pos harity, hx, hy]
    exact .ok
  · rw [if_neg harity, if_neg harity]
    refine (expect_echoes stop _ ts).bind fun _ rest _ _ => ?_
    refine (expressions_echoes stop rest).bind fun arguments rest _ _ => ?_
    refine (expect_echoes stop _ rest).bind fun _ rest _ _ => ?_
    dsimp only [id]
    by_cases hcount : arguments.length ≠ graphic.arity
    · rw [if_pos hcount, if_pos hcount]
      exact .error _
    · obtain ⟨s, rest', _, _, hx, hy⟩ := surface_down k rest
      rw [if_neg hcount, if_neg hcount, hx, hy]
      exact .ok

theorem shift_echoes (stop span : Span) (plus minus : Graphic) (ts : List Lexeme) :
    Echoes k (.down k) (shift stop span plus minus ts)
      (shift (stop.down k) (span.down k) plus minus (ts.map (.down k))) := by
  cases ts with
  | nil => exact echoes_refuse _ stop []
  | cons t ts =>
    obtain ⟨place, token⟩ := t
    cases token with
    | operator op =>
      obtain ⟨s, rest, _, _, hx, hy⟩ := surface_down k ts
      cases op with
      | plus =>
        change Echoes k _ _ (shift _ _ _ _ (⟨_, .operator .plus⟩ :: _))
        rw [shift, shift, hx, hy]
        exact .ok
      | minus =>
        change Echoes k _ _ (shift _ _ _ _ (⟨_, .operator .minus⟩ :: _))
        rw [shift, shift, hx, hy]
        exact .ok
      | _ => exact echoes_refuse _ stop (⟨place, _⟩ :: ts)
    | _ => exact echoes_refuse _ stop (⟨place, _⟩ :: ts)

theorem effect_echoes (stop span : Span) (ts : List Lexeme) :
    Echoes k (.down k) (effect stop span ts)
      (effect (stop.down k) (span.down k) (ts.map (.down k))) := by
  rw [effect, effect]
  refine (expression_echoes k stop ts).bind fun e rest _ _ => ?_
  dsimp only [id]
  split
  · exact .ok
  · exact .error _

theorem command_echoes (stop span : Span) (word : CommandWord) (ts : List Lexeme) :
    Echoes k (.down k) (command stop span word ts)
      (command (stop.down k) (span.down k) word (ts.map (.down k))) := by
  cases word with
  | debug => exact (expression_echoes k stop ts).bind fun _ _ _ _ => .ok
  | exit | help | about => exact .ok

theorem simple_echoes (stop : Span) (ts : List Lexeme) :
    Echoes k (.down k) (simple stop ts) (simple (stop.down k) (ts.map (.down k))) := by
  cases ts with
  | nil => exact effect_echoes stop stop []
  | cons t ts =>
    obtain ⟨span, token⟩ := t
    cases token with
    | word w =>
      cases w with
      | lbl | goto => exact (labelName_echoes stop ts).bind fun _ _ _ _ => .ok
      | disp => exact (expressions_echoes stop ts).bind fun _ _ _ _ => .ok
      | pause => exact (expression_echoes k stop ts).bind fun _ _ _ _ => .ok
      | dispGraph =>
        obtain ⟨s, rest, _, _, hx, hy⟩ := shade_down k ts
        change Echoes k _ _ (simple _ (⟨_, .word .dispGraph⟩ :: _))
        rw [simple, simple, hx, hy]
        exact .ok
      | horizontal | vertical => exact shift_echoes stop span _ _ ts
      | pxlOn | pxlOff | pxlChange | line | rect | rectI | circle | clrDraw =>
        exact drawing_echoes stop span _ ts
      | _ => exact effect_echoes stop span (⟨span, .word _⟩ :: ts)
    | command word => exact command_echoes stop span word ts
    | _ => exact effect_echoes stop span (⟨span, _⟩ :: ts)

/-! ## Blocks -/

theorem forHead_echoes (stop : Span) (ts : List Lexeme) :
    Echoes k id (forHead stop ts) (forHead (stop.down k) (ts.map (.down k))) := by
  rw [forHead, forHead]
  refine (expect_echoes stop _ ts).bind fun _ rest₁ _ _ => ?_
  refine (expression_echoes k stop rest₁).bind fun first rest₂ _ _ => ?_
  obtain ⟨more, rest₃, _, _, hx, hy⟩ := accept_down k .comma rest₂
  dsimp only [id]
  rw [hx, hy]
  cases more with
  | false => exact (expect_echoes stop _ rest₃).bind fun _ _ _ _ => .ok
  | true =>
    dsimp only
    cases first.toTarget? with
    | none =>
      cases rest₁ with
      | nil => exact .error _
      | cons t rest₁ => exact .error _
    | some target =>
      refine (expression_echoes k stop rest₃).bind fun start rest₄ _ _ => ?_
      refine (expect_echoes stop _ rest₄).bind fun _ rest₅ _ _ => ?_
      refine (expression_echoes k stop rest₅).bind fun last rest₆ _ _ => ?_
      exact (expect_echoes stop _ rest₆).bind fun _ _ _ _ => .ok

def Closing.down (k : Nat) : Closing → Closing
  | .inputEnd => .inputEnd
  | .endWord span => .endWord (span.down k)
  | .elseWord span => .elseWord (span.down k)

theorem endOfStatement_down (k : Nat) (stop : Span) (ts : List Lexeme) :
    endOfStatement (stop.down k) (ts.map (.down k)) = (endOfStatement stop ts).mapError (.down k) := by
  cases ts with
  | nil => rfl
  | cons t ts =>
    obtain ⟨span, token⟩ := t
    change endOfStatement _ (⟨_, token⟩ :: _) = _
    rw [endOfStatement, endOfStatement]
    split <;> rfl

/-- The reader of a block comes to the same further down, whatever stands in front of the statements
that it adds to. -/
def BlockEchoes (k : Nat) (stop : Span) (ts : List Lexeme) : Prop :=
  ∀ n done h before n' done' h', done'.toList = before ++ downBlock k done.toList →
    Echoes k (fun v => (before ++ downBlock k v.1, v.2.down k)) (block stop n done ts h)
      (block (stop.down k) n' done' (ts.map (.down k)) h')

section

variable {ts : List Lexeme}

theorem statement_echo (hblock : ∀ us, us.length < ts.length → BlockEchoes k stop us)
    (hbody : ∀ us, us.length < ts.length →
      Echoes k (downBlock k) (body stop us) (body (stop.down k) (us.map (.down k)))) :
    Echoes k (.down k) (statement stop ts) (statement (stop.down k) (ts.map (.down k))) := by
  rw [statement.eq_def stop ts]
  split
  next span us =>
    -- `If`: what closes the first block decides whether there is a second one
    change Echoes k _ _ (statement _ (⟨_, .word .ifWord⟩ :: _))
    rw [statement]
    refine (expression_echoes k stop us).bind fun c rest₁ h₁ _ => ?_
    obtain ⟨marked, rest₂, h₂, _, hx, hy⟩ := accept_down k (.word .thenWord) rest₁
    dsimp only
    rw [hx, hy]
    have hshorter₂ : rest₂.length < us.length + 1 := Nat.lt_of_lt_of_le h₂ (Nat.le_succ_of_le h₁)
    refine (hblock rest₂ hshorter₂ _ _ _ [] _ _ _ rfl).bind fun v rest₃ h₃ _ => ?_
    have hshorter₃ : rest₃.length < us.length + 1 := Nat.lt_of_lt_of_le h₃ hshorter₂
    obtain ⟨yes, closing⟩ := v
    cases closing with
    | inputEnd => exact .error _
    | endWord => exact .ok
    | elseWord => exact (hbody rest₃ hshorter₃).bind fun _ _ _ _ => .ok
  next span us =>
    -- `While`
    change Echoes k _ _ (statement _ (⟨_, .word .whileWord⟩ :: _))
    rw [statement]
    refine (expression_echoes k stop us).bind fun c rest h _ => ?_
    exact (hbody rest (Nat.lt_succ_of_lt h)).bind fun _ _ _ _ => .ok
  next span us =>
    -- `Repeat`
    change Echoes k _ _ (statement _ (⟨_, .word .repeatWord⟩ :: _))
    rw [statement]
    refine (expression_echoes k stop us).bind fun c rest h _ => ?_
    exact (hbody rest (Nat.lt_succ_of_lt h)).bind fun _ _ _ _ => .ok
  next span us =>
    -- `For`
    change Echoes k _ _ (statement _ (⟨_, .word .forWord⟩ :: _))
    rw [statement]
    refine (forHead_echoes stop us).bind fun head rest h _ => ?_
    exact (hbody rest (Nat.lt_succ_of_lt h)).bind fun _ _ _ _ => .ok
  next h₁ h₂ h₃ h₄ =>
    rw [statement]
    · exact simple_echoes stop ts
    · exact map_down_ne h₁
    · exact map_down_ne h₂
    · exact map_down_ne h₃
    · exact map_down_ne h₄

theorem block_echo
    (hstatement : Echoes k (.down k) (statement stop ts)
      (statement (stop.down k) (ts.map (.down k))))
    (hblock : ∀ us, us.length < ts.length → BlockEchoes k stop us) : BlockEchoes k stop ts := by
  intro n done h before n' done' h' hdone
  cases ts with
  | nil =>
    change Echoes k _ _ (block _ n' done' [] h')
    rw [block, block, hdone]
    exact .ok
  | cons t ts =>
    change Echoes k _ _ (block _ n' done' (t.down k :: ts.map (.down k)) h')
    by_cases hsep : t.token.isSeparator
    · rw [block_separator hsep, block_separator (t := t.down k) hsep]
      exact hblock ts (Nat.lt_succ_self _) _ _ _ _ _ _ _ hdone
    by_cases hend : t.token = .word .endWord
    · rw [block_end hend, block_end (t := t.down k) hend, hdone]
      exact .ok
    by_cases helse : t.token = .word .elseWord
    · rw [block_else helse, block_else (t := t.down k) helse, hdone]
      exact .ok
    rw [block_cons hsep hend helse, block_cons (t := t.down k) hsep hend helse]
    refine hstatement.bind fun s rest hrest _ => ?_
    dsimp only
    rw [endOfStatement_down]
    cases endOfStatement stop rest with
    | error e => exact .error e
    | ok =>
      refine hblock rest hrest _ _ _ _ _ _ _ ?_
      rw [Array.toList_push, Array.toList_push, hdone, downBlock_eq_map, downBlock_eq_map,
        List.map_append, List.map_singleton, List.append_assoc]

theorem body_echo (hblock : BlockEchoes k stop ts) :
    Echoes k (downBlock k) (body stop ts) (body (stop.down k) (ts.map (.down k))) := by
  rw [body, body]
  refine (hblock _ _ _ [] _ _ _ rfl).bind fun v rest _ _ => ?_
  obtain ⟨ss, closing⟩ := v
  cases closing with
  | endWord => exact .ok
  | inputEnd | elseWord => exact .error _

end

theorem block_echoes (k : Nat) (stop : Span) (ts : List Lexeme) : BlockEchoes k stop ts :=
  block_induction (fun _ => statement_echo) (fun _ => block_echo) (fun _ => body_echo) ts

end Parser

end Handheld
