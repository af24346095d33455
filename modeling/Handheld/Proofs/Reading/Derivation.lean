import Handheld.Proofs.Reading.Grammar
import Handheld.Proofs.Reading.Statements

/-!
# What is read follows the grammar

Whatever a reader takes from the front of the lexemes stands for what it builds.
-/

namespace Handheld

/-! ## Levels -/

theorem Phrase.of_le {m n : Nat} {ts : List Token} {e : Expr} (hmn : m ≤ n) (h : Phrase n ts e) :
    Phrase m ts e := by
  induction hmn with
  | refl => exact h
  | step _ ih => exact ih h.looser

theorem Guard.phrase {ts : List Token} {e : Expr} {behind : List Lexeme} (h : Guard ts e behind) :
    Phrase 0 ts e := by
  cases h with
  | store he ht => exact .store he ht
  | operation he _ => exact he.looser

theorem Guard.of_append {ts : List Token} {e : Expr} {ys zs : List Lexeme}
    (h : Guard ts e (ys ++ zs)) : Guard ts e ys := by
  cases h with
  | store he ht => exact .store he ht
  | operation he hu =>
    refine .operation he fun t ht => hu t ?_
    cases ys with
    | nil => cases ht
    | cons y ys => exact ht

theorem Expr.toTarget?_eq_some {e : Expr} {target : Target} :
    e.toTarget? = some target ↔ e = target.toExpr := by
  cases e <;> cases target <;> simp [Expr.toTarget?, Target.toExpr]

namespace Parser

variable {stop span : Span}

theorem binary?_eq_some {op : Operator} {b : BinaryOp} : binary? op = some b ↔ op = b.operator := by
  cases op <;> cases b <;> decide

theorem operator?_eq_some {level : Nat} {ts : List Lexeme} {b : BinaryOp}
    (h : operator? level ts = some b) :
    level ≤ b.precedence ∧ ∃ span rest, ts = ⟨span, .operator b.operator⟩ :: rest := by
  unfold operator? at h
  split at h
  · next span op rest =>
    obtain ⟨hb, hlevel⟩ := Option.filter_eq_some_iff.1 h
    rw [binary?_eq_some.1 hb]
    exact ⟨by simpa using hlevel, span, rest, rfl⟩
  · cases h

theorem operator?_cons (level : Nat) (span : Span) (b : BinaryOp) (ts : List Lexeme) :
    operator? level (⟨span, .operator b.operator⟩ :: ts) =
      if level ≤ b.precedence then some b else none := by
  have hb : binary? b.operator = some b := binary?_eq_some.2 rfl
  simp [operator?, hb, Option.filter]

theorem operator?_of_lt {level : Nat} (h : 3 < level) (ts : List Lexeme) :
    operator? level ts = none := by
  cases hop : operator? level ts with
  | none => rfl
  | some b =>
    have := (operator?_eq_some hop).1
    have := b.precedence_le
    omega

theorem unsigned_of_operator? {ts : List Lexeme} (h : operator? 1 ts = none) : Unsigned ts := by
  rintro t ht hminus
  obtain ⟨rest, rfl⟩ : ∃ rest, ts = t :: rest := by
    cases ts with
    | nil => cases ht
    | cons u us => exact ⟨us, by cases ht; rfl⟩
  rw [show t = ⟨t.span, .operator BinaryOp.subtract.operator⟩ by cases t; cases hminus; rfl,
    operator?_cons] at h
  cases h

/-! ## Single lexemes -/

theorem expect_finds {ts rest : List Lexeme} {token : Token} {v : Unit} {hr}
    (h : expect stop token ts = .ok ⟨v, rest, hr⟩) : ∃ span, ts = ⟨span, token⟩ :: rest := by
  unfold expect at h
  split at h
  · cases h
  · split at h
    · next t _ htoken =>
      cases h
      exact ⟨t.span, by rw [← htoken]⟩
    · cases h

theorem accept_finds {token : Token} {ts rest : List Lexeme} {v : Bool} {hr}
    (h : accept token ts = ⟨v, rest, hr⟩) :
    (v = true ∧ ∃ span, ts = ⟨span, token⟩ :: rest) ∨ (v = false ∧ ts = rest) := by
  unfold accept at h
  split at h
  · cases h
    exact .inr ⟨rfl, rfl⟩
  · split at h
    · next t _ htoken =>
      cases h
      exact .inl ⟨rfl, t.span, by rw [← htoken]⟩
    · cases h
      exact .inr ⟨rfl, rfl⟩

theorem accept_taken {token : Token} {ts rest : List Lexeme} {v : Bool} {hr}
    (h : accept token ts = ⟨v, rest, hr⟩) :
    ∃ used, ts = used ++ rest ∧ used.map Lexeme.token = if v then [token] else [] := by
  rcases accept_finds h with ⟨rfl, span, hts⟩ | ⟨rfl, hts⟩
  · exact ⟨[⟨span, token⟩], hts, rfl⟩
  · exact ⟨[], hts, rfl⟩

theorem width_finds {ts rest : List Lexeme} {w : Width} {hr} (h : width ts = ⟨w, rest, hr⟩) :
    ∃ used, ts = used ++ rest ∧ used.map Lexeme.token = w.marks := by
  unfold width at h
  split at h
  next v _ _ hv =>
  cases h
  obtain ⟨used, hts, hused⟩ := accept_taken hv
  exact ⟨used, hts, by cases v <;> exact hused⟩

theorem surface_finds {ts rest : List Lexeme} {s : Surface} {hr} (h : surface ts = ⟨s, rest, hr⟩) :
    ∃ used, ts = used ++ rest ∧ used.map Lexeme.token = s.marks := by
  unfold surface at h
  split at h
  next v _ _ hv =>
  cases h
  obtain ⟨used, hts, hused⟩ := accept_taken hv
  exact ⟨used, hts, by cases v <;> exact hused⟩

theorem shade_finds {ts rest : List Lexeme} {s : Shade} {hr} (h : shade ts = ⟨s, rest, hr⟩) :
    ∃ used, ts = used ++ rest ∧ used.map Lexeme.token = s.marks := by
  unfold shade at h
  split at h
  next v _ _ hv =>
  obtain ⟨used, rfl, hused⟩ := accept_taken hv
  cases v with
  | false =>
    cases h
    exact ⟨used, rfl, hused⟩
  | true =>
    rw [if_pos rfl] at h
    split at h
    next v' _ _ hv' =>
    cases h
    obtain ⟨used', rfl, hused'⟩ := accept_taken hv'
    refine ⟨used ++ used', by simp, ?_⟩
    rw [List.map_append, hused, hused']
    cases v' <;> rfl

theorem labelName_finds {ts rest : List Lexeme} {name : String} {hr}
    (h : labelName stop ts = .ok ⟨name, rest, hr⟩) :
    ∃ t, ts = t :: rest ∧ t.token.labelName? = some name := by
  unfold labelName at h
  split at h
  all_goals cases h
  all_goals exact ⟨_, rfl, rfl⟩

/-! ## Expressions -/

/-- The reader succeeds with this value, and these lexemes are left. -/
def Yields {α : Type} {n : Nat} (x : Except Diagnostic (Parsed α n)) (v : α) (rest : List Lexeme) :
    Prop :=
  ∃ h, x = .ok ⟨v, rest, h⟩

theorem yields_bind {α β : Type} {m n : Nat} {x : Except Diagnostic (Parsed α m)}
    {f : Parsed α m → Except Diagnostic (Parsed β n)} {v : β} {rest : List Lexeme} :
    Yields (x >>= f) v rest ↔ ∃ a ts h, x = .ok ⟨a, ts, h⟩ ∧ Yields (f ⟨a, ts, h⟩) v rest := by
  simp only [Yields, bind_eq_ok]
  constructor
  · rintro ⟨h, ⟨a, ts, h'⟩, hx, hf⟩
    exact ⟨a, ts, h', hx, h, hf⟩
  · rintro ⟨a, ts, h', hx, h, hf⟩
    exact ⟨h, _, hx, hf⟩

/-- What the reader takes from the front of `ts` stands for the value it yields, in the sense of
`P`, which also judges what is left. -/
def Finds {α : Type} {n : Nat} (P : List Token → α → List Lexeme → Prop) (ts : List Lexeme)
    (x : Except Diagnostic (Parsed α n)) : Prop :=
  ∀ v rest, Yields x v rest → ∃ used, ts = used ++ rest ∧ P (used.map Lexeme.token) v rest

theorem suffixes_finds {ts : List Lexeme} {e : Expr} {before : List Token} (he : Phrase 5 before e) :
    Finds (fun used v _ => Phrase 5 (before ++ used) v) ts (suffixes e ts) := by
  rintro v rest h
  fun_induction suffixes e ts generalizing before with
  | case1 e span ts ih =>
    obtain ⟨_, _, _, hs, _, h⟩ := yields_bind.1 h
    cases h
    obtain ⟨used, rfl, hp⟩ := ih he.square ⟨_, hs⟩
    exact ⟨⟨span, .modifier .square⟩ :: used, rfl, by simpa using hp⟩
  | case2 e span ts target ht ih =>
    obtain ⟨_, _, _, hs, _, h⟩ := yields_bind.1 h
    cases h
    rw [Expr.toTarget?_eq_some.1 ht] at he
    obtain ⟨used, rfl, hp⟩ := ih he.increment ⟨_, hs⟩
    exact ⟨⟨span, .operator .increment⟩ :: used, rfl, by simpa using hp⟩
  | case4 e span ts target ht ih =>
    obtain ⟨_, _, _, hs, _, h⟩ := yields_bind.1 h
    cases h
    rw [Expr.toTarget?_eq_some.1 ht] at he
    obtain ⟨used, rfl, hp⟩ := ih he.decrement ⟨_, hs⟩
    exact ⟨⟨span, .operator .decrement⟩ :: used, rfl, by simpa using hp⟩
  | case3 | case5 =>
    obtain ⟨_, h⟩ := h
    cases h
  | case6 e ts =>
    obtain ⟨_, h⟩ := h
    cases h
    exact ⟨[], rfl, by simpa using he⟩

theorem braces_finds {ts ts₁ ts₂ rest : List Lexeme} {e : Expr} {v : Unit} {w : Width} {h₂ hr}
    (he : ∃ used, ts = used ++ ts₁ ∧ Guard (used.map Lexeme.token) e ts₁)
    (hb : expect stop .rightBrace ts₁ = .ok ⟨v, ts₂, h₂⟩) (hw : width ts₂ = ⟨w, rest, hr⟩) :
    ∃ used, ts = used ++ rest ∧
      Phrase 7 (.leftBrace :: used.map Lexeme.token) (.deref e w) := by
  obtain ⟨used, rfl, pe⟩ := he
  obtain ⟨span, rfl⟩ := expect_finds hb
  obtain ⟨marks, rfl, pm⟩ := width_finds hw
  refine ⟨used ++ ⟨span, .rightBrace⟩ :: marks, by simp, ?_⟩
  simpa [pm] using Phrase.deref w pe.phrase

/-- The reader of the operators of a level, behind a left operand that these tokens stand for. What
holds together at level `k` is a left operand for each operator that may follow. -/
def FindsBehind (stop : Span) (level : Nat) (lhs : Expr) (ts : List Lexeme) : Prop :=
  ∀ before k, level ≤ k → Phrase k before lhs → operator? (k + 1) ts = none →
    Finds (fun used e rest => Phrase level (before ++ used) e ∧ operator? level rest = none) ts
      (operations stop level lhs ts)

section

variable {ts : List Lexeme}

theorem expression_found
    (hoperation : Finds (fun used e rest => Phrase 1 used e ∧ operator? 1 rest = none) ts
      (operation stop 1 ts))
    (hstores : ∀ e us, us.length < ts.length → ∀ before, Guard before e us →
      Finds (fun used v rest => Guard (before ++ used) v rest) us (stores stop e us)) :
    Finds Guard ts (expression stop ts) := by
  intro v rest h
  rw [expression] at h
  obtain ⟨e, ts', hrest, ho, h⟩ := yields_bind.1 h
  obtain ⟨_, _, _, hs, _, h⟩ := yields_bind.1 h
  cases h
  obtain ⟨used, rfl, po, hnone⟩ := hoperation _ _ ⟨_, ho⟩
  have hguard := Guard.operation po (unsigned_of_operator? hnone)
  obtain ⟨used', rfl, ps⟩ := hstores e ts' hrest _ hguard _ _ ⟨_, hs⟩
  exact ⟨used ++ used', by simp, by simpa using ps⟩

theorem stores_found {e : Expr}
    (htarget : ∀ us, us.length < ts.length →
      Finds (fun used t _ => Phrase 7 used t.toExpr) us (target stop us))
    (hstores : ∀ e us, us.length < ts.length → ∀ before, Guard before e us →
      Finds (fun used v rest => Guard (before ++ used) v rest) us (stores stop e us))
    (before : List Token) (hguard : Guard before e ts) :
    Finds (fun used v rest => Guard (before ++ used) v rest) ts (stores stop e ts) := by
  intro v rest h
  rw [stores.eq_def] at h
  split at h
  next span us =>
    obtain ⟨t, ts', hrest, ht, h⟩ := yields_bind.1 h
    obtain ⟨_, _, _, hs, _, h⟩ := yields_bind.1 h
    cases h
    obtain ⟨used, rfl, pt⟩ := htarget us (Nat.lt_succ_self _) _ _ ⟨_, ht⟩
    obtain ⟨used', rfl, ps⟩ := hstores (.assign e t) ts' (Nat.lt_succ_of_lt hrest) _
      (.store hguard.phrase pt) _ _ ⟨_, hs⟩
    exact ⟨⟨span, .operator .store⟩ :: used ++ used', by simp, by simpa using ps⟩
  next =>
    obtain ⟨_, h⟩ := h
    cases h
    exact ⟨[], rfl, by simpa using hguard⟩

theorem target_found
    (hexpression : ∀ us, us.length < ts.length → Finds Guard us (expression stop us)) :
    Finds (fun used t _ => Phrase 7 used t.toExpr) ts (target stop ts) := by
  intro v rest h
  rw [target.eq_def] at h
  split at h
  next span c us =>
    obtain ⟨_, h⟩ := h
    cases h
    exact ⟨[⟨span, .var c⟩], rfl, .var c⟩
  next span us =>
    obtain ⟨e, ts', _, he, h⟩ := yields_bind.1 h
    obtain ⟨_, ts'', _, hb, _, h⟩ := yields_bind.1 h
    dsimp only at h
    generalize hw : width ts'' = r at h
    obtain ⟨w, _, _⟩ := r
    cases h
    obtain ⟨used, rfl, hp⟩ :=
      braces_finds (hexpression us (Nat.lt_succ_self _) _ _ ⟨_, he⟩) hb hw
    exact ⟨⟨span, .leftBrace⟩ :: used, rfl, hp⟩
  next =>
    obtain ⟨_, h⟩ := h
    cases h

theorem operation_found {level : Nat} (hlevel : level ≤ 4)
    (hoperand : Finds (fun used e _ => Phrase 4 used e) ts (operand stop ts))
    (hoperations : ∀ lhs us, us.length < ts.length → FindsBehind stop level lhs us) :
    Finds (fun used e rest => Phrase level used e ∧ operator? level rest = none) ts
      (operation stop level ts) := by
  intro v rest h
  rw [operation] at h
  obtain ⟨e, ts', hrest, ho, h⟩ := yields_bind.1 h
  obtain ⟨_, _, _, hs, _, h⟩ := yields_bind.1 h
  cases h
  obtain ⟨used, rfl, po⟩ := hoperand _ _ ⟨_, ho⟩
  obtain ⟨used', rfl, ps, hnone⟩ :=
    hoperations e ts' hrest _ 4 hlevel po (operator?_of_lt (by decide) _) _ _ ⟨_, hs⟩
  exact ⟨used ++ used', by simp, by simpa using ps, hnone⟩

theorem operations_found {level : Nat} {lhs : Expr}
    (hoperation : ∀ level us, us.length < ts.length → level ≤ 4 →
      Finds (fun used e rest => Phrase level used e ∧ operator? level rest = none) us
        (operation stop level us))
    (hoperations : ∀ lhs us, us.length < ts.length → FindsBehind stop level lhs us) :
    FindsBehind stop level lhs ts := by
  intro before k hk hlhs hnone v rest h
  cases hop : operator? level ts with
  | none =>
    rw [operations.eq_def, hop] at h
    obtain ⟨_, h⟩ := h
    cases h
    exact ⟨[], rfl, by simpa using hlhs.of_le hk, hop⟩
  | some op =>
    obtain ⟨hlevel, span, us, rfl⟩ := operator?_eq_some hop
    rw [operations.eq_def, hop] at h
    obtain ⟨rhs, ts', hrest, hr, h⟩ := yields_bind.1 h
    obtain ⟨_, _, _, hs, _, h⟩ := yields_bind.1 h
    cases h
    -- an operator that binds tighter than `lhs` holds together would be part of it
    have hop_le : op.precedence ≤ k := by
      rw [operator?_cons] at hnone
      split at hnone
      · cases hnone
      · omega
    have hop_le' := op.precedence_le
    obtain ⟨used, rfl, pr, hnone'⟩ :=
      hoperation (op.precedence + 1) us (Nat.lt_succ_self _) (by omega) _ _ ⟨_, hr⟩
    have hbinary := Phrase.binary (hlhs.of_le hop_le) pr
    obtain ⟨used', rfl, ps, hdone⟩ := hoperations (.binary op lhs rhs) ts' (Nat.lt_succ_of_lt hrest)
      _ op.precedence hlevel hbinary hnone' _ _ ⟨_, hs⟩
    exact ⟨⟨span, .operator op.operator⟩ :: used ++ used', by simp, by simpa using ps, hdone⟩

theorem operand_found (hprimary : Finds (fun used e _ => Phrase 6 used e) ts (primary stop ts))
    (hoperand : ∀ us, us.length < ts.length →
      Finds (fun used e _ => Phrase 4 used e) us (operand stop us)) :
    Finds (fun used e _ => Phrase 4 used e) ts (operand stop ts) := by
  intro v rest h
  rw [operand.eq_def] at h
  split at h
  next span us =>
    obtain ⟨_, _, _, ho, _, h⟩ := yields_bind.1 h
    cases h
    obtain ⟨used, rfl, po⟩ := hoperand us (Nat.lt_succ_self _) _ _ ⟨_, ho⟩
    exact ⟨⟨span, .operator .minus⟩ :: used, rfl, .negate po⟩
  next =>
    obtain ⟨_, _, _, hp, h⟩ := yields_bind.1 h
    obtain ⟨_, _, _, hs, _, h⟩ := yields_bind.1 h
    cases h
    obtain ⟨used, rfl, pp⟩ := hprimary _ _ ⟨_, hp⟩
    obtain ⟨used', rfl, ps⟩ := suffixes_finds pp.looser _ _ ⟨_, hs⟩
    exact ⟨used ++ used', by simp, by simpa using ps.looser⟩

theorem primary_found
    (hexpression : ∀ us, us.length < ts.length → Finds Guard us (expression stop us))
    (htarget : ∀ us, us.length < ts.length →
      Finds (fun used t _ => Phrase 7 used t.toExpr) us (target stop us)) :
    Finds (fun used e _ => Phrase 6 used e) ts (primary stop ts) := by
  intro v rest h
  rw [primary.eq_def] at h
  split at h
  next span n us =>
    obtain ⟨_, h⟩ := h
    cases h
    exact ⟨[⟨span, .number n⟩], rfl, .number n⟩
  next span c us =>
    obtain ⟨_, h⟩ := h
    cases h
    exact ⟨[⟨span, .var c⟩], rfl, (Phrase.var c).looser⟩
  next span b us =>
    obtain ⟨_, h⟩ := h
    cases h
    exact ⟨[⟨span, .buffer b⟩], rfl, .buffer b⟩
  next span us =>
    -- something in parentheses
    obtain ⟨e, ts', _, he, h⟩ := yields_bind.1 h
    obtain ⟨_, ts'', _, hb, _, h⟩ := yields_bind.1 h
    cases h
    obtain ⟨used, rfl, pe⟩ := hexpression us (Nat.lt_succ_self _) _ _ ⟨_, he⟩
    obtain ⟨span', rfl⟩ := expect_finds hb
    refine ⟨⟨span, .leftParen⟩ :: used ++ [⟨span', .rightParen⟩], by simp, ?_⟩
    simpa using Phrase.parens pe.phrase
  next span us =>
    -- something in braces
    obtain ⟨e, ts', _, he, h⟩ := yields_bind.1 h
    obtain ⟨_, ts'', _, hb, _, h⟩ := yields_bind.1 h
    dsimp only at h
    generalize hw : width ts'' = r at h
    obtain ⟨w, _, _⟩ := r
    cases h
    obtain ⟨used, rfl, hp⟩ :=
      braces_finds (hexpression us (Nat.lt_succ_self _) _ _ ⟨_, he⟩) hb hw
    exact ⟨⟨span, .leftBrace⟩ :: used, rfl, hp.looser⟩
  next span us =>
    -- the address of a target
    obtain ⟨t, _, _, ht, _, h⟩ := yields_bind.1 h
    cases h
    obtain ⟨used, rfl, pt⟩ := htarget us (Nat.lt_succ_self _) _ _ ⟨_, ht⟩
    exact ⟨⟨span, .modifier .addressOf⟩ :: used, rfl, .addressOf pt⟩
  next span us =>
    obtain ⟨_, h⟩ := h
    cases h
    exact ⟨[⟨span, .word .rand⟩], rfl, .rand⟩
  next span us =>
    -- a key code in parentheses
    obtain ⟨_, ts₁, hrest, hb, h⟩ := yields_bind.1 h
    obtain ⟨e, ts₂, _, he, h⟩ := yields_bind.1 h
    obtain ⟨_, ts₃, _, hb', _, h⟩ := yields_bind.1 h
    cases h
    obtain ⟨span₁, rfl⟩ := expect_finds hb
    obtain ⟨used, rfl, pe⟩ := hexpression ts₁ (Nat.lt_succ_of_lt hrest) _ _ ⟨_, he⟩
    obtain ⟨span₂, rfl⟩ := expect_finds hb'
    refine ⟨⟨span, .word .getKey⟩ :: ⟨span₁, .leftParen⟩ :: used ++ [⟨span₂, .rightParen⟩],
      by simp, ?_⟩
    simpa using Phrase.getKey pe.phrase
  next span us =>
    -- two expressions with a comma between them
    obtain ⟨_, ts₁, hrest₁, hb, h⟩ := yields_bind.1 h
    obtain ⟨x, ts₂, hrest₂, hx, h⟩ := yields_bind.1 h
    obtain ⟨_, ts₃, hrest₃, hc, h⟩ := yields_bind.1 h
    obtain ⟨y, ts₄, _, hy, h⟩ := yields_bind.1 h
    obtain ⟨_, ts₅, _, hb', _, h⟩ := yields_bind.1 h
    dsimp only at h
    generalize hs : surface ts₅ = r at h
    obtain ⟨s, _, _⟩ := r
    cases h
    have hshorter : ts₃.length < us.length := by omega
    obtain ⟨span₁, rfl⟩ := expect_finds hb
    obtain ⟨vs, rfl, px⟩ := hexpression ts₁ (Nat.lt_succ_of_lt hrest₁) _ _ ⟨_, hx⟩
    obtain ⟨span₂, rfl⟩ := expect_finds hc
    obtain ⟨ws, rfl, py⟩ := hexpression ts₃ (Nat.lt_succ_of_lt hshorter) _ _ ⟨_, hy⟩
    obtain ⟨span₃, rfl⟩ := expect_finds hb'
    obtain ⟨marks, rfl, pm⟩ := surface_finds hs
    refine ⟨⟨span, .word .pxlTest⟩ :: ⟨span₁, .leftParen⟩ :: vs ++ ⟨span₂, .comma⟩ :: ws ++
      ⟨span₃, .rightParen⟩ :: marks, by simp, ?_⟩
    simpa [pm] using Phrase.pxlTest s px.phrase py.phrase
  next =>
    -- no other lexeme begins an operand
    obtain ⟨_, h⟩ := h
    cases h

end

theorem expression_finds (stop : Span) (ts : List Lexeme) : Finds Guard ts (expression stop ts) :=
  expression_induction (fun _ h => expression_found (h (by decide))) (fun _ _ => stores_found)
    (fun _ => target_found) (fun _ _ hoperand hoperations hlevel =>
      operation_found hlevel hoperand hoperations)
    (fun _ _ _ => operations_found) (fun _ => operand_found) (fun _ => primary_found) ts

theorem moreExpressions_finds {ts : List Lexeme} {e : Expr} {before : List Token}
    (he : Phrase 0 before e) :
    Finds (fun used es _ => Phrases (before ++ used) (e :: es)) ts (moreExpressions stop ts) := by
  intro v rest h
  fun_induction moreExpressions stop ts generalizing e before v with
  | case1 span ts ih =>
    obtain ⟨e', ts', hrest, he', h⟩ := yields_bind.1 h
    obtain ⟨es, _, _, hs, _, h⟩ := yields_bind.1 h
    cases h
    obtain ⟨used, rfl, pe⟩ := expression_finds _ _ _ _ ⟨_, he'⟩
    obtain ⟨used', rfl, ps⟩ := ih ts' hrest pe.phrase es ⟨_, hs⟩
    exact ⟨⟨span, .comma⟩ :: used ++ used', by simp, by simpa using Phrases.more he ps⟩
  | case2 ts =>
    obtain ⟨_, h⟩ := h
    cases h
    exact ⟨[], rfl, by simpa using Phrases.one he⟩

theorem expressions_finds (stop : Span) (ts : List Lexeme) :
    Finds (fun used es _ => Phrases used es) ts (expressions stop ts) := by
  intro v rest h
  obtain ⟨e, ts', _, he, h⟩ := yields_bind.1 h
  obtain ⟨es, _, _, hs, _, h⟩ := yields_bind.1 h
  cases h
  obtain ⟨used, rfl, pe⟩ := expression_finds _ _ _ _ ⟨_, he⟩
  obtain ⟨used', rfl, ps⟩ := moreExpressions_finds pe.phrase _ _ ⟨_, hs⟩
  exact ⟨used ++ used', by simp, by simpa using ps⟩

/-! ## Simple statements -/

theorem sketch_finds {graphic : Graphic} (ha : graphic.arity = 0) {ts rest : List Lexeme}
    {s : Surface} {hr} (hs : surface ts = ⟨s, rest, hr⟩) :
    ∃ used, ts = used ++ rest ∧
      Simple span (graphic.opening ++ used.map Lexeme.token) (.draw span graphic s []) := by
  obtain ⟨marks, rfl, pm⟩ := surface_finds hs
  refine ⟨marks, rfl, ?_⟩
  rw [pm]
  exact .sketch s ha

theorem drawing_finds (stop span : Span) (graphic : Graphic) (ts : List Lexeme) :
    Finds (fun used s _ => Simple span (graphic.opening ++ used) s) ts
      (drawing stop span graphic ts) := by
  intro v rest h
  unfold drawing at h
  split at h
  · next harity =>
    obtain ⟨_, h⟩ := h
    dsimp only at h
    generalize hs : surface ts = r at h
    obtain ⟨s, _, _⟩ := r
    cases h
    exact sketch_finds harity hs
  · obtain ⟨_, ts₁, _, hb, h⟩ := yields_bind.1 h
    obtain ⟨es, ts₂, _, he, h⟩ := yields_bind.1 h
    obtain ⟨_, ts₃, _, hb', h⟩ := yields_bind.1 h
    dsimp only at h
    split at h
    · obtain ⟨_, h⟩ := h
      cases h
    · next hcount =>
      obtain ⟨_, h⟩ := h
      generalize hs : surface ts₃ = r at h
      obtain ⟨s, _, _⟩ := r
      cases h
      obtain ⟨span₁, rfl⟩ := expect_finds hb
      obtain ⟨used, rfl, pe⟩ := expressions_finds _ _ _ _ ⟨_, he⟩
      obtain ⟨span₂, rfl⟩ := expect_finds hb'
      obtain ⟨marks, rfl, pm⟩ := surface_finds hs
      refine ⟨⟨span₁, .leftParen⟩ :: used ++ ⟨span₂, .rightParen⟩ :: marks, by simp, ?_⟩
      simpa [pm] using Simple.draw s pe (Decidable.not_not.1 hcount)

theorem shift_finds {w : Word} {plus minus : Graphic}
    (hplus : plus.opening = [.word w, .operator .plus] ∧ plus.arity = 0)
    (hminus : minus.opening = [.word w, .operator .minus] ∧ minus.arity = 0) (ts : List Lexeme) :
    Finds (fun used s _ => Simple span (.word w :: used) s) ts (shift stop span plus minus ts) := by
  intro v rest h
  unfold shift at h
  split at h
  · next span' ts =>
    obtain ⟨_, h⟩ := h
    dsimp only at h
    generalize hs : surface ts = r at h
    obtain ⟨s, _, _⟩ := r
    cases h
    obtain ⟨marks, rfl, hp⟩ := sketch_finds hplus.2 hs
    rw [hplus.1] at hp
    exact ⟨⟨span', .operator .plus⟩ :: marks, rfl, hp⟩
  · next span' ts =>
    obtain ⟨_, h⟩ := h
    dsimp only at h
    generalize hs : surface ts = r at h
    obtain ⟨s, _, _⟩ := r
    cases h
    obtain ⟨marks, rfl, hp⟩ := sketch_finds hminus.2 hs
    rw [hminus.1] at hp
    exact ⟨⟨span', .operator .minus⟩ :: marks, rfl, hp⟩
  · obtain ⟨_, h⟩ := h
    cases h

theorem effect_finds (stop span : Span) (ts : List Lexeme) :
    Finds (fun used s _ => Simple span used s) ts (effect stop span ts) := by
  intro v rest h
  obtain ⟨e, ts', _, he, h⟩ := yields_bind.1 h
  obtain ⟨used, rfl, pe⟩ := expression_finds _ _ _ _ ⟨_, he⟩
  dsimp only at h
  split at h
  · next heffect =>
    obtain ⟨_, h⟩ := h
    cases h
    exact ⟨used, rfl, .effect pe.phrase heffect⟩
  · obtain ⟨_, h⟩ := h
    cases h

theorem command_finds (stop span : Span) (word : CommandWord) (ts : List Lexeme) :
    Finds (fun used s _ => Simple span (.command word :: used) s) ts
      (command stop span word ts) := by
  intro v rest h
  unfold command at h
  cases word with
  | exit =>
    obtain ⟨_, h⟩ := h
    cases h
    exact ⟨[], rfl, .exit⟩
  | help =>
    obtain ⟨_, h⟩ := h
    cases h
    exact ⟨[], rfl, .help⟩
  | about =>
    obtain ⟨_, h⟩ := h
    cases h
    exact ⟨[], rfl, .about⟩
  | debug =>
    obtain ⟨e, _, _, he, _, h⟩ := yields_bind.1 h
    cases h
    obtain ⟨used, rfl, pe⟩ := expression_finds _ _ _ _ ⟨_, he⟩
    exact ⟨used, rfl, .debug pe.phrase⟩

theorem graphic?_eq_some {w : Word} {graphic : Graphic} (h : graphic? w = some graphic) :
    graphic.opening = [.word w] := by
  cases w <;> cases h <;> rfl

theorem effect_first {t : Lexeme} {ts rest : List Lexeme} {s : Stmt}
    (h : Yields (effect stop t.span (t :: ts)) s rest) :
    ∃ used, ts = used ++ rest ∧ Simple t.span (t.token :: used.map Lexeme.token) s := by
  obtain ⟨used, hts, hp⟩ := effect_finds _ _ _ _ _ h
  cases used with
  | nil =>
    obtain ⟨_, _, hnil, -⟩ := hp.starts
    cases hnil
  | cons u used =>
    obtain ⟨rfl, rfl⟩ := List.cons.inj hts
    exact ⟨used, rfl, hp⟩

theorem simple_finds {ts rest : List Lexeme} {s : Stmt} (h : Yields (simple stop ts) s rest) :
    ∃ t used, ts = t :: used ++ rest ∧ Simple t.span (t.token :: used.map Lexeme.token) s := by
  unfold simple at h
  split at h
  · -- `Lbl`
    next span ts =>
    obtain ⟨name, _, _, hn, _, h⟩ := yields_bind.1 h
    cases h
    obtain ⟨t, rfl, hname⟩ := labelName_finds hn
    exact ⟨⟨span, .word .lbl⟩, [t], rfl, .label hname⟩
  · -- `Goto`
    next span ts =>
    obtain ⟨name, _, _, hn, _, h⟩ := yields_bind.1 h
    cases h
    obtain ⟨t, rfl, hname⟩ := labelName_finds hn
    exact ⟨⟨span, .word .goto⟩, [t], rfl, .goto hname⟩
  · -- `Disp`
    next span ts =>
    obtain ⟨es, _, _, he, _, h⟩ := yields_bind.1 h
    cases h
    obtain ⟨used, rfl, pe⟩ := expressions_finds _ _ _ _ ⟨_, he⟩
    exact ⟨⟨span, .word .disp⟩, used, rfl, .disp pe⟩
  · -- `Pause`
    next span ts =>
    obtain ⟨e, _, _, he, _, h⟩ := yields_bind.1 h
    cases h
    obtain ⟨used, rfl, pe⟩ := expression_finds _ _ _ _ ⟨_, he⟩
    exact ⟨⟨span, .word .pause⟩, used, rfl, .pause pe.phrase⟩
  · -- `DispGraph`
    next span ts =>
    obtain ⟨_, h⟩ := h
    dsimp only at h
    generalize hs : shade ts = r at h
    obtain ⟨shade, _, _⟩ := r
    cases h
    obtain ⟨used, rfl, pm⟩ := shade_finds hs
    exact ⟨⟨span, .word .dispGraph⟩, used, rfl, by rw [pm]; exact .dispGraph shade⟩
  · next span ts =>
    obtain ⟨used, rfl, hp⟩ := shift_finds ⟨rfl, rfl⟩ ⟨rfl, rfl⟩ ts _ _ h
    exact ⟨⟨span, .word .horizontal⟩, used, rfl, hp⟩
  · next span ts =>
    obtain ⟨used, rfl, hp⟩ := shift_finds ⟨rfl, rfl⟩ ⟨rfl, rfl⟩ ts _ _ h
    exact ⟨⟨span, .word .vertical⟩, used, rfl, hp⟩
  · next span w ts _ _ _ _ _ _ _ =>
    split at h
    · next graphic hgraphic =>
      obtain ⟨used, rfl, hp⟩ := drawing_finds _ _ _ _ _ _ h
      rw [graphic?_eq_some hgraphic] at hp
      exact ⟨⟨span, .word w⟩, used, rfl, hp⟩
    · obtain ⟨used, rfl, hp⟩ := effect_first h
      exact ⟨⟨span, .word w⟩, used, rfl, hp⟩
  · next span word ts =>
    obtain ⟨used, rfl, hp⟩ := command_finds _ _ _ _ _ _ h
    exact ⟨⟨span, .command word⟩, used, rfl, hp⟩
  · next span token ts _ _ _ _ _ _ _ _ _ =>
    obtain ⟨used, rfl, hp⟩ := effect_first h
    exact ⟨⟨span, token⟩, used, rfl, hp⟩
  · obtain ⟨hlt, -⟩ := h
    exact absurd hlt (Nat.not_lt_zero _)

/-! ## Blocks -/

theorem forHead_finds (stop : Span) (ts : List Lexeme) :
    Finds (fun used kind _ => ∀ behind, Head (.word .forWord :: used) kind behind) ts
      (forHead stop ts) := by
  intro v rest h
  obtain ⟨_, ts₁, _, hb, h⟩ := yields_bind.1 h
  obtain ⟨first, ts₂, _, hf, h⟩ := yields_bind.1 h
  dsimp only at h
  generalize hc : accept .comma ts₂ = r at h
  obtain ⟨more, ts₃, _⟩ := r
  obtain ⟨span₁, rfl⟩ := expect_finds hb
  obtain ⟨us, rfl, pf⟩ := expression_finds _ _ _ _ ⟨_, hf⟩
  rcases accept_finds hc with ⟨rfl, span₂, rfl⟩ | ⟨rfl, rfl⟩
  · -- a variable, its first and its last value
    rw [if_pos rfl] at h
    cases ht : first.toTarget? with
    | none =>
      rw [ht] at h
      obtain ⟨_, h⟩ := h
      cases h
    | some target =>
      rw [ht] at h
      obtain ⟨start, ts₄, _, hs, h⟩ := yields_bind.1 h
      obtain ⟨_, ts₅, _, hc', h⟩ := yields_bind.1 h
      obtain ⟨last, ts₆, _, hl, h⟩ := yields_bind.1 h
      obtain ⟨_, ts₇, _, hb', _, h⟩ := yields_bind.1 h
      cases h
      obtain ⟨vs, rfl, ps⟩ := expression_finds _ _ _ _ ⟨_, hs⟩
      obtain ⟨span₃, rfl⟩ := expect_finds hc'
      obtain ⟨ws, rfl, pl⟩ := expression_finds _ _ _ _ ⟨_, hl⟩
      obtain ⟨span₄, rfl⟩ := expect_finds hb'
      refine ⟨⟨span₁, .leftParen⟩ :: us ++ ⟨span₂, .comma⟩ :: vs ++ ⟨span₃, .comma⟩ :: ws ++
        [⟨span₄, .rightParen⟩], by simp, ?_⟩
      intro behind
      have pf' := pf.phrase
      rw [Expr.toTarget?_eq_some.1 ht] at pf'
      simpa using @Head.count _ _ _ _ _ _ behind pf' ps.phrase pl.phrase
  · -- a number of passes
    obtain ⟨_, ts₄, _, hb', _, h⟩ := yields_bind.1 h
    cases h
    obtain ⟨span₂, rfl⟩ := expect_finds hb'
    refine ⟨⟨span₁, .leftParen⟩ :: us ++ [⟨span₂, .rightParen⟩], by simp, ?_⟩
    intro behind
    simpa using @Head.times _ _ behind pf.phrase

/-- What was read up to the end of a block, which is no part of it. -/
def Ended : Closing → List Lexeme → List Stmt → List Lexeme → Prop
  | .inputEnd, ts, ss, rest => rest = [] ∧ Sentence .program ts ss
  | .endWord _, ts, ss, rest =>
    ∃ used close, ts = used ++ close :: rest ∧ Sentence .block used ss ∧
      close.token = .word .endWord
  | .elseWord _, ts, ss, rest =>
    ∃ used close, ts = used ++ close :: rest ∧ Sentence .block used ss ∧
      close.token = .word .elseWord

theorem ended_separator {closing : Closing} {t : Lexeme} {ts rest : List Lexeme} {ss : List Stmt}
    (ht : t.token.isSeparator) (h : Ended closing ts ss rest) :
    Ended closing (t :: ts) ss rest := by
  cases closing with
  | inputEnd =>
    obtain ⟨hrest, h⟩ := h
    refine ⟨hrest, ?_⟩
    cases h with
    | closed h => exact .closed (.separator ht h)
    | unclosed h hs => exact .unclosed (.separator ht h) hs
  | endWord | elseWord =>
    obtain ⟨used, close, rfl, h, hclose⟩ := h
    exact ⟨t :: used, close, rfl, .separator ht h, hclose⟩

theorem ended_cons {closing : Closing} {t : Lexeme} {us ts rest : List Lexeme} {s : Stmt}
    {ss : List Stmt} (hs : Sentence .statement us [s]) (ht : t.token.isSeparator)
    (h : Ended closing (t :: ts) ss rest) : Ended closing (us ++ t :: ts) (s :: ss) rest := by
  -- what follows begins with the separator, so the statement is not the last one
  have hcons {used : List Lexeme} {ss : List Stmt} (h : Sentence .block (t :: used) ss) :
      Sentence .block (us ++ t :: used) (s :: ss) := .cons hs ht (h.of_separator ht)
  cases closing with
  | inputEnd =>
    obtain ⟨hrest, h⟩ := h
    refine ⟨hrest, ?_⟩
    generalize hts : t :: ts = us' at h ⊢
    cases h with
    | closed h =>
      subst hts
      exact .closed (hcons h)
    | @unclosed vs ws _ _ h hs' =>
      cases vs with
      | nil =>
        obtain ⟨t', _, rfl, hstarts⟩ := hs'.starts
        obtain ⟨rfl, -⟩ := List.cons.inj hts
        simp [Token.not_isSeparator hstarts] at ht
      | cons v vs =>
        obtain ⟨rfl, -⟩ := List.cons.inj hts
        rw [← List.append_assoc]
        exact .unclosed (hcons h) hs'
  | endWord | elseWord =>
    obtain ⟨used, close, hts, h, hclose⟩ := h
    cases used with
    | nil =>
      obtain ⟨rfl, -⟩ := List.cons.inj hts
      simp [hclose, Token.isSeparator] at ht
    | cons u used =>
      obtain ⟨rfl, rfl⟩ := List.cons.inj hts
      exact ⟨us ++ t :: used, close, by simp, hcons h, hclose⟩

theorem endOfStatement_ok {ts : List Lexeme} {u : Unit} (h : endOfStatement stop ts = .ok u) :
    ts = [] ∨ ∃ t ts', ts = t :: ts' ∧ t.token.isSeparator := by
  unfold endOfStatement at h
  split at h
  · exact .inl rfl
  · next t ts =>
    split at h
    · next ht => exact .inr ⟨t, ts, rfl, ht⟩
    · cases h

theorem then_finds {used : List Token} {c : Expr} {ts rest : List Lexeme} {v : Bool} {hr}
    (hc : Guard used c ts) (h : accept (.word .thenWord) ts = ⟨v, rest, hr⟩) :
    ∃ mark, ts = mark ++ rest ∧ ∀ ys zs, rest = ys ++ zs →
      Choice (.word .ifWord :: used ++ mark.map Lexeme.token) c ys := by
  rcases accept_finds h with ⟨-, span, rfl⟩ | ⟨-, rfl⟩
  · exact ⟨[⟨span, .word .thenWord⟩], rfl, fun _ _ _ => .marked hc.phrase⟩
  · refine ⟨[], rfl, fun ys zs hys => ?_⟩
    rw [hys] at hc
    simpa using Choice.bare hc.of_append

theorem loop_finds {w : Word} {kind : Loop} {ss : List Stmt} {ts ts₁ rest : List Lexeme}
    (hh : ∃ used, ts = used ++ ts₁ ∧ ∀ ys zs, ts₁ = ys ++ zs →
      Head (.word w :: used.map Lexeme.token) kind ys)
    (hb : ∃ used close, ts₁ = used ++ close :: rest ∧ Sentence .block used ss ∧
      close.token = .word .endWord) :
    ∃ used, ⟨span, .word w⟩ :: ts = used ++ rest ∧
      Sentence .statement used [.loop span kind ss] := by
  obtain ⟨used, rfl, hh⟩ := hh
  obtain ⟨ys, close, rfl, hb, hclose⟩ := hb
  exact ⟨⟨span, .word w⟩ :: used ++ ys ++ [close], by simp, .loop (hh _ _ rfl) hb hclose⟩

/-- The reader of a block finds one behind the statements that it adds to. -/
def BlockFinds (stop : Span) (ts : List Lexeme) : Prop :=
  ∀ n done hn v closing rest, Yields (block stop n done ts hn) (v, closing) rest →
    ∃ ss, v = done.toList ++ ss ∧ Ended closing ts ss rest

/-- The reader of a block that only `End` may close finds one. -/
def BodyFinds (stop : Span) (ts : List Lexeme) : Prop :=
  ∀ ss rest, Yields (body stop ts) ss rest →
    ∃ used close, ts = used ++ close :: rest ∧ Sentence .block used ss ∧
      close.token = .word .endWord

section

variable {ts : List Lexeme}

theorem cond_found (hblock : ∀ us, us.length < ts.length + 1 → BlockFinds stop us)
    (hbody : ∀ us, us.length < ts.length + 1 → BodyFinds stop us) {s : Stmt} {rest : List Lexeme}
    (h : Yields (statement stop (⟨span, .word .ifWord⟩ :: ts)) s rest) :
    ∃ used, ⟨span, .word .ifWord⟩ :: ts = used ++ rest ∧ Sentence .statement used [s] := by
  rw [statement] at h
  obtain ⟨c, ts₁, hrest₁, hc, h⟩ := yields_bind.1 h
  dsimp only at h
  generalize ha : accept (.word .thenWord) ts₁ = r at h
  obtain ⟨_, ts₂, hrest₂⟩ := r
  obtain ⟨⟨yes, closing⟩, ts₃, hrest₃, hy, h⟩ := yields_bind.1 h
  have hshorter₂ : ts₂.length < ts.length + 1 := by omega
  have hshorter₃ : ts₃.length < ts.length + 1 := Nat.lt_of_lt_of_le hrest₃ hshorter₂
  obtain ⟨ss, hyes, py⟩ := hblock ts₂ hshorter₂ _ _ _ _ _ _ ⟨_, hy⟩
  rw [List.nil_append] at hyes
  subst hyes
  obtain ⟨used, rfl, pc⟩ := expression_finds _ _ _ _ ⟨_, hc⟩
  obtain ⟨mark, rfl, hchoice⟩ := then_finds pc ha
  have hchoice' (ys zs : List Lexeme) (h : ts₂ = ys ++ zs) :
      Choice ((⟨span, .word .ifWord⟩ :: (used ++ mark)).map Lexeme.token) c ys := by
    simpa using hchoice ys zs h
  -- what closes the first block decides whether there is a second one
  cases closing with
  | inputEnd =>
    obtain ⟨_, h⟩ := h
    cases h
  | endWord _ =>
    obtain ⟨_, h⟩ := h
    cases h
    obtain ⟨ys, close, rfl, py, hclose⟩ := py
    exact ⟨⟨span, .word .ifWord⟩ :: (used ++ mark) ++ ys ++ [close], by simp,
      .cond (hchoice' _ _ rfl) py (.close hclose)⟩
  | elseWord _ =>
    obtain ⟨no, ts₄, _, hn, _, h⟩ := yields_bind.1 h
    cases h
    obtain ⟨ns, close, rfl, pn, hclose⟩ := hbody ts₃ hshorter₃ _ _ ⟨_, hn⟩
    obtain ⟨ys, t, rfl, py, ht⟩ := py
    exact ⟨⟨span, .word .ifWord⟩ :: (used ++ mark) ++ ys ++ (t :: ns ++ [close]), by simp,
      .cond (hchoice' _ _ rfl) py (.otherwise ht pn hclose)⟩

theorem statement_found (hblock : ∀ us, us.length < ts.length → BlockFinds stop us)
    (hbody : ∀ us, us.length < ts.length → BodyFinds stop us) :
    ∀ s rest, Yields (statement stop ts) s rest →
      ∃ used, ts = used ++ rest ∧ Sentence .statement used [s] := by
  intro s rest h
  have hwhole := h
  rw [statement.eq_def] at h
  split at h
  next span us => exact cond_found hblock hbody hwhole
  next span us =>
    -- `While`
    obtain ⟨c, ts₁, hrest, hc, h⟩ := yields_bind.1 h
    obtain ⟨ss, _, _, hs, _, h⟩ := yields_bind.1 h
    cases h
    obtain ⟨used, hts, pc⟩ := expression_finds _ _ _ _ ⟨_, hc⟩
    refine loop_finds ⟨used, hts, ?_⟩ (hbody ts₁ (Nat.lt_succ_of_lt hrest) _ _ ⟨_, hs⟩)
    rintro ys zs rfl
    exact .whileTrue pc.of_append
  next span us =>
    -- `Repeat`
    obtain ⟨c, ts₁, hrest, hc, h⟩ := yields_bind.1 h
    obtain ⟨ss, _, _, hs, _, h⟩ := yields_bind.1 h
    cases h
    obtain ⟨used, hts, pc⟩ := expression_finds _ _ _ _ ⟨_, hc⟩
    refine loop_finds ⟨used, hts, ?_⟩ (hbody ts₁ (Nat.lt_succ_of_lt hrest) _ _ ⟨_, hs⟩)
    rintro ys zs rfl
    exact .repeatUntil pc.of_append
  next span us =>
    -- `For`
    obtain ⟨kind, ts₁, hrest, hh, h⟩ := yields_bind.1 h
    obtain ⟨ss, _, _, hs, _, h⟩ := yields_bind.1 h
    cases h
    obtain ⟨used, hts, ph⟩ := forHead_finds _ _ _ _ ⟨_, hh⟩
    exact loop_finds ⟨used, hts, fun ys _ _ => ph ys⟩
      (hbody ts₁ (Nat.lt_succ_of_lt hrest) _ _ ⟨_, hs⟩)
  next =>
    obtain ⟨t, used, rfl, hs⟩ := simple_finds h
    exact ⟨t :: used, rfl, .simple hs⟩

theorem block_found
    (hstatement : ∀ s rest, Yields (statement stop ts) s rest →
      ∃ used, ts = used ++ rest ∧ Sentence .statement used [s])
    (hblock : ∀ us, us.length < ts.length → BlockFinds stop us) : BlockFinds stop ts := by
  intro n done hn v closing rest h
  cases ts with
  | nil =>
    rw [block] at h
    obtain ⟨_, h⟩ := h
    cases h
    exact ⟨[], by simp, rfl, .closed .nil⟩
  | cons t ts =>
    by_cases hsep : t.token.isSeparator
    · rw [block_separator hsep] at h
      obtain ⟨ss, hss, hended⟩ := hblock ts (Nat.lt_succ_self _) _ _ _ _ _ _ h
      exact ⟨ss, hss, ended_separator hsep hended⟩
    by_cases hend : t.token = .word .endWord
    · rw [block_end hend] at h
      obtain ⟨_, h⟩ := h
      cases h
      exact ⟨[], by simp, [], t, rfl, .nil, hend⟩
    by_cases helse : t.token = .word .elseWord
    · rw [block_else helse] at h
      obtain ⟨_, h⟩ := h
      cases h
      exact ⟨[], by simp, [], t, rfl, .nil, helse⟩
    rw [block_cons hsep hend helse] at h
    obtain ⟨s, ts₁, hrest, hs, hx, h⟩ := yields_bind.1 h
    obtain ⟨_, he, h⟩ := bind_eq_ok.1 h
    obtain ⟨used, hts, ps⟩ := hstatement _ _ ⟨_, hs⟩
    rw [hts]
    rcases endOfStatement_ok he with rfl | ⟨t', ts', rfl, hsep'⟩
    · -- nothing follows
      rw [block] at h
      cases h
      refine ⟨[s], by simp, rfl, ?_⟩
      rw [List.append_nil]
      exact .unclosed .nil ps
    · obtain ⟨ss, hss, hended⟩ := hblock _ hrest _ _ _ _ _ _ ⟨_, h⟩
      refine ⟨s :: ss, ?_, ended_cons ps hsep' hended⟩
      rw [hss, Array.toList_push, List.append_assoc]
      rfl

theorem body_found (hblock : BlockFinds stop ts) : BodyFinds stop ts := by
  intro ss rest h
  rw [body] at h
  obtain ⟨⟨v, closing⟩, ts₁, _, hb, h⟩ := yields_bind.1 h
  obtain ⟨ss', hv, pb⟩ := hblock _ _ _ _ _ _ ⟨_, hb⟩
  rw [List.nil_append] at hv
  subst hv
  obtain ⟨_, h⟩ := h
  cases closing with
  | endWord _ =>
    cases h
    exact pb
  | inputEnd | elseWord _ => cases h

end

theorem block_finds (stop : Span) (ts : List Lexeme) : BlockFinds stop ts :=
  block_induction (fun _ => statement_found) (fun _ => block_found) (fun _ => body_found) ts

end Parser

theorem sentence_of_parse {ts : List Lexeme} {ss : List Stmt} (h : parse ts = .ok ss) :
    Sentence .program (significant ts) ss := by
  obtain ⟨⟨⟨v, closing⟩, rest, _⟩, hb, h⟩ := bind_eq_ok.1 h
  obtain ⟨ss', hv, hended⟩ := Parser.block_finds (inputEnd ts) _ _ _ _ _ _ _ ⟨_, hb⟩
  rw [List.nil_append] at hv
  subst hv
  cases closing with
  | inputEnd =>
    cases h
    exact hended.2
  | endWord _ | elseWord _ => cases h

end Handheld
