import Handheld.Proofs.Reading.Cursor

/-!
# The cursor finds what the parser finds

The readers of the parser take lexemes from the front of a list, in which there
is no trivia. A cursor that stands where such a list begins does the same, reader
by reader (`Agrees`), as long as it may nest its calls deeply enough.
-/

namespace Handheld.Cursor

variable {ts rest : List Lexeme} {stop : Span} {pos : Nat}

/-! ## Agreement -/

/-- A cursor finds what a reader of the significant lexemes finds, up to `f`, and then what is left to
it is left to the cursor. -/
inductive Agrees {α β : Type} {n : Nat} (ts : List Lexeme) (stop : Span) (f : α → β) :
    Except Diagnostic (Parsed α n) → ExceptT Diagnostic Option (β × Nat) → Prop
  | error (e : Diagnostic) : Agrees ts stop f (.error e) (throw e)
  | ok {v : α} {rest : List Lexeme} {pos : Nat} {h : rest.length < n}
      (hstands : Stands ts stop pos rest) : Agrees ts stop f (.ok ⟨v, rest, h⟩) (pure (f v, pos))

section

variable {α β γ δ : Type} {m n : Nat} {f : α → β} {g : γ → δ} {x : Except Diagnostic (Parsed γ n)}

theorem Agrees.bind {y : Except Diagnostic (Parsed α m)} {r : Cursor β} (hy : Agrees ts stop f y (r pos))
    {k : Parsed α m → Except Diagnostic (Parsed γ n)} {s : β → Cursor δ}
    (hk : ∀ v rest h pos, Stands ts stop pos rest →
      Agrees ts stop g (k ⟨v, rest, h⟩) (s (f v) pos)) :
    Agrees ts stop g (y >>= k) ((r >>= s) pos) := by
  change Agrees ts stop g _ (r pos >>= fun p => s p.1 p.2)
  generalize r pos = z at hy
  cases hy with
  | error e => exact .error e
  | ok hstands => exact hk _ _ _ _ hstands

theorem Agrees.same {y : Except Diagnostic (Parsed α m)} {z : ExceptT Diagnostic Option (β × Nat)}
    (hy : Agrees ts stop f y z) {k : Parsed α m → Except Diagnostic (Parsed α n)}
    (hk : ∀ v rest h, ∃ h', k ⟨v, rest, h⟩ = .ok ⟨v, rest, h'⟩) : Agrees ts stop f (y >>= k) z := by
  cases hy with
  | error e => exact .error e
  | @ok v rest pos h hstands =>
    obtain ⟨h', heq⟩ := hk v rest h
    change Agrees ts stop f (k ⟨v, rest, h⟩) _
    rw [heq]
    exact .ok hstands

theorem Agrees.after {r : Cursor β} {w : β} {pos' : Nat} (hr : r pos = pure (w, pos')) {s : β → Cursor δ}
    (hs : Agrees ts stop g x (s w pos')) : Agrees ts stop g x ((r >>= s) pos) := by
  change Agrees ts stop g _ (r pos >>= fun p => s p.1 p.2)
  rw [hr]
  exact hs

theorem Agrees.fails {r : Cursor β} {e : Diagnostic} (hr : r pos = throw e) {s : β → Cursor δ} :
    Agrees ts stop g (.error e : Except Diagnostic (Parsed γ n)) ((r >>= s) pos) := by
  change Agrees ts stop g _ (r pos >>= fun p => s p.1 p.2)
  rw [hr]
  exact .error e

theorem Stands.peek (h : Stands ts stop pos rest) {s : Token → Cursor δ}
    (hs : ∀ pos, Stands ts stop pos rest → Agrees ts stop g x (s (first rest) pos)) :
    Agrees ts stop g x ((peek ts >>= s) pos) :=
  .after h.peek_eq (hs _ h.skip)

theorem Stands.here (h : Stands ts stop pos rest) {s : Span → Cursor δ}
    (hs : ∀ pos, Stands ts stop pos rest → Agrees ts stop g x (s (firstSpan stop rest) pos)) :
    Agrees ts stop g x ((here ts >>= s) pos) :=
  .after h.here_eq (hs _ h.skip)

theorem Stands.next {t : Lexeme} (h : Stands ts stop pos (t :: rest)) {s : Token → Cursor δ}
    (hs : ∀ pos, Stands ts stop pos rest → Agrees ts stop g x (s t.token pos)) :
    Agrees ts stop g x ((next ts >>= s) pos) :=
  .after h.next_eq.1 (hs _ h.next_eq.2)

theorem Stands.next_nil (h : Stands ts stop pos []) {s : Token → Cursor δ}
    (hs : ∀ pos, Agrees ts stop g x (s .eof pos)) : Agrees ts stop g x ((Cursor.next ts >>= s) pos) := by
  obtain ⟨pos', hnext⟩ := h.next_eof
  exact .after hnext (hs pos')

theorem Stands.eat {token : Token} (h : Stands ts stop pos rest) (htoken : token ≠ .eof)
    {s : Bool → Cursor δ}
    (hs : ∀ b rest' hr pos, Parser.accept token rest = ⟨b, rest', hr⟩ → Stands ts stop pos rest' →
      Agrees ts stop g x (s b pos)) :
    Agrees ts stop g x ((eat ts token >>= s) pos) := by
  unfold Cursor.eat
  rw [bind_assoc]
  refine h.peek fun pos h => ?_
  by_cases hfirst : first rest = token
  · cases rest with
    | nil => exact absurd hfirst.symm htoken
    | cons t rest =>
      rw [if_pos hfirst, bind_assoc]
      refine h.next fun pos h => ?_
      rw [pure_bind]
      exact hs _ _ _ _ (by rw [Parser.accept, if_pos (show t.token = token from hfirst)]) h
  · obtain ⟨hr, haccept⟩ : ∃ hr, Parser.accept token rest = ⟨false, rest, hr⟩ :=
      Parser.accept_of_ne (by cases rest <;> simp_all [first])
    rw [if_neg hfirst, pure_bind]
    exact hs _ _ _ _ haccept h

end

theorem expect_agrees {token : Token} (htoken : token ≠ .eof) (h : Stands ts stop pos rest) :
    Agrees ts stop id (Parser.expect stop token rest) (expect ts token pos) := by
  unfold expect
  refine h.here fun pos h => ?_
  cases rest with
  | nil =>
    refine h.next_nil fun pos => ?_
    rw [if_neg htoken.symm]
    exact .error _
  | cons t rest =>
    refine h.next fun pos h => ?_
    rw [Parser.expect]
    split
    · exact .ok h
    · exact .error _

section

variable {γ δ : Type} {n : Nat} {g : γ → δ} {x : Except Diagnostic (Parsed γ n)}

theorem Stands.width (h : Stands ts stop pos rest) {s : Width → Cursor δ}
    (hs : ∀ w rest' hr pos, Parser.width rest = ⟨w, rest', hr⟩ → Stands ts stop pos rest' →
      Agrees ts stop g x (s w pos)) : Agrees ts stop g x ((width ts >>= s) pos) := by
  unfold Cursor.width
  rw [bind_assoc]
  refine h.eat (by decide) fun r rest' hr pos haccept h => ?_
  rw [pure_bind]
  exact hs _ _ _ _ (by rw [Parser.width, haccept]) h

theorem Stands.surface (h : Stands ts stop pos rest) {s : Surface → Cursor δ}
    (hs : ∀ w rest' hr pos, Parser.surface rest = ⟨w, rest', hr⟩ → Stands ts stop pos rest' →
      Agrees ts stop g x (s w pos)) : Agrees ts stop g x ((surface ts >>= s) pos) := by
  unfold Cursor.surface
  rw [bind_assoc]
  refine h.eat (by decide) fun r rest' hr pos haccept h => ?_
  rw [pure_bind]
  exact hs _ _ _ _ (by rw [Parser.surface, haccept]) h

end

/-! ## Expressions -/

theorem intoTarget_some {e : Expr} {target : Target} (h : e.toTarget? = some target) (span : Span)
    (pos : Nat) : intoTarget e span pos = pure (target, pos) := by
  unfold intoTarget
  rw [h]
  rfl

theorem intoTarget_none {e : Expr} (h : e.toTarget? = none) (span : Span) (pos : Nat) :
    intoTarget e span pos = throw ((Cause.notAssignable none).inSpan span) := by
  unfold intoTarget
  rw [h]
  rfl

theorem suffixes_agrees {depth : Nat} (e : Expr) (h : Stands ts stop pos rest)
    (hdepth : rest.length < depth) :
    Agrees ts stop id (Parser.suffixes e rest) (suffixes ts depth e pos) := by
  induction depth generalizing e pos rest with
  | zero => omega
  | succ depth ih =>
    rw [suffixes]
    refine h.here fun pos h => h.peek fun pos h => ?_
    cases rest with
    | nil => exact .ok h
    | cons t rest =>
      obtain ⟨span, token⟩ := t
      rw [List.length_cons] at hdepth
      cases token with
      | modifier m =>
        cases m with
        | square =>
          rw [Parser.suffixes]
          refine h.next fun pos h => ?_
          exact (ih _ h (by omega)).same fun _ _ _ => ⟨_, rfl⟩
        | _ => exact .ok h
      | operator op =>
        cases op with
        | increment | decrement =>
          rw [Parser.suffixes]
          refine h.next fun pos h => ?_
          cases he : e.toTarget? with
          | none => exact .fails (intoTarget_none he ..)
          | some target =>
            refine .after (intoTarget_some he ..) ?_
            exact (ih _ h (by omega)).same fun _ _ _ => ⟨_, rfl⟩
        | _ => exact .ok h
      | _ => exact .ok h

/-- What the readers of expressions find is found by a cursor with this limit, if not too much is
left. -/
structure Mirrors (ts : List Lexeme) (stop : Span) (depth : Nat) : Prop where
  expression : ∀ {pos rest}, Stands ts stop pos rest → 8 * rest.length + 4 < depth →
    Agrees ts stop id (Parser.expression stop rest) (expression ts depth pos)
  stores : ∀ {pos rest} (e : Expr), Stands ts stop pos rest → 8 * rest.length < depth →
    Agrees ts stop id (Parser.stores stop e rest) (stores ts depth e pos)
  target : ∀ {pos rest}, Stands ts stop pos rest → 8 * rest.length < depth →
    Agrees ts stop id (Parser.target stop rest) (target ts depth pos)
  operation : ∀ {pos rest} (level : Nat), Stands ts stop pos rest → 8 * rest.length + 3 < depth →
    Agrees ts stop id (Parser.operation stop level rest) (operation ts depth level pos)
  operations : ∀ {pos rest} (level : Nat) (lhs : Expr), Stands ts stop pos rest →
    8 * rest.length < depth →
    Agrees ts stop id (Parser.operations stop level lhs rest) (operations ts depth level lhs pos)
  operand : ∀ {pos rest}, Stands ts stop pos rest → 8 * rest.length + 2 < depth →
    Agrees ts stop id (Parser.operand stop rest) (operand ts depth pos)
  primary : ∀ {pos rest}, Stands ts stop pos rest → 8 * rest.length + 1 < depth →
    Agrees ts stop id (Parser.primary stop rest) (primary ts depth pos)

section

variable {depth : Nat} (ih : Mirrors ts stop depth)
include ih

theorem Mirrors.expression_succ (h : Stands ts stop pos rest)
    (hdepth : 8 * rest.length + 4 < depth + 1) :
    Agrees ts stop id (Parser.expression stop rest) (Cursor.expression ts (depth + 1) pos) := by
  rw [Parser.expression, Cursor.expression]
  refine (ih.operation 1 h (by omega)).bind fun e rest hlt pos h => ?_
  exact (ih.stores e h (by omega)).same fun _ _ _ => ⟨_, rfl⟩

theorem Mirrors.stores_succ (e : Expr) (hstart : Stands ts stop pos rest)
    (hdepth : 8 * rest.length < depth + 1) :
    Agrees ts stop id (Parser.stores stop e rest) (Cursor.stores ts (depth + 1) e pos) := by
  refine hstart.eat (by decide) fun r rest' _ pos haccept h => ?_
  rcases Parser.accept_finds haccept with ⟨rfl, span, rfl⟩ | ⟨rfl, rfl⟩
  · have hlength : (⟨span, .operator .store⟩ :: rest').length = rest'.length + 1 := rfl
    rw [Parser.stores]
    refine (ih.target h (by omega)).bind fun t rest hlt pos h => ?_
    exact (ih.stores _ h (by omega)).same fun _ _ _ => ⟨_, rfl⟩
  · rw [Parser.stores]
    · exact .ok h
    · rintro span rest rfl
      simp [Parser.accept] at haccept

theorem Mirrors.target_succ (hstart : Stands ts stop pos rest) (hdepth : 8 * rest.length < depth + 1) :
    Agrees ts stop id (Parser.target stop rest) (Cursor.target ts (depth + 1) pos) := by
  rw [Parser.target.eq_def]
  refine hstart.here fun pos hfront => ?_
  cases rest with
  | nil => exact hfront.next_nil fun pos => .error _
  | cons t rest =>
    obtain ⟨span, token⟩ := t
    have hlength : (⟨span, token⟩ :: rest : List Lexeme).length = rest.length + 1 := rfl
    refine hfront.next fun pos h => ?_
    cases token with
    | var c => exact .ok h
    | leftBrace =>
      refine (ih.expression h (by omega)).bind fun address rest _ pos h => ?_
      refine (expect_agrees (by decide) h).bind fun _ rest _ pos h => ?_
      refine h.width fun w rest' _ pos hwidth h => ?_
      dsimp only
      rw [hwidth]
      exact .ok h
    | _ => exact .error _

theorem Mirrors.operation_succ (level : Nat) (hstart : Stands ts stop pos rest)
    (hdepth : 8 * rest.length + 3 < depth + 1) :
    Agrees ts stop id (Parser.operation stop level rest)
      (Cursor.operation ts (depth + 1) level pos) := by
  rw [Parser.operation]
  refine (ih.operand hstart (by omega)).bind fun e rest hlt pos h => ?_
  exact (ih.operations level e h (by omega)).same fun _ _ _ => ⟨_, rfl⟩

theorem Mirrors.operations_succ (level : Nat) (lhs : Expr) (hstart : Stands ts stop pos rest)
    (hdepth : 8 * rest.length < depth + 1) :
    Agrees ts stop id (Parser.operations stop level lhs rest)
      (Cursor.operations ts (depth + 1) level lhs pos) := by
  have hfirst : operator? level (first rest) = Parser.operator? level rest := by
    cases rest with
    | nil => rfl
    | cons t rest =>
      obtain ⟨span, token⟩ := t
      cases token <;> rfl
  rw [Parser.operations.eq_def]
  refine hstart.peek fun pos h => ?_
  rw [hfirst]
  cases hop : Parser.operator? level rest with
  | none => exact .ok h
  | some op =>
    obtain ⟨-, span, rest, rfl⟩ := Parser.operator?_eq_some hop
    have hlength : (⟨span, .operator op.operator⟩ :: rest).length = rest.length + 1 := rfl
    refine h.next fun pos h => ?_
    refine (ih.operation _ h (by omega)).bind fun rhs rest hlt pos h => ?_
    exact (ih.operations level _ h (by omega)).same fun _ _ _ => ⟨_, rfl⟩

theorem Mirrors.operand_succ (hstart : Stands ts stop pos rest)
    (hdepth : 8 * rest.length + 2 < depth + 1) :
    Agrees ts stop id (Parser.operand stop rest) (Cursor.operand ts (depth + 1) pos) := by
  refine hstart.eat (by decide) fun r rest' _ pos haccept h => ?_
  rcases Parser.accept_finds haccept with ⟨rfl, span, rfl⟩ | ⟨rfl, rfl⟩
  · have hlength : (⟨span, .operator .minus⟩ :: rest').length = rest'.length + 1 := rfl
    rw [Parser.operand]
    exact (ih.operand h (by omega)).bind fun e rest _ pos h => .ok h
  · rw [Parser.operand]
    · refine (ih.primary h (by omega)).bind fun e rest hlt pos h => ?_
      exact (suffixes_agrees e h (by omega)).same fun _ _ _ => ⟨_, rfl⟩
    · rintro span rest rfl
      simp [Parser.accept] at haccept

theorem Mirrors.primary_succ (hstart : Stands ts stop pos rest)
    (hdepth : 8 * rest.length + 1 < depth + 1) :
    Agrees ts stop id (Parser.primary stop rest) (Cursor.primary ts (depth + 1) pos) := by
  rw [Parser.primary.eq_def]
  refine hstart.here fun pos hfront => ?_
  cases rest with
  | nil => exact hfront.next_nil fun pos => .error _
  | cons t rest =>
    obtain ⟨span, token⟩ := t
    have hlength : (⟨span, token⟩ :: rest : List Lexeme).length = rest.length + 1 := rfl
    refine hfront.next fun pos h => ?_
    cases token with
    | number | var | buffer => exact .ok h
    | leftParen =>
      refine (ih.expression h (by omega)).bind fun e rest _ pos h => ?_
      exact (expect_agrees (by decide) h).bind fun _ rest _ pos h => .ok h
    | leftBrace =>
      refine (ih.expression h (by omega)).bind fun address rest _ pos h => ?_
      refine (expect_agrees (by decide) h).bind fun _ rest _ pos h => ?_
      refine h.width fun w rest' _ pos hwidth h => ?_
      dsimp only
      rw [hwidth]
      exact .ok h
    | modifier m =>
      cases m with
      | addressOf => exact (ih.target h (by omega)).bind fun t rest _ pos h => .ok h
      | _ => exact .error _
    | word w =>
      cases w with
      | rand => exact .ok h
      | getKey =>
        refine (expect_agrees (by decide) h).bind fun _ rest _ pos h => ?_
        refine (ih.expression h (by omega)).bind fun code rest _ pos h => ?_
        exact (expect_agrees (by decide) h).bind fun _ rest _ pos h => .ok h
      | pxlTest =>
        refine (expect_agrees (by decide) h).bind fun _ rest _ pos h => ?_
        refine (ih.expression h (by omega)).bind fun x rest _ pos h => ?_
        refine (expect_agrees (by decide) h).bind fun _ rest _ pos h => ?_
        refine (ih.expression h (by omega)).bind fun y rest _ pos h => ?_
        refine (expect_agrees (by decide) h).bind fun _ rest _ pos h => ?_
        refine h.surface fun s rest' _ pos hsurface h => ?_
        dsimp only
        rw [hsurface]
        exact .ok h
      | _ => exact .error _
    | _ => exact .error _

end

theorem mirrors (ts : List Lexeme) (stop : Span) (depth : Nat) : Mirrors ts stop depth := by
  induction depth with
  | zero => constructor <;> intros <;> omega
  | succ depth ih =>
    exact ⟨ih.expression_succ, ih.stores_succ, ih.target_succ, ih.operation_succ, ih.operations_succ,
      ih.operand_succ, ih.primary_succ⟩

theorem expression_agrees {depth : Nat} (h : Stands ts stop pos rest)
    (hdepth : 8 * rest.length + 4 < depth) :
    Agrees ts stop id (Parser.expression stop rest) (expression ts depth pos) :=
  (mirrors ts stop depth).expression h hdepth

theorem moreExpressions_agrees {depth : Nat} (hstart : Stands ts stop pos rest)
    (hdepth : 8 * rest.length < depth) :
    Agrees ts stop id (Parser.moreExpressions stop rest) (moreExpressions ts depth pos) := by
  induction depth generalizing pos rest with
  | zero => omega
  | succ depth ih =>
    refine hstart.eat (by decide) fun r rest' _ pos haccept h => ?_
    rcases Parser.accept_finds haccept with ⟨rfl, span, rfl⟩ | ⟨rfl, rfl⟩
    · have hlength : (⟨span, .comma⟩ :: rest').length = rest'.length + 1 := rfl
      rw [Parser.moreExpressions]
      refine (expression_agrees h (by omega)).bind fun e rest hlt pos h => ?_
      exact (ih h (by omega)).bind fun es rest _ pos h => .ok h
    · rw [Parser.moreExpressions]
      · exact .ok h
      · rintro span rest rfl
        simp [Parser.accept] at haccept

theorem expressions_agrees {depth : Nat} (h : Stands ts stop pos rest)
    (hdepth : 8 * rest.length + 4 < depth) :
    Agrees ts stop id (Parser.expressions stop rest) (expressions ts depth pos) := by
  refine (expression_agrees h hdepth).bind fun e rest hlt pos h => ?_
  exact (moreExpressions_agrees h (by omega)).bind fun es rest _ pos h => .ok h

/-! ## Simple statements -/

theorem labelName_agrees (h : Stands ts stop pos rest) :
    Agrees ts stop id (Parser.labelName stop rest) (labelName ts pos) := by
  refine h.here fun pos hfront => ?_
  cases rest with
  | nil => exact hfront.next_nil fun pos => .error _
  | cons t rest =>
    obtain ⟨span, token⟩ := t
    refine hfront.next fun pos hrest => ?_
    cases token with
    | name | number | var => exact .ok hrest
    | _ => exact .error _

theorem Stands.shade {γ δ : Type} {n : Nat} {g : γ → δ} {x : Except Diagnostic (Parsed γ n)}
    (h : Stands ts stop pos rest) {s : Shade → Cursor δ}
    (hs : ∀ v rest' hr pos, Parser.shade rest = ⟨v, rest', hr⟩ → Stands ts stop pos rest' →
      Agrees ts stop g x (s v pos)) : Agrees ts stop g x ((shade ts >>= s) pos) := by
  unfold Cursor.shade
  simp only [bind_assoc, pure_bind]
  refine h.eat (by decide) fun once rest₁ _ pos honce h => ?_
  refine h.eat (by decide) fun twice rest₂ _ pos htwice h => ?_
  cases once with
  | false =>
    -- the second look finds what the first one has left
    obtain rfl : rest = rest₁ := by simpa using Parser.accept_finds honce
    rw [honce] at htwice
    cases htwice
    exact hs _ _ _ _ (by rw [Parser.shade, honce]; rfl) h
  | true =>
    have hshade : Parser.shade rest = ⟨if twice then .gray4 else .gray3, rest₂, by omega⟩ := by
      rw [Parser.shade, honce]
      dsimp only
      rw [if_pos rfl, htwice]
    cases twice with
    | false => exact hs _ _ _ _ hshade h
    | true => exact hs _ _ _ _ hshade h

theorem drawing_agrees {depth : Nat} {t : Lexeme} (span : Span) (graphic : Graphic)
    (h : Stands ts stop pos (t :: rest)) (hdepth : 8 * rest.length + 4 < depth) :
    Agrees ts stop id (Parser.drawing stop span graphic rest)
      (drawing ts depth span graphic pos) := by
  unfold Parser.drawing drawing
  refine h.next fun pos h => ?_
  by_cases harity : graphic.arity = 0
  · have hcount : ([] : List Expr).length = graphic.arity := harity.symm
    rw [if_pos harity, if_neg (by omega), pure_bind]
    beta_reduce
    rw [if_pos hcount]
    refine h.surface fun s rest' _ pos hsurface h => ?_
    rw [hsurface]
    exact .ok h
  · rw [if_neg harity, if_pos (by omega)]
    simp only [pure_bind]
    refine (expect_agrees (by decide) h).bind fun _ rest _ pos h => ?_
    refine (expressions_agrees h (by omega)).bind fun arguments rest _ pos h => ?_
    refine (expect_agrees (by decide) h).bind fun _ rest _ pos h => ?_
    dsimp only [id]
    by_cases hcount : arguments.length = graphic.arity
    · rw [if_neg (not_not.2 hcount), if_pos hcount]
      refine h.surface fun s rest' _ pos hsurface h => ?_
      rw [hsurface]
      exact .ok h
    · rw [if_pos hcount, if_neg hcount]
      exact .error _

theorem shift_agrees {t : Lexeme} (span : Span) (plus minus : Graphic)
    (h : Stands ts stop pos (t :: rest)) :
    Agrees ts stop id (Parser.shift stop span plus minus rest) (shift ts span plus minus pos) := by
  refine h.next fun pos h => h.here fun pos hfront => ?_
  cases rest with
  | nil => exact hfront.next_nil fun pos => .error _
  | cons t rest =>
    obtain ⟨place, token⟩ := t
    refine hfront.next fun pos hrest => ?_
    cases token with
    | operator op =>
      cases op with
      | plus | minus =>
        refine hrest.surface fun s rest' _ pos hsurface h => ?_
        rw [Parser.shift, hsurface]
        exact .ok h
      | _ => exact .error _
    | _ => exact .error _

theorem effect_agrees {depth : Nat} (span : Span) (h : Stands ts stop pos rest)
    (hdepth : 8 * rest.length + 4 < depth) :
    Agrees ts stop id (Parser.effect stop span rest) (effect ts depth span pos) := by
  unfold Parser.effect effect
  refine (expression_agrees h hdepth).bind fun e rest _ pos h => ?_
  dsimp only [id]
  split
  · exact .ok h
  · exact .error _

theorem command_agrees {depth : Nat} {t : Lexeme} (span : Span) (word : CommandWord)
    (h : Stands ts stop pos (t :: rest)) (hdepth : 8 * rest.length + 4 < depth) :
    Agrees ts stop id (Parser.command stop span word rest) (command ts depth span word pos) := by
  refine h.next fun pos h => ?_
  cases word with
  | exit | help | about => exact .ok h
  | debug => exact (expression_agrees h hdepth).bind fun e rest _ pos h => .ok h

theorem simple_agrees {depth : Nat} (hstart : Stands ts stop pos rest)
    (hdepth : 8 * rest.length + 4 < depth) :
    Agrees ts stop id (Parser.simple stop rest)
      (simple ts depth (firstSpan stop rest) (first rest) pos) := by
  cases rest with
  | nil => exact effect_agrees stop hstart hdepth
  | cons t rest =>
    obtain ⟨span, token⟩ := t
    have hlength : (⟨span, token⟩ :: rest : List Lexeme).length = rest.length + 1 := rfl
    cases token with
    | word w =>
      cases w with
      | lbl | goto =>
        refine hstart.next fun pos h => ?_
        exact (labelName_agrees h).bind fun name rest _ pos h => .ok h
      | disp =>
        refine hstart.next fun pos h => ?_
        exact (expressions_agrees h (by omega)).bind fun es rest _ pos h => .ok h
      | pause =>
        refine hstart.next fun pos h => ?_
        exact (expression_agrees h (by omega)).bind fun e rest _ pos h => .ok h
      | dispGraph =>
        refine hstart.next fun pos h => h.shade fun s rest' _ pos hshade h => ?_
        rw [Parser.simple, hshade]
        exact .ok h
      | horizontal | vertical => exact shift_agrees span _ _ hstart
      | pxlOn | pxlOff | pxlChange | line | rect | rectI | circle | clrDraw =>
        exact drawing_agrees span _ hstart (by omega)
      | _ => exact effect_agrees span hstart hdepth
    | command word => exact command_agrees span word hstart (by omega)
    | _ => exact effect_agrees span hstart hdepth

/-! ## Blocks -/

theorem forHead_agrees {depth : Nat} {t : Lexeme} (h : Stands ts stop pos (t :: rest))
    (hdepth : 8 * rest.length + 4 < depth) :
    Agrees ts stop id (Parser.forHead stop rest) (forHead ts depth pos) := by
  unfold Parser.forHead forHead
  refine h.next fun pos h => ?_
  refine (expect_agrees (by decide) h).bind fun _ rest₁ _ pos h => h.here fun pos h => ?_
  refine (expression_agrees h (by omega)).bind fun first rest₂ _ pos h => ?_
  refine h.eat (by decide) fun more rest₃ _ pos haccept h => ?_
  dsimp only [id]
  rw [haccept]
  cases more with
  | false =>
    simp only [Bool.false_eq_true, if_false, pure_bind]
    exact (expect_agrees (by decide) h).bind fun _ rest _ pos h => .ok h
  | true =>
    simp only [if_true, pure_bind]
    cases htarget : first.toTarget? with
    | none =>
      cases rest₁ with
      | nil => exact .fails (intoTarget_none htarget ..)
      | cons t rest₁ => exact .fails (intoTarget_none htarget ..)
    | some target =>
      refine .after (intoTarget_some htarget ..) ?_
      refine (expression_agrees h (by omega)).bind fun start rest₄ _ pos h => ?_
      refine (expect_agrees (by decide) h).bind fun _ rest₅ _ pos h => ?_
      refine (expression_agrees h (by omega)).bind fun last rest₆ _ pos h => ?_
      exact (expect_agrees (by decide) h).bind fun _ rest₇ _ pos h => .ok h

theorem Stands.ne_eof {t : Lexeme} (h : Stands ts stop pos (t :: rest)) : t.token ≠ .eof := by
  have hmem : t ∈ significant (ts.drop pos) := by simp [h.left]
  unfold significant at hmem
  simpa using List.mem_takeWhile_imp (List.mem_filter.1 hmem).1

/-- The end of a block, for a cursor that finds the input to end at `stop`. -/
def terminator (stop : Span) : Parser.Closing → Terminator
  | .inputEnd => .inputEnd stop
  | .endWord span => .endWord span
  | .elseWord span => .elseWord span

theorem Stands.endOfStatement {γ δ : Type} {n : Nat} {g : γ → δ}
    {k : Unit → Except Diagnostic (Parsed γ n)} {s : Unit → Cursor δ} (h : Stands ts stop pos rest)
    (hs : ∀ pos, Stands ts stop pos rest → Agrees ts stop g (k ()) (s () pos)) :
    Agrees ts stop g (Parser.endOfStatement stop rest >>= k) ((endOfStatement ts >>= s) pos) := by
  unfold Cursor.endOfStatement
  simp only [bind_assoc]
  refine h.here fun pos h => h.peek fun pos h => ?_
  cases rest with
  | nil => exact hs pos h
  | cons t rest =>
    rw [Parser.endOfStatement]
    by_cases ht : t.token.isSeparator
    · rw [if_pos ht, if_pos (.inl ht)]
      exact hs pos h
    · have hneither : ¬ ((first (t :: rest)).isSeparator ∨ first (t :: rest) = .eof) :=
        not_or.2 ⟨ht, h.ne_eof⟩
      rw [if_neg ht, if_neg hneither]
      exact .error _

structure MirrorsBlocks (ts : List Lexeme) (stop : Span) (depth : Nat) : Prop where
  statement : ∀ {pos rest}, Stands ts stop pos rest → 16 * rest.length + 6 < depth →
    Agrees ts stop id (Parser.statement stop rest) (statement ts depth pos)
  block : ∀ {pos rest} n done h, Stands ts stop pos rest → 16 * rest.length + 7 < depth →
    Agrees ts stop (Prod.map id (terminator stop)) (Parser.block stop n done rest h)
      (block ts depth done pos)
  body : ∀ {pos rest}, Stands ts stop pos rest → 16 * rest.length + 8 < depth →
    Agrees ts stop id (Parser.body stop rest) (body ts depth pos)

section

variable {depth : Nat} (ih : MirrorsBlocks ts stop depth)
include ih

theorem MirrorsBlocks.body_succ (h : Stands ts stop pos rest)
    (hdepth : 16 * rest.length + 8 < depth + 1) :
    Agrees ts stop id (Parser.body stop rest) (Cursor.body ts (depth + 1) pos) := by
  rw [Parser.body]
  refine (ih.block _ _ _ h (by omega)).bind fun v rest _ pos h => ?_
  obtain ⟨ss, closing⟩ := v
  cases closing with
  | endWord span => exact .ok h
  | inputEnd | elseWord => exact .error _

theorem MirrorsBlocks.block_succ (n : Nat) (done : Array Stmt) (hn : rest.length < n)
    (hstart : Stands ts stop pos rest) (hdepth : 16 * rest.length + 7 < depth + 1) :
    Agrees ts stop (Prod.map id (terminator stop)) (Parser.block stop n done rest hn)
      (Cursor.block ts (depth + 1) done pos) := by
  refine hstart.here fun pos h => h.peek fun pos hfront => ?_
  cases rest with
  | nil =>
    rw [Parser.block]
    exact .ok hfront
  | cons t rest =>
    obtain ⟨span, token⟩ := t
    have hlength : (⟨span, token⟩ :: rest : List Lexeme).length = rest.length + 1 := rfl
    have hother (h₁ : ¬ token.isSeparator) (h₂ : token ≠ .word .endWord)
        (h₃ : token ≠ .word .elseWord) :
        Agrees ts stop (Prod.map id (terminator stop))
          (Parser.block stop n done (⟨span, token⟩ :: rest) hn)
          ((Cursor.statement ts depth >>= fun s => Cursor.endOfStatement ts >>= fun _ =>
            Cursor.block ts depth (done.push s)) pos) := by
      rw [Parser.block_cons h₁ h₂ h₃]
      refine (ih.statement hfront (by omega)).bind fun s rest _ pos h => ?_
      dsimp only
      exact h.endOfStatement fun pos h => ih.block _ _ _ h (by omega)
    cases token with
    | newline | colon =>
      rw [Parser.block_separator rfl]
      exact hfront.next fun pos h => ih.block _ _ _ h (by omega)
    | eof => exact absurd rfl hfront.ne_eof
    | word w =>
      cases w with
      | endWord | elseWord =>
        rw [Parser.block.eq_def]
        exact hfront.next fun pos h => .ok h
      | _ => exact hother (by simp [Token.isSeparator]) (by simp) (by simp)
    | _ => exact hother (by simp [Token.isSeparator]) (by simp) (by simp)

theorem MirrorsBlocks.statement_succ (hstart : Stands ts stop pos rest)
    (hdepth : 16 * rest.length + 6 < depth + 1) :
    Agrees ts stop id (Parser.statement stop rest) (Cursor.statement ts (depth + 1) pos) := by
  refine hstart.here fun pos h => h.peek fun pos hfront => ?_
  cases rest with
  | nil =>
    rw [Parser.statement.eq_def]
    exact simple_agrees hfront (by omega)
  | cons t rest =>
    obtain ⟨span, token⟩ := t
    have hlength : (⟨span, token⟩ :: rest : List Lexeme).length = rest.length + 1 := rfl
    cases token with
    | word w =>
      cases w with
      | ifWord =>
        rw [Parser.statement]
        refine hfront.next fun pos h => ?_
        refine (expression_agrees h (by omega)).bind fun c rest _ pos h => ?_
        refine h.eat (by decide) fun marked rest' _ pos haccept h => ?_
        dsimp only
        rw [haccept]
        dsimp only
        refine (ih.block _ _ _ h (by omega)).bind fun v rest _ pos h => ?_
        obtain ⟨yes, closing⟩ := v
        cases closing with
        | endWord => exact .ok h
        | inputEnd => exact .error _
        | elseWord => exact (ih.body h (by omega)).bind fun no rest _ pos h => .ok h
      | whileWord | repeatWord =>
        rw [Parser.statement]
        refine hfront.next fun pos h => ?_
        refine (expression_agrees h (by omega)).bind fun c rest _ pos h => ?_
        exact (ih.body h (by omega)).bind fun ss rest _ pos h => .ok h
      | forWord =>
        rw [Parser.statement]
        refine (forHead_agrees hfront (by omega)).bind fun head rest _ pos h => ?_
        exact (ih.body h (by omega)).bind fun ss rest _ pos h => .ok h
      | _ =>
        rw [Parser.statement_simple rfl]
        exact simple_agrees hfront (by omega)
    | _ =>
      rw [Parser.statement_simple rfl]
      exact simple_agrees hfront (by omega)

end

theorem mirrorsBlocks (ts : List Lexeme) (stop : Span) (depth : Nat) :
    MirrorsBlocks ts stop depth := by
  induction depth with
  | zero => constructor <;> intros <;> omega
  | succ depth ih => exact ⟨ih.statement_succ, ih.block_succ, ih.body_succ⟩

theorem stands_zero (ts : List Lexeme) : Stands ts (inputEnd ts) 0 (significant ts) :=
  ⟨Nat.zero_le _, rfl, rfl⟩

theorem length_significant_le (ts : List Lexeme) : (significant ts).length ≤ ts.length :=
  (List.length_filter_le ..).trans (List.takeWhile_sublist _).length_le

/-- A cursor finds what the parser finds in the lexemes that count, and calls need not be nested more
deeply than a multiple of their number. -/
theorem parse_eq {depth : Nat} (ts : List Lexeme) (h : 16 * ts.length + 7 < depth) :
    Cursor.parse depth ts = some (Handheld.parse ts) := by
  have hlength := length_significant_le ts
  have hblock := (mirrorsBlocks ts (inputEnd ts) depth).block ((significant ts).length + 1) #[]
    (Nat.lt_succ_self _) (stands_zero ts) (by omega)
  rw [Handheld.parse_eq rfl rfl]
  unfold Cursor.parse
  generalize Parser.block .. = x at hblock ⊢
  generalize Cursor.block ts depth #[] 0 = y at hblock ⊢
  cases hblock with
  | error e => rfl
  | @ok v rest pos _ _ =>
    obtain ⟨ss, closing⟩ := v
    cases closing with
    | inputEnd | endWord | elseWord => rfl

end Handheld.Cursor
