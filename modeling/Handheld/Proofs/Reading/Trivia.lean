import Handheld.Proofs.Reading.Walking

/-!
# Trivia never matters

Blanks and comments may be put in anywhere before the end of the input, or be
left out, and nothing else comes of the program. What is needed is an end of the
input: without one, the last lexeme says where the input ends, and that may be a
comment.
-/

namespace Handheld

/-- The lexemes without the trivia among them. -/
def stripped (ts : List Lexeme) : List Lexeme :=
  ts.filter fun t => !t.isTrivia

/-- Trivia is put into the first list, in front of the end of the input. -/
inductive Padded : List Lexeme → List Lexeme → Prop
  | eof {t : Lexeme} {us : List Lexeme} : t.token = .eof → Padded (t :: us) (t :: us)
  | keep {t : Lexeme} {us vs : List Lexeme} : Padded us vs → Padded (t :: us) (t :: vs)
  | insert {t : Lexeme} {us vs : List Lexeme} : t.isTrivia → Padded us vs → Padded us (t :: vs)

/-- The lists are the same up to trivia, as far as they are read. -/
inductive UpToTrivia : List Lexeme → List Lexeme → Prop
  | eof {t : Lexeme} {us vs : List Lexeme} : t.token = .eof → UpToTrivia (t :: us) (t :: vs)
  | keep {t : Lexeme} {us vs : List Lexeme} : UpToTrivia us vs → UpToTrivia (t :: us) (t :: vs)
  | left {t : Lexeme} {us vs : List Lexeme} : t.isTrivia → UpToTrivia us vs → UpToTrivia (t :: us) vs
  | right {t : Lexeme} {us vs : List Lexeme} : t.isTrivia → UpToTrivia us vs → UpToTrivia us (t :: vs)

theorem Padded.upToTrivia {us vs : List Lexeme} (h : Padded us vs) : UpToTrivia us vs := by
  induction h with
  | eof ht => exact .eof ht
  | keep _ ih => exact .keep ih
  | insert ht _ ih => exact .right ht ih

theorem upToTrivia_stripped {ts : List Lexeme} (h : ∃ t ∈ ts, t.token = .eof) :
    UpToTrivia ts (stripped ts) := by
  induction ts with
  | nil => simp at h
  | cons t ts ih =>
    unfold stripped at ih ⊢
    by_cases heof : t.token = .eof
    · have htrivia : t.isTrivia = false := by simp [Lexeme.isTrivia, heof, Token.isTrivia]
      rw [List.filter_cons_of_pos (by simp [htrivia])]
      exact .eof heof
    · have hrest : ∃ t ∈ ts, t.token = .eof := by simpa [heof] using h
      cases htrivia : t.isTrivia with
      | false =>
        rw [List.filter_cons_of_pos (by simp [htrivia])]
        exact .keep (ih hrest)
      | true =>
        rw [List.filter_cons_of_neg (by simp [htrivia])]
        exact .left htrivia (ih hrest)

theorem trivia_cons {t : Lexeme} (h : t.isTrivia) (ts : List Lexeme) :
    significant (t :: ts) = significant ts ∧
      (t :: ts).find? (·.token = .eof) = ts.find? (·.token = .eof) := by
  have hne : t.token ≠ .eof := by
    intro heof
    simp [Lexeme.isTrivia, heof, Token.isTrivia] at h
  have htrivia : t.token.isTrivia := h
  simp [significant, hne, htrivia]

theorem UpToTrivia.same_input {us vs : List Lexeme} (h : UpToTrivia us vs) :
    significant us = significant vs ∧ inputEnd us = inputEnd vs := by
  have hboth : significant us = significant vs ∧
      ∃ last, us.find? (·.token = .eof) = some last ∧ vs.find? (·.token = .eof) = some last := by
    induction h with
    | @eof t us vs ht => exact ⟨by simp [significant, ht], t, by simp [ht], by simp [ht]⟩
    | @keep t us vs _ ih =>
      obtain ⟨hrest, last, hus, hvs⟩ := ih
      by_cases ht : t.token = .eof
      · exact ⟨by simp [significant, ht], t, by simp [ht], by simp [ht]⟩
      · refine ⟨?_, last, by simpa [ht] using hus, by simpa [ht] using hvs⟩
        have hone : ∀ ws, significant ([t] ++ ws) = significant [t] ++ significant ws :=
          significant_append (by simpa using ht)
        exact (hone us).trans ((congrArg _ hrest).trans (hone vs).symm)
    | @left t us vs ht _ ih => rwa [(trivia_cons ht us).1, (trivia_cons ht us).2]
    | @right t us vs ht _ ih => rwa [(trivia_cons ht vs).1, (trivia_cons ht vs).2]
  obtain ⟨hrest, last, hus, hvs⟩ := hboth
  refine ⟨hrest, ?_⟩
  unfold inputEnd
  rw [hus, hvs]

theorem UpToTrivia.parse_eq {us vs : List Lexeme} (h : UpToTrivia us vs) : parse vs = parse us := by
  obtain ⟨hrest, hend⟩ := h.same_input
  rw [Handheld.parse_eq hrest hend, Handheld.parse_eq rfl rfl]

/-- A list with an end of the input, and one that differs from it in trivia before that: all of it is
left out, or more is put in. The parser makes the same of both, be it a tree or a refusal, with the
same places. So does a cursor that meets all the trivia on its way. -/
theorem trivia_never_matters {ts : List Lexeme} (heof : ∃ t ∈ ts, t.token = .eof) :
    ∀ us, us = stripped ts ∨ Padded ts us →
      parse us = parse ts ∧
      ∀ depth, 16 * us.length + 7 < depth → 16 * ts.length + 7 < depth →
        Cursor.parse depth us = some (parse ts) ∧ Cursor.parse depth ts = some (parse ts) := by
  intro us hus
  have hsame : UpToTrivia ts us := by
    rcases hus with rfl | hus
    · exact upToTrivia_stripped heof
    · exact hus.upToTrivia
  have hparse := hsame.parse_eq
  refine ⟨hparse, fun depth hdepth hdepth' => ⟨?_, Cursor.parse_eq ts hdepth'⟩⟩
  rw [Cursor.parse_eq us hdepth, hparse]

theorem trivia_never_matters_refusal :
    let ts : List Lexeme := [⟨⟨1, 0, 4⟩, .word .disp⟩, ⟨⟨1, 4, 5⟩, .whitespace 1⟩,
      ⟨⟨1, 5, 6⟩, .leftParen⟩, ⟨⟨1, 6, 7⟩, .var 'A'⟩, ⟨⟨1, 7, 8⟩, .newline⟩,
      ⟨⟨2, 0, 4⟩, .comment ".one"⟩, ⟨⟨2, 4, 4⟩, .eof⟩]
    parse ts = .error ((Cause.expected (.token .rightParen) .newline).inSpan ⟨1, 7, 8⟩) ∧
      parse (stripped ts) = parse ts ∧
      parse (⟨⟨1, 0, 0⟩, .comment ".two"⟩ :: ts) = parse ts ∧
      Cursor.parse 200 (⟨⟨1, 0, 0⟩, .comment ".two"⟩ :: ts) = some (parse ts) := by
  intro ts
  have heof : ∃ t ∈ ts, t.token = .eof := by simp [ts]
  have hpadded : Padded ts (⟨⟨1, 0, 0⟩, .comment ".two"⟩ :: ts) :=
    .insert rfl (.keep (.keep (.keep (.keep (.keep (.keep (.eof rfl)))))))
  have hstripped := trivia_never_matters heof (stripped ts) (.inl rfl)
  have hinserted := trivia_never_matters heof _ (.inr hpadded)
  exact ⟨by cbv, hstripped.1, hinserted.1, (hinserted.2 200 (by decide) (by decide)).1⟩

end Handheld
