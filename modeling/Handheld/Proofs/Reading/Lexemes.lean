import Handheld.Source.Lexer

/-!
# Where lexemes stand

The lexemes of a text stand one behind the other: each begins at a place after
that of the one before. A variable among them is one of `A` to `Z`.
-/

namespace Handheld

/-! ## The order of places -/

/-- Begins earlier in the text. -/
def Span.Before (a b : Span) : Prop :=
  a.line < b.line ∨ (a.line = b.line ∧ a.start < b.start)

theorem Span.Before.trans {a b c : Span} (h : a.Before b) (h' : b.Before c) : a.Before c := by
  unfold Before at *
  omega

theorem Span.Before.irrefl (a : Span) : ¬ a.Before a := by
  unfold Before
  omega

theorem Span.Before.asymm {a b : Span} (h : a.Before b) : ¬ b.Before a := by
  unfold Before at *
  omega

namespace Position

/-- No lexeme at `s` begins before the position. -/
def Reaches (p : Position) (s : Span) : Prop :=
  p.line < s.line ∨ (p.line = s.line ∧ p.column ≤ s.start)

theorem reaches_span (p : Position) (n : Nat) : p.Reaches (p.span n) :=
  .inr ⟨rfl, Nat.le_refl _⟩

theorem reaches_of_step {p : Position} {c : Char} {s : Span} (h : (p.step c).Reaches s) :
    p.Reaches s := by
  unfold Reaches step at *
  split at h
  all_goals
    simp only at h
    omega

theorem reaches_of_advance {p : Position} (cs : List Char) {s : Span}
    (h : (p.advance cs).Reaches s) : p.Reaches s := by
  induction cs generalizing p with
  | nil => exact h
  | cons c cs ih => exact reaches_of_step (ih h)

theorem before_of_advance {p : Position} {c : Char} {cs : List Char} {s : Span} {n : Nat}
    (h : (p.advance (c :: cs)).Reaches s) : (p.span n).Before s := by
  have hs : (p.step c).Reaches s := reaches_of_advance cs h
  unfold Reaches step at hs
  unfold Span.Before span
  split at hs
  all_goals
    simp only at hs
    simp only
    omega

end Position

/-! ## Variables -/

theorem Token.ofWord_var {s : String} {v : Char} (h : Token.ofWord s = .var v) :
    v.isUpper = true := by
  unfold Token.ofWord at h
  split at h
  · cases h
  · split at h
    · cases h
    · split at h
      · split at h
        · next hc =>
          cases h
          exact hc
        · cases h
      · cases h

theorem Token.scanWord_var {c : Char} {cs : List Char} {v : Char}
    (h : (Token.scanWord c cs).1 = .var v) : v.isUpper = true := by
  unfold Token.scanWord at h
  dsimp only at h
  split at h
  · cases h
  · split at h
    · cases h
    · exact ofWord_var h

theorem Token.scanSymbol_ne_var {c : Char} {cs : List Char} {v : Char} {n : Nat} :
    Token.scanSymbol c cs ≠ some (.var v, n) := by
  intro h
  unfold Token.scanSymbol at h
  split at h
  all_goals cases h

theorem Token.scan_var {c : Char} {cs : List Char} {v : Char} {n : Nat}
    (h : Token.scan c cs = .ok (.var v, n)) : v.isUpper = true := by
  unfold Token.scan at h
  dsimp only at h
  split at h
  · cases h
  split at h
  · cases h
  split at h
  · cases h
  split at h
  · split at h
    all_goals cases h
  split at h
  · split at h
    all_goals cases h
  split at h
  · -- a word
    have hw : Token.scanWord c cs = (.var v, n) := Except.ok.inj h
    exact scanWord_var (congrArg Prod.fst hw)
  · split at h
    · next t ht =>
      cases h
      exact absurd ht scanSymbol_ne_var
    · cases h

/-! ## All lexemes of a text -/

theorem lexFrom_ordered {p : Position} {cs : List Char} {ts : Array Lexeme}
    (h : lexFrom p #[] cs = .ok ts) :
    (∀ t ∈ ts.toList, p.Reaches t.span ∧ ∀ v, t.token = .var v → v.isUpper = true) ∧
      ts.toList.Pairwise fun a b => a.span.Before b.span := by
  match cs with
  | [] =>
    rw [lexFrom] at h
    cases h
    simpa using p.reaches_span 0
  | c :: cs =>
    rw [lexFrom] at h
    split at h
    · cases h
    · next token n hscan =>
      rw [lexFrom_eq_map] at h
      cases hrest : lexFrom (p.advance (c :: cs.take n)) #[] (cs.drop n) with
      | error e =>
        rw [hrest] at h
        cases h
      | ok rest =>
        rw [hrest] at h
        cases h
        obtain ⟨hall, hpair⟩ := lexFrom_ordered hrest
        simp only [List.push_toArray, List.nil_append, Array.toList_append, List.cons_append,
          List.mem_cons, List.pairwise_cons]
        refine ⟨?_, fun t ht => Position.before_of_advance (hall t ht).1, hpair⟩
        rintro t (rfl | ht)
        · refine ⟨p.reaches_span _, ?_⟩
          rintro v rfl
          exact Token.scan_var hscan
        · exact ⟨Position.reaches_of_advance _ (hall t ht).1, (hall t ht).2⟩
termination_by cs.length
decreasing_by simp only [List.length_drop, List.length_cons]; omega

theorem lexemes_ordered {source : String} {ts : List Lexeme} (h : lexemes source = .ok ts) :
    ts.Pairwise fun a b => a.span.Before b.span := by
  unfold lexemes at h
  cases hl : lexFrom {} #[] source.toList with
  | error e =>
    rw [hl] at h
    cases h
  | ok ts' =>
    rw [hl] at h
    cases h
    exact (lexFrom_ordered hl).2

theorem lexemes_var {source : String} {ts : List Lexeme} (h : lexemes source = .ok ts)
    {t : Lexeme} (ht : t ∈ ts) {c : Char} (hc : t.token = .var c) : c.isUpper = true := by
  unfold lexemes at h
  cases hl : lexFrom {} #[] source.toList with
  | error e =>
    rw [hl] at h
    cases h
  | ok ts' =>
    rw [hl] at h
    cases h
    exact ((lexFrom_ordered hl).1 t ht).2 c hc

end Handheld
