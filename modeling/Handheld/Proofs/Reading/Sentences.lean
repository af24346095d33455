import Handheld.Proofs.Reading.Derivation

/-!
# Sentences are read

Whatever the grammar allows is read, and as the grammar says. The readers take
as much as they can, so what follows a phrase must not be able to extend it
(`Follows`).
-/

namespace Handheld

/-- How tightly a token is bound to the phrase in front of it. None, if it cannot be part of a
phrase that has begun. -/
def Token.tightness? : Token → Option Nat
  | .operator .store => some 0
  | .operator .increment | .operator .decrement | .modifier .square => some 5
  | .operator op => (Parser.binary? op).map BinaryOp.precedence
  | .modifier .r => some 8
  | _ => none

theorem Token.tightness?_operator (b : BinaryOp) :
    (Token.operator b.operator).tightness? = some b.precedence := by
  cases b <;> rfl

namespace Parser

variable {stop : Span}

/-- Nothing in front of `ts` is bound to a phrase as tightly as level `k`. -/
def Follows (k : Nat) (ts : List Lexeme) : Prop :=
  ∀ t ∈ ts.head?, ∀ n ∈ t.token.tightness?, n < k

@[simp] theorem follows_nil (k : Nat) : Follows k [] := by
  simp [Follows]

@[simp] theorem follows_cons {k : Nat} {t : Lexeme} {ts : List Lexeme} :
    Follows k (t :: ts) ↔ ∀ n ∈ t.token.tightness?, n < k := by
  simp [Follows]

theorem Follows.mono {j k : Nat} {ts : List Lexeme} (h : Follows j ts) (hjk : j ≤ k) :
    Follows k ts :=
  fun t ht n hn => Nat.lt_of_lt_of_le (h t ht n hn) hjk

theorem Yields.bind {α β : Type} {m n : Nat} {x : Except Diagnostic (Parsed α m)}
    {f : Parsed α m → Except Diagnostic (Parsed β n)} {a : α} {v : β} {ts rest : List Lexeme}
    (hx : Yields x a ts) (hf : ∀ h, Yields (f ⟨a, ts, h⟩) v rest) : Yields (x >>= f) v rest := by
  obtain ⟨h, hx⟩ := hx
  exact yields_bind.2 ⟨a, ts, h, hx, hf h⟩

theorem yields_ok {α : Type} {n : Nat} {v : α} {rest : List Lexeme} {h : rest.length < n} :
    Yields (.ok ⟨v, rest, h⟩) v rest :=
  ⟨h, rfl⟩

/-! ## Single lexemes -/

theorem exists_lexeme {us : List Lexeme} {t : Token} {ts : List Token}
    (h : us.map Lexeme.token = t :: ts) :
    ∃ span us', us = ⟨span, t⟩ :: us' ∧ us'.map Lexeme.token = ts := by
  obtain ⟨⟨span, _⟩, us', rfl, rfl, hts⟩ := List.map_eq_cons_iff.1 h
  exact ⟨span, us', rfl, hts⟩

theorem exists_lexeme_between {us : List Lexeme} {t : Token} {ts ts' : List Token}
    (h : us.map Lexeme.token = ts ++ t :: ts') :
    ∃ us₁ span us₂, us = us₁ ++ ⟨span, t⟩ :: us₂ ∧ us₁.map Lexeme.token = ts ∧
      us₂.map Lexeme.token = ts' := by
  obtain ⟨us₁, _, rfl, h₁, h₂⟩ := List.map_eq_append_iff.1 h
  obtain ⟨span, us₂, rfl, hts'⟩ := exists_lexeme h₂
  exact ⟨us₁, span, us₂, rfl, h₁, hts'⟩

theorem expect_yields {t : Lexeme} {ts : List Lexeme} {token : Token} (h : t.token = token) :
    Yields (expect stop token (t :: ts)) () ts := by
  rw [expect, if_pos h]
  exact yields_ok

theorem accept_cons {t : Lexeme} {token : Token} (ts : List Lexeme) (h : t.token = token) :
    ∃ hr, accept token (t :: ts) = ⟨true, ts, hr⟩ := by
  rw [accept, if_pos h]
  exact ⟨_, rfl⟩

theorem accept_of_ne {token : Token} {ts : List Lexeme} (h : ∀ t ∈ ts.head?, t.token ≠ token) :
    ∃ hr, accept token ts = ⟨false, ts, hr⟩ := by
  cases ts with
  | nil => exact ⟨_, rfl⟩
  | cons t ts =>
    rw [accept, if_neg (h t rfl)]
    exact ⟨_, rfl⟩

theorem accept_marks {us rest : List Lexeme} (marked : Bool)
    (h : us.map Lexeme.token = if marked then [.modifier .r] else []) (hr : Follows 8 rest) :
    ∃ hr, accept (.modifier .r) (us ++ rest) = ⟨marked, rest, hr⟩ := by
  cases marked with
  | false =>
    obtain rfl := List.map_eq_nil_iff.1 h
    refine accept_of_ne fun t ht htoken => ?_
    exact absurd (hr t ht 8 (by rw [htoken]; rfl)) (by decide)
  | true =>
    obtain ⟨t, rfl, ht⟩ := List.map_eq_singleton_iff.1 h
    exact accept_cons rest ht

theorem width_yields {us rest : List Lexeme} {w : Width} (h : us.map Lexeme.token = w.marks)
    (hr : Follows 8 rest) : ∃ hr, width (us ++ rest) = ⟨w, rest, hr⟩ := by
  have hmarks : w.marks = if w = .word then [.modifier .r] else [] := by cases w <;> rfl
  obtain ⟨_, ha⟩ := accept_marks (w = .word) (by simpa [hmarks] using h) hr
  rw [width, ha]
  cases w <;> exact ⟨_, rfl⟩

theorem surface_yields {us rest : List Lexeme} {s : Surface} (h : us.map Lexeme.token = s.marks)
    (hr : Follows 8 rest) : ∃ hr, surface (us ++ rest) = ⟨s, rest, hr⟩ := by
  have hmarks : s.marks = if s = .back then [.modifier .r] else [] := by cases s <;> rfl
  obtain ⟨_, ha⟩ := accept_marks (s = .back) (by simpa [hmarks] using h) hr
  rw [surface, ha]
  cases s <;> exact ⟨_, rfl⟩

theorem shade_yields {us rest : List Lexeme} {s : Shade} (h : us.map Lexeme.token = s.marks)
    (hr : Follows 8 rest) : ∃ hr, shade (us ++ rest) = ⟨s, rest, hr⟩ := by
  obtain ⟨_, hlast⟩ : ∃ hr, accept (.modifier .r) rest = ⟨false, rest, hr⟩ :=
    accept_marks false List.map_nil hr
  cases s with
  | mono =>
    obtain rfl := List.map_eq_nil_iff.1 h
    rw [List.nil_append, shade, hlast]
    exact ⟨_, rfl⟩
  | gray3 =>
    obtain ⟨t, rfl, ht⟩ := List.map_eq_singleton_iff.1 h
    obtain ⟨_, ha⟩ := accept_cons rest ht
    rw [List.singleton_append, shade, ha]
    dsimp only
    rw [if_pos rfl, hlast]
    exact ⟨_, rfl⟩
  | gray4 =>
    obtain ⟨t, us, rfl, ht, hus⟩ := List.map_eq_cons_iff.1 h
    obtain ⟨t', rfl, ht'⟩ := List.map_eq_singleton_iff.1 hus
    obtain ⟨_, ha⟩ := accept_cons (t' :: rest) ht
    obtain ⟨_, ha'⟩ := accept_cons rest ht'
    rw [List.cons_append, List.singleton_append, shade, ha]
    dsimp only
    rw [if_pos rfl, ha']
    exact ⟨_, rfl⟩

/-! ## Expressions -/

theorem suffixes_of_follows {e : Expr} {ts : List Lexeme} (h : Follows 5 ts) :
    Yields (suffixes e ts) e ts := by
  rw [suffixes]
  · exact yields_ok
  · rintro span ts' rfl
    simp [Token.tightness?] at h
  · rintro span ts' rfl
    simp [Token.tightness?] at h
  · rintro span ts' rfl
    simp [Token.tightness?] at h

theorem stores_of_follows {e : Expr} {ts : List Lexeme} (h : Follows 0 ts) :
    Yields (stores stop e ts) e ts := by
  rw [stores]
  · exact yields_ok
  · rintro span ts' rfl
    simp [Token.tightness?] at h

theorem operations_of_follows {level : Nat} {e : Expr} {ts : List Lexeme} (h : Follows level ts) :
    Yields (operations stop level e ts) e ts := by
  have hop : operator? level ts = none := by
    cases hop : operator? level ts with
    | none => rfl
    | some b =>
      obtain ⟨hlevel, span, rest, rfl⟩ := operator?_eq_some hop
      rw [follows_cons] at h
      exact absurd (h _ (Token.tightness?_operator b)) (by omega)
  rw [operations.eq_def, hop]
  exact yields_ok

section Rules

variable {ts us rest : List Lexeme} {span : Span} {e v : Expr}

theorem expression_yields (ho : Yields (operation stop 1 ts) e us)
    (hs : Yields (stores stop e us) v rest) : Yields (expression stop ts) v rest := by
  rw [expression]
  exact ho.bind fun _ => hs.bind fun _ => yields_ok

theorem stores_yields {target : Target} (ht : Yields (Parser.target stop ts) target us)
    (hs : Yields (stores stop (.assign e target) us) v rest) :
    Yields (stores stop e (⟨span, .operator .store⟩ :: ts)) v rest := by
  rw [stores]
  exact ht.bind fun _ => hs.bind fun _ => yields_ok

theorem operation_yields {level : Nat} (ho : Yields (operand stop ts) e us)
    (hs : Yields (operations stop level e us) v rest) : Yields (operation stop level ts) v rest := by
  rw [operation]
  exact ho.bind fun _ => hs.bind fun _ => yields_ok

theorem operations_yields {level : Nat} {b : BinaryOp} {lhs : Expr} (hb : level ≤ b.precedence)
    (ho : Yields (operation stop (b.precedence + 1) ts) e us)
    (hs : Yields (operations stop level (.binary b lhs e) us) v rest) :
    Yields (operations stop level lhs (⟨span, .operator b.operator⟩ :: ts)) v rest := by
  rw [operations.eq_def, operator?_cons, if_pos hb]
  exact ho.bind fun _ => hs.bind fun _ => yields_ok

theorem operand_minus (h : Yields (operand stop ts) e rest) :
    Yields (operand stop (⟨span, .operator .minus⟩ :: ts)) (.unary .negate e) rest := by
  rw [operand]
  exact h.bind fun _ => yields_ok

theorem suffixes_square (h : Yields (suffixes (.unary .square e) ts) v rest) :
    Yields (suffixes e (⟨span, .modifier .square⟩ :: ts)) v rest := by
  rw [suffixes]
  exact h.bind fun _ => yields_ok

theorem suffixes_increment {target : Target} (h : Yields (suffixes (.increment target) ts) v rest) :
    Yields (suffixes target.toExpr (⟨span, .operator .increment⟩ :: ts)) v rest := by
  rw [suffixes, Expr.toTarget?_eq_some.2 rfl]
  exact h.bind fun _ => yields_ok

theorem suffixes_decrement {target : Target} (h : Yields (suffixes (.decrement target) ts) v rest) :
    Yields (suffixes target.toExpr (⟨span, .operator .decrement⟩ :: ts)) v rest := by
  rw [suffixes, Expr.toTarget?_eq_some.2 rfl]
  exact h.bind fun _ => yields_ok

theorem operand_yields (ht : ∀ t ∈ ts.head?, t.token ≠ .operator .minus)
    (hp : Yields (primary stop ts) e us) (hs : Yields (suffixes e us) v rest) :
    Yields (operand stop ts) v rest := by
  rw [operand]
  · exact hp.bind fun _ => hs.bind fun _ => yields_ok
  · rintro span ts' rfl
    exact ht _ rfl rfl

theorem primary_parens {close : Span}
    (he : Yields (expression stop ts) e (⟨close, .rightParen⟩ :: rest)) :
    Yields (primary stop (⟨span, .leftParen⟩ :: ts)) e rest := by
  rw [primary]
  exact he.bind fun _ => (expect_yields rfl).bind fun _ => yields_ok

theorem primary_braces {close : Span} {w : Width}
    (he : Yields (expression stop ts) e (⟨close, .rightBrace⟩ :: us))
    (hw : ∃ hr, width us = ⟨w, rest, hr⟩) :
    Yields (primary stop (⟨span, .leftBrace⟩ :: ts)) (.deref e w) rest := by
  obtain ⟨_, hw⟩ := hw
  rw [primary]
  refine he.bind fun _ => (expect_yields rfl).bind fun _ => ?_
  dsimp only
  rw [hw]
  exact yields_ok

theorem target_braces {close : Span} {w : Width}
    (he : Yields (expression stop ts) e (⟨close, .rightBrace⟩ :: us))
    (hw : ∃ hr, width us = ⟨w, rest, hr⟩) :
    Yields (target stop (⟨span, .leftBrace⟩ :: ts)) (.pointer e w) rest := by
  obtain ⟨_, hw⟩ := hw
  rw [target]
  refine he.bind fun _ => (expect_yields rfl).bind fun _ => ?_
  dsimp only
  rw [hw]
  exact yields_ok

theorem primary_getKey {opening close : Span}
    (he : Yields (expression stop ts) e (⟨close, .rightParen⟩ :: rest)) :
    Yields (primary stop (⟨span, .word .getKey⟩ :: ⟨opening, .leftParen⟩ :: ts)) (.getKey e)
      rest := by
  rw [primary]
  exact (expect_yields rfl).bind fun _ => he.bind fun _ => (expect_yields rfl).bind fun _ =>
    yields_ok

theorem primary_pxlTest {opening comma close : Span} {us' : List Lexeme} {x y : Expr}
    {surface : Surface} (hx : Yields (expression stop ts) x (⟨comma, .comma⟩ :: us))
    (hy : Yields (expression stop us) y (⟨close, .rightParen⟩ :: us'))
    (hs : ∃ hr, Parser.surface us' = ⟨surface, rest, hr⟩) :
    Yields (primary stop (⟨span, .word .pxlTest⟩ :: ⟨opening, .leftParen⟩ :: ts))
      (.pxlTest surface x y) rest := by
  obtain ⟨_, hs⟩ := hs
  rw [primary]
  refine (expect_yields rfl).bind fun _ => hx.bind fun _ => (expect_yields rfl).bind fun _ =>
    hy.bind fun _ => (expect_yields rfl).bind fun _ => ?_
  dsimp only
  rw [hs]
  exact yields_ok

end Rules

/-- How a phrase is read that stands in front of `rest`. The readers for some levels go on behind
the phrase: with stores, with operators or with suffixes. -/
def Accepts (stop : Span) (us : List Lexeme) (e : Expr) (rest : List Lexeme) : Nat → Prop
  | 0 => ∀ v rest', Yields (stores stop e rest) v rest' →
      Yields (expression stop (us ++ rest)) v rest'
  | 4 => Yields (operand stop (us ++ rest)) e rest
  | 5 => ∀ v rest', Yields (suffixes e rest) v rest' → Yields (operand stop (us ++ rest)) v rest'
  | 6 => Yields (primary stop (us ++ rest)) e rest
  | 7 => Yields (primary stop (us ++ rest)) e rest ∧
      ∀ t : Target, e = t.toExpr → Yields (target stop (us ++ rest)) t rest
  | n => ∀ level ≤ n, ∀ v rest', Yields (operations stop level e rest) v rest' →
      Yields (operation stop level (us ++ rest)) v rest'

theorem Accepts.operation {us rest rest' : List Lexeme} {e v : Expr} {n level : Nat}
    (h : Accepts stop us e rest n) (hn : 1 ≤ n) (hn' : n ≤ 4) (hlevel : level ≤ n)
    (hs : Yields (operations stop level e rest) v rest') :
    Yields (operation stop level (us ++ rest)) v rest' := by
  match n with
  | 1 | 2 | 3 => exact h level hlevel v rest' hs
  | 4 => exact operation_yields h hs

theorem Accepts.expression {us rest : List Lexeme} {e : Expr} (h : Accepts stop us e rest 0)
    (hr : Follows 0 rest) : Yields (expression stop (us ++ rest)) e rest :=
  h e rest (stores_of_follows hr)

theorem accepts_of_operation {us rest : List Lexeme} {e : Expr} {n : Nat} (hn : 1 ≤ n) (hn' : n ≤ 3)
    (h : ∀ level ≤ n, ∀ v rest', Yields (operations stop level e rest) v rest' →
      Yields (operation stop level (us ++ rest)) v rest') : Accepts stop us e rest n := by
  match n with
  | 1 | 2 | 3 => exact h

theorem accepts_suffix {token : Token} {ts : List Token} {e e' : Expr}
    (htoken : token.tightness? = some 5)
    (hsuffix : ∀ {span rest v rest'}, Yields (suffixes e' rest) v rest' →
      Yields (suffixes e (⟨span, token⟩ :: rest)) v rest')
    (ih : ∀ {us rest : List Lexeme}, us.map Lexeme.token = ts → Follows 6 rest →
      Accepts stop us e rest 5)
    {us rest : List Lexeme} (hus : us.map Lexeme.token = ts ++ [token]) :
    Accepts stop us e' rest 5 := by
  obtain ⟨us₁, span, us₂, rfl, h₁, h₂⟩ := exists_lexeme_between hus
  obtain rfl := List.map_eq_nil_iff.1 h₂
  intro v rest' hs
  have hfollows : Follows 6 (⟨span, token⟩ :: rest) := by simp [htoken]
  rw [List.append_assoc]
  exact ih h₁ hfollows v rest' (hsuffix hs)

theorem accepts_looser {n : Nat} {us rest : List Lexeme} {ts : List Token} {e : Expr}
    (hp : Phrase (n + 1) ts e) (hus : us.map Lexeme.token = ts) (hr : Follows (n + 1) rest)
    (h : Accepts stop us e rest (n + 1)) : Accepts stop us e rest n := by
  have hn := hp.level_le
  match n with
  | 0 =>
    intro v rest' hs
    have ho := h.operation (by decide) (by decide) (by decide) (operations_of_follows hr)
    exact expression_yields ho hs
  | 1 | 2 => exact fun level hlevel => h level (by omega)
  | 3 => exact fun level hlevel v rest' hs => operation_yields h hs
  | 4 => exact h e rest (suffixes_of_follows hr)
  | 5 =>
    intro v rest' hs
    refine operand_yields ?_ h hs
    obtain ⟨t, ts', rfl, -, ht⟩ := hp.starts
    obtain ⟨span, us', rfl, -⟩ := exists_lexeme hus
    rintro _ ⟨⟩
    exact ht (by decide)
  | 6 => exact h.1
  | n + 7 => omega

theorem accepts_phrase (stop : Span) {n : Nat} {ts : List Token} {e : Expr} (h : Phrase n ts e)
    {us rest : List Lexeme} (hus : us.map Lexeme.token = ts) (hr : Follows (n + 1) rest) :
    Accepts stop us e rest n := by
  induction h generalizing us rest with
  | looser hp ih => exact accepts_looser hp hus hr (ih hus (hr.mono (Nat.le_succ _)))
  | store he ht ihe iht =>
    obtain ⟨us₁, span, us₂, rfl, h₁, h₂⟩ := exists_lexeme_between hus
    intro v rest' hs
    have hstore : Follows 1 (⟨span, .operator .store⟩ :: (us₂ ++ rest)) := by
      simp [Token.tightness?]
    rw [List.append_assoc]
    exact ihe h₁ hstore v rest' (stores_yields ((iht h₂ (hr.mono (by decide))).2 _ rfl) hs)
  | @binary op _ _ lhs rhs hl hr' ihl ihr =>
    obtain ⟨us₁, span, us₂, rfl, h₁, h₂⟩ := exists_lexeme_between hus
    have hlow := op.precedence_pos
    have hhigh := op.precedence_le
    apply accepts_of_operation hlow hhigh
    intro level hlevel v rest' hs
    have hop : Follows (op.precedence + 1) (⟨span, .operator op.operator⟩ :: (us₂ ++ rest)) := by
      simp [Token.tightness?_operator]
    have hrhs := (ihr h₂ (hr.mono (by omega))).operation (by omega) (by omega) (Nat.le_refl _)
      (operations_of_follows hr)
    rw [List.append_assoc]
    exact (ihl h₁ hop).operation hlow (by omega) hlevel (operations_yields hlevel hrhs hs)
  | negate he ih =>
    obtain ⟨span, us', rfl, h'⟩ := exists_lexeme hus
    exact operand_minus (ih h' hr)
  | square _ ih => exact accepts_suffix rfl suffixes_square ih hus
  | increment _ ih => exact accepts_suffix rfl suffixes_increment ih hus
  | decrement _ ih => exact accepts_suffix rfl suffixes_decrement ih hus
  | number n | buffer b | rand =>
    obtain ⟨span, us', rfl, h'⟩ := exists_lexeme hus
    obtain rfl := List.map_eq_nil_iff.1 h'
    rw [Accepts, List.singleton_append, primary]
    exact yields_ok
  | parens he ih =>
    obtain ⟨span, us', rfl, h'⟩ := exists_lexeme hus
    obtain ⟨us₁, span', us₂, rfl, h₁, h₂⟩ := exists_lexeme_between h'
    obtain rfl := List.map_eq_nil_iff.1 h₂
    have hparen : Follows 0 (⟨span', .rightParen⟩ :: rest) := by simp [Token.tightness?]
    rw [Accepts, List.cons_append, List.append_assoc]
    exact primary_parens ((ih h₁ (hparen.mono (by decide))).expression hparen)
  | addressOf ht ih =>
    obtain ⟨span, us', rfl, h'⟩ := exists_lexeme hus
    rw [Accepts, List.cons_append, primary]
    exact ((ih h' (hr.mono (by decide))).2 _ rfl).bind fun _ => yields_ok
  | getKey he ih =>
    obtain ⟨span, us', rfl, h'⟩ := exists_lexeme hus
    obtain ⟨span₁, us'', rfl, h''⟩ := exists_lexeme h'
    obtain ⟨us₁, span₂, us₂, rfl, h₁, h₂⟩ := exists_lexeme_between h''
    obtain rfl := List.map_eq_nil_iff.1 h₂
    have hparen : Follows 0 (⟨span₂, .rightParen⟩ :: rest) := by simp [Token.tightness?]
    rw [Accepts, List.cons_append, List.cons_append, List.append_assoc]
    exact primary_getKey ((ih h₁ (hparen.mono (by decide))).expression hparen)
  | pxlTest surface hx hy ihx ihy =>
    simp only [List.cons_append, List.append_assoc] at hus
    obtain ⟨span, us', rfl, h'⟩ := exists_lexeme hus
    obtain ⟨span₁, us'', rfl, h''⟩ := exists_lexeme h'
    obtain ⟨us₁, span₂, us₂, rfl, h₁, h₂⟩ := exists_lexeme_between h''
    obtain ⟨us₃, span₃, us₄, rfl, h₃, h₄⟩ := exists_lexeme_between h₂
    have hparen : Follows 0 (⟨span₃, .rightParen⟩ :: (us₄ ++ rest)) := by simp [Token.tightness?]
    have hcomma : Follows 0 (⟨span₂, .comma⟩ :: (us₃ ++ ⟨span₃, .rightParen⟩ :: (us₄ ++ rest))) := by
      simp [Token.tightness?]
    have hx := (ihx h₁ (hcomma.mono (by decide))).expression hcomma
    have hy := (ihy h₃ (hparen.mono (by decide))).expression hparen
    have hassoc : ⟨span, .word .pxlTest⟩ :: ⟨span₁, .leftParen⟩ :: (us₁ ++ ⟨span₂, .comma⟩ ::
        (us₃ ++ ⟨span₃, .rightParen⟩ :: us₄)) ++ rest =
        ⟨span, .word .pxlTest⟩ :: ⟨span₁, .leftParen⟩ :: (us₁ ++ ⟨span₂, .comma⟩ ::
        (us₃ ++ ⟨span₃, .rightParen⟩ :: (us₄ ++ rest))) := by simp
    rw [Accepts, hassoc]
    exact primary_pxlTest hx hy (surface_yields h₄ (hr.mono (by decide)))
  | var c =>
    obtain ⟨span, us', rfl, h'⟩ := exists_lexeme hus
    obtain rfl := List.map_eq_nil_iff.1 h'
    refine ⟨?_, fun target htarget => ?_⟩
    · rw [List.singleton_append, primary]
      exact yields_ok
    · obtain rfl := Option.some.inj (Expr.toTarget?_eq_some.2 htarget)
      rw [List.singleton_append, target]
      exact yields_ok
  | deref width he ih =>
    obtain ⟨span, us', rfl, h'⟩ := exists_lexeme hus
    obtain ⟨us₁, span₁, us₂, rfl, h₁, h₂⟩ := exists_lexeme_between h'
    have hbrace : Follows 0 (⟨span₁, .rightBrace⟩ :: (us₂ ++ rest)) := by simp [Token.tightness?]
    have he := (ih h₁ (hbrace.mono (by decide))).expression hbrace
    have hwidth := width_yields h₂ (hr.mono (by decide))
    rw [Accepts, List.cons_append, List.append_assoc, List.cons_append]
    refine ⟨primary_braces he hwidth, fun target htarget => ?_⟩
    obtain rfl := Option.some.inj (Expr.toTarget?_eq_some.2 htarget)
    exact target_braces he hwidth

theorem expression_phrase {us rest : List Lexeme} {e : Expr}
    (h : Phrase 0 (us.map Lexeme.token) e) (hr : Follows 0 rest) :
    Yields (expression stop (us ++ rest)) e rest :=
  (accepts_phrase stop h rfl (hr.mono (by decide))).expression hr

theorem moreExpressions_comma {span : Span} {ts rest : List Lexeme} {es : List Expr}
    (h : Yields (expressions stop ts) es rest) :
    Yields (moreExpressions stop (⟨span, .comma⟩ :: ts)) es rest := by
  obtain ⟨e, us, _, he, h⟩ := yields_bind.1 h
  obtain ⟨es', us', _, hs, _, h⟩ := yields_bind.1 h
  cases h
  rw [moreExpressions]
  exact Yields.bind ⟨_, he⟩ fun _ => Yields.bind ⟨_, hs⟩ fun _ => yields_ok

theorem expressions_phrases {us rest : List Lexeme} {es : List Expr}
    (h : Phrases (us.map Lexeme.token) es) (hr : Follows 0 rest)
    (hcomma : ∀ t ∈ rest.head?, t.token ≠ .comma) :
    Yields (expressions stop (us ++ rest)) es rest := by
  generalize hts : us.map Lexeme.token = ts at h
  induction h generalizing us with
  | one he =>
    rw [← hts] at he
    refine (expression_phrase he hr).bind fun _ => Yields.bind (a := []) ?_ fun _ => yields_ok
    rw [moreExpressions]
    · exact yields_ok
    · rintro span ts' rfl
      exact hcomma _ rfl rfl
  | more he _ ih =>
    obtain ⟨us₁, span, us₂, rfl, rfl, h₂⟩ := exists_lexeme_between hts
    rw [List.append_assoc]
    exact (expression_phrase he (by simp [Token.tightness?])).bind fun _ =>
      (moreExpressions_comma (ih h₂)).bind fun _ => yields_ok

/-! ## Simple statements -/

/-- What may stand behind a statement. -/
def EndsStatement (ts : List Lexeme) : Prop :=
  ∀ t ∈ ts.head?, t.token.isSeparator

theorem EndsStatement.follows {ts : List Lexeme} (h : EndsStatement ts) : Follows 0 ts := by
  intro t ht n hn
  have ht := h t ht
  cases htoken : t.token <;> simp_all [Token.isSeparator, Token.tightness?]

theorem EndsStatement.ne_comma {ts : List Lexeme} (h : EndsStatement ts) :
    ∀ t ∈ ts.head?, t.token ≠ .comma := by
  intro t ht hcomma
  have ht := h t ht
  rw [hcomma] at ht
  cases ht

theorem simple_effect {t : Lexeme} (ts : List Lexeme) (h : t.token.startsPhrase) :
    simple stop (t :: ts) = effect stop t.span (t :: ts) := by
  obtain ⟨span, token⟩ := t
  cases token with
  | word w =>
    cases w with
    | rand | getKey | pxlTest => rfl
    | _ => cases h
  | command => cases h
  | _ => rfl

theorem effect_yields {us rest : List Lexeme} {e : Expr} (span : Span)
    (h : Phrase 0 (us.map Lexeme.token) e) (he : e.isEffect) (hr : EndsStatement rest) :
    Yields (effect stop span (us ++ rest)) (.effect span e) rest := by
  refine (expression_phrase h hr.follows).bind fun _ => ?_
  dsimp only
  rw [if_pos he]
  exact yields_ok

theorem labelName_yields {t : Lexeme} {name : String} (rest : List Lexeme)
    (h : t.token.labelName? = some name) : Yields (labelName stop (t :: rest)) name rest := by
  obtain ⟨span, token⟩ := t
  cases token <;> cases h <;> exact yields_ok

theorem drawing_sketch {us rest : List Lexeme} {graphic : Graphic} {s : Surface} (span : Span)
    (ha : graphic.arity = 0) (hs : us.map Lexeme.token = s.marks) (hr : EndsStatement rest) :
    Yields (drawing stop span graphic (us ++ rest)) (.draw span graphic s []) rest := by
  obtain ⟨_, hsurface⟩ := surface_yields hs (hr.follows.mono (by decide))
  rw [drawing, if_pos ha, hsurface]
  exact yields_ok

theorem drawing_yields {us rest : List Lexeme} {graphic : Graphic} {ts : List Token}
    {es : List Expr} {s : Surface} (span : Span) (he : Phrases ts es)
    (hcount : es.length = graphic.arity)
    (hus : us.map Lexeme.token = .leftParen :: ts ++ .rightParen :: s.marks)
    (hr : EndsStatement rest) :
    Yields (drawing stop span graphic (us ++ rest)) (.draw span graphic s es) rest := by
  obtain ⟨span₁, us', rfl, h'⟩ := exists_lexeme hus
  obtain ⟨us₁, span₂, us₂, rfl, rfl, hs⟩ := exists_lexeme_between h'
  obtain ⟨_, hsurface⟩ := surface_yields hs (hr.follows.mono (by decide))
  have hparen : Yields (expressions stop (us₁ ++ ⟨span₂, .rightParen⟩ :: (us₂ ++ rest))) es
      (⟨span₂, .rightParen⟩ :: (us₂ ++ rest)) :=
    expressions_phrases he (by simp [Token.tightness?]) (by simp)
  have harity : graphic.arity ≠ 0 := by simp [← hcount, he.ne_nil]
  rw [List.cons_append, List.append_assoc, List.cons_append, drawing, if_neg harity]
  refine (expect_yields rfl).bind fun _ => hparen.bind fun _ => (expect_yields rfl).bind fun _ => ?_
  dsimp only
  rw [if_neg (Decidable.not_not.2 hcount), hsurface]
  exact yields_ok

theorem shift_yields {us rest : List Lexeme} {s : Surface} {plus minus : Graphic} (span : Span)
    (hs : us.map Lexeme.token = s.marks) (hr : EndsStatement rest) (span' : Span) :
    Yields (shift stop span plus minus (⟨span', .operator .plus⟩ :: us ++ rest))
      (.draw span plus s []) rest ∧
    Yields (shift stop span plus minus (⟨span', .operator .minus⟩ :: us ++ rest))
      (.draw span minus s []) rest := by
  obtain ⟨_, hsurface⟩ := surface_yields hs (hr.follows.mono (by decide))
  constructor
  · rw [List.cons_append, shift, hsurface]
    exact yields_ok
  · rw [List.cons_append, shift, hsurface]
    exact yields_ok

theorem simple_yields {us rest : List Lexeme} {span : Span} {s : Stmt}
    (h : Simple span (us.map Lexeme.token) s) (hspan : ∀ t ∈ us.head?, t.span = span)
    (hr : EndsStatement rest) : Yields (simple stop (us ++ rest)) s rest := by
  generalize hts : us.map Lexeme.token = ts at h
  cases h with
  | label hname | goto hname =>
    obtain ⟨span, us', rfl, h'⟩ := exists_lexeme hts
    obtain ⟨t, rfl, rfl⟩ := List.map_eq_singleton_iff.1 h'
    obtain rfl := hspan _ rfl
    exact (labelName_yields rest hname).bind fun _ => yields_ok
  | disp he =>
    obtain ⟨span, us', rfl, rfl⟩ := exists_lexeme hts
    obtain rfl := hspan _ rfl
    exact (expressions_phrases he hr.follows hr.ne_comma).bind fun _ => yields_ok
  | pause he =>
    obtain ⟨span, us', rfl, rfl⟩ := exists_lexeme hts
    obtain rfl := hspan _ rfl
    exact (expression_phrase he hr.follows).bind fun _ => yields_ok
  | dispGraph shade =>
    obtain ⟨span, us', rfl, h'⟩ := exists_lexeme hts
    obtain rfl := hspan _ rfl
    obtain ⟨_, hshade⟩ := shade_yields h' (hr.follows.mono (by decide))
    rw [List.cons_append, simple, hshade]
    exact yields_ok
  | @sketch graphic surface ha =>
    cases graphic with
    | clrDraw =>
      obtain ⟨span, us', rfl, h'⟩ := exists_lexeme hts
      obtain rfl := hspan _ rfl
      exact drawing_sketch _ rfl h' hr
    | shiftRight | shiftDown =>
      obtain ⟨span, us', rfl, h'⟩ := exists_lexeme hts
      obtain ⟨span', us'', rfl, h''⟩ := exists_lexeme h'
      obtain rfl := hspan _ rfl
      rw [List.cons_append, simple]
      exact (shift_yields _ h'' hr span').1
    | shiftLeft | shiftUp =>
      obtain ⟨span, us', rfl, h'⟩ := exists_lexeme hts
      obtain ⟨span', us'', rfl, h''⟩ := exists_lexeme h'
      obtain rfl := hspan _ rfl
      rw [List.cons_append, simple]
      exact (shift_yields _ h'' hr span').2
    | _ => cases ha
  | @draw graphic ts es surface he hcount =>
    rw [List.append_assoc] at hts
    cases graphic with
    | clrDraw | shiftLeft | shiftRight | shiftUp | shiftDown =>
      exact absurd (List.length_eq_zero_iff.1 hcount) he.ne_nil
    | _ =>
      obtain ⟨span, us', rfl, h'⟩ := exists_lexeme hts
      obtain rfl := hspan _ rfl
      exact drawing_yields _ he hcount h' hr
  | effect he heffect =>
    obtain ⟨token, _, hstart, hphrase, -⟩ := he.starts
    obtain ⟨span, us', rfl, h'⟩ := exists_lexeme (hts.trans hstart)
    obtain rfl := hspan _ rfl
    rw [← hts] at he
    rw [List.cons_append, simple_effect _ hphrase, ← List.cons_append]
    exact effect_yields _ he heffect hr
  | exit | help | about =>
    obtain ⟨span, us', rfl, h'⟩ := exists_lexeme hts
    obtain rfl := List.map_eq_nil_iff.1 h'
    obtain rfl := hspan _ rfl
    exact yields_ok
  | debug he =>
    obtain ⟨span, us', rfl, rfl⟩ := exists_lexeme hts
    obtain rfl := hspan _ rfl
    exact (expression_phrase he hr.follows).bind fun _ => yields_ok

/-! ## In front of a block -/

/-- What a block begins with, or the words that end one. -/
def StartsLine (ts : List Lexeme) : Prop :=
  ∀ t ∈ ts.head?, t.token.isSeparator ∨ t.token.startsStatement ∨
    t.token = .word .endWord ∨ t.token = .word .elseWord

theorem StartsLine.tightness {ts : List Lexeme} (h : StartsLine ts) :
    ∀ t ∈ ts.head?, t.token.tightness? = none ∨ t.token = .operator .minus := by
  intro t ht
  have ht := h t ht
  generalize t.token = token at *
  cases token with
  | operator op =>
    revert ht
    cases op <;> decide
  | modifier m =>
    revert ht
    cases m <;> decide
  | _ => exact .inl rfl

theorem StartsLine.ne {ts : List Lexeme} (h : StartsLine ts) (token : Token)
    (htoken : ¬ (token.isSeparator ∨ token.startsStatement ∨ token = .word .endWord ∨
      token = .word .elseWord)) : ∀ t ∈ ts.head?, t.token ≠ token := by
  rintro t ht rfl
  exact htoken (h t ht)

theorem StartsLine.follows {ts : List Lexeme} (h : StartsLine ts) (hu : Unsigned ts) :
    Follows 0 ts := by
  intro t ht n hn
  rcases h.tightness t ht with htoken | htoken
  · simp [htoken] at hn
  · exact absurd htoken (hu t ht)

theorem guard_yields {us behind rest : List Lexeme} {c : Expr}
    (h : Guard (us.map Lexeme.token) c behind) (hl : StartsLine rest)
    (hu : Unsigned behind → Unsigned rest) : Yields (expression stop (us ++ rest)) c rest := by
  generalize hts : us.map Lexeme.token = ts at h
  cases h with
  | operation he hb =>
    rw [← hts] at he
    exact expression_phrase he.looser (hl.follows (hu hb))
  | store he ht =>
    -- no sign can be part of it any more
    obtain ⟨us₁, span, us₂, rfl, h₁, h₂⟩ := exists_lexeme_between hts
    have hfollows : Follows 8 rest := by
      intro t ht n hn
      rcases hl.tightness t ht with htoken | htoken
      · simp [htoken] at hn
      · rw [htoken] at hn
        obtain rfl : 2 = n := Option.some.inj hn
        decide
    have htarget := (accepts_phrase stop ht h₂ hfollows).2 _ rfl
    have hstores {e : Expr} : Yields (stores stop e rest) e rest := by
      rw [stores]
      · exact yields_ok
      · rintro span ts rfl
        exact hl.ne (.operator .store) (by decide) _ rfl rfl
    rw [List.append_assoc]
    exact accepts_phrase stop he h₁ (by simp [Token.tightness?]) _ _ (stores_yields htarget hstores)

theorem forHead_yields {us behind : List Lexeme} {kind : Loop}
    (h : Head (.word .forWord :: us.map Lexeme.token) kind behind) (rest : List Lexeme) :
    Yields (forHead stop (us ++ rest)) kind rest := by
  generalize hts : Token.word .forWord :: us.map Lexeme.token = ts at h
  cases h with
  | whileTrue | repeatUntil => cases hts
  | @count _ _ _ target first last _ ht hf hl =>
    simp only [List.cons_append, List.append_assoc, List.cons.injEq, true_and] at hts
    obtain ⟨span, us', rfl, h₀⟩ := exists_lexeme hts
    obtain ⟨us₁, span₁, _, rfl, rfl, h₁⟩ := exists_lexeme_between h₀
    obtain ⟨us₂, span₂, _, rfl, rfl, h₂⟩ := exists_lexeme_between h₁
    obtain ⟨us₃, span₃, us₄, rfl, rfl, h₃⟩ := exists_lexeme_between h₂
    obtain rfl := List.map_eq_nil_iff.1 h₃
    have hassoc : ⟨span, .leftParen⟩ :: (us₁ ++ ⟨span₁, .comma⟩ :: (us₂ ++ ⟨span₂, .comma⟩ ::
        (us₃ ++ [⟨span₃, .rightParen⟩]))) ++ rest =
        ⟨span, .leftParen⟩ :: (us₁ ++ ⟨span₁, .comma⟩ :: (us₂ ++ ⟨span₂, .comma⟩ ::
        (us₃ ++ ⟨span₃, .rightParen⟩ :: rest))) := by simp
    obtain ⟨_, hcomma⟩ : ∃ hr, accept .comma (⟨span₁, .comma⟩ :: (us₂ ++ ⟨span₂, .comma⟩ ::
        (us₃ ++ ⟨span₃, .rightParen⟩ :: rest))) = ⟨true, _, hr⟩ := accept_cons _ rfl
    rw [hassoc, forHead]
    refine (expect_yields rfl).bind fun _ =>
      (expression_phrase ht (by simp [Token.tightness?])).bind fun _ => ?_
    dsimp only
    rw [hcomma]
    dsimp only
    rw [if_pos rfl, Expr.toTarget?_eq_some.2 rfl]
    exact (expression_phrase hf (by simp [Token.tightness?])).bind fun _ =>
      (expect_yields rfl).bind fun _ =>
      (expression_phrase hl (by simp [Token.tightness?])).bind fun _ =>
      (expect_yields rfl).bind fun _ => yields_ok
  | times hn =>
    simp only [List.cons_append, List.cons.injEq, true_and] at hts
    obtain ⟨span, us', rfl, h₀⟩ := exists_lexeme hts
    obtain ⟨us₁, span₁, us₂, rfl, rfl, h₁⟩ := exists_lexeme_between h₀
    obtain rfl := List.map_eq_nil_iff.1 h₁
    obtain ⟨_, hcomma⟩ : ∃ hr, accept .comma (⟨span₁, .rightParen⟩ :: rest) = ⟨false, _, hr⟩ :=
      accept_of_ne (by simp)
    rw [List.cons_append, List.append_assoc, List.singleton_append, forHead]
    refine (expect_yields rfl).bind fun _ =>
      (expression_phrase hn (by simp [Token.tightness?])).bind fun _ => ?_
    dsimp only
    rw [hcomma]
    exact (expect_yields rfl).bind fun _ => yields_ok

/-! ## Blocks -/

section Rules

variable {n : Nat} {done : Array Stmt} {t : Lexeme} {ts us rest : List Lexeme}
  {v : List Stmt × Closing}

theorem block_nil {h : [].length < n} :
    Yields (block stop n done [] h) (done.toList, .inputEnd) [] := by
  rw [block]
  exact yields_ok

theorem separator_yields {h : (t :: ts).length < n} (ht : t.token.isSeparator)
    (hb : ∀ h, Yields (block stop n done ts h) v rest) :
    Yields (block stop n done (t :: ts) h) v rest := by
  rw [block_separator ht]
  exact hb _

theorem end_yields {h : (t :: ts).length < n} (ht : t.token = .word .endWord) :
    Yields (block stop n done (t :: ts) h) (done.toList, .endWord t.span) ts := by
  rw [block_end ht]
  exact yields_ok

theorem else_yields {h : (t :: ts).length < n} (ht : t.token = .word .elseWord) :
    Yields (block stop n done (t :: ts) h) (done.toList, .elseWord t.span) ts := by
  rw [block_else ht]
  exact yields_ok

theorem endOfStatement_yields (h : EndsStatement ts) : endOfStatement stop ts = .ok () := by
  cases ts with
  | nil => rfl
  | cons t ts => rw [endOfStatement, if_pos (h t rfl)]

theorem block_of_starts {h : (t :: ts).length < n} (ht : t.token.startsStatement) :
    block stop n done (t :: ts) h =
      statement stop (t :: ts) >>= fun r => endOfStatement stop r.rest >>= fun _ =>
        block stop n (done.push r.value) r.rest (Nat.lt_trans r.shorter h) := by
  have hne {token : Token} (htoken : token.startsStatement = false) : t.token ≠ token := by
    rintro rfl
    cases ht.symm.trans htoken
  exact block_cons (by simp [Token.not_isSeparator ht]) (hne rfl) (hne rfl)

theorem block_statement {s : Stmt} {h : (t :: ts).length < n} (ht : t.token.startsStatement)
    (hs : Yields (statement stop (t :: ts)) s us) (hus : EndsStatement us)
    (hb : ∀ h, Yields (block stop n (done.push s) us h) v rest) :
    Yields (block stop n done (t :: ts) h) v rest := by
  rw [block_of_starts ht]
  refine hs.bind fun hlt => ?_
  dsimp only
  rw [endOfStatement_yields hus]
  exact hb _

theorem body_yields {ss : List Stmt} {span : Span}
    (h : ∀ h, Yields (block stop (ts.length + 1) #[] ts h) (ss, .endWord span) rest) :
    Yields (body stop ts) ss rest := by
  rw [body]
  exact (h _).bind fun _ => yields_ok

theorem statement_simple (h : t.token.opensBlock = false) :
    statement stop (t :: ts) = simple stop (t :: ts) := by
  rw [statement]
  all_goals
    rintro span ts' heq
    obtain ⟨rfl, -⟩ := List.cons.inj heq
    cases h

end Rules

/-- How a part of a program is read. The statements of a block are added to those before it. -/
def Admits (stop : Span) (us : List Lexeme) (ss : List Stmt) : Part → Prop
  | .statement => ∀ s rest, ss = [s] → EndsStatement rest →
      Yields (statement stop (us ++ rest)) s rest
  | .block => ∀ n done rest h v rest',
      (∀ h, Yields (block stop n (done ++ ss.toArray) rest h) v rest') →
      Yields (block stop n done (us ++ rest) h) v rest'
  | .ending => (∃ close, us = [close] ∧ close.token = .word .endWord ∧ ss = []) ∨
      ∃ t us', us = t :: us' ∧ t.token = .word .elseWord ∧
        ∀ rest, Yields (body stop (us' ++ rest)) ss rest
  | .program => ∀ n h, Yields (block stop n #[] us h) (ss, .inputEnd) []

theorem Admits.alone {us rest rest' : List Lexeme} {ss : List Stmt} {n : Nat}
    {v : List Stmt × Closing} {h : (us ++ rest).length < n} (ha : Admits stop us ss .block)
    (hb : ∀ h, Yields (block stop n ss.toArray rest h) v rest') :
    Yields (block stop n #[] (us ++ rest) h) v rest' :=
  ha _ _ _ _ _ _ (by simpa using hb)

theorem Admits.body {us rest : List Lexeme} {ss : List Stmt} {close : Lexeme}
    (h : Admits stop us ss .block) (hclose : close.token = .word .endWord) :
    Yields (body stop (us ++ close :: rest)) ss rest :=
  body_yields fun _ => h.alone fun _ => end_yields hclose

theorem Admits.cons {us ts : List Lexeme} {t : Lexeme} {s : Stmt} {ss : List Stmt}
    (hs : Sentence .statement us [s]) (ihs : Admits stop us [s] .statement)
    (ht : t.token.isSeparator) (ih : Admits stop ts ss .block) :
    Admits stop (us ++ t :: ts) (s :: ss) .block := by
  intro n done rest h v rest' hb
  have hends : EndsStatement (t :: (ts ++ rest)) := by
    rintro _ ⟨⟩
    exact ht
  have hpush : done.push s ++ ss.toArray = done ++ (s :: ss).toArray := by
    simp
  have hstatement := ihs s _ rfl hends
  obtain ⟨t₀, us₀, rfl, hstarts⟩ := hs.starts
  simp only [List.append_assoc, List.cons_append] at hstatement ⊢
  refine block_statement hstarts hstatement hends fun _ => separator_yields ht fun _ => ?_
  exact ih _ _ _ _ _ _ (by rwa [hpush])

theorem behind_block {ys : List Lexeme} {ss : List Stmt} (h : Sentence .block ys ss) {t : Lexeme}
    (ht : t.token = .word .endWord ∨ t.token = .word .elseWord) (rest : List Lexeme) :
    StartsLine (ys ++ t :: rest) ∧ (Unsigned ys → Unsigned (ys ++ t :: rest)) := by
  have hz : Unsigned (t :: rest) := by
    rintro _ ⟨⟩ hminus
    simp [hminus] at ht
  have hl : StartsLine (t :: rest) := by
    rintro _ ⟨⟩
    exact .inr (.inr ht)
  cases h with
  | nil => exact ⟨hl, fun _ => hz⟩
  | separator hsep _ =>
    refine ⟨?_, id⟩
    rintro _ ⟨⟩
    exact .inl hsep
  | cons hs _ _ =>
    obtain ⟨u, us, rfl, hu⟩ := hs.starts
    refine ⟨?_, id⟩
    rintro _ ⟨⟩
    exact .inr (.inl hu)

theorem choice_yields (stop : Span) {hs behind rest : List Lexeme} {c : Expr}
    (h : Choice (.word .ifWord :: hs.map Lexeme.token) c behind) (hl : StartsLine rest)
    (hu : Unsigned behind → Unsigned rest) :
    ∃ us marked hr, Yields (expression stop (hs ++ rest)) c us ∧
      accept (.word .thenWord) us = ⟨marked, rest, hr⟩ := by
  generalize hts : Token.word .ifWord :: hs.map Lexeme.token = ts at h
  cases h with
  | bare hg =>
    obtain rfl := (List.cons.inj hts).2
    obtain ⟨hr, haccept⟩ := accept_of_ne (hl.ne (.word .thenWord) (by decide))
    exact ⟨rest, false, hr, guard_yields hg hl hu, haccept⟩
  | marked hp =>
    obtain ⟨us, span, us', rfl, rfl, hnil⟩ := exists_lexeme_between (List.cons.inj hts).2
    obtain rfl := List.map_eq_nil_iff.1 hnil
    obtain ⟨hr, haccept⟩ : ∃ hr, accept (.word .thenWord) (⟨span, .word .thenWord⟩ :: rest) =
        ⟨true, rest, hr⟩ := accept_cons rest rfl
    refine ⟨⟨span, .word .thenWord⟩ :: rest, true, hr, ?_, haccept⟩
    rw [List.append_assoc]
    exact expression_phrase hp (by simp [Token.tightness?])

theorem statement_cond {span : Span} {hs ys ns rest : List Lexeme} {c : Expr} {yes no : List Stmt}
    (hc : Choice (.word .ifWord :: hs.map Lexeme.token) c ys) (hy : Sentence .block ys yes)
    (ihy : Admits stop ys yes .block) (ihn : Admits stop ns no .ending) :
    Yields (statement stop (⟨span, .word .ifWord⟩ :: (hs ++ (ys ++ (ns ++ rest)))))
      (.cond span c yes no) rest := by
  rcases ihn with ⟨close, rfl, hclose, rfl⟩ | ⟨t, us, rfl, ht, hno⟩
  · have hbehind := behind_block hy (.inl hclose) rest
    obtain ⟨us, marked, hr, hexpression, haccept⟩ := choice_yields stop hc hbehind.1 hbehind.2
    rw [List.singleton_append, statement]
    refine hexpression.bind fun _ => ?_
    dsimp only
    rw [haccept]
    exact (ihy.alone fun _ => end_yields hclose).bind fun _ => yields_ok
  · have hbehind := behind_block hy (.inr ht) (us ++ rest)
    obtain ⟨us', marked, hr, hexpression, haccept⟩ := choice_yields stop hc hbehind.1 hbehind.2
    rw [List.cons_append, statement]
    refine hexpression.bind fun _ => ?_
    dsimp only
    rw [haccept]
    exact (ihy.alone fun _ => else_yields ht).bind fun _ => (hno rest).bind fun _ => yields_ok

theorem statement_loop {t close : Lexeme} {hs ys rest : List Lexeme} {kind : Loop}
    {ss : List Stmt} (hh : Head ((t :: hs).map Lexeme.token) kind ys)
    (hy : Sentence .block ys ss) (ih : Admits stop ys ss .block)
    (hclose : close.token = .word .endWord) :
    Yields (statement stop (t :: (hs ++ (ys ++ close :: rest)))) (.loop t.span kind ss) rest := by
  obtain ⟨span, token⟩ := t
  have hbody : Yields (body stop (ys ++ close :: rest)) ss rest := ih.body hclose
  obtain ⟨hl, hu⟩ := behind_block hy (.inl hclose) rest
  have hfor := hh
  generalize hts : (⟨span, token⟩ :: hs : List Lexeme).map Lexeme.token = ts at hh
  cases hh with
  | whileTrue hg | repeatUntil hg =>
    obtain ⟨rfl, rfl⟩ := List.cons.inj hts
    rw [statement]
    exact (guard_yields hg hl hu).bind fun _ => hbody.bind fun _ => yields_ok
  | count | times =>
    obtain ⟨rfl, -⟩ := List.cons.inj hts
    rw [statement]
    exact (forHead_yields hfor _).bind fun _ => hbody.bind fun _ => yields_ok

theorem admits_sentence {p : Part} {us : List Lexeme} {ss : List Stmt} (h : Sentence p us ss) :
    Admits stop us ss p := by
  induction h with
  | @simple t ts s hs =>
    rintro _ rest ⟨⟩ hr
    obtain ⟨_, _, hts, -, hopens⟩ := hs.starts
    rw [List.cons_append, statement_simple ((List.cons.inj hts).1 ▸ hopens), ← List.cons_append]
    exact simple_yields hs (by simp) hr
  | @cond t hs ys ns c yes no hc hy hn ihy ihn =>
    rintro _ rest ⟨⟩ -
    obtain ⟨span, token⟩ := t
    obtain ⟨_, hts⟩ := hc.starts
    obtain rfl : token = .word .ifWord := (List.cons.inj hts).1
    rw [List.cons_append, List.cons_append, List.cons_append, List.append_assoc, List.append_assoc]
    exact statement_cond hc hy ihy ihn
  | @loop t close hs ys kind body hh hb hclose ih =>
    rintro _ rest ⟨⟩ -
    rw [List.cons_append, List.cons_append, List.cons_append, List.append_assoc, List.append_assoc]
    exact statement_loop hh hb ih hclose
  | nil =>
    intro n done rest h v rest' hb
    simpa using hb _
  | separator ht _ ih =>
    intro n done rest h v rest' hb
    exact separator_yields ht fun _ => ih _ _ _ _ _ _ hb
  | cons hs ht _ ihs ih => exact .cons hs ihs ht ih
  | close hclose => exact .inl ⟨_, rfl, hclose, rfl⟩
  | @otherwise t close ns no ht hn hclose ih =>
    refine .inr ⟨t, ns ++ [close], rfl, ht, fun rest => ?_⟩
    rw [List.append_assoc]
    exact ih.body hclose
  | @closed ts ss _ ih =>
    intro n h
    have hnil : (ts ++ []).length < n := by rwa [List.append_nil]
    have hblock : Yields (block stop n #[] (ts ++ []) hnil) (ss, .inputEnd) [] :=
      ih.alone fun _ => block_nil
    simpa using hblock
  | @unclosed ts us ss s _ hs ih ihs =>
    intro n h
    refine ih.alone fun h => ?_
    have hends : EndsStatement [] := by rintro _ ⟨⟩
    have hstatement := ihs s [] rfl hends
    obtain ⟨t, us, rfl, hstarts⟩ := hs.starts
    rw [List.append_nil] at hstatement
    refine block_statement hstarts hstatement hends fun _ => ?_
    have hnil := @block_nil stop n (ss.toArray.push s)
    simpa using hnil

end Parser

theorem parse_of_sentence {ts : List Lexeme} {ss : List Stmt}
    (h : Sentence .program (significant ts) ss) : parse ts = .ok ss := by
  obtain ⟨_, hblock⟩ := Parser.admits_sentence h ((significant ts).length + 1) (by simp)
  exact bind_eq_ok.2 ⟨_, hblock, rfl⟩

end Handheld
