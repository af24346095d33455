import Handheld.Proofs.Reading.Sentences

/-!
# Parsing is the grammar

A program is parsed exactly if it is a sentence, and then as the one tree it
stands for. The words that open and close blocks are nested in a sentence, and
its statements are complete.
-/

namespace Handheld

/-! ## Nesting -/

/-- A block that is not closed yet. -/
inductive Opened
  /-- The first block of an `If`, which may still have another one. -/
  | choice
  | other
deriving DecidableEq

/-- The blocks that are open behind a token, the innermost first. -/
def Token.nest : List Opened → Token → Option (List Opened)
  | opened, .word .ifWord => some (.choice :: opened)
  | opened, .word .whileWord | opened, .word .repeatWord | opened, .word .forWord =>
    some (.other :: opened)
  | .choice :: opened, .word .elseWord => some (.other :: opened)
  | _, .word .elseWord => none
  | _ :: opened, .word .endWord => some opened
  | [], .word .endWord => none
  | opened, _ => some opened

/-- Every block is closed by an `End` of its own, and an `Else` parts the blocks of an `If`. -/
def Nested (ts : List Token) : Prop :=
  ts.foldlM Token.nest [] = some []

/-- Stands inside a line: opens and closes nothing, and is neither a separator nor skipped. -/
def Token.isInline : Token → Bool
  | .word w => w ∉ [.ifWord, .whileWord, .repeatWord, .forWord, .elseWord, .endWord]
  | .whitespace _ | .comment _ | .newline | .colon | .eof => false
  | _ => true

theorem Token.nest_of_isInline {t : Token} (h : t.isInline) (opened : List Opened) :
    t.nest opened = some opened := by
  cases t with
  | word w =>
    cases w with
    | ifWord | whileWord | repeatWord | forWord | elseWord | endWord => cases h
    | _ => rfl
  | _ => rfl

theorem foldlM_nest {ts : List Token} (h : ts.all Token.isInline) (opened : List Opened) :
    ts.foldlM Token.nest opened = some opened := by
  induction ts with
  | nil => rfl
  | cons t ts ih =>
    rw [List.all_cons, Bool.and_eq_true] at h
    rw [List.foldlM_cons, Token.nest_of_isInline h.1]
    exact ih h.2

@[simp] theorem Width.all_isInline (w : Width) : w.marks.all Token.isInline := by
  cases w <;> rfl

@[simp] theorem Surface.all_isInline (s : Surface) : s.marks.all Token.isInline := by
  cases s <;> rfl

@[simp] theorem Shade.all_isInline (s : Shade) : s.marks.all Token.isInline := by
  cases s <;> rfl

@[simp] theorem Graphic.all_isInline (g : Graphic) : g.opening.all Token.isInline := by
  cases g <;> rfl

theorem Phrase.all_isInline {n : Nat} {ts : List Token} {e : Expr} (h : Phrase n ts e) :
    ts.all Token.isInline := by
  induction h <;> simp_all [-List.all_eq_true, Token.isInline]

theorem Phrases.all_isInline {ts : List Token} {es : List Expr} (h : Phrases ts es) :
    ts.all Token.isInline := by
  induction h with
  | one he => exact he.all_isInline
  | more he _ ih => simp [-List.all_eq_true, Token.isInline, he.all_isInline, ih]

theorem Simple.all_isInline {span : Span} {ts : List Token} {s : Stmt} (h : Simple span ts s) :
    ts.all Token.isInline := by
  cases h with
  | @label t _ hname | @goto t _ hname =>
    cases t with
    | name | number | var => rfl
    | _ => cases hname
  | disp he | draw _ he _ => simp [-List.all_eq_true, Token.isInline, he.all_isInline]
  | pause he | debug he => simp [-List.all_eq_true, Token.isInline, he.all_isInline]
  | effect he _ => exact he.all_isInline
  | sketch | dispGraph => simp [-List.all_eq_true, Token.isInline]
  | exit | help | about => rfl

theorem Choice.all_isInline {ts : List Token} {c : Expr} {behind : List Lexeme}
    (h : Choice ts c behind) : ∃ us, ts = .word .ifWord :: us ∧ us.all Token.isInline := by
  cases h with
  | bare hg => exact ⟨_, rfl, hg.phrase.all_isInline⟩
  | marked hp =>
    exact ⟨_, rfl, by simp [-List.all_eq_true, Token.isInline, hp.all_isInline]⟩

theorem Head.all_isInline {ts : List Token} {kind : Loop} {behind : List Lexeme}
    (h : Head ts kind behind) :
    ∃ w us, ts = .word w :: us ∧ w ∈ [.whileWord, .repeatWord, .forWord] ∧
      us.all Token.isInline := by
  cases h with
  | whileTrue hg => exact ⟨.whileWord, _, rfl, by decide, hg.phrase.all_isInline⟩
  | repeatUntil hg => exact ⟨.repeatWord, _, rfl, by decide, hg.phrase.all_isInline⟩
  | count ht hf hl =>
    refine ⟨.forWord, _, rfl, by decide, ?_⟩
    simp [-List.all_eq_true, Token.isInline, ht.all_isInline, hf.all_isInline, hl.all_isInline]
  | times hn =>
    refine ⟨.forWord, _, rfl, by decide, ?_⟩
    simp [-List.all_eq_true, Token.isInline, hn.all_isInline]

/-- The blocks that are open in front of a part. -/
def Part.inside (opened : List Opened) : Part → List Opened
  | .ending => .choice :: opened
  | _ => opened

theorem nest_append {ts us : List Token} {a b c : List Opened}
    (hts : ts.foldlM Token.nest a = some b) (hus : us.foldlM Token.nest b = some c) :
    (ts ++ us).foldlM Token.nest a = some c := by
  rw [List.foldlM_append, hts]
  exact hus

theorem Choice.nest {ts : List Token} {c : Expr} {behind : List Lexeme} (h : Choice ts c behind)
    (opened : List Opened) : ts.foldlM Token.nest opened = some (.choice :: opened) := by
  obtain ⟨us, rfl, hus⟩ := h.all_isInline
  exact foldlM_nest hus (.choice :: opened)

theorem Head.nest {ts : List Token} {kind : Loop} {behind : List Lexeme} (h : Head ts kind behind)
    (opened : List Opened) : ts.foldlM Token.nest opened = some (.other :: opened) := by
  obtain ⟨w, us, rfl, hw, hus⟩ := h.all_isInline
  have hopen : (Token.word w).nest opened = some (.other :: opened) := by
    cases w with
    | whileWord | repeatWord | forWord => rfl
    | _ => simp at hw
  rw [List.foldlM_cons, hopen]
  exact foldlM_nest hus (.other :: opened)

theorem nest_end {t : Token} (h : t = .word .endWord) (o : Opened) (opened : List Opened) :
    [t].foldlM Token.nest (o :: opened) = some opened := by
  rw [h]
  cases o <;> rfl

theorem nest_separator {t : Token} (h : t.isSeparator) (opened : List Opened) :
    [t].foldlM Token.nest opened = some opened := by
  cases t with
  | newline | colon => rfl
  | _ => cases h

theorem Sentence.nest {p : Part} {ts : List Lexeme} {ss : List Stmt} (h : Sentence p ts ss)
    (opened : List Opened) :
    (ts.map Lexeme.token).foldlM Token.nest (p.inside opened) = some opened := by
  induction h generalizing opened with
  | simple hs => exact foldlM_nest hs.all_isInline opened
  | cond hc _ _ ihy ihn =>
    rw [List.map_append, List.map_append]
    exact nest_append (nest_append (hc.nest opened) (ihy (.choice :: opened))) (ihn opened)
  | loop hh _ hclose ih =>
    rw [List.map_append, List.map_append]
    exact nest_append (nest_append (hh.nest opened) (ih (.other :: opened)))
      (nest_end hclose .other opened)
  | nil => rfl
  | separator ht _ ih => exact nest_append (nest_separator ht opened) (ih opened)
  | cons _ ht _ ihs ih =>
    rw [List.map_append]
    exact nest_append (ihs opened) (nest_append (nest_separator ht opened) (ih opened))
  | close hclose => exact nest_end hclose .choice opened
  | @otherwise t _ _ _ ht _ hclose ih =>
    have helse : [t.token].foldlM Token.nest (.choice :: opened) = some (.other :: opened) := by
      rw [ht]
      rfl
    rw [List.map_append, List.map_cons]
    exact nest_append (nest_append helse (ih (.other :: opened))) (nest_end hclose .other opened)
  | closed _ ih => exact ih opened
  | unclosed _ _ ih ihs =>
    rw [List.map_append]
    exact nest_append (ih opened) (ihs opened)

/-! ## Complete statements -/

/-- Has all the values it needs, and does something. Says nothing about the statements inside a
block. -/
def Stmt.Complete : Stmt → Prop
  | .effect _ e => e.isEffect
  | .disp _ values => values ≠ []
  | .draw _ graphic _ arguments => arguments.length = graphic.arity
  | _ => True

theorem Simple.complete {span : Span} {ts : List Token} {s : Stmt} (h : Simple span ts s) :
    s.Complete ∧ s.flat = [s] := by
  cases h with
  | disp he => exact ⟨he.ne_nil, rfl⟩
  | sketch _ ha => exact ⟨ha.symm, rfl⟩
  | draw _ _ hcount => exact ⟨hcount, rfl⟩
  | effect _ he => exact ⟨he, rfl⟩
  | _ => exact ⟨trivial, rfl⟩

theorem Sentence.complete {p : Part} {ts : List Lexeme} {ss : List Stmt} (h : Sentence p ts ss) :
    ∀ s ∈ flatBlock ss, s.Complete := by
  induction h with
  | simple hs => simpa [flatBlock, hs.complete.2] using hs.complete.1
  | cond _ _ _ ihy ihn =>
    simp only [flatBlock, Stmt.flat, List.append_nil, List.forall_mem_cons, List.forall_mem_append]
    exact ⟨trivial, ihy, ihn⟩
  | loop _ _ _ ih =>
    simp only [flatBlock, Stmt.flat, List.append_nil, List.forall_mem_cons]
    exact ⟨trivial, ih⟩
  | nil | close => simp [flatBlock]
  | separator _ _ ih => exact ih
  | @cons _ _ _ s ss _ _ _ ihs ih =>
    rw [← List.singleton_append, flatBlock_append]
    exact List.forall_mem_append.2 ⟨ihs, ih⟩
  | otherwise _ _ _ ih => exact ih
  | closed _ ih => exact ih
  | unclosed _ _ ih ihs =>
    rw [flatBlock_append]
    exact List.forall_mem_append.2 ⟨ih, ihs⟩

/-! ## Whole programs -/

/-- The lexemes of a parsed program are a sentence, for its tree and for no other one. -/
theorem parse_derives {ts : List Lexeme} {ss : List Stmt} (h : parse ts = .ok ss) :
    Sentence .program (significant ts) ss ∧
    (∀ ss', Sentence .program (significant ts) ss' → ss' = ss) ∧
    Nested ((significant ts).map Lexeme.token) ∧
    ∀ s ∈ flatBlock ss, s.Complete := by
  have hs := sentence_of_parse h
  refine ⟨hs, fun ss' hs' => ?_, hs.nest [], hs.complete⟩
  exact Except.ok.inj ((parse_of_sentence hs').symm.trans h)

theorem parse_derives_choice :
    let ts : List Lexeme := [⟨⟨1, 0, 2⟩, .word .ifWord⟩, ⟨⟨1, 2, 3⟩, .whitespace 1⟩,
      ⟨⟨1, 3, 4⟩, .var 'A'⟩, ⟨⟨1, 4, 5⟩, .newline⟩, ⟨⟨2, 0, 1⟩, .var 'A'⟩,
      ⟨⟨2, 1, 3⟩, .operator .increment⟩, ⟨⟨2, 3, 4⟩, .colon⟩, ⟨⟨2, 4, 8⟩, .word .elseWord⟩,
      ⟨⟨2, 8, 10⟩, .operator .minus⟩, ⟨⟨2, 10, 11⟩, .number 1⟩, ⟨⟨2, 11, 13⟩, .operator .store⟩,
      ⟨⟨2, 13, 14⟩, .var 'B'⟩, ⟨⟨2, 14, 15⟩, .newline⟩, ⟨⟨3, 0, 3⟩, .word .endWord⟩,
      ⟨⟨3, 3, 3⟩, .eof⟩, ⟨⟨3, 3, 4⟩, .comma⟩]
    let ss : List Stmt := [.cond ⟨1, 0, 2⟩ (.var 'A') [.effect ⟨2, 0, 1⟩ (.increment (.var 'A'))]
      [.effect ⟨2, 8, 10⟩ (.assign (.unary .negate (.number 1)) (.var 'B'))]]
    parse ts = .ok ss ∧ Sentence .program (significant ts) ss ∧
      (∀ ss', Sentence .program (significant ts) ss' → ss' = ss) ∧
      Nested ((significant ts).map Lexeme.token) ∧ ∀ s ∈ flatBlock ss, s.Complete := by
  intro ts ss
  have h : parse ts = .ok ss := by cbv
  exact ⟨h, parse_derives h⟩

end Handheld
