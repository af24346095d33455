import Handheld.Proofs.Reading.Displaced
import Handheld.Proofs.Reading.Pieces
import Handheld.Proofs.Reading.Sentences

/-!
# Texts below each other

A text with another one below it is read as the first and then the second, if
the first one is complete. A line break ends every token but a block comment
that is still open, and it ends every statement. So neither the lexer nor the
parser can tell how the text goes on when they read what stands before it.
-/

namespace Handheld

/-! ## A line break behind a token -/

/-- A block comment without the dots that close it. -/
def Unclosed (comment : List Char) : Prop :=
  OpensBlock comment ∧ ¬ ClosesBlock (comment.drop 3)

theorem Stops.append_newline {p : Char → Bool} {rest : List Char} (h : Stops p rest)
    (hp : p '\n' = false) (cs : List Char) : Stops p (rest ++ '\n' :: cs) := by
  cases rest with
  | nil => exact stops_cons.2 hp
  | cons c rest => exact stops_cons.2 (stops_cons.1 h)

theorem EndsComment.append_newline {comment rest : List Char} (h : EndsComment comment rest)
    (hclosed : rest = [] → ¬ Unclosed comment) (cs : List Char) :
    EndsComment comment (rest ++ '\n' :: cs) := by
  rcases h with rfl | hblock | ⟨hline, hn⟩
  · by_cases ho : OpensBlock comment
    · exact .inr (.inl ⟨ho, Classical.not_not.1 fun hc => hclosed rfl ⟨ho, hc⟩⟩)
    · exact .inr (.inr ⟨ho, rfl⟩)
  · exact .inr (.inl hblock)
  · refine .inr (.inr ⟨hline, ?_⟩)
    rw [List.head?_append, hn]
    rfl

theorem prefix_of_append_newline {word rest cs : List Char} (hword : '\n' ∉ word)
    (h : word <+: rest ++ '\n' :: cs) : word <+: rest := by
  have hrest : rest ++ ['\n'] <+: rest ++ '\n' :: cs := ⟨cs, by simp⟩
  rcases Nat.lt_or_ge rest.length word.length with hlt | hle
  · -- then the word would have the line break in it
    have hin : rest ++ ['\n'] <+: word :=
      List.prefix_of_prefix_length_le hrest h (by simpa using hlt)
    exact absurd (hin.subset (by simp)) hword
  · exact List.prefix_of_prefix_length_le h (List.prefix_append ..) hle

theorem newline_notMem_endings {s e : String} (h : e ∈ endings s) : '\n' ∉ e.toList := by
  unfold endings at h
  split at h
  · obtain rfl := List.mem_singleton.1 h
    decide
  split at h
  · simp only [List.mem_cons, List.not_mem_nil, or_false] at h
    rcases h with rfl | rfl | rfl | rfl <;> decide
  split at h
  · obtain rfl := List.mem_singleton.1 h
    decide
  · cases h

theorem Token.Ends.append_newline {t : Token} {rest : List Char} (h : t.Ends rest)
    (hclosed : rest = [] → ∀ text, t = .comment text → ¬ Unclosed text.toList) (cs : List Char) :
    t.Ends (rest ++ '\n' :: cs) := by
  cases t with
  | whitespace | number | command | var | buffer => exact Stops.append_newline h (by decide) cs
  | operator op => exact Stops.append_newline h (by cases op <;> decide) cs
  | word => exact fun hp => (h hp).append_newline (by decide) cs
  | name s =>
    refine ⟨h.1.append_newline (by decide) cs, fun e he hp => h.2 e he ?_⟩
    exact prefix_of_append_newline (newline_notMem_endings he) hp
  | comment text => exact EndsComment.append_newline h (fun hrest => hclosed hrest text rfl) cs
  | newline | colon | modifier | leftParen | rightParen | leftBrace | rightBrace | comma | eof =>
    trivial

/-! ## Lexemes of both texts -/

/-- The lexemes of a text in pieces, without the one that marks the end. -/
def standing (place : Position) : List Piece → List Lexeme
  | [] => []
  | p :: ps => ⟨place.span p.chars.length, p.token⟩ :: standing (place.advance p.chars) ps

theorem placed_eq_standing (place : Position) (ps : List Piece) :
    placed place ps = standing place ps ++ [⟨(place.advance (written ps)).span 0, .eof⟩] := by
  induction ps generalizing place with
  | nil => rfl
  | cons p ps ih =>
    rw [placed, ih, standing, written_cons, Position.advance_append]
    rfl

theorem map_token_standing (place : Position) (ps : List Piece) :
    (standing place ps).map Lexeme.token = ps.map Piece.token := by
  induction ps generalizing place with
  | nil => rfl
  | cons p ps ih => rw [standing, List.map_cons, ih, List.map_cons]

def lineBreak : Piece := ⟨.newline, ['\n']⟩

theorem Readable.eq_nil {ps : List Piece} (h : Readable ps) (hnil : written ps = []) : ps = [] := by
  cases ps with
  | nil => rfl
  | cons p ps => exact absurd (List.append_eq_nil_iff.1 hnil).1 h.1

theorem lexFrom_lineBreak {ps : List Piece} (h : Readable ps)
    (hclosed : ∀ text, (ps.map Piece.token).getLast? = some (.comment text) →
      ¬ Unclosed text.toList) (place : Position) (done : Array Lexeme) (cs : List Char) :
    lexFrom place done (written ps ++ '\n' :: cs) =
      lexFrom (place.advance (written ps ++ ['\n']))
        (done ++ (standing place (ps ++ [lineBreak])).toArray) cs := by
  induction ps generalizing place done with
  | nil =>
    have hbreak : Token.newline.Stands ['\n'] cs := ⟨trivial, rfl, trivial⟩
    simpa [standing, lineBreak] using @lexFrom_cons place done _ _ _ _ hbreak
  | cons p ps ih =>
    obtain ⟨hne, ⟨hlegible, hspells, hends⟩, hps⟩ := h
    obtain ⟨token, chars⟩ := p
    obtain ⟨c, w, rfl⟩ := List.exists_cons_of_ne_nil hne
    have hstands : token.Stands (c :: w) (written ps ++ '\n' :: cs) := by
      refine ⟨hlegible, hspells, hends.append_newline ?_ cs⟩
      rintro hnil text rfl
      obtain rfl := hps.eq_nil hnil
      exact hclosed text rfl
    have hlater : ∀ text, (ps.map Piece.token).getLast? = some (.comment text) →
        ¬ Unclosed text.toList := by
      intro text hlast
      refine hclosed text ?_
      rw [List.map_cons, List.getLast?_cons, hlast]
      rfl
    rw [written_cons, List.append_assoc, List.append_assoc, Position.advance_append,
      lexFrom_cons hstands, ih hps hlater]
    simp [standing]

/-- The end of the text has cut off a block comment. -/
def CutOff (ts : List Lexeme) : Prop :=
  ∃ text, (ts.dropLast.map Lexeme.token).getLast? = some (.comment text) ∧ Unclosed text.toList

theorem lexemes_eq_ok {source : String} {ts : List Lexeme} :
    lexemes source = .ok ts ↔ ∃ done, lexFrom {} #[] source.toList = .ok done ∧ done.toList = ts := by
  unfold lexemes
  cases lexFrom {} #[] source.toList <;> simp [Except.map]

/-- How many lines a text moves down that comes below. -/
def linesAbove (source : String) : Nat :=
  source.toList.count '\n' + 1

theorem Position.advance_lineBreak (upper : String) :
    Position.advance {} (upper.toList ++ ['\n']) = Position.down (linesAbove upper) {} := by
  rw [Position.advance_eq_behind, Position.behind, Position.down, linesAbove]
  simp

theorem standing_append (place : Position) (ps qs : List Piece) :
    standing place (ps ++ qs) =
      standing place ps ++ standing (place.advance (written ps)) qs := by
  induction ps generalizing place with
  | nil => rfl
  | cons p ps ih =>
    rw [List.cons_append, standing, ih, standing, written_cons, Position.advance_append,
      List.cons_append]

theorem Readable.standing_ne_eof {ps : List Piece} (h : Readable ps) (place : Position) :
    ∀ t ∈ standing place ps, t.token ≠ .eof := by
  intro t ht heof
  have htoken : Token.eof ∈ ps.map Piece.token := by
    rw [← map_token_standing place, ← heof]
    exact List.mem_map_of_mem ht
  obtain ⟨p, hp, hpeof⟩ := List.mem_map.1 htoken
  obtain ⟨-, rest, hlegible, -, -⟩ := h.stands hp
  rw [hpeof] at hlegible
  exact hlegible

theorem find?_eof {source : String} {ts : List Lexeme} (h : lexemes source = .ok ts) :
    ∃ last, ts.find? (·.token = .eof) = some last := by
  obtain ⟨done, hlex, rfl⟩ := lexemes_eq_ok.1 h
  obtain ⟨ps, -, -, rfl⟩ := exists_pieces hlex
  refine Option.isSome_iff_exists.1 ?_
  rw [List.find?_isSome, Array.toList_append, List.toList_toArray, placed_eq_standing]
  exact ⟨⟨(Position.advance {} (written ps)).span 0, .eof⟩, by simp, rfl⟩

/-- The lexemes of the upper text come first, up to the line break, and the others as they are but
further down. -/
theorem lexemes_below {upper : String} {ts : List Lexeme} (h : lexemes upper = .ok ts)
    (hclosed : ¬ CutOff ts) :
    ∃ us stop br, ts = us ++ [stop] ∧ stop.token = .eof ∧ (∀ t ∈ us, t.token ≠ .eof) ∧
      br.token = .newline ∧ ∀ lower, lexemes (upper ++ "\n" ++ lower) =
        ((lexemes lower).map fun vs => us ++ br :: vs.map (.down (linesAbove upper))).mapError
          (.down (linesAbove upper)) := by
  obtain ⟨done, hlex, rfl⟩ := lexemes_eq_ok.1 h
  obtain ⟨ps, hps, hwritten, rfl⟩ := exists_pieces hlex
  rw [Array.toList_append, List.toList_toArray, placed_eq_standing] at hclosed ⊢
  have hlast : ∀ text, (ps.map Piece.token).getLast? = some (.comment text) →
      ¬ Unclosed text.toList := by
    rw [← map_token_standing {}]
    intro text htext hopen
    exact hclosed ⟨text, by simpa using htext, hopen⟩
  refine ⟨standing {} ps, _, ⟨(Position.advance {} (written ps)).span 1, .newline⟩, rfl, rfl,
    hps.standing_ne_eof {}, rfl, fun lower => ?_⟩
  have hchars : (upper ++ "\n" ++ lower).toList = written ps ++ '\n' :: lower.toList := by
    simp [hwritten]
  have hdown := lexFrom_down (linesAbove upper) {} #[] lower.toList
  unfold lexemes
  rw [hchars, lexFrom_lineBreak hps hlast, hwritten, Position.advance_lineBreak, lexFrom_eq_map,
    ← hwritten, standing_append]
  rw [Array.map_empty] at hdown
  rw [hdown]
  cases lexFrom {} #[] lower.toList with
  | error e => rfl
  | ok done =>
    refine congrArg Except.ok ?_
    simp [standing, lineBreak]

/-! ## Statements of both texts -/

theorem Sentence.append {ts us : List Lexeme} {ss ss' : List Stmt} (h : Sentence .block ts ss)
    (h' : Sentence .block us ss') : Sentence .block (ts ++ us) (ss ++ ss') := by
  generalize hp : Part.block = p at h
  induction h with
  | nil => exact h'
  | separator ht _ ih => exact .separator ht (ih hp)
  | cons hs ht _ _ ih =>
    rw [List.append_assoc, List.cons_append, List.cons_append]
    exact .cons hs ht (ih hp)
  | simple | cond | loop | close | otherwise | closed | unclosed => cases hp

theorem Sentence.append_separator {ts : List Lexeme} {ss : List Stmt} (h : Sentence .program ts ss)
    {t : Lexeme} (ht : t.token.isSeparator) : Sentence .block (ts ++ [t]) ss := by
  cases h with
  | closed h => simpa using h.append (.separator ht .nil)
  | unclosed h hs =>
    rw [List.append_assoc]
    exact h.append (.cons hs ht .nil)

namespace Parser

variable {stop : Span} {n : Nat} {done : Array Stmt} {ts : List Lexeme}

theorem block_eq_of_statement {us : List Lexeme} {s : Stmt} {h : (us ++ ts).length < n}
    (hs : Sentence .statement us [s]) (hts : EndsStatement ts) :
    ∃ h', block stop n done (us ++ ts) h = block stop n (done.push s) ts h' := by
  have hstatement : Yields (statement stop (us ++ ts)) s ts := admits_sentence hs s ts rfl hts
  obtain ⟨t, us, rfl, hstarts⟩ := hs.starts
  simp only [List.cons_append] at hstatement ⊢
  obtain ⟨hlt, hstatement⟩ := hstatement
  refine ⟨Nat.lt_trans hlt h, ?_⟩
  rw [block_of_starts hstarts, hstatement]
  change endOfStatement stop ts >>= _ = _
  rw [endOfStatement_yields hts]
  rfl

theorem block_eq_of_sentence {us : List Lexeme} {ss : List Stmt} (hs : Sentence .block us ss)
    (done : Array Stmt) {h : (us ++ ts).length < n} :
    ∃ h', block stop n done (us ++ ts) h = block stop n (done ++ ss.toArray) ts h' := by
  generalize hp : Part.block = p at hs
  induction hs generalizing done with
  | nil => exact ⟨h, by simp⟩
  | separator ht _ ih =>
    obtain ⟨h', heq⟩ := ih done hp
    exact ⟨h', (block_separator ht).trans heq⟩
  | @cons t us ts' s ss hs ht _ _ ih =>
    have hends : EndsStatement (t :: (ts' ++ ts)) := by
      rintro _ ⟨⟩
      exact ht
    simp only [List.append_assoc, List.cons_append]
    obtain ⟨h₁, hfirst⟩ := block_eq_of_statement hs hends
    obtain ⟨h₂, hrest⟩ := ih (done.push s) (h := Nat.lt_of_succ_lt h₁) hp
    have hpush : done.push s ++ ss.toArray = done ++ (s :: ss).toArray := by simp
    rw [hfirst, block_separator ht, hrest, hpush]
    exact ⟨h₂, rfl⟩
  | simple | cond | loop | close | otherwise | closed | unclosed => cases hp

end Parser

theorem significant_append {us : List Lexeme} (hus : ∀ t ∈ us, t.token ≠ .eof)
    (vs : List Lexeme) : significant (us ++ vs) = significant us ++ significant vs := by
  have hall : ∀ t ∈ us, decide (t.token ≠ .eof) = true := fun t ht => decide_eq_true (hus t ht)
  unfold significant
  rw [List.takeWhile_append_of_pos hall, List.takeWhile_eq_self_iff.2 hall, List.filter_append]

theorem significant_map_down (k : Nat) (ts : List Lexeme) :
    significant (ts.map (.down k)) = (significant ts).map (.down k) := by
  unfold significant
  rw [List.takeWhile_map, List.filter_map]
  rfl

theorem inputEnd_append {us vs : List Lexeme} (hus : ∀ t ∈ us, t.token ≠ .eof) {stop : Lexeme}
    (hvs : vs.find? (·.token = .eof) = some stop) : inputEnd (us ++ vs) = stop.span := by
  have hnone : us.find? (·.token = .eof) = none := by simpa using hus
  rw [inputEnd, List.find?_append, hnone, hvs]
  rfl

theorem find?_map_down (k : Nat) {ts : List Lexeme} {stop : Lexeme}
    (h : ts.find? (·.token = .eof) = some stop) :
    (ts.map (.down k)).find? (·.token = .eof) = some (stop.down k) := by
  rw [List.find?_map]
  exact congrArg (Option.map (Lexeme.down k)) h

/-- What a program amounts to that ends so. -/
def Parser.Closing.program (ss : List Stmt) : Closing → Except Diagnostic (List Stmt)
  | .inputEnd => .ok ss
  | .endWord span => .error (Cause.endWithoutBlock.inSpan span)
  | .elseWord span => .error (Cause.elseWithoutIf.inSpan span)

theorem parse_eq {ts rest : List Lexeme} {stop : Span} (hrest : significant ts = rest)
    (hstop : inputEnd ts = stop) :
    parse ts = Parser.block stop (rest.length + 1) #[] rest (Nat.lt_succ_self _) >>= fun r =>
      r.value.2.program r.value.1 := by
  subst hrest hstop
  rw [parse]
  congr 1

theorem Parser.Echoes.program {k m n : Nat} {before : List Stmt}
    {x : Except Diagnostic (Parsed (List Stmt × Closing) m)}
    {y : Except Diagnostic (Parsed (List Stmt × Closing) n)}
    (h : Echoes k (fun v => (before ++ downBlock k v.1, v.2.down k)) x y) :
    (y >>= fun r => r.value.2.program r.value.1) =
      ((x >>= fun r => r.value.2.program r.value.1).map fun ss =>
        before ++ ss.map (.down k)).mapError (.down k) := by
  cases h with
  | error e => rfl
  | @ok v rest _ _ =>
    obtain ⟨ss, closing⟩ := v
    cases closing with
    | inputEnd => exact congrArg (fun ss => Except.ok (before ++ ss)) (downBlock_eq_map k ss)
    | endWord | elseWord => rfl

/-- The statements of the upper text come first, and the others as they are but further down. -/
theorem parse_below {us vs : List Lexeme} {stop br last : Lexeme} {ss : List Stmt} {k : Nat}
    (h : parse (us ++ [stop]) = .ok ss) (hstop : stop.token = .eof)
    (hus : ∀ t ∈ us, t.token ≠ .eof) (hbr : br.token = .newline)
    (hvs : vs.find? (·.token = .eof) = some last) :
    parse (us ++ br :: vs.map (.down k)) =
      ((parse vs).map fun ss' => ss ++ ss'.map (.down k)).mapError (.down k) := by
  have hupper : Sentence .block (significant us ++ [br]) ss := by
    have hnil : significant [stop] = [] := by simp [significant, hstop]
    have hprogram := sentence_of_parse h
    rw [significant_append hus, hnil, List.append_nil] at hprogram
    exact hprogram.append_separator (by rw [hbr]; rfl)
  have husbr : ∀ t ∈ us ++ [br], t.token ≠ .eof := by
    intro t ht
    rcases List.mem_append.1 ht with ht | ht
    · exact hus t ht
    · rw [List.mem_singleton.1 ht, hbr]
      exact nofun
  have hrest : significant (us ++ br :: vs.map (.down k)) =
      significant us ++ [br] ++ (significant vs).map (.down k) := by
    have hone : significant [br] = [br] := by simp [significant, hbr, Token.isTrivia]
    rw [List.append_cons, significant_append husbr, significant_append hus, hone,
      significant_map_down]
  have hend : inputEnd (us ++ br :: vs.map (.down k)) = last.span.down k := by
    rw [List.append_cons]
    exact inputEnd_append husbr (find?_map_down k hvs)
  have hend' : inputEnd vs = last.span := by rw [inputEnd, hvs]
  rw [parse_eq hrest hend, parse_eq rfl hend']
  obtain ⟨_, hblock⟩ := Parser.block_eq_of_sentence hupper #[]
  rw [hblock]
  exact (Parser.block_echoes _ _ _ _ _ _ _ _ _ _ (by simp [downBlock])).program

/-! ## The whole -/

/-- If the upper text can be read and does not end inside of a comment, then reading both gives the
statements of the upper text and then those of the lower one, or its refusal, with the lines
counted from further up. -/
theorem read_below {upper : String} {ts : List Lexeme} {ss : List Stmt}
    (hlex : lexemes upper = .ok ts) (hparse : parse ts = .ok ss) (hclosed : ¬ CutOff ts)
    (lower : String) :
    (lexemes (upper ++ "\n" ++ lower) >>= parse) =
      ((lexemes lower >>= parse).map fun ss' =>
        ss ++ ss'.map (.down (linesAbove upper))).mapError (.down (linesAbove upper)) := by
  obtain ⟨us, stop, br, rfl, hstop, hus, hbr, hbelow⟩ := lexemes_below hlex hclosed
  rw [hbelow]
  cases hlower : lexemes lower with
  | error e => rfl
  | ok vs =>
    obtain ⟨last, hlast⟩ := find?_eof hlower
    exact parse_below hparse hstop hus hbr hlast

/-- A comment at the end of the upper text ends with its line. Below it there may be a statement, or
something that is refused. -/
theorem read_below_comment :
    (lexemes ("1->A\n.one" ++ "\n" ++ "A++") >>= parse) =
      .ok [.effect ⟨1, 0, 1⟩ (.assign (.number 1) (.var 'A')),
        .effect ⟨3, 0, 1⟩ (.increment (.var 'A'))] ∧
    (lexemes ("1->A\n.one" ++ "\n" ++ "\n(A") >>= parse) =
      .error ((Cause.expected (.token .rightParen) .eof).inSpan ⟨4, 2, 2⟩) := by
  let ts : List Lexeme := [⟨⟨1, 0, 1⟩, .number 1⟩, ⟨⟨1, 1, 3⟩, .operator .store⟩,
    ⟨⟨1, 3, 4⟩, .var 'A'⟩, ⟨⟨1, 4, 5⟩, .newline⟩, ⟨⟨2, 0, 4⟩, .comment ".one"⟩, ⟨⟨2, 4, 4⟩, .eof⟩]
  have hlex : lexemes "1->A\n.one" = .ok ts := by cbv
  have hparse : parse ts = .ok [.effect ⟨1, 0, 1⟩ (.assign (.number 1) (.var 'A'))] := by cbv
  have hclosed : ¬ CutOff ts := by
    rintro ⟨text, htext, hopens, -⟩
    obtain rfl : ".one" = text := by simpa [ts] using htext
    revert hopens
    unfold OpensBlock
    decide
  constructor
  · refine (read_below hlex hparse hclosed "A++").trans ?_
    cbv
  · refine (read_below hlex hparse hclosed "\n(A").trans ?_
    cbv

end Handheld
