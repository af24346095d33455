import Handheld.Proofs.Reading.Scanning

/-!
# Texts in pieces

Lexing cuts a text into pieces, one for each token, and loses nothing of it.
`exists_pieces` and `lexFrom_written` say that lexing succeeds exactly on the
texts that can be cut so. Where a text is refused, the part before that place
can be cut.
-/

namespace Handheld

/-! ## Pieces -/

/-- A token and the characters it is written with. -/
structure Piece where
  token : Token
  chars : List Char

def written (ps : List Piece) : List Char :=
  ps.flatMap Piece.chars

/-- Each piece is read as its token, in front of those behind it. -/
def Readable : List Piece → Prop
  | [] => True
  | p :: ps => p.chars ≠ [] ∧ p.token.Stands p.chars (written ps) ∧ Readable ps

/-- The lexemes of a text in pieces that begins at `place`. -/
def placed (place : Position) : List Piece → List Lexeme
  | [] => [⟨place.span 0, .eof⟩]
  | p :: ps => ⟨place.span p.chars.length, p.token⟩ :: placed (place.advance p.chars) ps

theorem Position.advance_append (place : Position) (cs ds : List Char) :
    place.advance (cs ++ ds) = (place.advance cs).advance ds :=
  List.foldl_append

@[simp] theorem written_nil : written [] = [] := rfl

@[simp] theorem written_cons (p : Piece) (ps : List Piece) :
    written (p :: ps) = p.chars ++ written ps := rfl

theorem lexFrom_cons {place : Position} {done : Array Lexeme} {t : Token} {c : Char}
    {w rest : List Char} (h : t.Stands (c :: w) rest) :
    lexFrom place done (c :: w ++ rest) =
      lexFrom (place.advance (c :: w)) (done.push ⟨place.span (w.length + 1), t⟩) rest := by
  rw [List.cons_append, lexFrom, Token.scan_of_stands h]
  simp only [List.take_left, List.drop_left]

theorem lexFrom_written {ps : List Piece} (h : Readable ps) (place : Position)
    (done : Array Lexeme) :
    lexFrom place done (written ps) = .ok (done ++ (placed place ps).toArray) := by
  induction ps generalizing place done with
  | nil => simp [lexFrom, placed]
  | cons p ps ih =>
    obtain ⟨hne, hstands, hps⟩ := h
    obtain ⟨t, chars⟩ := p
    cases chars with
    | nil => exact absurd rfl hne
    | cons c w =>
      rw [written_cons, lexFrom_cons hstands, ih hps]
      simp [placed]

theorem exists_pieces {place : Position} {done : Array Lexeme} {cs : List Char}
    {ts : Array Lexeme} (h : lexFrom place done cs = .ok ts) :
    ∃ ps, Readable ps ∧ written ps = cs ∧ ts = done ++ (placed place ps).toArray := by
  fun_induction lexFrom place done cs with
  | case1 place done =>
    cases h
    exact ⟨[], trivial, rfl, by simp [placed]⟩
  | case2 => cases h
  | case3 place done c cs t n hscan ih =>
    obtain ⟨w, rest, rfl, rfl, hstands⟩ := Token.stands_of_scan hscan
    simp only [List.take_left, List.drop_left] at h ih
    obtain ⟨ps, hps, rfl, rfl⟩ := ih h
    exact ⟨⟨t, c :: w⟩ :: ps, ⟨by simp, hstands, hps⟩, rfl, by simp [placed]⟩

/-! ## Refused texts -/

theorem Stops.of_append {p : Char → Bool} {cs ds : List Char} (h : Stops p (cs ++ ds)) :
    Stops p cs := by
  cases cs <;> simp_all

theorem EndsComment.of_append {comment cs ds : List Char} (h : EndsComment comment (cs ++ ds)) :
    EndsComment comment cs := by
  rcases h with h | h | ⟨ho, hn⟩
  · exact .inl (List.append_eq_nil_iff.1 h).1
  · exact .inr (.inl h)
  · cases cs with
    | nil => exact .inl rfl
    | cons c cs => exact .inr (.inr ⟨ho, hn⟩)

theorem Token.Ends.of_append {t : Token} {cs ds : List Char} (h : t.Ends (cs ++ ds)) :
    t.Ends cs := by
  cases t with
  | whitespace | number | command | var | buffer | operator => exact Stops.of_append h
  | comment => exact EndsComment.of_append h
  | word => exact fun hp => Stops.of_append (h hp)
  | name s => exact ⟨h.1.of_append, fun e he hp => h.2 e he (hp.trans (List.prefix_append cs ds))⟩
  | newline | colon | modifier | leftParen | rightParen | leftBrace | rightBrace | comma | eof =>
    trivial

theorem exists_refused {place : Position} {done : Array Lexeme} {cs : List Char}
    {e : Diagnostic} (h : lexFrom place done cs = .error e) :
    ∃ ps c behind, Readable ps ∧ cs = written ps ++ c :: behind ∧
      e.line = some (place.advance (written ps)).line ∧
      e.start = (place.advance (written ps)).column := by
  fun_induction lexFrom place done cs with
  | case1 => cases h
  | case2 place done c cs cause width hscan =>
    cases h
    exact ⟨[], c, cs, trivial, rfl, rfl, rfl⟩
  | case3 place done c cs t n hscan ih =>
    obtain ⟨w, rest, rfl, rfl, hlegible, hspells, hends⟩ := Token.stands_of_scan hscan
    simp only [List.take_left, List.drop_left] at h ih
    obtain ⟨ps, d, behind, hps, rfl, hline, hstart⟩ := ih h
    refine ⟨⟨t, c :: w⟩ :: ps, d, behind, ⟨by simp, ⟨hlegible, hspells, hends.of_append⟩, hps⟩,
      by simp, ?_, ?_⟩
    · rw [hline, written_cons, Position.advance_append]
    · rw [hstart, written_cons, Position.advance_append]

/-! ## Positions -/

/-- The place behind a text: how many lines it has, and how long the last one is so far. -/
def Position.behind (cs : List Char) : Position where
  line := 1 + cs.count '\n'
  column := (cs.reverse.takeWhile (· ≠ '\n')).length

theorem Position.advance_eq_behind (cs : List Char) :
    Position.advance {} cs = Position.behind cs := by
  induction cs using List.reverseRecOn with
  | nil => rfl
  | append_singleton cs c ih =>
    rw [Position.advance_append, ih]
    by_cases hc : c = '\n'
    · simp [Position.advance, Position.step, Position.behind, hc, Nat.add_assoc]
    · simp [Position.advance, Position.step, Position.behind, hc]

theorem getElem?_placed {place : Position} {ps : List Piece} {i : Nat} {p : Piece}
    (h : ps[i]? = some p) :
    (placed place ps)[i]? =
      some ⟨(place.advance (written (ps.take i))).span p.chars.length, p.token⟩ := by
  induction ps generalizing place i with
  | nil => simp at h
  | cons q ps ih =>
    cases i with
    | zero =>
      cases h
      rfl
    | succ i =>
      rw [placed, List.getElem?_cons_succ, ih h, List.take_succ_cons, written_cons,
        Position.advance_append]

theorem placed_eq (place : Position) (ps : List Piece) :
    ∃ ts, placed place ps = ts ++ [⟨(place.advance (written ps)).span 0, .eof⟩] ∧
      ts.length = ps.length := by
  induction ps generalizing place with
  | nil => exact ⟨[], rfl, rfl⟩
  | cons p ps ih =>
    obtain ⟨ts, hts, hlen⟩ := ih (place.advance p.chars)
    refine ⟨⟨place.span p.chars.length, p.token⟩ :: ts, ?_, by simp [hlen]⟩
    rw [placed, hts, written_cons, Position.advance_append]
    rfl

theorem Readable.stands {ps : List Piece} (h : Readable ps) {p : Piece} (hp : p ∈ ps) :
    p.chars ≠ [] ∧ ∃ rest, p.token.Stands p.chars rest := by
  induction ps with
  | nil => cases hp
  | cons q ps ih =>
    rcases List.mem_cons.1 hp with rfl | hp
    · exact ⟨h.1, _, h.2.1⟩
    · exact ih h.2.2 hp

/-- The lexemes `ts` are those of the chunks, which follow each other and make up the text. Each
has the place where its chunk begins and the width of it, and its token is written as the chunk. A
last lexeme marks the end. -/
structure Covers (ts : List Lexeme) (source : List Char) (chunks : List (List Char)) : Prop where
  whole : chunks.flatten = source
  length_eq : ts.length = chunks.length + 1
  last : ts[chunks.length]? = some ⟨(Position.behind source).span 0, .eof⟩
  each : ∀ (i : Nat) (chunk : List Char), chunks[i]? = some chunk →
    chunk ≠ [] ∧ ∃ t : Token, t ≠ .eof ∧ t.Spells chunk ∧
      ts[i]? = some ⟨(Position.behind (chunks.take i).flatten).span chunk.length, t⟩

theorem covers_placed {ps : List Piece} (h : Readable ps) :
    Covers (placed {} ps) (written ps) (ps.map Piece.chars) := by
  obtain ⟨ts, hts, hlen⟩ := placed_eq {} ps
  constructor
  · rw [written, List.flatMap_def]
  · simp [hts, hlen]
  · rw [hts, ← Position.advance_eq_behind]
    simp [hlen]
  · intro i chunk hi
    rw [List.getElem?_map, Option.map_eq_some_iff] at hi
    obtain ⟨p, hp, rfl⟩ := hi
    obtain ⟨hne, rest, hlegible, hspells, -⟩ := h.stands (List.mem_of_getElem? hp)
    refine ⟨hne, p.token, ?_, hspells, ?_⟩
    · intro heof
      rw [heof] at hlegible
      exact hlegible
    · rw [getElem?_placed hp, Position.advance_eq_behind, written, List.flatMap_def,
        List.map_take]

/-- Lexing loses nothing and knows where everything stands, also where it stops. -/
theorem lexemes_cover (source : String) :
    match lexemes source with
    | .error e => ∃ before c behind, source.toList = before ++ c :: behind ∧
        e.line = some (Position.behind before).line ∧
        e.start = (Position.behind before).column ∧
        ∃ ts, lexemes (String.ofList before) = .ok ts
    | .ok ts => ∃ chunks, Covers ts source.toList chunks := by
  unfold lexemes
  cases h : lexFrom {} #[] source.toList with
  | error e =>
    obtain ⟨ps, c, behind, hps, hsource, hline, hstart⟩ := exists_refused h
    rw [Position.advance_eq_behind] at hline hstart
    refine ⟨written ps, c, behind, hsource, hline, hstart, placed {} ps, ?_⟩
    rw [String.toList_ofList, lexFrom_written hps]
    simp [Except.map]
  | ok ts =>
    obtain ⟨ps, hps, hsource, rfl⟩ := exists_pieces h
    refine ⟨ps.map Piece.chars, ?_⟩
    rw [← hsource]
    simpa using covers_placed hps

end Handheld
