import Handheld.Proofs.Reading.Respelling

/-!
# Texts with blanks between the tokens

The text of a token ends in front of a blank, and a single blank ends in front of
any such text. So tokens that are written with single blanks between them are
read again, whichever they are: nothing that one of them ends with can be taken
together with what the next one begins with.
-/

namespace Handheld

namespace Token

/-! ## Tokens that are more than trivia -/

/-- A word that the language leaves to the program: no word of its own, no buffer, no variable. -/
structure FreeName (s : String) : Prop where
  shaped : WordShaped s.toList
  not_word : ∀ w : Word, s ∉ w.spellings
  not_buffer : ∀ b : Buffer, s ≠ b.text
  not_var : ∀ c : Char, c.isUpper → s ≠ c.toString

/-- Neither blanks, a comment nor the end. Variables are `A` to `Z`, and names are free. -/
def Solid : Token → Prop
  | .whitespace _ | .comment _ | .eof => False
  | .var c => c.isUpper
  | .name s => FreeName s
  | _ => True

theorem ofWordText?_eq_none_iff {s : String} :
    Word.ofText? s = none ↔ ∀ w : Word, s ∉ w.spellings := by
  have hall (w : Word) : w ∈ Word.all := by cases w <;> decide
  simp [Word.ofText?, hall]

theorem ofBufferText?_eq_none_iff {s : String} :
    Buffer.ofText? s = none ↔ ∀ b : Buffer, s ≠ b.text := by
  have hall (b : Buffer) : b ∈ Buffer.all := by cases b <;> decide
  simp only [Buffer.ofText?, List.find?_eq_none, hall, forall_true_left, beq_iff_eq, ne_eq,
    eq_comm (a := s)]

theorem freeName_iff {s : String} : FreeName s ↔ ofWord s = .name s ∧ WordShaped s.toList := by
  constructor
  · rintro ⟨hshaped, hword, hbuffer, hvar⟩
    refine ⟨?_, hshaped⟩
    simp only [ofWord, ofWordText?_eq_none_iff.2 hword, ofBufferText?_eq_none_iff.2 hbuffer]
    split
    · next c hc =>
      have hupper : ¬ c.isUpper := fun hupper => hvar c hupper (String.toList_inj.1 (by simp [hc]))
      simp [hupper]
    · rfl
  · rintro ⟨hname, hshaped⟩
    unfold ofWord at hname
    split at hname
    · cases hname
    next hword =>
    split at hname
    · cases hname
    next hbuffer =>
    refine ⟨hshaped, ofWordText?_eq_none_iff.1 hword, ofBufferText?_eq_none_iff.1 hbuffer, ?_⟩
    rintro c hupper rfl
    simp [hupper] at hname

theorem solid_iff {t : Token} : t.Solid ↔ t.Legible ∧ t.isTrivia = false := by
  cases t with
  | whitespace | comment => exact ⟨False.elim, fun h => Bool.noConfusion h.2⟩
  | eof => exact ⟨False.elim, fun h => h.1⟩
  | name s => exact freeName_iff.trans (and_iff_left rfl).symm
  | _ => exact (and_iff_left rfl).symm

/-! ## What a blank parts -/

theorem Solid.text_ne_nil {t : Token} (h : t.Solid) : t.text.toList ≠ [] := by
  cases t with
  | whitespace | comment | eof => exact h.elim
  | number n =>
    have hdigits : (Token.number n).text.toList = Nat.toDigits 10 n.toNat := Nat.toList_repr
    rw [hdigits]
    exact Nat.toDigits_ne_nil
  | var c => simp [text]
  | name s =>
    have hshaped := h.shaped
    intro hnil
    rw [show s.toList = [] from hnil] at hshaped
    exact hshaped
  | buffer b => cases b <;> decide
  | word w => cases w <;> decide
  | operator op => cases op <;> decide
  | modifier m => cases m <;> decide
  | command m => cases m <;> decide
  | newline | colon | leftParen | rightParen | leftBrace | rightBrace | comma => decide

theorem blank_notMem_endings (s : String) : ∀ e ∈ endings s, ∀ cs, ¬ e.toList <+: ' ' :: cs := by
  intro e he cs hprefix
  unfold endings at he
  split at he
  · simp_all
  split at he
  · simp only [List.mem_cons, List.not_mem_nil, or_false] at he
    rcases he with rfl | rfl | rfl | rfl <;> simp at hprefix
  split at he <;> simp_all

theorem Solid.ends_blank {t : Token} (h : t.Solid) (cs : List Char) : t.Ends (' ' :: cs) := by
  cases t with
  | whitespace | comment | eof => exact h.elim
  | number | command | var | buffer => exact stops_cons.2 (by decide)
  | operator op => exact stops_cons.2 (by cases op <;> decide)
  | word => exact fun _ => stops_cons.2 (by decide)
  | name s => exact ⟨stops_cons.2 (by decide), fun e he => blank_notMem_endings s e he cs⟩
  | newline | colon | modifier | leftParen | rightParen | leftBrace | rightBrace | comma => trivial

theorem Solid.stands {t : Token} (h : t.Solid) {rest : List Char} (hends : t.Ends rest) :
    t.Stands t.text.toList rest :=
  ⟨(solid_iff.1 h).1, spells_text, hends⟩

theorem Solid.stops_blank {t : Token} (h : t.Solid) (rest : List Char) :
    Stops isBlank (t.text.toList ++ rest) := by
  obtain ⟨c, w, hchars⟩ := List.exists_cons_of_ne_nil h.text_ne_nil
  have hscan := scan_of_stands (hchars ▸ h.stands (h.ends_blank []))
  rw [hchars, List.cons_append, stops_cons]
  by_contra hblank
  rw [Bool.not_eq_false] at hblank
  simp only [scan, if_pos hblank, Except.ok.injEq, Prod.mk.injEq] at hscan
  rw [← hscan.1] at h
  exact h

/-! ## Tokens with blanks between them -/

/-- The texts of tokens, with single blanks between them. -/
def spaced (ts : List Token) : String :=
  " ".intercalate (ts.map text)

/-- The pieces of that text. -/
def spacedPieces (ts : List Token) : List Piece :=
  (ts.map fun t => ⟨t, t.text.toList⟩).intersperse ⟨.whitespace 1, [' ']⟩

theorem spacedPieces_cons_cons (t u : Token) (ts : List Token) :
    spacedPieces (t :: u :: ts) =
      ⟨t, t.text.toList⟩ :: ⟨.whitespace 1, [' ']⟩ :: spacedPieces (u :: ts) := by
  simp [spacedPieces]

theorem map_token_spacedPieces (ts : List Token) :
    (spacedPieces ts).map Piece.token = ts.intersperse (.whitespace 1) := by
  induction ts with
  | nil => rfl
  | cons t ts ih =>
    cases ts with
    | nil => rfl
    | cons u ts => simp [spacedPieces_cons_cons, ih]

theorem written_spacedPieces (ts : List Token) :
    written (spacedPieces ts) = (spaced ts).toList := by
  induction ts with
  | nil => simp [spacedPieces, spaced]
  | cons t ts ih =>
    cases ts with
    | nil => simp [spacedPieces, spaced]
    | cons u ts =>
      rw [spacedPieces_cons_cons, written_cons, written_cons, ih]
      simp [spaced]

theorem exists_written_spacedPieces (t : Token) (ts : List Token) :
    ∃ rest, written (spacedPieces (t :: ts)) = t.text.toList ++ rest := by
  cases ts with
  | nil => exact ⟨[], rfl⟩
  | cons u ts => exact ⟨_, by rw [spacedPieces_cons_cons, written_cons]⟩

theorem readable_spacedPieces {ts : List Token} (h : ∀ t ∈ ts, t.Solid) :
    Readable (spacedPieces ts) := by
  induction ts with
  | nil => trivial
  | cons t ts ih =>
    obtain ⟨ht, hts⟩ := List.forall_mem_cons.1 h
    cases ts with
    | nil => exact ⟨ht.text_ne_nil, ht.stands (Ends.of_append (ht.ends_blank [])), trivial⟩
    | cons u ts =>
      have hblank : (Token.whitespace 1).Stands [' '] (written (spacedPieces (u :: ts))) := by
        refine ⟨Nat.one_pos, ⟨rfl, by simp [isBlank]⟩, ?_⟩
        obtain ⟨rest, hrest⟩ := exists_written_spacedPieces u ts
        rw [hrest]
        exact (hts u (by simp)).stops_blank rest
      rw [spacedPieces_cons_cons]
      exact ⟨ht.text_ne_nil, ht.stands (ht.ends_blank _), by simp, hblank, ih hts⟩

end Token

theorem exists_lexemes_spaced {ts : List Token} (h : ∀ t ∈ ts, t.Solid) :
    ∃ ls, lexemes (Token.spaced ts) = .ok ls ∧
      ls.map Lexeme.token = ts.intersperse (.whitespace 1) ++ [.eof] := by
  refine ⟨placed {} (Token.spacedPieces ts), ?_, ?_⟩
  · rw [lexemes, ← Token.written_spacedPieces, lexFrom_written (Token.readable_spacedPieces h)]
    simp [Except.map]
  · rw [map_token_placed, Token.map_token_spacedPieces]

theorem legible_of_mem_lexemes {source : String} {ls : List Lexeme} (h : lexemes source = .ok ls)
    {t : Token} (ht : t ∈ ls.map Lexeme.token) (hne : t ≠ .eof) : t.Legible := by
  unfold lexemes at h
  cases hlex : lexFrom {} #[] source.toList with
  | error e =>
    rw [hlex] at h
    cases h
  | ok done =>
    obtain ⟨ps, hps, -, rfl⟩ := exists_pieces hlex
    rw [hlex] at h
    obtain rfl : placed {} ps = ls := by simpa [Except.map] using h
    rw [map_token_placed, List.mem_append, List.mem_singleton] at ht
    obtain ⟨p, hp, rfl⟩ := List.mem_map.1 (ht.resolve_right hne)
    obtain ⟨-, rest, hstands⟩ := hps.stands hp
    exact hstands.legible

/-- The solid tokens are those that some text is read as, but for blanks, comments and the end. The
texts of such tokens with single blanks between them are read as these tokens, with one blank
between each two and the end behind them. -/
theorem lexemes_spaced :
    (∀ t : Token, t.Solid ↔ t.isTrivia = false ∧ t ≠ .eof ∧
      ∃ source ls, lexemes source = .ok ls ∧ t ∈ ls.map Lexeme.token) ∧
    ∀ ts : List Token, (∀ t ∈ ts, t.Solid) →
      ∃ ls, lexemes (Token.spaced ts) = .ok ls ∧
        ls.map Lexeme.token = ts.intersperse (.whitespace 1) ++ [.eof] := by
  refine ⟨fun t => ⟨fun h => ?_, ?_⟩, fun ts h => exists_lexemes_spaced h⟩
  · have hone : ∀ u ∈ [t], u.Solid := by simpa using h
    obtain ⟨ls, hls, htokens⟩ := exists_lexemes_spaced hone
    refine ⟨(Token.solid_iff.1 h).2, ?_, _, ls, hls, ?_⟩
    · rintro rfl
      exact h
    · simp [htokens]
  · rintro ⟨htrivia, heof, source, ls, hls, ht⟩
    exact Token.solid_iff.2 ⟨legible_of_mem_lexemes hls ht heof, htrivia⟩

/-- Without the blanks, `o` and the caret behind it would be read as an address sign, and `Pxl` and
what follows it as another word. -/
theorem lexemes_spaced_carets :
    let ts : List Token := [.name "o", .operator .modulo, .modifier .square, .name "Pxl",
      .operator .minus, .name "On", .newline, .number 7]
    (∀ t ∈ ts, t.Solid) ∧ Token.spaced ts = "o ^ ^^2 Pxl - On \n 7" ∧
    ∃ ls, lexemes "o ^ ^^2 Pxl - On \n 7" = .ok ls ∧
      ls.map Lexeme.token = ts.intersperse (.whitespace 1) ++ [.eof] := by
  intro ts
  have hname {s : String} (h : Token.ofWord s = .name s ∧ WordShaped s.toList) :
      (Token.name s).Solid := Token.freeName_iff.2 h
  have hsolid : ∀ t ∈ ts, t.Solid := by
    simp only [ts, List.forall_mem_cons, List.not_mem_nil, false_implies, implies_true, and_true]
    exact ⟨hname (by decide), trivial, trivial, hname (by decide), trivial, hname (by decide),
      trivial, trivial⟩
  have htext : Token.spaced ts = "o ^ ^^2 Pxl - On \n 7" := by decide +kernel
  exact ⟨hsolid, htext, htext ▸ lexemes_spaced.2 ts hsolid⟩

end Handheld
