import Handheld.Proofs.Reading.Pieces

/-!
# Writing tokens back

The texts of the tokens of a text, one after the other, are lexed as the same
tokens. A text may differ from what was read: blanks become spaces, zeros in
front of a number go, and two words change a letter. None of that can join two
tokens or split one.
-/

namespace Handheld

/-! ## Characters of a kind -/

/-- No token can tell the characters apart that follow it. -/
def Alike (c d : Char) : Prop :=
  c = d ∨ (isBlank c ∧ isBlank d) ∨ (c.isDigit ∧ d.isDigit) ∨ (c.isAlpha ∧ d.isAlpha)

instance (c d : Char) : Decidable (Alike c d) :=
  inferInstanceAs (Decidable (c = d ∨ _ ∨ _ ∨ _))

/-- Has the same answer for characters of a kind. -/
def Coarse (p : Char → Bool) : Prop :=
  ∀ c d, Alike c d → p c = p d

theorem isBlank_cases {c : Char} (h : isBlank c) : c = ' ' ∨ c = '\t' ∨ c = '\r' := by
  simpa [isBlank, or_assoc] using h

theorem not_isDigit_of_isBlank {c : Char} (h : isBlank c) : c.isDigit = false := by
  rcases isBlank_cases h with rfl | rfl | rfl <;> decide

theorem not_isAlpha_of_isBlank {c : Char} (h : isBlank c) : c.isAlpha = false := by
  rcases isBlank_cases h with rfl | rfl | rfl <;> decide

theorem not_isAlpha_of_isDigit {c : Char} (h : c.isDigit) : c.isAlpha = false := by
  cases ha : c.isAlpha with
  | false => rfl
  | true => simp [Token.not_isDigit ha] at h

theorem coarse_isBlank : Coarse isBlank := by
  rintro c d (rfl | ⟨hc, hd⟩ | ⟨hc, hd⟩ | ⟨hc, hd⟩)
  · rfl
  · rw [hc, hd]
  · rw [Token.not_isBlank hc (by decide), Token.not_isBlank hd (by decide)]
  · rw [Token.not_isBlank hc (by decide), Token.not_isBlank hd (by decide)]

theorem coarse_isDigit : Coarse Char.isDigit := by
  rintro c d (rfl | ⟨hc, hd⟩ | ⟨hc, hd⟩ | ⟨hc, hd⟩)
  · rfl
  · rw [not_isDigit_of_isBlank hc, not_isDigit_of_isBlank hd]
  · rw [hc, hd]
  · rw [Token.not_isDigit hc, Token.not_isDigit hd]

theorem coarse_isAlpha : Coarse Char.isAlpha := by
  rintro c d (rfl | ⟨hc, hd⟩ | ⟨hc, hd⟩ | ⟨hc, hd⟩)
  · rfl
  · rw [not_isAlpha_of_isBlank hc, not_isAlpha_of_isBlank hd]
  · rw [not_isAlpha_of_isDigit hc, not_isAlpha_of_isDigit hd]
  · rw [hc, hd]

theorem coarse_isWordChar : Coarse isWordChar := by
  rintro c d h
  have hund : (c == '_') = (d == '_') := by
    rcases h with rfl | ⟨hc, hd⟩ | ⟨hc, hd⟩ | ⟨hc, hd⟩
    · rfl
    all_goals
      have hc' : c ≠ '_' := by rintro rfl; revert hc; decide
      have hd' : d ≠ '_' := by rintro rfl; revert hd; decide
      simp [hc', hd']
  simp only [isWordChar, Char.isAlphanum, coarse_isAlpha c d h, coarse_isDigit c d h, hund]

theorem coarse_symbols {ds : List Char} (h : ∀ d ∈ ds, Token.isSymbol d) : Coarse ds.contains := by
  have hnot {c : Char} (hc : isBlank c ∨ c.isDigit ∨ c.isAlpha) : ds.contains c = false := by
    cases hm : ds.contains c with
    | false => rfl
    | true =>
      have := h c (by simpa using hm)
      simp only [Token.isSymbol, Bool.not_eq_true', Bool.or_eq_false_iff] at this
      rcases hc with hc | hc | hc <;> simp_all
  rintro c d (rfl | ⟨hc, hd⟩ | ⟨hc, hd⟩ | ⟨hc, hd⟩)
  · rfl
  · rw [hnot (.inl hc), hnot (.inl hd)]
  · rw [hnot (.inr (.inl hc)), hnot (.inr (.inl hd))]
  · rw [hnot (.inr (.inr hc)), hnot (.inr (.inr hd))]

/-! ## The text of a token -/

namespace Token

theorem isDigit_of_spells {n : UInt16} {cs : List Char} (h : (Token.number n).Spells cs) :
    ∀ d ∈ cs, d.isDigit := by
  obtain ⟨zeros, rfl⟩ := h
  have htext : (Token.number n).text.toList = Nat.toDigits 10 n.toNat := Nat.toList_repr
  rw [htext]
  intro d hd
  rcases List.mem_append.1 hd with hd | hd
  · rw [List.eq_of_mem_replicate hd]
    rfl
  · exact Nat.isDigit_of_mem_toDigits (by decide) (by decide) hd

theorem spells_text {t : Token} : t.Spells t.text.toList := by
  cases t with
  | whitespace n => simp [Spells, text, isBlank]
  | number n => exact ⟨0, by simp⟩
  | word word => exact ⟨word.text, by cases word <;> decide, rfl⟩
  | _ => rfl

theorem text_alike {t : Token} {c : Char} {w : List Char} (hl : t.Legible)
    (hs : t.Spells (c :: w)) : ∃ d w', t.text.toList = d :: w' ∧ Alike c d := by
  cases t with
  | whitespace n =>
    obtain ⟨rfl, hb⟩ := hs
    refine ⟨' ', List.replicate w.length ' ', ?_, .inr (.inl ⟨hb c (by simp), by decide⟩)⟩
    simp [text, List.replicate_succ]
  | number n =>
    cases hd : (Token.number n).text.toList with
    | nil =>
      rw [text, String.toList_eq_nil_iff] at hd
      exact absurd hd Nat.repr_ne_empty
    | cons d w' =>
      have hdigit := isDigit_of_spells (n := n) spells_text d (by simp [hd])
      exact ⟨d, w', rfl, .inr (.inr (.inl ⟨isDigit_of_spells hs c (by simp), hdigit⟩))⟩
  | word word =>
    obtain ⟨s, hmem, hs⟩ := hs
    have hletter : ∀ s ∈ word.text :: word.spellings, s.toList.head?.all Char.isAlpha := by
      cases word <;> decide
    have hc : c.isAlpha := by simpa [← hs] using hletter s (List.mem_cons_of_mem _ hmem)
    cases hd : word.text.toList with
    | nil => cases word <;> simp [Word.text, Word.name] at hd
    | cons d w' =>
      have hd' : d.isAlpha := by simpa [hd] using hletter word.text List.mem_cons_self
      exact ⟨d, w', hd, .inr (.inr (.inr ⟨hc, hd'⟩))⟩
  | eof => exact hl.elim
  | _ => exact ⟨c, w, hs.symm, .inl rfl⟩

/-- Only blanks, numbers and two words are written in another way than they were read. -/
theorem chars_eq_text {t : Token} {cs : List Char} (hs : t.Spells cs) {d : Char}
    {w : List Char} (ht : t.text.toList = d :: w) (hb : isBlank d = false)
    (hd : d.isDigit = false) (hw : d ≠ 'g' ∧ d ≠ 'P') : cs = t.text.toList := by
  cases t with
  | whitespace n =>
    have hspace : ∀ c ∈ (Token.whitespace n).text.toList, c = ' ' := by
      simp [text]
    rw [hspace d (by simp [ht])] at hb
    cases hb
  | number n =>
    have := isDigit_of_spells (n := n) spells_text d (by simp [ht])
    simp [hd] at this
  | word word =>
    obtain ⟨s, hmem, rfl⟩ := hs
    have hother : ∀ s ∈ word.spellings, s = word.text ∨ word.text.toList.head? = some 'g' ∨
        word.text.toList.head? = some 'P' := by
      cases word <;> decide
    have hhead : word.text.toList.head? = some d := by
      rw [show word.text.toList = d :: w from ht]
      rfl
    rcases hother s hmem with rfl | h | h
    · rfl
    · exact absurd (Option.some.inj (hhead.symm.trans h)) hw.1
    · exact absurd (Option.some.inj (hhead.symm.trans h)) hw.2
  | _ => exact hs

theorem length_le_scanWord (c : Char) (cs : List Char) :
    (cs.takeWhile isWordChar).length ≤ (scanWord c cs).2 := by
  unfold scanWord
  dsimp only
  split
  · exact Nat.le_add_right _ _
  · split
    · exact Nat.le_add_right _ _
    · exact Nat.le_refl _

theorem scan_carets {cs : List Char} {t : Token} {n : Nat} (h : scan '^' ('^' :: cs) = .ok (t, n)) :
    1 ≤ n := by
  cases hs : scanSymbol '^' ('^' :: cs) with
  | none =>
    have hscan : scan '^' ('^' :: cs) = .error (.unexpectedCharacter '^', 1) := by
      simp [scan, isBlank, hs]
    rw [hscan] at h
    cases h
  | some r =>
    rw [scan_symbol (by decide) hs] at h
    cases h
    unfold scanSymbol at hs
    split at hs
    all_goals simp_all
    all_goals omega

theorem scan_hyphen {d : Char} {cs : List Char} (hd : d.isAlpha) :
    scan '-' (d :: cs) = .ok (.operator .minus, 0) := by
  have hds : ['>', '-'].all fun d => !d.isAlpha := by decide
  apply scan_symbol (by decide)
  unfold scanSymbol
  simp [ne_of_kind hd hds]

end Token

/-! ## Pieces written back -/

/-- The same tokens, each written as its text. -/
def respelled (ps : List Piece) : List Piece :=
  ps.map fun p => ⟨p.token, p.token.text.toList⟩

@[simp] theorem respelled_cons (p : Piece) (ps : List Piece) :
    respelled (p :: ps) = ⟨p.token, p.token.text.toList⟩ :: respelled ps := rfl

theorem written_alike {ps : List Piece} (h : Readable ps) : ps = [] ∨
    ∃ c cs d ds, written ps = c :: cs ∧ written (respelled ps) = d :: ds ∧ Alike c d := by
  cases ps with
  | nil => exact .inl rfl
  | cons p ps =>
    obtain ⟨hne, ⟨hlegible, hspells, -⟩, -⟩ := h
    obtain ⟨c, w, hchars⟩ := List.exists_cons_of_ne_nil hne
    rw [hchars] at hspells
    obtain ⟨d, w', htext, hcd⟩ := Token.text_alike hlegible hspells
    refine .inr ⟨c, w ++ written ps, d, w' ++ written (respelled ps), ?_, ?_, hcd⟩
    · rw [written_cons, hchars, List.cons_append]
    · rw [respelled_cons, written_cons, htext, List.cons_append]

theorem stops_respelled {p : Char → Bool} (hp : Coarse p) {ps : List Piece} (h : Readable ps)
    (hs : Stops p (written ps)) : Stops p (written (respelled ps)) := by
  rcases written_alike h with rfl | ⟨c, cs, d, ds, hc, hd, hcd⟩
  · exact hs
  · rw [hc, stops_cons] at hs
    rw [hd, stops_cons, ← hp c d hcd, hs]

theorem endsComment_respelled {comment : List Char} {ps : List Piece} (h : Readable ps)
    (he : EndsComment comment (written ps)) : EndsComment comment (written (respelled ps)) := by
  rcases written_alike h with rfl | ⟨c, cs, d, ds, hc, hd, hcd⟩
  · exact he
  · rw [hc] at he
    rw [hd]
    rcases he with he | he | ⟨ho, hn⟩
    · cases he
    · exact .inr (.inl he)
    · -- a line break is like no other character
      obtain rfl : c = '\n' := by simpa using hn
      obtain rfl : '\n' = d := by
        rcases hcd with hcd | hcd | hcd | hcd
        · exact hcd
        · exact absurd hcd.1 (by decide)
        · exact absurd hcd.1 (by decide)
        · exact absurd hcd.1 (by decide)
      exact .inr (.inr ⟨ho, rfl⟩)

theorem exists_piece {ps : List Piece} (h : Readable ps) (h' : Readable (respelled ps)) {d : Char}
    {q : List Char} (hq : d :: q <+: written (respelled ps)) (hb : isBlank d = false)
    (hd : d.isDigit = false) (hw : d ≠ 'g' ∧ d ≠ 'P') :
    ∃ t w ps', ps = ⟨t, d :: w⟩ :: ps' ∧ q <+: w ++ written (respelled ps') ∧
      Token.scan d (w ++ written (respelled ps')) = .ok (t, w.length) := by
  cases ps with
  | nil => simp [respelled] at hq
  | cons p ps' =>
    obtain ⟨hne, hstands', -⟩ := h'
    cases htext : p.token.text.toList with
    | nil => exact absurd htext hne
    | cons d' w =>
      simp only [respelled_cons, written_cons, htext, List.cons_append] at hq hstands'
      obtain ⟨rfl, hqw⟩ := List.cons_prefix_cons.1 hq
      have hchars := Token.chars_eq_text h.2.1.spells htext hb hd hw
      rw [htext] at hchars
      exact ⟨p.token, w, ps', by rw [← hchars], hqw, Token.scan_of_stands hstands'⟩

theorem letters_of_respelled {ps : List Piece} (h : Readable ps) (h' : Readable (respelled ps))
    {d : Char} {q : List Char} (hq : d :: q <+: written (respelled ps))
    (hletters : ∀ c ∈ d :: q, c.isAlpha) (hw : d ≠ 'g' ∧ d ≠ 'P') : d :: q <+: written ps := by
  obtain ⟨hd, hletters⟩ := List.forall_mem_cons.1 hletters
  obtain ⟨t, w, ps', rfl, hq, hscan⟩ := exists_piece h h' hq
    (Token.not_isBlank hd (by decide)) (Token.not_isDigit hd) hw
  -- the first token has all of them
  have hlen : q.length ≤ w.length := by
    rw [Token.scan_letter _ hd] at hscan
    have hword := Token.length_le_scanWord d (w ++ written (respelled ps'))
    rw [Except.ok.inj hscan] at hword
    obtain ⟨rest, hrest⟩ := hq
    rw [← hrest, List.takeWhile_append_of_pos fun c hc => isWordChar_of_isAlpha (hletters c hc),
      List.length_append] at hword
    exact Nat.le_trans (Nat.le_add_right _ _) hword
  have hqw : q <+: w := List.prefix_of_prefix_length_le hq (List.prefix_append _ _) hlen
  exact List.cons_prefix_cons.2 ⟨rfl, hqw.trans (List.prefix_append _ _)⟩

theorem ending_of_respelled {ps : List Piece} (h : Readable ps) (h' : Readable (respelled ps))
    {s e : String} (he : e ∈ endings s) (hp : e.toList <+: written (respelled ps)) :
    e.toList <+: written ps := by
  by_cases ho : s = "o"
  · subst ho
    obtain rfl : e = "^^" := by simpa [endings] using he
    obtain ⟨t, w, ps', rfl, hq, hscan⟩ := exists_piece h h' hp (by decide) (by decide) (by decide)
    obtain ⟨rest, hrest⟩ := hq
    rw [← hrest] at hscan
    have hlen := Token.scan_carets hscan
    have hw : ['^'] <+: w :=
      List.prefix_of_prefix_length_le ⟨rest, hrest⟩ (List.prefix_append _ _) hlen
    exact List.cons_prefix_cons.2 ⟨rfl, hw.trans (List.prefix_append _ _)⟩
  · obtain ⟨-, hmem, -⟩ := exists_word_of_ending he ho
    obtain ⟨d, q, heq, hletters, hw⟩ : ∃ d q, e.toList = '-' :: d :: q ∧
        (d :: q).all Char.isAlpha ∧ d ≠ 'g' ∧ d ≠ 'P' := by
      simp only [List.mem_cons, List.not_mem_nil, or_false] at hmem
      rcases hmem with rfl | rfl | rfl | rfl <;> exact ⟨_, _, rfl, by decide⟩
    rw [List.all_eq_true] at hletters
    rw [heq] at hp ⊢
    obtain ⟨t, w, ps', rfl, hq, hscan⟩ := exists_piece h h' hp (by decide) (by decide) (by decide)
    -- the hyphen is a token of its own
    obtain rfl : w = [] := by
      obtain ⟨rest, hrest⟩ := hq
      rw [← hrest, List.cons_append, Token.scan_hyphen (hletters d List.mem_cons_self)] at hscan
      simpa using (Prod.mk.inj (Except.ok.inj hscan)).2.symm
    exact List.cons_prefix_cons.2 ⟨rfl, letters_of_respelled h.2.2 h'.2.2 hq hletters hw⟩

theorem Token.Ends.respelled {t : Token} {ps : List Piece} (h : Readable ps)
    (h' : Readable (respelled ps)) (he : t.Ends (written ps)) :
    t.Ends (written (respelled ps)) := by
  cases t with
  | whitespace => exact stops_respelled coarse_isBlank h he
  | number => exact stops_respelled coarse_isDigit h he
  | command => exact stops_respelled coarse_isAlpha h he
  | var | buffer => exact stops_respelled coarse_isWordChar h he
  | word => exact fun hp => stops_respelled coarse_isWordChar h (he hp)
  | name s =>
    refine ⟨stops_respelled coarse_isWordChar h he.1, fun e hmem hp => ?_⟩
    exact he.2 e hmem (ending_of_respelled h h' hmem hp)
  | operator op =>
    have hop : op.longer.all Token.isSymbol := by cases op <;> decide
    exact stops_respelled (coarse_symbols (List.all_eq_true.1 hop)) h he
  | comment s => exact endsComment_respelled h he
  | newline | colon | modifier | leftParen | rightParen | leftBrace | rightBrace | comma | eof =>
    trivial

theorem readable_respelled {ps : List Piece} (h : Readable ps) : Readable (respelled ps) := by
  induction ps with
  | nil => trivial
  | cons p ps ih =>
    obtain ⟨hne, ⟨hlegible, hspells, hends⟩, hps⟩ := h
    have hps' := ih hps
    refine ⟨?_, ⟨hlegible, Token.spells_text, hends.respelled hps hps'⟩, hps'⟩
    obtain ⟨c, w, hchars⟩ := List.exists_cons_of_ne_nil hne
    rw [hchars] at hspells
    obtain ⟨d, w', htext, -⟩ := Token.text_alike hlegible hspells
    simp [htext]

theorem map_token_placed (place : Position) (ps : List Piece) :
    (placed place ps).map Lexeme.token = ps.map Piece.token ++ [.eof] := by
  induction ps generalizing place with
  | nil => rfl
  | cons p ps ih => simp [placed, ih]

/-- The text of tokens that follow each other. -/
def Token.joined (ts : List Token) : String :=
  String.join (ts.map Token.text)

theorem toList_joined (ps : List Piece) :
    (Token.joined (ps.map Piece.token ++ [.eof])).toList = written (respelled ps) := by
  simp [Token.joined, String.toList_join, written, respelled, List.flatMap_map, Token.text]

/-- What the tokens of a text say they are is again lexed as them. -/
theorem lexemes_joined {source : String} {ts : List Lexeme} (h : lexemes source = .ok ts) :
    ∃ ts', lexemes (Token.joined (ts.map Lexeme.token)) = .ok ts' ∧
      ts'.map Lexeme.token = ts.map Lexeme.token := by
  unfold lexemes at h
  cases hlex : lexFrom {} #[] source.toList with
  | error e =>
    rw [hlex] at h
    cases h
  | ok done =>
    obtain ⟨ps, hps, -, rfl⟩ := exists_pieces hlex
    rw [hlex] at h
    obtain rfl : placed {} ps = ts := by simpa [Except.map] using h
    refine ⟨placed {} (respelled ps), ?_, ?_⟩
    · rw [lexemes, map_token_placed, toList_joined, lexFrom_written (readable_respelled hps)]
      simp [Except.map]
    · simp [map_token_placed, respelled, Function.comp_def]

theorem lexemes_joined_blanks :
    lexemes "007\tGetKey" = .ok [⟨⟨1, 0, 3⟩, .number 7⟩, ⟨⟨1, 3, 4⟩, .whitespace 1⟩,
      ⟨⟨1, 4, 10⟩, .word .getKey⟩, ⟨⟨1, 10, 10⟩, .eof⟩] ∧
    ∃ ts, lexemes "7 getKey" = .ok ts ∧
      ts.map Lexeme.token = [.number 7, .whitespace 1, .word .getKey, .eof] := by
  have h : lexemes "007\tGetKey" = .ok [⟨⟨1, 0, 3⟩, .number 7⟩, ⟨⟨1, 3, 4⟩, .whitespace 1⟩,
      ⟨⟨1, 4, 10⟩, .word .getKey⟩, ⟨⟨1, 10, 10⟩, .eof⟩] := by cbv
  have hjoined : Token.joined [.number 7, .whitespace 1, .word .getKey, .eof] = "7 getKey" := by
    decide +kernel
  refine ⟨h, ?_⟩
  simpa only [List.map_cons, List.map_nil, hjoined] using lexemes_joined h

end Handheld
