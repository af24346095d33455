import Handheld.Source.Lexer
import Mathlib

/-!
# How tokens are written

`Spells` says which texts stand for a token, and `Ends` what may follow them
without being taken for more of it. Scanning finds a token exactly where both
hold: `stands_of_scan` and `scan_of_stands`.
-/

namespace Handheld

/-! ## Runs of characters -/

/-- The text does not begin with a character of the class. -/
def Stops (p : Char → Bool) (cs : List Char) : Prop :=
  ∀ c ∈ cs.head?, p c = false

@[simp] theorem stops_nil (p : Char → Bool) : Stops p [] := by
  simp [Stops]

@[simp] theorem stops_cons {p : Char → Bool} {c : Char} {cs : List Char} :
    Stops p (c :: cs) ↔ p c = false := by
  simp [Stops]

theorem stops_dropWhile (p : Char → Bool) (cs : List Char) : Stops p (cs.dropWhile p) := by
  have h := List.head?_dropWhile_not p cs
  intro c hc
  simpa [Option.mem_def.1 hc] using h

theorem exists_run (p : Char → Bool) (cs : List Char) :
    ∃ w rest, cs = w ++ rest ∧ (∀ c ∈ w, p c) ∧ Stops p rest :=
  ⟨cs.takeWhile p, cs.dropWhile p, List.takeWhile_append_dropWhile.symm,
    fun _ hc => List.mem_takeWhile_imp hc, stops_dropWhile p cs⟩

theorem takeWhile_append_stops {p : Char → Bool} {cs rest : List Char} (h : ∀ c ∈ cs, p c)
    (hr : Stops p rest) : (cs ++ rest).takeWhile p = cs := by
  rw [List.takeWhile_append_of_pos h]
  cases rest with
  | nil => simp
  | cons d rest => simp_all

/-! ## Comments -/

def OpensBlock (cs : List Char) : Prop :=
  ['.', '.', '.'] <+: cs

def ClosesBlock (cs : List Char) : Prop :=
  ['.', '.', '.'] <:+ cs

/-- What may follow a comment. A closed block comment ends by itself. One that is still open runs
to the end of the text, and any other comment to the end of its line. -/
def EndsComment (comment rest : List Char) : Prop :=
  rest = [] ∨ (OpensBlock comment ∧ ClosesBlock (comment.drop 3)) ∨
    (¬ OpensBlock comment ∧ rest.head? = some '\n')

theorem dotsEnd_cons {k : Nat} {c : Char} {cs : List Char} (h : ¬ OpensBlock (c :: cs)) :
    dotsEnd k (c :: cs) = dotsEnd (k + 1) cs := by
  rw [dotsEnd]
  rintro ds rfl rfl
  exact h ⟨ds, rfl⟩

theorem lt_dotsEnd (k : Nat) {cs : List Char} (h : cs ≠ []) : k < dotsEnd k cs := by
  fun_induction dotsEnd k cs with
  | case1 k cs => omega
  | case2 k c cs hc ih =>
    cases cs with
    | nil => simp [dotsEnd]
    | cons d cs =>
      have := ih (by simp)
      omega
  | case3 k => exact absurd rfl h

theorem dotsEnd_le (k : Nat) (cs : List Char) : dotsEnd k cs ≤ k + cs.length := by
  fun_induction dotsEnd k cs with
  | case1 k cs => simp only [List.length_cons]; omega
  | case2 k c cs hc ih => simp only [List.length_cons]; omega
  | case3 k => simp

theorem dotsEnd_append {k : Nat} {cs : List Char} (h : dotsEnd k cs = k + cs.length)
    (hc : ClosesBlock cs) (rest : List Char) : dotsEnd k (cs ++ rest) = k + cs.length := by
  induction cs generalizing k with
  | nil => simp [ClosesBlock] at hc
  | cons c cs ih =>
    by_cases ho : OpensBlock (c :: cs)
    · obtain ⟨ds, hds⟩ := ho
      rw [← hds] at h ⊢
      simp only [List.cons_append, List.nil_append, dotsEnd, List.length_cons] at h ⊢
      omega
    · rw [dotsEnd_cons ho, List.length_cons, Nat.add_comm cs.length, ← Nat.add_assoc] at h
      have hcs : ClosesBlock cs := by
        rcases List.suffix_cons_iff.1 hc with heq | hs
        · exact absurd ⟨[], by rw [← heq]; rfl⟩ ho
        · exact hs
      have hlen : 3 ≤ cs.length := hcs.length_le
      -- dots in front would be seen without `rest`
      have ho' : ¬ OpensBlock (c :: (cs ++ rest)) := by
        intro hp
        refine ho (List.prefix_of_prefix_length_le hp (List.prefix_append (c :: cs) rest) ?_)
        simp only [List.length_cons, List.length_nil]
        omega
      rw [List.cons_append, dotsEnd_cons ho', ih h hcs, List.length_cons]
      omega

theorem dotsEnd_of_append {k : Nat} {cs rest : List Char} (hr : rest ≠ [])
    (h : dotsEnd k (cs ++ rest) = k + cs.length) :
    dotsEnd k cs = k + cs.length ∧ ClosesBlock cs := by
  induction cs generalizing k with
  | nil =>
    have := lt_dotsEnd k hr
    simp only [List.nil_append, List.length_nil] at h
    omega
  | cons c cs ih =>
    by_cases ho : OpensBlock (c :: (cs ++ rest))
    · -- the dots in front are the closing ones, and there is nothing else
      obtain ⟨ds, hds⟩ := ho
      have hk : dotsEnd k (c :: (cs ++ rest)) = k + 3 := by
        rw [← hds]
        rfl
      have hlen : cs.length = 2 := by
        rw [List.cons_append, hk, List.length_cons] at h
        omega
      have hcs : c :: cs = ['.', '.', '.'] := (List.append_inj hds.symm (by simp [hlen])).1
      rw [hcs]
      exact ⟨rfl, List.suffix_rfl⟩
    · have ho' : ¬ OpensBlock (c :: cs) := fun hp => ho (hp.trans (List.prefix_append _ rest))
      rw [List.cons_append, dotsEnd_cons ho, List.length_cons, Nat.add_comm cs.length,
        ← Nat.add_assoc] at h
      obtain ⟨hd, hc⟩ := ih h
      refine ⟨?_, hc.trans (List.suffix_cons c cs)⟩
      rw [dotsEnd_cons ho', hd, List.length_cons]
      omega

theorem commentEnd_line {cs : List Char} (h : ¬ OpensBlock ('.' :: cs)) :
    commentEnd cs = (cs.takeWhile (· != '\n')).length := by
  rw [commentEnd]
  rintro ds rfl
  exact h ⟨ds, rfl⟩

theorem exists_of_opensBlock {cs : List Char} (h : OpensBlock ('.' :: cs)) :
    ∃ body, cs = '.' :: '.' :: body := by
  obtain ⟨body, hbody⟩ := h
  exact ⟨body, (List.cons.inj hbody).2.symm⟩

theorem commentEnd_le (cs : List Char) : commentEnd cs ≤ cs.length := by
  by_cases ho : OpensBlock ('.' :: cs)
  · obtain ⟨body, rfl⟩ := exists_of_opensBlock ho
    have := dotsEnd_le 2 body
    simp only [commentEnd, List.length_cons]
    omega
  · rw [commentEnd_line ho]
    exact (List.takeWhile_prefix _).length_le

theorem commentEnd_append {cs rest : List Char} (h : commentEnd cs = cs.length)
    (he : EndsComment ('.' :: cs) rest) : commentEnd (cs ++ rest) = cs.length := by
  rcases he with rfl | ⟨ho, hc⟩ | ⟨ho, hn⟩
  · simpa using h
  · obtain ⟨body, rfl⟩ := exists_of_opensBlock ho
    simp only [commentEnd, List.length_cons] at h
    have hbody : dotsEnd 2 body = 2 + body.length := by omega
    have := dotsEnd_append hbody hc rest
    simp only [List.cons_append, commentEnd, List.length_cons]
    omega
  · obtain ⟨rest, rfl⟩ : ∃ ds, rest = '\n' :: ds := by
      cases rest with
      | nil => cases hn
      | cons d ds => exact ⟨ds, by cases hn; rfl⟩
    have hall : ∀ c ∈ cs, (c != '\n') = true := by
      rw [commentEnd_line ho] at h
      exact List.takeWhile_eq_self_iff.1 ((List.takeWhile_prefix _).eq_of_length h)
    have ho' : ¬ OpensBlock ('.' :: (cs ++ '\n' :: rest)) := by
      rintro ⟨ds, hds⟩
      rcases cs with _ | ⟨c, _ | ⟨d, cs⟩⟩
      · simp at hds
      · simp at hds
      · refine ho ⟨cs, ?_⟩
        simp only [List.cons_append, List.nil_append, List.cons.injEq] at hds ⊢
        exact ⟨hds.1, hds.2.1, hds.2.2.1, trivial⟩
    rw [commentEnd_line ho', takeWhile_append_stops hall (by simp)]

theorem endsComment_of_append {cs rest : List Char} (h : commentEnd (cs ++ rest) = cs.length) :
    commentEnd cs = cs.length ∧ EndsComment ('.' :: cs) rest := by
  by_cases hr : rest = []
  · subst hr
    exact ⟨by simpa using h, .inl rfl⟩
  by_cases ho : OpensBlock ('.' :: (cs ++ rest))
  · obtain ⟨body, hbody⟩ := exists_of_opensBlock ho
    have hlen : 2 ≤ cs.length := by
      rw [hbody, commentEnd] at h
      have : 2 ≤ dotsEnd 2 body := by
        cases body with
        | nil => simp [dotsEnd]
        | cons d body => exact Nat.le_of_lt (lt_dotsEnd 2 (List.cons_ne_nil d body))
      omega
    rcases cs with _ | ⟨c, _ | ⟨d, cs⟩⟩
    · simp at hlen
    · simp at hlen
    · simp only [List.cons_append, List.cons.injEq] at hbody
      obtain ⟨rfl, rfl, -⟩ := hbody
      simp only [List.cons_append, commentEnd, List.length_cons] at h ⊢
      have hcs : dotsEnd 2 (cs ++ rest) = 2 + cs.length := by omega
      obtain ⟨hd, hc⟩ := dotsEnd_of_append hr hcs
      exact ⟨by omega, .inr (.inl ⟨⟨cs, rfl⟩, hc⟩)⟩
  · have ho' : ¬ OpensBlock ('.' :: cs) := by
      rintro ⟨ds, hds⟩
      refine ho ⟨ds ++ rest, ?_⟩
      rw [← List.append_assoc, hds]
      rfl
    rw [commentEnd_line ho] at h
    have hcs : (cs ++ rest).takeWhile (· != '\n') = cs :=
      (List.prefix_of_prefix_length_le (List.takeWhile_prefix _) (List.prefix_append cs rest)
        (Nat.le_of_eq h)).eq_of_length h
    have hrest : (cs ++ rest).dropWhile (· != '\n') = rest := by
      have := List.takeWhile_append_dropWhile (p := (· != '\n')) (l := cs ++ rest)
      rw [hcs] at this
      exact List.append_cancel_left this
    have hall : ∀ c ∈ cs, (c != '\n') = true := by
      rw [← hcs]
      exact fun c hc => List.mem_takeWhile_imp (p := (· != '\n')) hc
    refine ⟨?_, .inr (.inr ⟨ho', ?_⟩)⟩
    · rw [commentEnd_line ho', List.takeWhile_eq_self_iff.2 hall]
    · have hs := stops_dropWhile (· != '\n') (cs ++ rest)
      rw [hrest] at hs
      cases rest with
      | nil => exact absurd rfl hr
      | cons d rest => simpa using hs

/-! ## Numbers -/

theorem decimalValue_concat (ds : List Char) (d : Char) :
    decimalValue (ds ++ [d]) = 10 * decimalValue ds + (d.toNat - '0'.toNat) := by
  simp [decimalValue]

theorem decimalValue_zeros (k : Nat) (ds : List Char) :
    decimalValue (List.replicate k '0' ++ ds) = decimalValue ds := by
  induction k with
  | zero => rfl
  | succ k ih => exact ih

theorem decimalValue_toDigits (n : Nat) : decimalValue (Nat.toDigits 10 n) = n :=
  Nat.ofDigitChars_toDigits (by decide) (by decide)

theorem digitChar_of_isDigit {d : Char} (h : d.isDigit) :
    d.toNat - '0'.toNat < 10 ∧ (d.toNat - '0'.toNat).digitChar = d := by
  obtain ⟨hlow, hhigh⟩ := Char.isDigit_iff_toNat.1 h
  have hlt : d.toNat - '0'.toNat < 10 := by
    simp only [Char.reduceToNat] at *
    omega
  refine ⟨hlt, Char.toNat_inj.1 ?_⟩
  rw [Nat.toNat_digitChar_of_lt_ten hlt]
  simp only [Char.reduceToNat] at *
  omega

theorem exists_zeros {ds : List Char} (h : ∀ d ∈ ds, d.isDigit) (hne : ds ≠ []) :
    ∃ k, ds = List.replicate k '0' ++ Nat.toDigits 10 (decimalValue ds) := by
  induction ds using List.reverseRecOn with
  | nil => exact absurd rfl hne
  | append_singleton ds d ih =>
    obtain ⟨hlt, hd⟩ := digitChar_of_isDigit (h d (by simp))
    have hone : Nat.toDigits 10 (d.toNat - '0'.toNat) = [d] := by
      rw [Nat.toDigits_of_lt_base hlt, hd]
    rw [decimalValue_concat]
    by_cases hz : ds = []
    · subst hz
      refine ⟨0, ?_⟩
      rw [decimalValue, List.foldl_nil, Nat.mul_zero, Nat.zero_add, hone]
      rfl
    · obtain ⟨k, hk⟩ := ih (fun c hc => h c (List.mem_append_left _ hc)) hz
      rcases Nat.eq_zero_or_pos (decimalValue ds) with h0 | hpos
      · -- only zeros so far
        refine ⟨k + 1, ?_⟩
        rw [h0, Nat.toDigits_zero] at hk
        rw [h0, Nat.mul_zero, Nat.zero_add, hone, hk, List.replicate_succ']
      · refine ⟨k, ?_⟩
        rw [← Nat.toDigits_append_toDigits (by decide) hpos hlt, ← List.append_assoc, ← hk, hone]

/-! ## Words -/

theorem isWordChar_of_isAlpha {c : Char} (h : c.isAlpha) : isWordChar c := by
  simp [isWordChar, Char.isAlphanum, h]

/-- A letter, then more letters, digits and underlines. -/
def WordShaped : List Char → Prop
  | [] => False
  | c :: cs => c.isAlpha ∧ ∀ d ∈ cs, isWordChar d

instance : DecidablePred WordShaped
  | [] => inferInstanceAs (Decidable False)
  | c :: cs => @instDecidableAnd _ _ (instDecidableEqBool c.isAlpha true) (List.decidableBAll _ cs)

/-- What would make a longer token of a name. -/
def endings (s : String) : List String :=
  if s = "o" then ["^^"]
  else if s = "Pxl" then ["-Change", "-Test", "-Off", "-On"]
  else if s = "pxl" then ["-Test"]
  else []

namespace Word

/-- Written without a hyphen. -/
def Plain (w : Word) : Prop :=
  ∀ c ∈ w.text.toList, isWordChar c

instance (w : Word) : Decidable w.Plain :=
  List.decidableBAll _ w.text.toList

theorem ofText?_spelling (w : Word) : ∀ s ∈ w.spellings, ofText? s = some w := by
  cases w <;> decide

theorem mem_spellings {s : String} {w : Word} (h : ofText? s = some w) : s ∈ w.spellings := by
  simpa using List.find?_some h

theorem length_spelling (w : Word) : ∀ s ∈ w.spellings, 2 ≤ s.toList.length := by
  cases w <;> decide

theorem not_plain (w : Word) : ∀ s ∈ w.spellings, '-' ∈ s.toList → ¬ w.Plain := by
  cases w <;> decide

theorem plain_spelling (w : Word) (h : w.Plain) :
    ∀ s ∈ w.spellings, WordShaped s.toList ∧ endings s = [] := by
  revert h
  cases w <;> decide

end Word

theorem exists_word_of_ending {s e : String} (he : e ∈ endings s) (ho : s ≠ "o") :
    (s = "Pxl" ∨ s = "pxl") ∧ e ∈ ["-Change", "-Test", "-Off", "-On"] ∧
      (Word.ofText? (s ++ e)).isSome := by
  unfold endings at he
  split at he
  · contradiction
  · split at he
    · next hs =>
      subst hs
      simp only [List.mem_cons, List.not_mem_nil, or_false] at he
      rcases he with rfl | rfl | rfl | rfl <;> decide
    · split at he
      · next hs =>
        subst hs
        simp only [List.mem_cons, List.not_mem_nil, or_false] at he
        subst he
        decide
      · cases he

theorem hyphenated?_eq_none_iff {s : String} {rest : List Char} :
    hyphenated? s rest = none ↔ (s ≠ "o" → ∀ e ∈ endings s, ¬ e.toList <+: rest) := by
  constructor
  · intro h ho e he hp
    obtain ⟨hs, hmem, hword⟩ := exists_word_of_ending he ho
    rw [hyphenated?, if_pos hs, List.findSome?_eq_none_iff] at h
    have := h e hmem
    rw [if_pos (List.isPrefixOf_iff_prefix.2 hp), Option.map_eq_none_iff] at this
    simp [this] at hword
  · intro h
    unfold hyphenated?
    split
    · next hs =>
      apply List.findSome?_eq_none_iff.2
      intro e he
      split
      · next hp =>
        have hp' : e.toList <+: rest := List.isPrefixOf_iff_prefix.1 hp
        rcases hs with rfl | rfl
        · exact absurd hp' (h (by decide) e he)
        · -- only one of the endings makes a word behind a small letter
          simp only [List.mem_cons, List.not_mem_nil, or_false] at he
          rcases he with rfl | rfl | rfl | rfl
          · decide
          · exact absurd hp' (h (by decide) _ (by decide))
          · decide
          · decide
      · rfl
    · rfl

theorem hyphenated?_eq_some {s : String} {rest : List Char} {w : Word} {n : Nat}
    (h : hyphenated? s rest = some (w, n)) :
    ∃ e : String, e.toList <+: rest ∧ n = e.toList.length ∧ s ++ e ∈ w.spellings ∧ ¬ w.Plain := by
  unfold hyphenated? at h
  split at h
  · obtain ⟨e, he, h⟩ := List.exists_of_findSome?_eq_some h
    split at h
    · next hp =>
      obtain ⟨w', hw, h⟩ := Option.map_eq_some_iff.1 h
      cases h
      have hmem := Word.mem_spellings hw
      have hhyphen : '-' ∈ e.toList := by
        simp only [List.mem_cons, List.not_mem_nil, or_false] at he
        rcases he with rfl | rfl | rfl | rfl <;> decide
      refine ⟨e, List.isPrefixOf_iff_prefix.1 hp, String.length_toList.symm, hmem, ?_⟩
      exact w.not_plain _ hmem (by simp [hhyphen])
    · cases h
  · cases h

theorem Token.scanWord_append {c : Char} {w rest : List Char} (hw : ∀ d ∈ w, isWordChar d)
    (hr : Stops isWordChar rest) (he : ∀ e ∈ endings (String.ofList (c :: w)), ¬ e.toList <+: rest) :
    Token.scanWord c (w ++ rest) = (.ofWord (String.ofList (c :: w)), w.length) := by
  unfold Token.scanWord
  simp only [takeWhile_append_stops hw hr, List.drop_left, hyphenated?_eq_none_iff.2 fun _ => he]
  rw [if_neg]
  rintro ⟨ho, hp⟩
  rw [ho] at he
  exact he "^^" (by decide) (List.isPrefixOf_iff_prefix.1 hp)

/-! ## Tokens in a text -/

/-- The characters that make another operator of this one. -/
def Operator.longer : Operator → List Char
  | .minus => ['>', '-']
  | .plus => ['+']
  | .modulo => ['^']
  | .less | .greater => ['=']
  | _ => []

namespace Token

/-- Some text can be read as the token. -/
def Legible : Token → Prop
  | .whitespace n => 0 < n
  | .comment s => ∃ cs, s.toList = '.' :: cs ∧ commentEnd cs = cs.length
  | .var c => c.isUpper
  | .name s => ofWord s = .name s ∧ WordShaped s.toList
  | .eof => False
  | _ => True

/-- The characters are one way to write the token. -/
def Spells (t : Token) (cs : List Char) : Prop :=
  match t with
  | .whitespace n => cs.length = n ∧ ∀ c ∈ cs, isBlank c
  | .number n => ∃ zeros, cs = List.replicate zeros '0' ++ (Token.number n).text.toList
  | .word w => ∃ s ∈ w.spellings, cs = s.toList
  | t => cs = t.text.toList

/-- The text may follow the token without changing it. -/
def Ends (t : Token) (rest : List Char) : Prop :=
  match t with
  | .whitespace _ => Stops isBlank rest
  | .comment s => EndsComment s.toList rest
  | .number _ => Stops Char.isDigit rest
  | .command _ => Stops Char.isAlpha rest
  | .var _ | .buffer _ => Stops isWordChar rest
  | .word w => w.Plain → Stops isWordChar rest
  | .name s => Stops isWordChar rest ∧ ∀ e ∈ endings s, ¬ e.toList <+: rest
  | .operator op => Stops op.longer.contains rest
  | _ => True

/-- The token stands in front of `rest`, written as `cs`. -/
structure Stands (t : Token) (cs rest : List Char) : Prop where
  legible : t.Legible
  spells : t.Spells cs
  ends : t.Ends rest

/-! ## From a scan to a place in the text -/

theorem stands_ofWord {c : Char} {w rest : List Char} (hw : WordShaped (c :: w))
    (hr : Stops isWordChar rest) (he : ∀ e ∈ endings (String.ofList (c :: w)), ¬ e.toList <+: rest) :
    (ofWord (String.ofList (c :: w))).Stands (c :: w) rest := by
  generalize hs : String.ofList (c :: w) = s at *
  have hlist : s.toList = c :: w := by rw [← hs, String.toList_ofList]
  generalize ht : ofWord s = t
  have hname := ht
  unfold ofWord at ht
  split at ht
  · next word hword =>
    subst ht
    exact ⟨trivial, ⟨s, Word.mem_spellings hword, hlist.symm⟩, fun _ => hr⟩
  · split at ht
    · next b hb =>
      subst ht
      have htext : b.text = s := by simpa using List.find?_some hb
      exact ⟨trivial, by rw [← hlist, ← htext]; rfl, hr⟩
    · split at ht
      · next d hd =>
        split at ht
        · next hupper =>
          subst ht
          rw [hd] at hlist
          exact ⟨hupper, by rw [← hlist]; simp [Spells, Token.text], hr⟩
        · subst ht
          exact ⟨⟨hname, hlist ▸ hw⟩, hlist.symm, hr, he⟩
      · subst ht
        exact ⟨⟨hname, hlist ▸ hw⟩, hlist.symm, hr, he⟩

theorem stands_of_scanWord {c : Char} (cs : List Char) (hc : c.isAlpha) :
    ∃ w rest, cs = w ++ rest ∧ (scanWord c cs).2 = w.length ∧
      (scanWord c cs).1.Stands (c :: w) rest := by
  obtain ⟨tail, rest, rfl, hw, hr⟩ := exists_run isWordChar cs
  unfold scanWord
  simp only [takeWhile_append_stops hw hr, List.drop_left]
  split
  · -- an address sign
    next h =>
    obtain ⟨hword, hp⟩ := h
    obtain ⟨rest', rfl⟩ := List.isPrefixOf_iff_prefix.1 hp
    have hc' : c :: tail = ['o'] := by
      rw [← String.toList_ofList (l := c :: tail), hword]
      rfl
    obtain ⟨rfl, rfl⟩ := List.cons.inj hc'
    exact ⟨['^', '^'], rest', rfl, rfl, trivial, rfl, trivial⟩
  · next hno =>
    split
    · next w n h =>
      -- a word with a hyphen
      obtain ⟨e, ⟨rest', rfl⟩, hn, hmem, hplain⟩ := hyphenated?_eq_some h
      refine ⟨tail ++ e.toList, rest', by simp, by simp [hn], trivial, ⟨_, hmem, by simp⟩, ?_⟩
      exact fun hp => absurd hp hplain
    · next h =>
      refine ⟨tail, rest, rfl, rfl, stands_ofWord ⟨hc, hw⟩ hr ?_⟩
      by_cases ho : String.ofList (c :: tail) = "o"
      · intro e he hp
        rw [ho] at he
        obtain rfl : e = "^^" := by simpa [endings] using he
        exact hno ⟨ho, List.isPrefixOf_iff_prefix.2 hp⟩
      · exact hyphenated?_eq_none_iff.1 h ho

theorem ends_operator {op : Operator} {cs : List Char}
    (h : ∀ c ∈ op.longer, ∀ tail, cs ≠ c :: tail) : (Token.operator op).Ends cs := by
  cases cs with
  | nil => exact stops_nil _
  | cons d ds => simpa [Ends] using fun hd => h d hd ds rfl

theorem stands_of_scanSymbol {c : Char} {cs : List Char} {t : Token} {n : Nat}
    (h : scanSymbol c cs = some (t, n)) :
    ∃ w rest, cs = w ++ rest ∧ n = w.length ∧ t.Stands (c :: w) rest := by
  unfold scanSymbol at h
  split at h
  all_goals cases h
  -- operators that could have been the beginning of longer ones
  case h_4 h₁ h₂ h₃ =>
    exact ⟨[], cs, rfl, rfl, trivial, rfl, ends_operator (by simpa [Operator.longer] using h₃)⟩
  case h_7 h₁ h₂ =>
    exact ⟨[], cs, rfl, rfl, trivial, rfl, ends_operator (by simpa [Operator.longer] using ⟨h₁, h₂⟩)⟩
  case h_9 h₁ | h_15 h₁ | h_17 h₁ =>
    exact ⟨[], cs, rfl, rfl, trivial, rfl, ends_operator (by simpa [Operator.longer] using h₁)⟩
  -- operators and modifiers of two and three characters
  case h_1 | h_2 => exact ⟨[_, _], _, rfl, rfl, trivial, rfl, trivial⟩
  case h_5 | h_6 | h_8 | h_13 | h_14 | h_16 =>
    exact ⟨[_], _, rfl, rfl, trivial, rfl, ends_operator (by simp [Operator.longer])⟩
  -- operators of one character
  case h_10 | h_11 | h_12 =>
    exact ⟨[], cs, rfl, rfl, trivial, rfl, ends_operator (by simp [Operator.longer])⟩
  all_goals exact ⟨[], cs, rfl, rfl, trivial, rfl, trivial⟩

theorem stands_of_scan {c : Char} {cs : List Char} {t : Token} {n : Nat}
    (h : scan c cs = .ok (t, n)) :
    ∃ w rest, cs = w ++ rest ∧ n = w.length ∧ t.Stands (c :: w) rest := by
  unfold scan at h
  split at h
  · -- blanks
    next hc =>
    obtain ⟨w, rest, rfl, hw, hr⟩ := exists_run isBlank cs
    simp only [takeWhile_append_stops hw hr] at h
    cases h
    exact ⟨w, rest, rfl, rfl, Nat.succ_pos _, ⟨rfl, List.forall_mem_cons.2 ⟨hc, hw⟩⟩, hr⟩
  split at h
  · next hc =>
    cases h
    subst hc
    exact ⟨[], cs, rfl, rfl, trivial, rfl, trivial⟩
  split at h
  · -- a comment
    next hc =>
    subst hc
    obtain ⟨w, rest, rfl, hw⟩ : ∃ w rest, cs = w ++ rest ∧ w.length = commentEnd cs :=
      ⟨cs.take (commentEnd cs), cs.drop (commentEnd cs), (List.take_append_drop ..).symm,
        List.length_take_of_le (commentEnd_le cs)⟩
    obtain ⟨hend, hr⟩ := endsComment_of_append hw.symm
    simp only [← hw, List.take_left] at h
    cases h
    refine ⟨w, rest, rfl, rfl, ⟨w, by simp, hend⟩, ?_, ?_⟩
    · simp [Spells, Token.text]
    · simpa [Ends] using hr
  split at h
  · -- digits
    next hc =>
    obtain ⟨w, rest, rfl, hw, hr⟩ := exists_run Char.isDigit cs
    simp only [takeWhile_append_stops hw hr] at h
    split at h
    · next hlt =>
      cases h
      refine ⟨w, rest, rfl, rfl, trivial, ?_, hr⟩
      obtain ⟨k, hk⟩ := exists_zeros (List.forall_mem_cons.2 ⟨hc, hw⟩) (List.cons_ne_nil c w)
      refine ⟨k, hk.trans ?_⟩
      simp [Token.text, Nat.mod_eq_of_lt hlt]
    · cases h
  split at h
  · -- a command
    next hc =>
    obtain ⟨w, rest, rfl, hw, hr⟩ := exists_run Char.isAlpha cs
    simp only [takeWhile_append_stops hw hr] at h
    split at h
    · next m hm =>
      cases h
      have htext : m.text = String.ofList (c :: w) := by simpa using List.find?_some hm
      exact ⟨w, rest, rfl, rfl, trivial, by simp [Spells, Token.text, htext], hr⟩
    · cases h
  split at h
  · next hc =>
    obtain ⟨w, rest, hcs, hn, hs⟩ := stands_of_scanWord cs hc
    rw [Except.ok.inj h] at hn hs
    exact ⟨w, rest, hcs, hn, hs⟩
  · split at h
    · next t' ht =>
      cases h
      exact stands_of_scanSymbol ht
    · cases h

/-! ## From a place in the text to a scan -/

theorem ne_of_kind {p : Char → Bool} {c : Char} (h : p c) {ds : List Char}
    (hds : ds.all fun d => !p d) {d : Char} (hd : d ∈ ds) : c ≠ d := by
  rintro rfl
  simpa [h] using List.all_eq_true.1 hds c hd

theorem not_isBlank {p : Char → Bool} {c : Char} (h : p c)
    (hds : [' ', '\t', '\r'].all fun d => !p d) : isBlank c = false := by
  simp [isBlank, ne_of_kind h hds]

theorem not_isDigit {c : Char} (h : c.isAlpha) : c.isDigit = false := by
  simp only [Char.isAlpha, Char.isUpper, Char.isLower, Char.isDigit, ge_iff_le,
    UInt32.le_iff_toNat_le, Bool.or_eq_true, Bool.and_eq_true, decide_eq_true_eq,
    Bool.and_eq_false_iff, decide_eq_false_iff_not, Char.reduceVal, UInt32.reduceToNat] at *
  omega

theorem scan_letter {c : Char} (cs : List Char) (hc : c.isAlpha) :
    scan c cs = .ok (scanWord c cs) := by
  have hds : ['\n', '.', '@'].all fun d => !d.isAlpha := by decide
  unfold scan
  rw [not_isBlank hc (by decide), not_isDigit hc]
  simp [ne_of_kind hc hds, hc]

theorem scan_ofWord {s : String} {c : Char} {w rest : List Char} (hs : c :: w = s.toList)
    (hw : WordShaped s.toList) (hr : Stops isWordChar rest)
    (he : ∀ e ∈ endings s, ¬ e.toList <+: rest) :
    scan c (w ++ rest) = .ok (ofWord s, w.length) := by
  rw [← hs] at hw
  obtain ⟨hc, hw⟩ := hw
  obtain rfl : s = String.ofList (c :: w) := by rw [hs, String.ofList_toList]
  rw [scan_letter _ hc, scanWord_append hw hr he]

theorem ofWord_isUpper {c : Char} (h : c.isUpper) : ofWord (String.ofList [c]) = .var c := by
  have hword : Word.ofText? (String.ofList [c]) = none := by
    cases hw : Word.ofText? (String.ofList [c]) with
    | none => rfl
    | some w => 
      have := w.length_spelling _ (Word.mem_spellings hw)
      simp at this
  have hbuffer : Buffer.ofText? (String.ofList [c]) = none := by
    cases hb : Buffer.ofText? (String.ofList [c]) with
    | none => rfl
    | some b => 
      have htext : b.text = String.ofList [c] := by simpa using List.find?_some hb
      have : b.text.toList.length = 2 := by cases b <;> rfl
      simp [htext] at this
  simp only [ofWord, hword, hbuffer, String.toList_ofList, if_pos h]

theorem endings_isUpper {c : Char} (h : c.isUpper) : endings (String.ofList [c]) = [] := by
  have hne {s : String} (hs : [c] ≠ s.toList) : String.ofList [c] ≠ s := by
    rintro rfl
    simp at hs
  have ho : [c] ≠ "o".toList := by
    intro hc
    obtain rfl : c = 'o' := by simpa using hc
    revert h
    decide
  rw [endings, if_neg (hne ho), if_neg (hne (by simp)), if_neg (hne (by simp))]

/-- None of the kinds of characters that other tokens begin with. -/
def isSymbol (c : Char) : Bool :=
  !(isBlank c || c == '\n' || c == '.' || c.isDigit || c == '@' || c.isAlpha)

theorem scan_symbol {c : Char} {cs : List Char} {t : Token × Nat} (hc : isSymbol c)
    (h : scanSymbol c cs = some t) : scan c cs = .ok t := by
  simp only [isSymbol, Bool.not_eq_true', Bool.or_eq_false_iff, beq_eq_false_iff_ne] at hc
  obtain ⟨⟨⟨⟨⟨hb, hn⟩, hdot⟩, hd⟩, hat⟩, ha⟩ := hc
  simp [scan, hb, hn, hdot, hd, hat, ha, h]

theorem scan_operator {op : Operator} {c : Char} {w rest : List Char}
    (hs : c :: w = op.text.toList) (he : (Token.operator op).Ends rest) :
    scan c (w ++ rest) = .ok (.operator op, w.length) := by
  cases op
  all_goals
    simp only [Operator.text, String.reduceToList, List.cons.injEq] at hs
    obtain ⟨rfl, rfl⟩ := hs
    apply scan_symbol (by decide)
    cases rest
  all_goals simp_all [Ends, Operator.longer, scanSymbol]

theorem scan_word {word : Word} {c : Char} {w rest : List Char}
    (hs : (Token.word word).Spells (c :: w)) (he : (Token.word word).Ends rest) :
    scan c (w ++ rest) = .ok (.word word, w.length) := by
  obtain ⟨s, hmem, hs⟩ := hs
  by_cases hp : word.Plain
  · obtain ⟨hshape, hends⟩ := word.plain_spelling hp s hmem
    have hword : ofWord s = .word word := by simp only [ofWord, word.ofText?_spelling s hmem]
    rw [scan_ofWord hs hshape (he hp) (by simp [hends]), hword]
  · cases word
    all_goals try exact absurd (by decide) hp
    all_goals
      simp only [Word.spellings, Word.text, List.mem_cons, List.not_mem_nil, or_false] at hmem
    case pxlTest =>
      rcases hmem with rfl | rfl
      all_goals
        simp only [String.reduceToList, List.cons.injEq] at hs
        obtain ⟨rfl, rfl⟩ := hs
        rfl
    all_goals
      subst hmem
      simp only [String.reduceToList, List.cons.injEq] at hs
      obtain ⟨rfl, rfl⟩ := hs
      rfl

theorem scan_of_stands {t : Token} {c : Char} {w rest : List Char} (h : t.Stands (c :: w) rest) :
    scan c (w ++ rest) = .ok (t, w.length) := by
  obtain ⟨hl, hs, he⟩ := h
  cases t with
  | whitespace n =>
    obtain ⟨rfl, hb⟩ := hs
    obtain ⟨hc, hw⟩ := List.forall_mem_cons.1 hb
    unfold scan
    rw [if_pos hc, takeWhile_append_stops hw he]
    rfl
  | comment s =>
    obtain ⟨cs, hcs, hend⟩ := hl
    obtain ⟨rfl, rfl⟩ := List.cons.inj (hs.trans hcs)
    have hlen : commentEnd (w ++ rest) = w.length := commentEnd_append hend (hcs ▸ he)
    have hblank : isBlank '.' = false := by decide
    simp [scan, hblank, hlen, ← hcs]
  | newline | colon | leftParen | rightParen | leftBrace | rightBrace | comma =>
    cases hs
    rfl
  | number n =>
    obtain ⟨zeros, hz⟩ := hs
    have htext : (Token.number n).text.toList = Nat.toDigits 10 n.toNat := Nat.toList_repr
    have hdigits : ∀ d ∈ c :: w, d.isDigit := by
      rw [hz, htext]
      intro d hd
      rcases List.mem_append.1 hd with hd | hd
      · rw [List.eq_of_mem_replicate hd]
        rfl
      · exact Nat.isDigit_of_mem_toDigits (by decide) (by decide) hd
    have hvalue : decimalValue (c :: w) = n.toNat := by
      rw [hz, htext, decimalValue_zeros, decimalValue_toDigits]
    obtain ⟨hc, hw⟩ := List.forall_mem_cons.1 hdigits
    have hds : ['\n', '.'].all fun d => !d.isDigit := by decide
    simp [scan, not_isBlank hc (by decide), ne_of_kind hc hds, hc, takeWhile_append_stops hw he,
      hvalue, n.toNat_lt]
  | var c' =>
    obtain ⟨rfl, rfl⟩ : c = c' ∧ w = [] := by simpa [Spells, Token.text] using hs
    have hc : c.isUpper := hl
    have hshape : WordShaped (String.ofList [c]).toList := by
      rw [String.toList_ofList]
      exact ⟨by simp [Char.isAlpha, hc], by simp⟩
    rw [scan_ofWord (by simp) hshape he (by rw [endings_isUpper hc]; simp), ofWord_isUpper hc]
  | buffer b =>
    have hb : WordShaped b.text.toList ∧ endings b.text = [] ∧ ofWord b.text = .buffer b := by
      cases b <;> decide
    rw [scan_ofWord (s := b.text) hs hb.1 he (by simp [hb.2.1]), hb.2.2]
  | name s => rw [scan_ofWord (s := s) hs hl.2 he.1 he.2, hl.1]
  | word word => exact scan_word hs he
  | operator op => exact scan_operator hs he
  | modifier m => cases m <;> cases hs <;> rfl
  | command m =>
    have hm : ∃ letters, m.text.toList = '@' :: letters ∧ letters.all Char.isAlpha := by
      cases m <;> exact ⟨_, rfl, by decide⟩
    obtain ⟨letters, htext, hletters⟩ := hm
    obtain ⟨rfl, rfl⟩ := List.cons.inj (hs.trans htext)
    have hofList : String.ofList ('@' :: w) = m.text := by rw [← htext, String.ofList_toList]
    have hat : isBlank '@' = false ∧ Char.isDigit '@' = false := by decide
    simp [scan, hat, takeWhile_append_stops (List.all_eq_true.1 hletters) he, hofList, CommandWord.ofText?_text]
  | eof => exact hl.elim

end Token
end Handheld
