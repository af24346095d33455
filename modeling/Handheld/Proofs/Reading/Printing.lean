import Handheld.Proofs.Reading.Parsing

/-!
# Printing a tree

A tree is printed with parentheses around what is held together more loosely than
its place asks for, and reading it gives the tree back. Only the places of the
statements are new: they are those of the printed tokens.
-/

namespace Handheld

/-! ## Expressions -/

/-- How loosely an expression is held together when no parentheses are around it. -/
def Expr.level : Expr → Nat
  | .assign .. => 0
  | .binary op .. => op.precedence
  | .unary .negate _ => 4
  | .unary .square _ | .increment _ | .decrement _ => 5
  | .number _ | .buffer _ | .rand | .addressOf _ | .getKey _ | .pxlTest .. => 6
  | .var _ | .deref .. => 7

/-- Puts parentheses around what is held together more loosely than `least`. -/
def enclosed (least level : Nat) (ts : List Token) : List Token :=
  if least ≤ level then ts else .leftParen :: ts ++ [.rightParen]

mutual

def Expr.tokens : Expr → List Token
  | .number n => [.number (UInt16.ofNat n.toNatClampNeg)]
  | .var c => [.var c]
  | .buffer b => [.buffer b]
  | .deref address width => .leftBrace :: address.tokens ++ .rightBrace :: width.marks
  | .addressOf target => .modifier .addressOf :: target.tokens
  | .unary .negate e => .operator .minus :: enclosed 4 e.level e.tokens
  | .unary .square e => enclosed 5 e.level e.tokens ++ [.modifier .square]
  -- Equal operators in a row belong together from the left.
  | .binary op lhs rhs =>
    enclosed op.precedence lhs.level lhs.tokens ++
      .operator op.operator :: enclosed (op.precedence + 1) rhs.level rhs.tokens
  | .assign value target => value.tokens ++ .operator .store :: target.tokens
  | .increment target => target.tokens ++ [.operator .increment]
  | .decrement target => target.tokens ++ [.operator .decrement]
  | .getKey code => .word .getKey :: .leftParen :: code.tokens ++ [.rightParen]
  | .rand => [.word .rand]
  | .pxlTest surface x y =>
    .word .pxlTest :: .leftParen :: x.tokens ++ .comma :: y.tokens ++ .rightParen :: surface.marks

def Target.tokens : Target → List Token
  | .var c => [.var c]
  | .pointer address width => .leftBrace :: address.tokens ++ .rightBrace :: width.marks

end

mutual

/-- Every number in it can be written down. -/
def Expr.Writable : Expr → Prop
  | .number n => 0 ≤ n ∧ n ≤ 65535
  | .var _ | .buffer _ | .rand => True
  | .deref address _ => address.Writable
  | .addressOf target => target.Writable
  | .unary _ operand => operand.Writable
  | .binary _ lhs rhs => lhs.Writable ∧ rhs.Writable
  | .assign value target => value.Writable ∧ target.Writable
  | .increment target | .decrement target => target.Writable
  | .getKey code => code.Writable
  | .pxlTest _ x y => x.Writable ∧ y.Writable

def Target.Writable : Target → Prop
  | .var _ => True
  | .pointer address _ => address.Writable

end

theorem Phrase.number_of_le {n : Int64} (h : 0 ≤ n ∧ n ≤ 65535) :
    Phrase 6 [.number (UInt16.ofNat n.toNatClampNeg)] (.number n) := by
  have hle : n.toInt ≤ 65535 := Int64.le_iff_toInt_le.1 h.2
  have hlt : n.toNatClampNeg < UInt16.size := by
    rw [← Int64.toNat_toInt]
    simp only [UInt16.size]
    omega
  have hnumber := Phrase.number (UInt16.ofNat n.toNatClampNeg)
  rwa [UInt16.toNat_ofNat_of_lt' hlt, Int64.ofNat_toNatClampNeg n h.1] at hnumber

theorem Phrase.enclosed {level least : Nat} {ts : List Token} {e : Expr} (h : Phrase level ts e)
    (hleast : least ≤ 6) : Phrase least (enclosed least level ts) e := by
  unfold Handheld.enclosed
  split
  next hle => exact h.of_le hle
  next => exact .of_le hleast (.parens (h.of_le (Nat.zero_le level)))

mutual

theorem Expr.phrase_tokens {e : Expr} (he : e.Writable) : Phrase e.level e.tokens e := by
  cases e with
  | number n => exact .number_of_le he
  | var c => exact .var c
  | buffer b => exact .buffer b
  | deref address width =>
    have haddress := Expr.phrase_tokens (e := address) he
    exact .deref width (haddress.of_le (Nat.zero_le _))
  | addressOf target => exact .addressOf (Target.phrase_tokens he)
  | unary op operand =>
    have hoperand := Expr.phrase_tokens (e := operand) he
    cases op with
    | negate => exact .negate (hoperand.enclosed (by decide))
    | square => exact .square (hoperand.enclosed (by decide))
  | binary op lhs rhs =>
    have hop := op.precedence_le
    exact .binary ((Expr.phrase_tokens he.1).enclosed (by omega))
      ((Expr.phrase_tokens he.2).enclosed (by omega))
  | assign value target =>
    exact .store ((Expr.phrase_tokens he.1).of_le (Nat.zero_le _)) (Target.phrase_tokens he.2)
  | increment target => exact .increment ((Target.phrase_tokens he).of_le (by decide))
  | decrement target => exact .decrement ((Target.phrase_tokens he).of_le (by decide))
  | getKey code =>
    have hcode := Expr.phrase_tokens (e := code) he
    exact .getKey (hcode.of_le (Nat.zero_le _))
  | rand => exact .rand
  | pxlTest surface x y =>
    exact .pxlTest surface ((Expr.phrase_tokens he.1).of_le (Nat.zero_le _))
      ((Expr.phrase_tokens he.2).of_le (Nat.zero_le _))

theorem Target.phrase_tokens {t : Target} (ht : t.Writable) : Phrase 7 t.tokens t.toExpr := by
  cases t with
  | var c => exact .var c
  | pointer address width => exact .deref width ((Expr.phrase_tokens ht).of_le (Nat.zero_le _))

end

theorem Expr.phrase {e : Expr} (he : e.Writable) : Phrase 0 e.tokens e :=
  (Expr.phrase_tokens he).of_le (Nat.zero_le _)

/-! ## Statements -/

/-- What is left open where a block begins. -/
structure Layout where
  /-- `Then` stands behind the condition of an `If`. -/
  marked : Bool
  /-- A separator stands behind `Else`. -/
  spaced : Bool

def Layout.choice (l : Layout) (condition : Expr) : List Token :=
  .word .ifWord :: condition.tokens ++ if l.marked then [.word .thenWord] else []

def Layout.afterElse (l : Layout) : List Token :=
  if l.spaced then [.newline] else []

def listTokens (es : List Expr) : List Token :=
  [.comma].intercalate (es.map Expr.tokens)

def Loop.tokens : Loop → List Token
  | .whileTrue condition => .word .whileWord :: condition.tokens
  | .repeatUntil condition => .word .repeatWord :: condition.tokens
  | .count target first last =>
    .word .forWord :: .leftParen :: target.tokens ++ .comma :: first.tokens ++
      .comma :: last.tokens ++ [.rightParen]
  | .times n => .word .forWord :: .leftParen :: n.tokens ++ [.rightParen]

def Command.tokens : Command → List Token
  | .exit => [.command .exit]
  | .help => [.command .help]
  | .about => [.command .about]
  | .debug flag => .command .debug :: flag.tokens

mutual

def Stmt.tokens (l : Layout) : Stmt → List Token
  | .effect _ e => e.tokens
  | .disp _ values => .word .disp :: listTokens values
  | .pause _ e => .word .pause :: e.tokens
  | .draw _ graphic surface [] => graphic.opening ++ surface.marks
  | .draw _ graphic surface arguments =>
    graphic.opening ++ .leftParen :: listTokens arguments ++ .rightParen :: surface.marks
  | .dispGraph _ shade => .word .dispGraph :: shade.marks
  | .cond _ condition yes [] =>
    l.choice condition ++ (.newline :: blockTokens l yes) ++ [.word .endWord]
  | .cond _ condition yes no =>
    l.choice condition ++ (.newline :: blockTokens l yes) ++
      (.word .elseWord :: (l.afterElse ++ blockTokens l no) ++ [.word .endWord])
  | .loop _ kind body => kind.tokens ++ (.newline :: blockTokens l body) ++ [.word .endWord]
  | .label _ name => [.word .lbl, .name name]
  | .goto _ name => [.word .goto, .name name]
  | .command _ c => c.tokens

/-- Each statement has one separator behind it. -/
def blockTokens (l : Layout) : List Stmt → List Token
  | [] => []
  | s :: ss => s.tokens l ++ .newline :: blockTokens l ss

end

/-- Takes all separators for the same. -/
def Token.unified : Token → Token
  | .colon => .newline
  | t => t

def Loop.Writable : Loop → Prop
  | .whileTrue condition | .repeatUntil condition => condition.Writable
  | .count target first last => target.Writable ∧ first.Writable ∧ last.Writable
  | .times n => n.Writable

def Command.Writable : Command → Prop
  | .exit | .help | .about => True
  | .debug flag => flag.Writable

/-- Says nothing about the statements inside a block. -/
def Stmt.Writable : Stmt → Prop
  | .effect _ e | .pause _ e => e.Writable
  | .disp _ es | .draw _ _ _ es => ∀ e ∈ es, e.Writable
  | .cond _ condition _ _ => condition.Writable
  | .loop _ kind _ => kind.Writable
  | .command _ c => c.Writable
  | .dispGraph .. | .label .. | .goto .. => True

mutual

/-- The statement without any places. -/
def Stmt.unplaced : Stmt → Stmt
  | .effect _ e => .effect {} e
  | .disp _ values => .disp {} values
  | .pause _ e => .pause {} e
  | .draw _ graphic surface arguments => .draw {} graphic surface arguments
  | .dispGraph _ shade => .dispGraph {} shade
  | .cond _ condition yes no => .cond {} condition (unplacedBlock yes) (unplacedBlock no)
  | .loop _ kind body => .loop {} kind (unplacedBlock body)
  | .label _ name => .label {} name
  | .goto _ name => .goto {} name
  | .command _ c => .command {} c

def unplacedBlock : List Stmt → List Stmt
  | [] => []
  | s :: ss => s.unplaced :: unplacedBlock ss

end

/-! ## Printed statements are sentences -/

theorem Token.eq_of_unified {t u : Token} (h : t.unified = u) (hu : u ≠ .newline) : t = u := by
  cases t with
  | colon => exact absurd h.symm hu
  | _ => exact h

theorem Token.isSeparator_of_unified {t : Token} (h : t.unified = .newline) : t.isSeparator := by
  cases t with
  | newline | colon => rfl
  | _ => cases h

theorem map_token_of_unified {us : List Lexeme} {ts : List Token}
    (h : us.map (fun u => u.token.unified) = ts) (hts : .newline ∉ ts) :
    us.map Lexeme.token = ts := by
  rw [← h]
  refine List.map_congr_left fun u hu => Token.eq_of_unified rfl fun hnewline => hts ?_
  rw [← h, ← hnewline]
  exact List.mem_map_of_mem hu

theorem newline_notMem {ts : List Token} (h : ts.all Token.isInline) : .newline ∉ ts :=
  fun hmem => Bool.false_ne_true (List.all_eq_true.1 h _ hmem)

theorem unsigned_of_unified {us : List Lexeme} {ts : List Token}
    (h : us.map (fun u => u.token.unified) = .newline :: ts) : Unsigned us := by
  obtain ⟨t, _, rfl, ht, -⟩ := List.map_eq_cons_iff.1 h
  intro u hu hminus
  cases hu
  rw [hminus] at ht
  cases ht

theorem Phrase.guard {ts : List Token} {e : Expr} {behind : List Lexeme} (h : Phrase 0 ts e)
    (hu : Unsigned behind) : Guard ts e behind := by
  generalize hn : 0 = n at h
  cases h with
  | looser h =>
    subst hn
    exact .operation h hu
  | store he ht => exact .store he ht
  | @binary op =>
    have := op.precedence_pos
    omega
  | _ => cases hn

theorem Phrases.of_listTokens {es : List Expr} (hne : es ≠ []) (hes : ∀ e ∈ es, e.Writable) :
    Phrases (listTokens es) es := by
  induction es with
  | nil => exact absurd rfl hne
  | cons e es ih =>
    obtain ⟨he, hes⟩ := List.forall_mem_cons.1 hes
    cases es with
    | nil => simpa [listTokens] using Phrases.one (Expr.phrase he)
    | cons e' es => simpa [listTokens] using Phrases.more (Expr.phrase he) (ih (by simp) hes)

theorem Choice.of_tokens (l : Layout) {c : Expr} (hc : c.Writable) {behind : List Lexeme}
    (hu : Unsigned behind) : Choice (l.choice c) c behind := by
  unfold Layout.choice
  split
  next => exact .marked (Expr.phrase hc)
  next =>
    rw [List.append_nil]
    exact .bare ((Expr.phrase hc).guard hu)

theorem Head.of_tokens {kind : Loop} (hk : kind.Writable) {behind : List Lexeme}
    (hu : Unsigned behind) : Head kind.tokens kind behind := by
  cases kind with
  | whileTrue c => exact .whileTrue ((Expr.phrase (e := c) hk).guard hu)
  | repeatUntil c => exact .repeatUntil ((Expr.phrase (e := c) hk).guard hu)
  | count target first last =>
    obtain ⟨ht, hf, hl⟩ := hk
    exact .count ((Target.phrase_tokens ht).of_le (Nat.zero_le _)) (Expr.phrase hf) (Expr.phrase hl)
  | times n => exact .times (Expr.phrase (e := n) hk)

theorem unplacedBlock_eq_singleton {ss : List Stmt} {s : Stmt}
    (h : unplacedBlock ss = unplacedBlock [s]) :
    ∃ s', ss = [s'] ∧ s'.unplaced = s.unplaced := by
  match ss with
  | [] => cases h
  | [s'] => exact ⟨s', rfl, (List.cons.inj h).1⟩
  | _ :: _ :: _ => cases (List.cons.inj h).2

/-- Wherever the tokens are placed, and whichever separators they have, they stand for the
statements. -/
def Prints (p : Part) (ts : List Token) (ss : List Stmt) : Prop :=
  ∀ us : List Lexeme, us.map (fun u => u.token.unified) = ts →
    ∃ ss', Sentence p us ss' ∧ unplacedBlock ss' = unplacedBlock ss

namespace Prints

variable {l : Layout} {span : Span} {ts us : List Token} {s : Stmt} {ss yes no : List Stmt}

theorem simple (h : ∀ span, ∃ s', Simple span ts s' ∧ s'.unplaced = s.unplaced) :
    Prints .statement ts [s] := by
  intro us hus
  cases us with
  | nil =>
    obtain ⟨s', hs, -⟩ := h {}
    obtain ⟨_, _, hts, -⟩ := hs.starts
    rw [← hus] at hts
    cases hts
  | cons t us =>
    obtain ⟨s', hs, heq⟩ := h t.span
    have htokens := map_token_of_unified hus (newline_notMem hs.all_isInline)
    exact ⟨[s'], .simple (htokens ▸ hs), by simp only [unplacedBlock, heq]⟩

theorem nil : Prints .block [] [] := by
  intro us hus
  rw [List.map_eq_nil_iff.1 hus]
  exact ⟨[], .nil, rfl⟩

theorem separator (h : Prints .block ts ss) : Prints .block (.newline :: ts) ss := by
  intro us hus
  obtain ⟨t, vs, rfl, ht, hvs⟩ := List.map_eq_cons_iff.1 hus
  obtain ⟨ss', hss, heq⟩ := h vs hvs
  exact ⟨ss', .separator (Token.isSeparator_of_unified ht) hss, heq⟩

theorem cons (hs : Prints .statement ts [s]) (h : Prints .block us ss) :
    Prints .block (ts ++ .newline :: us) (s :: ss) := by
  intro vs hvs
  obtain ⟨xs, ys, rfl, hxs, hys⟩ := List.map_eq_append_iff.1 hvs
  obtain ⟨t, zs, rfl, ht, hzs⟩ := List.map_eq_cons_iff.1 hys
  obtain ⟨one, hone, heq⟩ := hs xs hxs
  obtain ⟨ss', hss, heqs⟩ := h zs hzs
  obtain ⟨s', rfl, hs'⟩ := unplacedBlock_eq_singleton heq
  refine ⟨s' :: ss', .cons hone (Token.isSeparator_of_unified ht) hss, ?_⟩
  simp only [unplacedBlock, hs', heqs]

theorem afterElse (h : Prints .block ts ss) : Prints .block (l.afterElse ++ ts) ss := by
  unfold Layout.afterElse
  split
  next => exact h.separator
  next => exact h

theorem close : Prints .ending [.word .endWord] [] := by
  intro us hus
  obtain ⟨t, rfl, ht⟩ := List.map_eq_singleton_iff.1 hus
  exact ⟨[], .close (Token.eq_of_unified ht (by decide)), rfl⟩

theorem otherwise (h : Prints .block ts no) :
    Prints .ending (.word .elseWord :: ts ++ [.word .endWord]) no := by
  intro us hus
  obtain ⟨xs, ys, rfl, hxs, hys⟩ := List.map_eq_append_iff.1 hus
  obtain ⟨t, zs, rfl, ht, hzs⟩ := List.map_eq_cons_iff.1 hxs
  obtain ⟨e, rfl, he⟩ := List.map_eq_singleton_iff.1 hys
  obtain ⟨no', hno, heq⟩ := h zs hzs
  exact ⟨no', .otherwise (Token.eq_of_unified ht (by decide)) hno
    (Token.eq_of_unified he (by decide)), heq⟩

theorem cond {c : Expr} (hc : c.Writable) (hyes : Prints .block ts yes)
    (hno : Prints .ending us no) :
    Prints .statement (l.choice c ++ (.newline :: ts) ++ us) [.cond span c yes no] := by
  intro vs hvs
  obtain ⟨xs, ns, rfl, hxs, hns⟩ := List.map_eq_append_iff.1 hvs
  obtain ⟨hs, ys, rfl, hhs, hys⟩ := List.map_eq_append_iff.1 hxs
  obtain ⟨yes', hyes, heqYes⟩ := hyes.separator ys hys
  obtain ⟨no', hno, heqNo⟩ := hno ns hns
  -- the separator keeps a sign in the block away from the condition
  have hchoice := Choice.of_tokens l hc (unsigned_of_unified hys)
  obtain ⟨us, hus, hinline⟩ := hchoice.all_isInline
  have htokens := map_token_of_unified hhs (by simp [hus, newline_notMem hinline])
  cases hs with
  | nil => cases htokens
  | cons t hs =>
    refine ⟨[.cond t.span c yes' no'], .cond (htokens ▸ hchoice) hyes hno, ?_⟩
    simp only [unplacedBlock, Stmt.unplaced, heqYes, heqNo]

theorem loop {kind : Loop} (hk : kind.Writable) (h : Prints .block ts ss) :
    Prints .statement (kind.tokens ++ (.newline :: ts) ++ [.word .endWord])
      [.loop span kind ss] := by
  intro vs hvs
  obtain ⟨xs, ns, rfl, hxs, hns⟩ := List.map_eq_append_iff.1 hvs
  obtain ⟨hs, ys, rfl, hhs, hys⟩ := List.map_eq_append_iff.1 hxs
  obtain ⟨e, rfl, he⟩ := List.map_eq_singleton_iff.1 hns
  obtain ⟨body, hbody, heq⟩ := h.separator ys hys
  have hhead := Head.of_tokens hk (unsigned_of_unified hys)
  obtain ⟨_, us, hus, -, hinline⟩ := hhead.all_isInline
  have htokens := map_token_of_unified hhs (by simp [hus, newline_notMem hinline])
  cases hs with
  | nil =>
    rw [hus] at htokens
    cases htokens
  | cons t hs =>
    refine ⟨[.loop t.span kind body],
      .loop (htokens ▸ hhead) hbody (Token.eq_of_unified he (by decide)), ?_⟩
    simp only [unplacedBlock, Stmt.unplaced, heq]

end Prints

theorem Command.simple_tokens {c : Command} (hc : c.Writable) (span : Span) :
    Simple span c.tokens (.command span c) := by
  cases c with
  | exit => exact .exit
  | help => exact .help
  | about => exact .about
  | debug flag => exact .debug (Expr.phrase (e := flag) hc)

/-- Says nothing about the statements inside a block. -/
def Stmt.Printable (s : Stmt) : Prop :=
  s.Complete ∧ s.Writable

mutual

theorem Stmt.prints_tokens (l : Layout) {s : Stmt} (hs : ∀ s' ∈ s.flat, s'.Printable) :
    Prints .statement (s.tokens l) [s] := by
  obtain ⟨hcomplete, hwritable⟩ := hs s s.mem_flat
  cases s with
  | effect _ e =>
    have he := Expr.phrase (e := e) hwritable
    exact .simple fun span => ⟨_, .effect he hcomplete, rfl⟩
  | disp _ es =>
    have hes := Phrases.of_listTokens hcomplete hwritable
    exact .simple fun span => ⟨_, .disp hes, rfl⟩
  | pause _ e =>
    have he := Expr.phrase (e := e) hwritable
    exact .simple fun span => ⟨_, .pause he, rfl⟩
  | draw _ graphic surface es =>
    cases es with
    | nil => exact .simple fun span => ⟨_, .sketch surface hcomplete.symm, rfl⟩
    | cons e es =>
      have hes := Phrases.of_listTokens (List.cons_ne_nil e es) hwritable
      exact .simple fun span => ⟨_, .draw surface hes hcomplete, rfl⟩
  | dispGraph _ shade => exact .simple fun span => ⟨_, .dispGraph shade, rfl⟩
  | label _ name => exact .simple fun span => ⟨_, .label rfl, rfl⟩
  | goto _ name => exact .simple fun span => ⟨_, .goto rfl, rfl⟩
  | command _ c => exact .simple fun span => ⟨_, c.simple_tokens hwritable span, rfl⟩
  | cond _ c yes no =>
    obtain ⟨hyes, hno⟩ := List.forall_mem_append.1 (List.forall_mem_cons.1 hs).2
    have ihYes := prints_blockTokens l hyes
    cases no with
    | nil => exact .cond hwritable ihYes .close
    | cons n no =>
      exact .cond hwritable ihYes (.otherwise (prints_blockTokens l hno).afterElse)
  | loop _ kind body =>
    exact .loop hwritable (prints_blockTokens l (List.forall_mem_cons.1 hs).2)

theorem prints_blockTokens (l : Layout) {ss : List Stmt} (hs : ∀ s ∈ flatBlock ss, s.Printable) :
    Prints .block (blockTokens l ss) ss := by
  cases ss with
  | nil => exact .nil
  | cons s ss =>
    obtain ⟨hs, hss⟩ := List.forall_mem_append.1 hs
    exact .cons (s.prints_tokens l hs) (prints_blockTokens l hss)

end

/-! ## Whole programs -/

/-- Is one of the tokens that the parser looks at. -/
def Token.isRead (t : Token) : Bool :=
  !t.isTrivia && t ≠ .eof

@[simp] theorem Token.isRead_word (w : Word) : (Token.word w).isRead := rfl

theorem Token.isRead_of_isInline {t : Token} (h : t.isInline) : t.isRead := by
  cases t with
  | whitespace | comment | eof => cases h
  | _ => rfl

theorem Token.isRead_of_isSeparator {t : Token} (h : t.isSeparator) : t.isRead := by
  cases t with
  | newline | colon => rfl
  | _ => cases h

theorem all_isRead {ts : List Token} (h : ts.all Token.isInline) : ts.all Token.isRead :=
  List.all_eq_true.2 fun t ht => Token.isRead_of_isInline (List.all_eq_true.1 h t ht)

theorem Sentence.all_isRead {p : Part} {ts : List Lexeme} {ss : List Stmt} (h : Sentence p ts ss) :
    (ts.map Lexeme.token).all Token.isRead := by
  induction h with
  | simple hs => exact Handheld.all_isRead hs.all_isInline
  | cond hc _ _ ihy ihn =>
    obtain ⟨us, hus, hinline⟩ := hc.all_isInline
    rw [List.map_append, List.map_append, List.all_append, List.all_append, hus, ihy, ihn]
    simp [-List.all_eq_true, Handheld.all_isRead hinline]
  | loop hh _ hclose ih =>
    obtain ⟨w, us, hus, -, hinline⟩ := hh.all_isInline
    rw [List.map_append, List.map_append, List.all_append, List.all_append, hus, ih]
    simp [-List.all_eq_true, Handheld.all_isRead hinline, hclose]
  | nil => rfl
  | separator ht _ ih => simp [-List.all_eq_true, Token.isRead_of_isSeparator ht, ih]
  | cons _ ht _ ihs ih => simp [-List.all_eq_true, Token.isRead_of_isSeparator ht, ihs, ih]
  | close hclose => simp [hclose]
  | otherwise ht _ hclose ih => simp [-List.all_eq_true, ht, hclose, ih]
  | closed _ ih => exact ih
  | unclosed _ _ ih ihs => simp [-List.all_eq_true, ih, ihs]

theorem significant_append_eof {ts : List Lexeme} {e : Lexeme}
    (hts : (ts.map Lexeme.token).all Token.isRead) (he : e.token = .eof) :
    significant (ts ++ [e]) = ts := by
  simp only [List.all_map, List.all_eq_true, Function.comp, Token.isRead, Bool.and_eq_true] at hts
  unfold significant
  rw [List.takeWhile_append_of_pos fun t ht => (hts t ht).2,
    List.takeWhile_cons_of_neg (by simp [he]), List.append_nil, List.filter_eq_self]
  exact fun t ht => (hts t ht).1

/-- A printed tree is read again. The separators may be of any kind. -/
theorem parse_printed (l : Layout) {ss : List Stmt} {ts : List Lexeme}
    (hs : ∀ s ∈ flatBlock ss, s.Printable)
    (hts : ts.map (fun t => t.token.unified) = blockTokens l ss ++ [.eof]) :
    ∃ ss', parse ts = .ok ss' ∧ unplacedBlock ss' = unplacedBlock ss := by
  obtain ⟨us, es, rfl, hus, hes⟩ := List.map_eq_append_iff.1 hts
  obtain ⟨e, rfl, he⟩ := List.map_eq_singleton_iff.1 hes
  obtain ⟨ss', hsentence, heq⟩ := prints_blockTokens l hs us hus
  -- a sentence has nothing in it that the parser would skip
  have hsignificant := significant_append_eof hsentence.all_isRead
    (Token.eq_of_unified he (by decide))
  exact ⟨ss', parse_of_sentence (hsignificant.symm ▸ .closed hsentence), heq⟩

theorem parse_printed_choice :
    let ss : List Stmt := [.cond {} (.assign (.binary .less (.var 'A') (.number 3)) (.var 'B'))
      [.effect {} (.assign (.unary .negate (.unary .square (.binary .add (.var 'A') (.number 1))))
        (.var 'C'))]
      [.loop {} (.times (.number 65535)) [.draw {} .clrDraw .back []]]]
    let ts : List Lexeme := ([.word .ifWord, .var 'A', .operator .less, .number 3, .operator .store,
      .var 'B', .colon, .operator .minus, .leftParen, .var 'A', .operator .plus, .number 1,
      .rightParen, .modifier .square, .operator .store, .var 'C', .newline, .word .elseWord,
      .word .forWord, .leftParen, .number 65535, .rightParen, .newline, .word .clrDraw,
      .modifier .r, .colon, .word .endWord, .newline, .word .endWord, .newline, .eof]).map
      (Lexeme.mk ⟨1, 0, 1⟩)
    ∃ ss', parse ts = .ok ss' ∧ unplacedBlock ss' = unplacedBlock ss := by
  intro ss ts
  refine parse_printed ⟨false, false⟩ ?_ rfl
  simp [ss, flatBlock, Stmt.flat, Stmt.Printable, Stmt.Complete, Stmt.Writable, Expr.Writable,
    Target.Writable, Loop.Writable, Expr.isEffect, Graphic.arity]

end Handheld
