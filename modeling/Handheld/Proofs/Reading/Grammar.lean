import Handheld.Tree.Parser

/-!
# The grammar

Which tokens stand for which expression (`Phrase`), and which lexemes for which
statements (`Sentence`). Nothing here says how to find out.

The only place where two readings would be possible is a condition in front of
a block that begins with a sign. There the sign belongs to the condition if it
can (`Guard`).
-/

namespace Handheld

/-! ## How small choices are written -/

def Width.marks : Width → List Token
  | .byte => []
  | .word => [.modifier .r]

def Surface.marks : Surface → List Token
  | .main => []
  | .back => [.modifier .r]

def Shade.marks : Shade → List Token
  | .mono => []
  | .gray3 => [.modifier .r]
  | .gray4 => [.modifier .r, .modifier .r]

def BinaryOp.operator : BinaryOp → Operator
  | .add => .plus
  | .subtract => .minus
  | .multiply => .multiply
  | .divide => .divide
  | .modulo => .modulo
  | .equal => .equal
  | .notEqual => .notEqual
  | .less => .less
  | .lessEqual => .lessEqual
  | .greater => .greater
  | .greaterEqual => .greaterEqual

/-- The tokens in front of the values to draw with. -/
def Graphic.opening : Graphic → List Token
  | .pxlOn => [.word .pxlOn]
  | .pxlOff => [.word .pxlOff]
  | .pxlChange => [.word .pxlChange]
  | .line => [.word .line]
  | .rect => [.word .rect]
  | .rectI => [.word .rectI]
  | .circle => [.word .circle]
  | .clrDraw => [.word .clrDraw]
  | .shiftRight => [.word .horizontal, .operator .plus]
  | .shiftLeft => [.word .horizontal, .operator .minus]
  | .shiftDown => [.word .vertical, .operator .plus]
  | .shiftUp => [.word .vertical, .operator .minus]

/-- A label may be named like a number or a variable. -/
def Token.labelName? : Token → Option String
  | .name s => some s
  | .number n => some (toString n.toNat)
  | .var c => some c.toString
  | _ => none

/-- Reading the place that a target stores to. -/
def Target.toExpr : Target → Expr
  | .var c => .var c
  | .pointer address width => .deref address width

/-! ## Expressions -/

/-- The tokens stand for an expression. The level says how loosely it may be held together:
0 by stores, 1 to 3 by binary operators, whose precedence this is, 4 by a sign, 5 by suffixes,
6 not at all. On level 7 are the places a value can be stored to. -/
inductive Phrase : Nat → List Token → Expr → Prop
  | looser {n : Nat} {ts : List Token} {e : Expr} : Phrase (n + 1) ts e → Phrase n ts e
  | store {ts us : List Token} {e : Expr} {target : Target} :
      Phrase 0 ts e → Phrase 7 us target.toExpr →
      Phrase 0 (ts ++ .operator .store :: us) (.assign e target)
  | binary {op : BinaryOp} {ts us : List Token} {lhs rhs : Expr} :
      Phrase op.precedence ts lhs → Phrase (op.precedence + 1) us rhs →
      Phrase op.precedence (ts ++ .operator op.operator :: us) (.binary op lhs rhs)
  | negate {ts : List Token} {e : Expr} :
      Phrase 4 ts e → Phrase 4 (.operator .minus :: ts) (.unary .negate e)
  | square {ts : List Token} {e : Expr} :
      Phrase 5 ts e → Phrase 5 (ts ++ [.modifier .square]) (.unary .square e)
  | increment {ts : List Token} {target : Target} :
      Phrase 5 ts target.toExpr → Phrase 5 (ts ++ [.operator .increment]) (.increment target)
  | decrement {ts : List Token} {target : Target} :
      Phrase 5 ts target.toExpr → Phrase 5 (ts ++ [.operator .decrement]) (.decrement target)
  | number (n : UInt16) : Phrase 6 [.number n] (.number (Int64.ofNat n.toNat))
  | buffer (b : Buffer) : Phrase 6 [.buffer b] (.buffer b)
  | rand : Phrase 6 [.word .rand] .rand
  | parens {ts : List Token} {e : Expr} :
      Phrase 0 ts e → Phrase 6 (.leftParen :: ts ++ [.rightParen]) e
  | addressOf {ts : List Token} {target : Target} :
      Phrase 7 ts target.toExpr → Phrase 6 (.modifier .addressOf :: ts) (.addressOf target)
  | getKey {ts : List Token} {code : Expr} :
      Phrase 0 ts code →
      Phrase 6 (.word .getKey :: .leftParen :: ts ++ [.rightParen]) (.getKey code)
  | pxlTest {ts us : List Token} {x y : Expr} (surface : Surface) :
      Phrase 0 ts x → Phrase 0 us y →
      Phrase 6 (.word .pxlTest :: .leftParen :: ts ++ .comma :: us ++ .rightParen :: surface.marks)
        (.pxlTest surface x y)
  | var (c : Char) : Phrase 7 [.var c] (.var c)
  | deref {ts : List Token} {address : Expr} (width : Width) :
      Phrase 0 ts address →
      Phrase 7 (.leftBrace :: ts ++ .rightBrace :: width.marks) (.deref address width)

/-- At least one expression, and commas between them. -/
inductive Phrases : List Token → List Expr → Prop
  | one {ts : List Token} {e : Expr} : Phrase 0 ts e → Phrases ts [e]
  | more {ts us : List Token} {e : Expr} {es : List Expr} :
      Phrase 0 ts e → Phrases us es → Phrases (ts ++ .comma :: us) (e :: es)

/-! ## Statements -/

/-- A statement without a block, which begins at `span`. -/
inductive Simple (span : Span) : List Token → Stmt → Prop
  | label {t : Token} {name : String} :
      t.labelName? = some name → Simple span [.word .lbl, t] (.label span name)
  | goto {t : Token} {name : String} :
      t.labelName? = some name → Simple span [.word .goto, t] (.goto span name)
  | disp {ts : List Token} {es : List Expr} :
      Phrases ts es → Simple span (.word .disp :: ts) (.disp span es)
  | pause {ts : List Token} {e : Expr} :
      Phrase 0 ts e → Simple span (.word .pause :: ts) (.pause span e)
  | dispGraph (shade : Shade) :
      Simple span (.word .dispGraph :: shade.marks) (.dispGraph span shade)
  | sketch {graphic : Graphic} (surface : Surface) :
      graphic.arity = 0 →
      Simple span (graphic.opening ++ surface.marks) (.draw span graphic surface [])
  | draw {graphic : Graphic} {ts : List Token} {es : List Expr} (surface : Surface) :
      Phrases ts es → es.length = graphic.arity →
      Simple span (graphic.opening ++ .leftParen :: ts ++ .rightParen :: surface.marks)
        (.draw span graphic surface es)
  | effect {ts : List Token} {e : Expr} :
      Phrase 0 ts e → e.isEffect → Simple span ts (.effect span e)
  | exit : Simple span [.command .exit] (.command span .exit)
  | help : Simple span [.command .help] (.command span .help)
  | about : Simple span [.command .about] (.command span .about)
  | debug {ts : List Token} {e : Expr} :
      Phrase 0 ts e → Simple span (.command .debug :: ts) (.command span (.debug e))

/-- The lexemes do not begin with a sign. -/
def Unsigned (ts : List Lexeme) : Prop :=
  ∀ t ∈ ts.head?, t.token ≠ .operator .minus

/-- A condition right in front of a block. Only what ends with a store may have a sign behind it. -/
inductive Guard : List Token → Expr → List Lexeme → Prop
  | store {ts us : List Token} {e : Expr} {target : Target} {behind : List Lexeme} :
      Phrase 0 ts e → Phrase 7 us target.toExpr →
      Guard (ts ++ .operator .store :: us) (.assign e target) behind
  | operation {ts : List Token} {e : Expr} {behind : List Lexeme} :
      Phrase 1 ts e → Unsigned behind → Guard ts e behind

/-- What stands in front of the first block of an `If`. -/
inductive Choice : List Token → Expr → List Lexeme → Prop
  | bare {ts : List Token} {c : Expr} {behind : List Lexeme} :
      Guard ts c behind → Choice (.word .ifWord :: ts) c behind
  | marked {ts : List Token} {c : Expr} {behind : List Lexeme} :
      Phrase 0 ts c → Choice (.word .ifWord :: ts ++ [.word .thenWord]) c behind

/-- What stands in front of the block of a loop. -/
inductive Head : List Token → Loop → List Lexeme → Prop
  | whileTrue {ts : List Token} {c : Expr} {behind : List Lexeme} :
      Guard ts c behind → Head (.word .whileWord :: ts) (.whileTrue c) behind
  | repeatUntil {ts : List Token} {c : Expr} {behind : List Lexeme} :
      Guard ts c behind → Head (.word .repeatWord :: ts) (.repeatUntil c) behind
  | count {ts us vs : List Token} {target : Target} {first last : Expr} {behind : List Lexeme} :
      Phrase 0 ts target.toExpr → Phrase 0 us first → Phrase 0 vs last →
      Head (.word .forWord :: .leftParen :: ts ++ .comma :: us ++ .comma :: vs ++ [.rightParen])
        (.count target first last) behind
  | times {ts : List Token} {n : Expr} {behind : List Lexeme} :
      Phrase 0 ts n → Head (.word .forWord :: .leftParen :: ts ++ [.rightParen]) (.times n) behind

inductive Part
  | statement
  | block
  /-- Of an `If`: what follows its first block. -/
  | ending
  | program

/-- The lexemes stand for a part of a program. Each statement is placed where its first lexeme is,
and has a separator behind it, unless it is the last one of the program. -/
inductive Sentence : Part → List Lexeme → List Stmt → Prop
  | simple {t : Lexeme} {ts : List Lexeme} {s : Stmt} :
      Simple t.span ((t :: ts).map Lexeme.token) s → Sentence .statement (t :: ts) [s]
  | cond {t : Lexeme} {hs ys ns : List Lexeme} {c : Expr} {yes no : List Stmt} :
      Choice ((t :: hs).map Lexeme.token) c ys → Sentence .block ys yes → Sentence .ending ns no →
      Sentence .statement (t :: hs ++ ys ++ ns) [.cond t.span c yes no]
  | loop {t close : Lexeme} {hs ys : List Lexeme} {kind : Loop} {body : List Stmt} :
      Head ((t :: hs).map Lexeme.token) kind ys → Sentence .block ys body →
      close.token = .word .endWord →
      Sentence .statement (t :: hs ++ ys ++ [close]) [.loop t.span kind body]
  | nil : Sentence .block [] []
  | separator {t : Lexeme} {ts : List Lexeme} {ss : List Stmt} :
      t.token.isSeparator → Sentence .block ts ss → Sentence .block (t :: ts) ss
  | cons {t : Lexeme} {us ts : List Lexeme} {s : Stmt} {ss : List Stmt} :
      Sentence .statement us [s] → t.token.isSeparator → Sentence .block ts ss →
      Sentence .block (us ++ t :: ts) (s :: ss)
  | close {close : Lexeme} : close.token = .word .endWord → Sentence .ending [close] []
  | otherwise {t close : Lexeme} {ns : List Lexeme} {no : List Stmt} :
      t.token = .word .elseWord → Sentence .block ns no → close.token = .word .endWord →
      Sentence .ending (t :: ns ++ [close]) no
  | closed {ts : List Lexeme} {ss : List Stmt} : Sentence .block ts ss → Sentence .program ts ss
  | unclosed {ts us : List Lexeme} {ss : List Stmt} {s : Stmt} :
      Sentence .block ts ss → Sentence .statement us [s] →
      Sentence .program (ts ++ us) (ss ++ [s])

/-! ## How phrases and statements begin -/

def Token.startsPhrase : Token → Bool
  | .number _ | .var _ | .buffer _ | .leftParen | .leftBrace | .modifier .addressOf | .word .rand
  | .word .getKey | .word .pxlTest | .operator .minus => true
  | _ => false

def Token.startsStatement : Token → Bool
  | .word .thenWord | .word .elseWord | .word .endWord => false
  | .word _ | .command _ => true
  | t => t.startsPhrase

/-- The words that have a block behind them. -/
def Token.opensBlock : Token → Bool
  | .word .ifWord | .word .whileWord | .word .repeatWord | .word .forWord => true
  | _ => false

theorem BinaryOp.precedence_pos (b : BinaryOp) : 1 ≤ b.precedence := by
  cases b <;> decide

theorem BinaryOp.precedence_le (b : BinaryOp) : b.precedence ≤ 3 := by
  cases b <;> decide

theorem Phrase.level_le {n : Nat} {ts : List Token} {e : Expr} (h : Phrase n ts e) : n ≤ 7 := by
  induction h with
  | looser _ ih => omega
  | @binary op =>
    have := op.precedence_le
    omega
  | _ => decide

theorem Phrase.starts {n : Nat} {ts : List Token} {e : Expr} (h : Phrase n ts e) :
    ∃ t us, ts = t :: us ∧ t.startsPhrase ∧ (5 ≤ n → t ≠ .operator .minus) := by
  induction h with
  | looser _ ih =>
    obtain ⟨t, us, hts, ht, hn⟩ := ih
    exact ⟨t, us, hts, ht, fun h => hn (by omega)⟩
  | store _ _ ih =>
    obtain ⟨t, us, rfl, ht, -⟩ := ih
    exact ⟨t, _, rfl, ht, by omega⟩
  | @binary op _ _ _ _ _ _ ih =>
    obtain ⟨t, us, rfl, ht, -⟩ := ih
    have := op.precedence_le
    exact ⟨t, _, rfl, ht, by omega⟩
  | negate => exact ⟨_, _, rfl, rfl, by omega⟩
  | square _ ih | increment _ ih | decrement _ ih =>
    obtain ⟨t, us, rfl, ht, hn⟩ := ih
    exact ⟨t, _, rfl, ht, hn⟩
  | number | buffer | rand | parens | addressOf | getKey | pxlTest | var | deref =>
    exact ⟨_, _, rfl, rfl, by simp⟩

theorem Phrases.ne_nil {ts : List Token} {es : List Expr} (h : Phrases ts es) : es ≠ [] := by
  cases h with
  | one | more => exact List.cons_ne_nil _ _

theorem Token.startsStatement_of_startsPhrase {t : Token} (h : t.startsPhrase) :
    t.startsStatement ∧ t.opensBlock = false := by
  cases t with
  | word w =>
    revert h
    cases w <;> decide
  | command => cases h
  | _ => exact ⟨h, rfl⟩

theorem Token.not_isSeparator {t : Token} (h : t.startsStatement) : t.isSeparator = false := by
  cases t with
  | newline | colon => cases h
  | _ => rfl

theorem Simple.starts {span : Span} {ts : List Token} {s : Stmt} (h : Simple span ts s) :
    ∃ t us, ts = t :: us ∧ t.startsStatement ∧ t.opensBlock = false := by
  cases h with
  | @sketch graphic | @draw graphic =>
    have hopening : ∃ t us, graphic.opening = t :: us ∧ t.startsStatement ∧
        t.opensBlock = false := by
      cases graphic <;> exact ⟨_, _, rfl, rfl, rfl⟩
    obtain ⟨t, us, ht, hstarts⟩ := hopening
    exact ⟨t, _, by rw [ht]; rfl, hstarts⟩
  | effect he =>
    obtain ⟨t, us, hts, ht, -⟩ := he.starts
    exact ⟨t, us, hts, Token.startsStatement_of_startsPhrase ht⟩
  | _ => exact ⟨_, _, rfl, rfl, rfl⟩

theorem Choice.starts {ts : List Token} {c : Expr} {behind : List Lexeme}
    (h : Choice ts c behind) : ∃ us, ts = .word .ifWord :: us := by
  cases h with
  | bare | marked => exact ⟨_, rfl⟩

theorem Head.starts {ts : List Token} {kind : Loop} {behind : List Lexeme}
    (h : Head ts kind behind) : ∃ t us, ts = t :: us ∧ t.startsStatement := by
  cases h with
  | whileTrue | repeatUntil | count | times => exact ⟨_, _, rfl, rfl⟩

theorem Sentence.starts {ts : List Lexeme} {ss : List Stmt} (h : Sentence .statement ts ss) :
    ∃ t us, ts = t :: us ∧ t.token.startsStatement := by
  cases h with
  | @simple t ts _ hs =>
    obtain ⟨_, _, hts, hstarts, -⟩ := hs.starts
    exact ⟨t, ts, rfl, (List.cons.inj hts).1 ▸ hstarts⟩
  | @cond t _ _ _ _ _ _ hc =>
    obtain ⟨_, hts⟩ := hc.starts
    exact ⟨t, _, rfl, by rw [(List.cons.inj hts).1]; rfl⟩
  | @loop t _ _ _ _ _ hh =>
    obtain ⟨_, _, hts, hstarts⟩ := hh.starts
    exact ⟨t, _, rfl, (List.cons.inj hts).1 ▸ hstarts⟩

theorem Sentence.of_separator {t : Lexeme} {ts : List Lexeme} {ss : List Stmt}
    (ht : t.token.isSeparator) (h : Sentence .block (t :: ts) ss) : Sentence .block ts ss := by
  generalize hts : t :: ts = us at h
  cases h with
  | nil => cases hts
  | separator _ h => exact (List.cons.inj hts).2 ▸ h
  | cons hs _ _ =>
    obtain ⟨t', _, rfl, hstarts⟩ := hs.starts
    obtain ⟨rfl, -⟩ := List.cons.inj hts
    simp [Token.not_isSeparator hstarts] at ht

end Handheld
