import Handheld.Proofs.Reading.Cursor

/-!
# Rounds of the parser's loops

What a reader does to the place of the cursor follows from what it does to single
lexemes. Five loops take lexemes for as long as they find what they look for:
statements, stores, operations, suffixes and arguments. Here are their rounds. One
that goes on has moved the cursor on, if the readers that it calls have.
-/

namespace Handheld.Cursor

/-! ## Where a reader leaves the cursor -/

/-- What holds of the value and of the place of the cursor, if the reader succeeds from here. -/
def Leads {α : Type} (r : Cursor α) (pos : Nat) (P : α → Nat → Prop) : Prop :=
  ∀ v pos', r pos = pure (v, pos') → P v pos'

/-- The cursor comes to `n` or further, but not beyond the end. -/
abbrev Reaches {α : Type} (ts : List Lexeme) (r : Cursor α) (pos n : Nat) : Prop :=
  Leads r pos fun _ pos' => n ≤ pos' ∧ pos' ≤ ts.length

/-- The cursor is further on if the reader succeeds. -/
def Advances {α : Type} (ts : List Lexeme) (r : Cursor α) : Prop :=
  ∀ pos ≤ ts.length, Reaches ts r pos (pos + 1)

/-- The cursor is not moved back. -/
def Forward {α : Type} (ts : List Lexeme) (r : Cursor α) : Prop :=
  ∀ pos ≤ ts.length, Reaches ts r pos pos

variable {ts : List Lexeme} {pos n m : Nat} {α β : Type} {P : β → Nat → Prop}

theorem eq_pure_of_bind {x : ExceptT Diagnostic Option α} {f : α → ExceptT Diagnostic Option β}
    {b : β} (h : x >>= f = pure b) : ∃ a, x = pure a ∧ f a = pure b :=
  match x, h with
  | none, h => nomatch h
  | some (.error _), h => nomatch h
  | some (.ok a), h => ⟨a, rfl, h⟩

theorem Leads.pure {v : β} (h : P v pos) : Leads (Pure.pure v) pos P := by
  intro v' pos' heq
  cases heq
  exact h

theorem Leads.throw {e : Diagnostic} : Leads (throw e : Cursor β) pos P :=
  fun _ _ h => nomatch h

theorem Leads.tooDeep : Leads (tooDeep : Cursor β) pos P :=
  fun _ _ h => nomatch h

theorem Leads.after {r : Cursor α} {v : α} {p : Nat} (hr : r pos = Pure.pure (v, p))
    {s : α → Cursor β} (hs : Leads (s v) p P) : Leads (r >>= s) pos P := by
  intro w pos' h
  change (r pos >>= fun p => s p.1 p.2) = Pure.pure (w, pos') at h
  rw [hr] at h
  exact hs w pos' h

theorem Leads.bind {r : Cursor α} {Q : α → Nat → Prop} (hr : Leads r pos Q) {s : α → Cursor β}
    (hs : ∀ v p, Q v p → Leads (s v) p P) : Leads (r >>= s) pos P := by
  intro v pos' h
  change (r pos >>= fun p => s p.1 p.2) = Pure.pure (v, pos') at h
  obtain ⟨⟨w, p⟩, hp, hrest⟩ := eq_pure_of_bind h
  exact hs w p (hr w p hp) v pos' hrest

theorem Reaches.bind {r : Cursor α} (hr : Reaches ts r pos m) {s : α → Cursor β}
    (hs : ∀ v p, m ≤ p → p ≤ ts.length → Leads (s v) p P) : Leads (r >>= s) pos P :=
  Leads.bind hr fun v p hp => hs v p hp.1 hp.2

theorem Reaches.mono {r : Cursor α} (h : Reaches ts r pos m) (hn : n ≤ m) : Reaches ts r pos n :=
  fun v pos' hr => ⟨hn.trans (h v pos' hr).1, (h v pos' hr).2⟩

/-! ## Single lexemes -/

theorem skip_le (hpos : pos ≤ ts.length) : skip ts pos ≤ ts.length := by
  have hlength := (List.takeWhile_prefix (l := ts.drop pos) Lexeme.isTrivia).length_le
  rw [List.length_drop] at hlength
  unfold skip
  omega

theorem le_skip : pos ≤ skip ts pos :=
  Nat.le_add_right ..

theorem Leads.here (hpos : pos ≤ ts.length) {s : Span → Cursor β}
    (hs : ∀ span p, pos ≤ p → p ≤ ts.length → Leads (s span) p P) : Leads (here ts >>= s) pos P :=
  .after (here_apply ts pos) (hs _ _ le_skip (skip_le hpos))

theorem Leads.peek (hpos : pos ≤ ts.length) {s : Token → Cursor β}
    (heof : ∀ p, pos ≤ p → p ≤ ts.length → Leads (s .eof) p P)
    (hs : ∀ token p, pos ≤ p → p < ts.length → Leads (s token) p P) :
    Leads (peek ts >>= s) pos P := by
  refine .after (peek_apply ts pos) ?_
  by_cases hlt : Cursor.skip ts pos < ts.length
  · exact hs _ _ le_skip hlt
  · rw [List.getElem?_eq_none (by omega)]
    exact heof _ le_skip (skip_le hpos)

theorem Leads.next {s : Token → Cursor β} (heof : ∀ p, Leads (s .eof) p P)
    (hs : ∀ token p, pos < p → p ≤ ts.length → Leads (s token) p P) :
    Leads (next ts >>= s) pos P := by
  refine .after (next_apply ts pos) ?_
  by_cases hlt : Cursor.skip ts pos < ts.length
  · rw [if_pos hlt]
    exact hs _ _ (Nat.lt_succ_of_le le_skip) hlt
  · rw [List.getElem?_eq_none (by omega)]
    exact heof _

theorem next_reaches (hpos : pos < ts.length) : Reaches ts (next ts) pos (pos + 1) := by
  intro v pos' h
  rw [next_apply] at h
  have hle : pos ≤ skip ts pos := le_skip
  have hlen : skip ts pos ≤ ts.length := skip_le hpos.le
  cases h
  split <;> omega

theorem Leads.eat {token : Token} (htoken : token ≠ .eof) (hpos : pos ≤ ts.length)
    {s : Bool → Cursor β} (hno : ∀ p, pos ≤ p → p ≤ ts.length → Leads (s false) p P)
    (hyes : ∀ p, pos < p → p ≤ ts.length → Leads (s true) p P) :
    Leads (eat ts token >>= s) pos P := by
  unfold Cursor.eat
  rw [bind_assoc]
  refine .peek hpos (fun p hp hlen => ?_) fun found p hp hlen => ?_
  · rw [if_neg htoken.symm, pure_bind]
    exact hno p hp hlen
  · split
    · rw [bind_assoc]
      refine (next_reaches hlen).bind fun _ q hq hlen => ?_
      rw [pure_bind]
      exact hyes q (by omega) hlen
    · rw [pure_bind]
      exact hno p hp hlen.le

theorem eat_forward {token : Token} (htoken : token ≠ .eof) : Forward ts (eat ts token) := by
  intro pos hpos
  have h : Reaches ts (eat ts token >>= Pure.pure) pos pos :=
    .eat htoken hpos (fun _ hp hlen => .pure ⟨hp, hlen⟩) fun _ hp hlen => .pure ⟨hp.le, hlen⟩
  rwa [bind_pure] at h

theorem expect_advances {token : Token} (htoken : token ≠ .eof) :
    Advances ts (expect ts token) := by
  intro pos hpos
  refine .here hpos fun span p hp hlen => .next (fun p => ?_) fun found q hq hlen => ?_
  · rw [if_neg htoken.symm]
    exact .throw
  · split
    · exact .pure ⟨by omega, hlen⟩
    · exact .throw

theorem width_forward : Forward ts (width ts) := fun pos hpos =>
  (eat_forward (by decide) pos hpos).bind fun _ _ hp hlen => .pure ⟨hp, hlen⟩

theorem surface_forward : Forward ts (surface ts) := fun pos hpos =>
  (eat_forward (by decide) pos hpos).bind fun _ _ hp hlen => .pure ⟨hp, hlen⟩

theorem shade_forward : Forward ts (shade ts) := fun pos hpos =>
  (eat_forward (by decide) pos hpos).bind fun _ p hp hlen =>
    (eat_forward (by decide) p hlen).bind fun _ _ hq hlen => .pure ⟨hp.trans hq, hlen⟩

theorem labelName_advances : Advances ts (labelName ts) := by
  intro pos hpos
  refine .here hpos fun span p hp hlen => .next (fun p => .throw) fun token q hq hlen => ?_
  cases token with
  | name | number | var => exact .pure ⟨by omega, hlen⟩
  | _ => exact .throw

theorem intoTarget_forward (e : Expr) (span : Span) : Forward ts (intoTarget e span) := by
  intro pos hpos
  unfold intoTarget
  cases e.toTarget? with
  | some target => exact .pure ⟨le_rfl, hpos⟩
  | none => exact .throw

/-! ## Rounds

A round has a result, or something to go on with. -/

section

variable (ts)

def suffixRound (e : Expr) : Cursor (Expr ⊕ Expr) := do
  let span ← here ts
  match ← peek ts with
  | .modifier .square =>
    let _ ← next ts
    return .inr (.unary .square e)
  | .operator .increment =>
    let _ ← next ts
    return .inr (.increment (← intoTarget e span))
  | .operator .decrement =>
    let _ ← next ts
    return .inr (.decrement (← intoTarget e span))
  | _ => return .inl e

def storeRound (depth : Nat) (e : Expr) : Cursor (Expr ⊕ Expr) := do
  if ← eat ts (.operator .store) then
    return .inr (.assign e (← target ts depth))
  else
    return .inl e

def operationRound (level depth : Nat) (lhs : Expr) : Cursor (Expr ⊕ Expr) := do
  match operator? level (← peek ts) with
  | some op =>
    let _ ← next ts
    return .inr (.binary op lhs (← operation ts depth (op.precedence + 1)))
  | none => return .inl lhs

def argumentRound (depth : Nat) (done : List Expr) : Cursor (List Expr ⊕ List Expr) := do
  if ← eat ts .comma then
    return .inr (done ++ [← expression ts depth])
  else
    return .inl done

/-- The arguments behind those in `done`. -/
def arguments (depth : Nat) (done : List Expr) : Cursor (List Expr) := do
  return done ++ (← moreExpressions ts depth)

def blockRound (depth : Nat) (done : Array Stmt) :
    Cursor ((List Stmt × Terminator) ⊕ Array Stmt) := do
  let span ← here ts
  match ← peek ts with
  | .newline | .colon =>
    let _ ← next ts
    return .inr done
  | .eof => return .inl (done.toList, .inputEnd span)
  | .word .endWord =>
    let _ ← next ts
    return .inl (done.toList, .endWord span)
  | .word .elseWord =>
    let _ ← next ts
    return .inl (done.toList, .elseWord span)
  | _ =>
    let s ← statement ts depth
    endOfStatement ts
    return .inr (done.push s)

/-- Behind a round that goes on, the cursor is further on. Behind the last one it is not further
back. -/
def Turns {α β : Type} (round : Cursor (β ⊕ α)) : Prop :=
  ∀ pos ≤ ts.length, Leads round pos fun outcome pos' =>
    pos ≤ pos' ∧ pos' ≤ ts.length ∧ (outcome.isRight → pos < pos')

/-- A loop does a round, and then all the others if there is something to go on with. -/
structure Repeats {α β : Type} (round : Nat → α → Cursor (β ⊕ α)) (loop : Nat → α → Cursor β) :
    Prop where
  unrolls : ∀ depth x, loop (depth + 1) x = round depth x >>= Sum.elim pure (loop depth)
  turns : ∀ depth x, Turns ts (round depth x)

end

/-- A loop whose rounds do not move the cursor back does not either. -/
theorem Turns.forward {round : Cursor (β ⊕ α)} (h : Turns ts round) {loop : α → Cursor β}
    (hloop : ∀ x, Forward ts (loop x)) : Forward ts (round >>= Sum.elim pure loop) := by
  intro pos hpos
  refine (h pos hpos).bind fun outcome p hp => ?_
  obtain ⟨hp, hlen, -⟩ := hp
  cases outcome with
  | inl v => exact .pure ⟨hp, hlen⟩
  | inr x => exact (hloop x p hlen).mono hp

theorem Repeats.forward {round : Nat → α → Cursor (β ⊕ α)} {loop : Nat → α → Cursor β}
    (h : Repeats ts round loop) (hzero : ∀ x, Forward ts (loop 0 x)) (depth : Nat) (x : α) :
    Forward ts (loop depth x) := by
  induction depth generalizing x with
  | zero => exact hzero x
  | succ depth ih =>
    rw [h.unrolls]
    exact (h.turns depth x).forward ih

/-! ### Suffixes -/

theorem suffixes_repeats : Repeats ts (fun _ => suffixRound ts) (suffixes ts) where
  unrolls depth e := by
    rw [suffixes, suffixRound]
    simp only [bind_assoc]
    refine bind_congr fun span => bind_congr fun token => ?_
    cases token with
    | modifier m => cases m <;> simp
    | operator op => cases op <;> simp
    | _ => simp
  turns depth e pos hpos := by
    refine .here hpos fun span p hp hlen => ?_
    refine .peek hlen (fun q hq hlen => ?_) fun token q hq hlen => ?_
    · exact .pure ⟨by omega, hlen, by simp⟩
    · cases token with
      | modifier m =>
        cases m with
        | square =>
          refine (next_reaches hlen).bind fun _ q hq hlen => ?_
          exact .pure ⟨by omega, hlen, fun _ => by omega⟩
        | _ => exact .pure ⟨by omega, hlen.le, by simp⟩
      | operator op =>
        cases op with
        | increment | decrement =>
          refine (next_reaches hlen).bind fun _ q hq hlen => ?_
          refine (intoTarget_forward e span q hlen).bind fun target q hq hlen => ?_
          exact .pure ⟨by omega, hlen, fun _ => by omega⟩
        | _ => exact .pure ⟨by omega, hlen.le, by simp⟩
      | _ => exact .pure ⟨by omega, hlen.le, by simp⟩

theorem suffixes_forward (depth : Nat) (e : Expr) : Forward ts (suffixes ts depth e) :=
  suffixes_repeats.forward (fun _ _ _ => .tooDeep) depth e

/-! ### Stores -/

variable {depth : Nat}

theorem stores_unrolls (e : Expr) :
    stores ts (depth + 1) e = storeRound ts depth e >>= Sum.elim pure (stores ts depth) := by
  rw [stores, storeRound, bind_assoc]
  refine bind_congr fun more => ?_
  cases more with
  | false => rfl
  | true => simp

theorem storeRound_turns (htarget : Advances ts (target ts depth)) (e : Expr) :
    Turns ts (storeRound ts depth e) := by
  intro pos hpos
  refine .eat (by decide) hpos (fun p hp hlen => .pure ⟨hp, hlen, by simp⟩) fun p hp hlen => ?_
  refine (htarget p hlen).bind fun t p hp hlen => ?_
  exact .pure ⟨by omega, hlen, fun _ => by omega⟩

/-! ### Operations -/

theorem operations_unrolls (level : Nat) (lhs : Expr) :
    operations ts (depth + 1) level lhs =
      operationRound ts level depth lhs >>= Sum.elim pure (operations ts depth level) := by
  rw [operations, operationRound, bind_assoc]
  refine bind_congr fun token => ?_
  cases operator? level token <;> simp

theorem operationRound_turns (hoperation : ∀ level, Advances ts (operation ts depth level))
    (level : Nat) (lhs : Expr) : Turns ts (operationRound ts level depth lhs) := by
  intro pos hpos
  refine .peek hpos (fun p hp hlen => .pure ⟨hp, hlen, by simp⟩) fun token p hp hlen => ?_
  cases operator? level token with
  | none => exact .pure ⟨hp, hlen.le, by simp⟩
  | some op =>
    refine (next_reaches hlen).bind fun _ p hp hlen => ?_
    refine (hoperation _ p hlen).bind fun rhs p hp hlen => ?_
    exact .pure ⟨by omega, hlen, fun _ => by omega⟩

/-! ### Arguments -/

theorem arguments_unrolls (done : List Expr) :
    arguments ts (depth + 1) done =
      argumentRound ts depth done >>= Sum.elim pure (arguments ts depth) := by
  rw [arguments, moreExpressions, argumentRound, bind_assoc, bind_assoc]
  refine bind_congr fun more => ?_
  cases more <;> simp [arguments]

theorem argumentRound_turns (hexpression : Advances ts (expression ts depth)) (done : List Expr) :
    Turns ts (argumentRound ts depth done) := by
  intro pos hpos
  refine .eat (by decide) hpos (fun p hp hlen => .pure ⟨hp, hlen, by simp⟩) fun p hp hlen => ?_
  refine (hexpression p hlen).bind fun e p hp hlen => ?_
  exact .pure ⟨by omega, hlen, fun _ => by omega⟩

theorem expressions_eq (depth : Nat) :
    expressions ts depth = expression ts depth >>= fun e => arguments ts depth [e] := rfl

/-! ### Statements -/

theorem block_unrolls (done : Array Stmt) :
    block ts (depth + 1) done = blockRound ts depth done >>= Sum.elim pure (block ts depth) := by
  rw [block, blockRound]
  simp only [bind_assoc]
  refine bind_congr fun span => bind_congr fun token => ?_
  cases token with
  | word w => cases w <;> simp
  | _ => simp

theorem endOfStatement_forward : Forward ts (endOfStatement ts) := by
  intro pos hpos
  refine .here hpos fun span p hp hlen => .peek hlen (fun p hp hlen => ?_) fun token p hp hlen => ?_
  · exact .pure ⟨by omega, hlen⟩
  · split
    · exact .pure ⟨by omega, hlen.le⟩
    · exact .throw

theorem blockRound_turns (hstatement : Advances ts (statement ts depth)) (done : Array Stmt) :
    Turns ts (blockRound ts depth done) := by
  intro pos hpos
  refine .here hpos fun span p hp hlen => ?_
  refine .peek hlen (fun q hq hlen => ?_) fun token q hq hlen => ?_
  · exact .pure ⟨by omega, hlen, by simp⟩
  · have hround : Leads (statement ts depth >>= fun s => endOfStatement ts >>= fun _ =>
        pure (.inr (done.push s) : (List Stmt × Terminator) ⊕ Array Stmt)) q
        fun outcome pos' => pos ≤ pos' ∧ pos' ≤ ts.length ∧ (outcome.isRight → pos < pos') := by
      refine (hstatement q hlen.le).bind fun s p hp hlen => ?_
      refine (endOfStatement_forward p hlen).bind fun _ p hp hlen => ?_
      exact .pure ⟨by omega, hlen, fun _ => by omega⟩
    cases token with
    | newline | colon =>
      exact (next_reaches hlen).bind fun _ p hp hlen => .pure ⟨by omega, hlen, fun _ => by omega⟩
    | eof => exact .pure ⟨by omega, hlen.le, by simp⟩
    | word w =>
      cases w with
      | endWord | elseWord =>
        exact (next_reaches hlen).bind fun _ p hp hlen => .pure ⟨by omega, hlen, by simp⟩
      | _ => exact hround
    | _ => exact hround

end Handheld.Cursor
