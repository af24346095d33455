import Handheld.Proofs.Reading.Lexemes
import Handheld.Tree.Parser

/-!
# What the parser builds

Read in the order of the source, the statements of a tree begin at lexemes that
follow each other in that order. Each of them is proper: its variables are
letters, a drawing command has as many values as it takes, and an expression
stands alone only if it stores something.
-/

namespace Handheld

/-! ## Proper trees -/

mutual

/-- Every variable is one of `A` to `Z`. -/
def Expr.Proper : Expr → Prop
  | .number _ | .buffer _ | .rand => True
  | .var c => c.isUpper
  | .deref address _ => address.Proper
  | .addressOf target => target.Proper
  | .unary _ operand => operand.Proper
  | .binary _ lhs rhs => lhs.Proper ∧ rhs.Proper
  | .assign value target => value.Proper ∧ target.Proper
  | .increment target | .decrement target => target.Proper
  | .getKey code => code.Proper
  | .pxlTest _ x y => x.Proper ∧ y.Proper

def Target.Proper : Target → Prop
  | .var c => c.isUpper
  | .pointer address _ => address.Proper

end

def Loop.Proper : Loop → Prop
  | .whileTrue condition | .repeatUntil condition => condition.Proper
  | .count target first last => target.Proper ∧ first.Proper ∧ last.Proper
  | .times n => n.Proper

def Command.Proper : Command → Prop
  | .exit | .help | .about => True
  | .debug flag => flag.Proper

/-- Says nothing about the statements inside a block. -/
def Stmt.Proper : Stmt → Prop
  | .effect _ e => e.isEffect ∧ e.Proper
  | .disp _ values => ∀ e ∈ values, e.Proper
  | .pause _ e => e.Proper
  | .draw _ graphic _ arguments =>
    arguments.length = graphic.arity ∧ ∀ e ∈ arguments, e.Proper
  | .cond _ condition _ _ => condition.Proper
  | .loop _ kind _ => kind.Proper
  | .command _ c => c.Proper
  | .dispGraph .. | .label .. | .goto .. => True

def Stmt.span : Stmt → Span
  | .effect span _ | .disp span _ | .pause span _ | .draw span .. | .dispGraph span _
  | .cond span .. | .loop span .. | .label span _ | .goto span _ | .command span _ => span

mutual

/-- A statement and all those inside its blocks, in the order of the source. -/
def Stmt.flat : Stmt → List Stmt
  | .cond span condition yes no =>
    .cond span condition yes no :: (flatBlock yes ++ flatBlock no)
  | .loop span kind body => .loop span kind body :: flatBlock body
  | .effect span e => [.effect span e]
  | .disp span values => [.disp span values]
  | .pause span e => [.pause span e]
  | .draw span graphic surface arguments => [.draw span graphic surface arguments]
  | .dispGraph span shade => [.dispGraph span shade]
  | .label span name => [.label span name]
  | .goto span name => [.goto span name]
  | .command span c => [.command span c]

def flatBlock : List Stmt → List Stmt
  | [] => []
  | s :: ss => s.flat ++ flatBlock ss

end

theorem flatBlock_append (ss ss' : List Stmt) :
    flatBlock (ss ++ ss') = flatBlock ss ++ flatBlock ss' := by
  induction ss with
  | nil => rfl
  | cons s ss ih => simp only [List.cons_append, flatBlock, ih, List.append_assoc]

theorem Stmt.mem_flat (s : Stmt) : s ∈ s.flat := by
  cases s <;> simp [Stmt.flat]

/-! ## Progress through the lexemes -/

/-- From the front of `ts` lexemes are taken until `rest` is left. Among those taken some stand at
`spans`, in this order. -/
def Reads (ts : List Lexeme) (spans : List Span) (rest : List Lexeme) : Prop :=
  ∃ used, ts = used ++ rest ∧ spans.Sublist (used.map Lexeme.span)

/-- Every variable among the lexemes is one of `A` to `Z`. -/
def Lettered (ts : List Lexeme) : Prop :=
  ∀ t ∈ ts, ∀ c, t.token = .var c → c.isUpper

namespace Reads

variable {ts ts' rest : List Lexeme} {spans spans' : List Span} {t : Lexeme}

theorem refl (ts : List Lexeme) : Reads ts [] ts :=
  ⟨[], rfl, .slnil⟩

theorem skip (t : Lexeme) (ts : List Lexeme) : Reads (t :: ts) [] ts :=
  ⟨[t], rfl, List.nil_sublist _⟩

theorem trans (h : Reads ts spans ts') (h' : Reads ts' spans' rest) :
    Reads ts (spans ++ spans') rest := by
  obtain ⟨used, rfl, hs⟩ := h
  obtain ⟨used', rfl, hs'⟩ := h'
  refine ⟨used ++ used', (List.append_assoc ..).symm, ?_⟩
  rw [List.map_append]
  exact hs.append hs'

theorem cons (t : Lexeme) (h : Reads ts spans rest) : Reads (t :: ts) (t.span :: spans) rest := by
  obtain ⟨used, rfl, hs⟩ := h
  exact ⟨t :: used, rfl, hs.cons_cons _⟩

theorem skipCons (t : Lexeme) (h : Reads ts spans rest) : Reads (t :: ts) spans rest :=
  (skip t ts).trans h

theorem first (h : Reads (t :: ts) [] rest) (hlt : rest.length < (t :: ts).length) :
    Reads (t :: ts) [t.span] rest := by
  obtain ⟨used, hts, -⟩ := h
  cases used with
  | nil =>
    have : rest.length = (t :: ts).length := by rw [hts]; rfl
    omega
  | cons u used =>
    obtain ⟨rfl, rfl⟩ := List.cons.inj hts
    exact ⟨t :: used, rfl, List.singleton_sublist.2 (by simp)⟩

theorem lettered (h : Reads ts spans rest) (hl : Lettered ts) : Lettered rest := by
  obtain ⟨used, rfl, -⟩ := h
  exact fun t ht => hl t (List.mem_append_right _ ht)

theorem sublist (h : Reads ts spans rest) : spans.Sublist (ts.map Lexeme.span) := by
  obtain ⟨used, rfl, hs⟩ := h
  rw [List.map_append]
  exact hs.trans (List.sublist_append_left ..)

end Reads

theorem Lettered.tail {t : Lexeme} {ts : List Lexeme} (h : Lettered (t :: ts)) : Lettered ts :=
  fun u hu => h u (List.mem_cons_of_mem _ hu)

theorem bind_eq_ok {ε α β : Type} {x : Except ε α} {f : α → Except ε β} {b : β} :
    x >>= f = .ok b ↔ ∃ a, x = .ok a ∧ f a = .ok b := by
  cases x <;> simp [bind, Except.bind]

theorem exists_of_isOk {ε α : Type} {x : Except ε α} (h : x.isOk) : ∃ a, x = .ok a := by
  cases x with
  | ok a => exact ⟨a, rfl⟩
  | error e => cases h

namespace Parser

variable {stop span : Span}

/-! ## Single lexemes -/

theorem expect_reads {ts : List Lexeme} {token : Token} {r : Parsed Unit ts.length}
    (h : expect stop token ts = .ok r) : Reads ts [] r.rest := by
  unfold expect at h
  split at h
  · cases h
  · split at h
    · cases h
      exact .skip _ _
    · cases h

theorem accept_reads (token : Token) (ts : List Lexeme) : Reads ts [] (accept token ts).rest := by
  unfold accept
  split
  · exact .refl _
  · split
    · exact .skip _ _
    · exact .refl _

theorem width_reads (ts : List Lexeme) : Reads ts [] (width ts).rest :=
  accept_reads (.modifier .r) ts

theorem surface_reads (ts : List Lexeme) : Reads ts [] (surface ts).rest :=
  accept_reads (.modifier .r) ts

theorem shade_reads (ts : List Lexeme) : Reads ts [] (shade ts).rest := by
  have h := accept_reads (.modifier .r) ts
  unfold shade
  split
  next r rest _ hr =>
  rw [hr] at h
  split
  · exact h.trans (accept_reads (.modifier .r) rest)
  · exact h

theorem labelName_reads {ts : List Lexeme} {r : Parsed String ts.length} (h : labelName stop ts = .ok r) :
    Reads ts [] r.rest := by
  unfold labelName at h
  split at h
  all_goals cases h
  all_goals exact .skip _ _

/-! ## Expressions -/

theorem toTarget?_proper {e : Expr} {t : Target} (h : e.toTarget? = some t) (he : e.Proper) :
    t.Proper := by
  cases e <;> simp only [Expr.toTarget?, Option.some.injEq, reduceCtorEq] at h
  · subst h
    exact he
  · subst h
    exact he

theorem suffixes_reads {ts : List Lexeme} {e : Expr} {r : Parsed Expr (ts.length + 1)}
    (h : suffixes e ts = .ok r) : Reads ts [] r.rest ∧ (e.Proper → r.value.Proper) := by
  fun_induction suffixes e ts with
  | case1 e span ts ih =>
    obtain ⟨⟨e', rest, _⟩, hs, h⟩ := bind_eq_ok.1 h
    cases h
    obtain ⟨hr, hp⟩ := ih hs
    exact ⟨hr.skipCons _, hp⟩
  | case2 e span ts target ht ih | case4 e span ts target ht ih =>
    obtain ⟨⟨e', rest, _⟩, hs, h⟩ := bind_eq_ok.1 h
    cases h
    obtain ⟨hr, hp⟩ := ih hs
    exact ⟨hr.skipCons _, fun he => hp (toTarget?_proper ht he)⟩
  | case3 | case5 => cases h
  | case6 e ts =>
    cases h
    exact ⟨.refl _, id⟩

/-! ## Induction over the readers of expressions -/

/-- Seven readers call each other. If each has what is said of it wherever those that it calls have
what is said of them, the reader of expressions has it on every list. -/
theorem expression_induction {E T D P : List Lexeme → Prop} {S : Expr → List Lexeme → Prop}
    {O : Nat → List Lexeme → Prop} {Os : Nat → Expr → List Lexeme → Prop}
    (expression : ∀ ts, O 1 ts → (∀ e us, us.length < ts.length → S e us) → E ts)
    (stores : ∀ e ts, (∀ us, us.length < ts.length → T us) →
      (∀ e us, us.length < ts.length → S e us) → S e ts)
    (target : ∀ ts, (∀ us, us.length < ts.length → E us) → T ts)
    (operation : ∀ level ts, D ts → (∀ e us, us.length < ts.length → Os level e us) → O level ts)
    (operations : ∀ level lhs ts, (∀ level us, us.length < ts.length → O level us) →
      (∀ lhs us, us.length < ts.length → Os level lhs us) → Os level lhs ts)
    (operand : ∀ ts, P ts → (∀ us, us.length < ts.length → D us) → D ts)
    (primary : ∀ ts, (∀ us, us.length < ts.length → E us) →
      (∀ us, us.length < ts.length → T us) → P ts) (ts : List Lexeme) : E ts := by
  suffices all : E ts ∧ T ts ∧ D ts ∧ (∀ e, S e ts) ∧ (∀ level, O level ts) ∧
      ∀ level lhs, Os level lhs ts from all.1
  induction ts using (measure List.length).wf.induction with
  | h ts ih =>
    have hE (us : List Lexeme) (h : us.length < ts.length) : E us := (ih us h).1
    have hT (us : List Lexeme) (h : us.length < ts.length) : T us := (ih us h).2.1
    have hD (us : List Lexeme) (h : us.length < ts.length) : D us := (ih us h).2.2.1
    have hS (e : Expr) (us : List Lexeme) (h : us.length < ts.length) : S e us :=
      (ih us h).2.2.2.1 e
    have hO (level : Nat) (us : List Lexeme) (h : us.length < ts.length) : O level us :=
      (ih us h).2.2.2.2.1 level
    have hOs (level : Nat) (lhs : Expr) (us : List Lexeme) (h : us.length < ts.length) :
        Os level lhs us :=
      (ih us h).2.2.2.2.2 level lhs
    -- the readers that are called on the list itself come first
    have hoperand : D ts := operand ts (primary ts hE hT) hD
    have hoperation (level : Nat) : O level ts := operation level ts hoperand (hOs level)
    exact ⟨expression ts (hoperation 1) hS, target ts hE, hoperand, fun e => stores e ts hT hS,
      hoperation, fun level lhs => operations level lhs ts hO (hOs level)⟩
/-- If the reader succeeds on lexemes with proper variables, it takes lexemes off the front and its
value satisfies `P`. -/
def Sound {α : Type} {n : Nat} (ts : List Lexeme) (x : Except Diagnostic (Parsed α n))
    (P : α → Prop) : Prop :=
  ∀ r, Lettered ts → x = .ok r → Reads ts [] r.rest ∧ P r.value

section

variable {ts : List Lexeme}

theorem expression_sound (hoperation : Sound ts (operation stop 1 ts) Expr.Proper)
    (hstores : ∀ e us, us.length < ts.length → e.Proper → Sound us (stores stop e us) Expr.Proper) :
    Sound ts (expression stop ts) Expr.Proper := by
  intro r hl h
  rw [expression] at h
  obtain ⟨⟨e, rest, hrest⟩, ho, h⟩ := bind_eq_ok.1 h
  obtain ⟨⟨e', rest', _⟩, hs, h⟩ := bind_eq_ok.1 h
  cases h
  obtain ⟨ro, po⟩ := hoperation _ hl ho
  obtain ⟨rs, ps⟩ := hstores e rest hrest po _ (ro.lettered hl) hs
  exact ⟨ro.trans rs, ps⟩

theorem stores_sound {e : Expr}
    (htarget : ∀ us, us.length < ts.length → Sound us (target stop us) Target.Proper)
    (hstores : ∀ e us, us.length < ts.length → e.Proper → Sound us (stores stop e us) Expr.Proper)
    (he : e.Proper) : Sound ts (stores stop e ts) Expr.Proper := by
  intro r hl h
  rw [stores.eq_def] at h
  split at h
  next span us =>
    obtain ⟨⟨t, rest, hrest⟩, ht, h⟩ := bind_eq_ok.1 h
    obtain ⟨⟨e', rest', _⟩, hs, h⟩ := bind_eq_ok.1 h
    cases h
    obtain ⟨rt, pt⟩ := htarget us (Nat.lt_succ_self _) _ hl.tail ht
    obtain ⟨rs, ps⟩ :=
      hstores (.assign e t) rest (Nat.lt_succ_of_lt hrest) ⟨he, pt⟩ _ (rt.lettered hl.tail) hs
    exact ⟨(rt.trans rs).skipCons _, ps⟩
  next =>
    cases h
    exact ⟨.refl _, he⟩

theorem target_sound
    (hexpression : ∀ us, us.length < ts.length → Sound us (expression stop us) Expr.Proper) :
    Sound ts (target stop ts) Target.Proper := by
  intro r hl h
  rw [target.eq_def] at h
  split at h
  next span c rest =>
    cases h
    exact ⟨.skip _ _, hl _ List.mem_cons_self _ rfl⟩
  next span us =>
    obtain ⟨⟨e, rest, _⟩, he, h⟩ := bind_eq_ok.1 h
    obtain ⟨⟨_, rest', _⟩, hb, h⟩ := bind_eq_ok.1 h
    cases h
    obtain ⟨re, pe⟩ := hexpression us (Nat.lt_succ_self _) _ hl.tail he
    exact ⟨((re.trans (expect_reads hb)).trans (width_reads _)).skipCons _, pe⟩
  next => cases h

theorem operation_sound {level : Nat} (hoperand : Sound ts (operand stop ts) Expr.Proper)
    (hoperations : ∀ lhs us, us.length < ts.length → lhs.Proper →
      Sound us (operations stop level lhs us) Expr.Proper) :
    Sound ts (operation stop level ts) Expr.Proper := by
  intro r hl h
  rw [operation] at h
  obtain ⟨⟨e, rest, hrest⟩, ho, h⟩ := bind_eq_ok.1 h
  obtain ⟨⟨e', rest', _⟩, hs, h⟩ := bind_eq_ok.1 h
  cases h
  obtain ⟨ro, po⟩ := hoperand _ hl ho
  obtain ⟨rs, ps⟩ := hoperations e rest hrest po _ (ro.lettered hl) hs
  exact ⟨ro.trans rs, ps⟩

theorem operations_sound {level : Nat} {lhs : Expr}
    (hoperation : ∀ level us, us.length < ts.length →
      Sound us (operation stop level us) Expr.Proper)
    (hoperations : ∀ lhs us, us.length < ts.length → lhs.Proper →
      Sound us (operations stop level lhs us) Expr.Proper)
    (hlhs : lhs.Proper) : Sound ts (operations stop level lhs ts) Expr.Proper := by
  intro r hl h
  cases hop : operator? level ts with
  | none =>
    rw [operations.eq_def, hop] at h
    cases h
    exact ⟨.refl _, hlhs⟩
  | some op =>
    cases ts with
    | nil => cases hop
    | cons t us =>
      rw [operations.eq_def, hop] at h
      obtain ⟨⟨rhs, rest, hrest⟩, hr, h⟩ := bind_eq_ok.1 h
      obtain ⟨⟨e, rest', _⟩, hs, h⟩ := bind_eq_ok.1 h
      cases h
      obtain ⟨rr, pr⟩ := hoperation _ us (Nat.lt_succ_self _) _ hl.tail hr
      obtain ⟨rs, ps⟩ := hoperations (.binary op lhs rhs) rest (Nat.lt_succ_of_lt hrest) ⟨hlhs, pr⟩
        _ (rr.lettered hl.tail) hs
      exact ⟨(rr.trans rs).skipCons _, ps⟩

theorem operand_sound (hprimary : Sound ts (primary stop ts) Expr.Proper)
    (hoperand : ∀ us, us.length < ts.length → Sound us (operand stop us) Expr.Proper) :
    Sound ts (operand stop ts) Expr.Proper := by
  intro r hl h
  rw [operand.eq_def] at h
  split at h
  next span us =>
    obtain ⟨⟨e, rest, _⟩, ho, h⟩ := bind_eq_ok.1 h
    cases h
    obtain ⟨ro, po⟩ := hoperand us (Nat.lt_succ_self _) _ hl.tail ho
    exact ⟨ro.skipCons _, po⟩
  next =>
    obtain ⟨⟨e, rest, _⟩, hp, h⟩ := bind_eq_ok.1 h
    obtain ⟨⟨e', rest', _⟩, hs, h⟩ := bind_eq_ok.1 h
    cases h
    obtain ⟨rp, pp⟩ := hprimary _ hl hp
    obtain ⟨rs, ps⟩ := suffixes_reads hs
    exact ⟨rp.trans rs, ps pp⟩

theorem primary_sound
    (hexpression : ∀ us, us.length < ts.length → Sound us (expression stop us) Expr.Proper)
    (htarget : ∀ us, us.length < ts.length → Sound us (target stop us) Target.Proper) :
    Sound ts (primary stop ts) Expr.Proper := by
  intro r hl h
  rw [primary.eq_def] at h
  split at h
  next span n rest =>
    cases h
    exact ⟨.skip _ _, trivial⟩
  next span c rest =>
    cases h
    exact ⟨.skip _ _, hl _ List.mem_cons_self _ rfl⟩
  next span b rest =>
    cases h
    exact ⟨.skip _ _, trivial⟩
  next span us =>
    -- something in parentheses
    obtain ⟨⟨e, rest, _⟩, he, h⟩ := bind_eq_ok.1 h
    obtain ⟨⟨_, rest', _⟩, hb, h⟩ := bind_eq_ok.1 h
    cases h
    obtain ⟨re, pe⟩ := hexpression us (Nat.lt_succ_self _) _ hl.tail he
    exact ⟨(re.trans (expect_reads hb)).skipCons _, pe⟩
  next span us =>
    -- something in braces
    obtain ⟨⟨e, rest, _⟩, he, h⟩ := bind_eq_ok.1 h
    obtain ⟨⟨_, rest', _⟩, hb, h⟩ := bind_eq_ok.1 h
    cases h
    obtain ⟨re, pe⟩ := hexpression us (Nat.lt_succ_self _) _ hl.tail he
    exact ⟨((re.trans (expect_reads hb)).trans (width_reads _)).skipCons _, pe⟩
  next span us =>
    -- the address of a target
    obtain ⟨⟨t, rest, _⟩, ht, h⟩ := bind_eq_ok.1 h
    cases h
    obtain ⟨rt, pt⟩ := htarget us (Nat.lt_succ_self _) _ hl.tail ht
    exact ⟨rt.skipCons _, pt⟩
  next span rest =>
    cases h
    exact ⟨.skip _ _, trivial⟩
  next span us =>
    -- a key code in parentheses
    obtain ⟨⟨_, rest, hrest⟩, hb, h⟩ := bind_eq_ok.1 h
    obtain ⟨⟨e, rest', _⟩, he, h⟩ := bind_eq_ok.1 h
    obtain ⟨⟨_, rest'', _⟩, hb', h⟩ := bind_eq_ok.1 h
    cases h
    have rb := expect_reads hb
    obtain ⟨re, pe⟩ :=
      hexpression rest (Nat.lt_succ_of_lt hrest) _ (rb.lettered hl.tail) he
    exact ⟨((rb.trans re).trans (expect_reads hb')).skipCons _, pe⟩
  next span us =>
    -- two expressions with a comma between them
    obtain ⟨⟨_, rest, hrest⟩, hb, h⟩ := bind_eq_ok.1 h
    obtain ⟨⟨x, rest₁, hrest₁⟩, hx, h⟩ := bind_eq_ok.1 h
    obtain ⟨⟨_, rest₂, hrest₂⟩, hc, h⟩ := bind_eq_ok.1 h
    obtain ⟨⟨y, rest₃, _⟩, hy, h⟩ := bind_eq_ok.1 h
    obtain ⟨⟨_, rest₄, _⟩, hb', h⟩ := bind_eq_ok.1 h
    cases h
    have rb := expect_reads hb
    obtain ⟨rx, px⟩ := hexpression rest (Nat.lt_succ_of_lt hrest) _ (rb.lettered hl.tail) hx
    have rc := (rb.trans rx).trans (expect_reads hc)
    have hshorter : rest₂.length < us.length := by omega
    obtain ⟨ry, py⟩ := hexpression rest₂ (Nat.lt_succ_of_lt hshorter) _ (rc.lettered hl.tail) hy
    have rb' := (rc.trans ry).trans (expect_reads hb')
    exact ⟨(rb'.trans (surface_reads _)).skipCons _, px, py⟩
  next =>
    -- no other lexeme begins an operand
    cases h

end

theorem expression_reads {ts : List Lexeme} {r : Parsed Expr ts.length} (hl : Lettered ts)
    (h : expression stop ts = .ok r) : Reads ts [] r.rest ∧ r.value.Proper :=
  expression_induction (fun _ => expression_sound) (fun _ _ => stores_sound)
    (fun _ => target_sound) (fun _ _ => operation_sound) (fun _ _ _ => operations_sound)
    (fun _ => operand_sound) (fun _ => primary_sound) ts r hl h

theorem moreExpressions_reads {ts : List Lexeme} {r : Parsed (List Expr) (ts.length + 1)} (hl : Lettered ts)
    (h : moreExpressions stop ts = .ok r) :
    Reads ts [] r.rest ∧ ∀ e ∈ r.value, e.Proper := by
  fun_induction moreExpressions stop ts with
  | case1 span ts ih =>
    obtain ⟨⟨e, rest, hrest⟩, he, h⟩ := bind_eq_ok.1 h
    obtain ⟨⟨es, rest', _⟩, hs, h⟩ := bind_eq_ok.1 h
    cases h
    obtain ⟨re, pe⟩ := expression_reads hl.tail he
    obtain ⟨rs, ps⟩ := ih rest hrest (re.lettered hl.tail) hs
    exact ⟨(re.trans rs).skipCons _, List.forall_mem_cons.2 ⟨pe, ps⟩⟩
  | case2 ts =>
    cases h
    exact ⟨.refl _, by simp⟩

theorem expressions_reads {ts : List Lexeme} {r : Parsed (List Expr) ts.length} (hl : Lettered ts)
    (h : expressions stop ts = .ok r) : Reads ts [] r.rest ∧ ∀ e ∈ r.value, e.Proper := by
  obtain ⟨⟨e, rest, _⟩, he, h⟩ := bind_eq_ok.1 h
  obtain ⟨⟨es, rest', _⟩, hs, h⟩ := bind_eq_ok.1 h
  cases h
  obtain ⟨re, pe⟩ := expression_reads hl he
  obtain ⟨rs, ps⟩ := moreExpressions_reads (re.lettered hl) hs
  exact ⟨re.trans rs, List.forall_mem_cons.2 ⟨pe, ps⟩⟩

/-! ## Simple statements -/

/-- Proper statements are read from the front of `ts`, in this order. -/
def Takes (ts : List Lexeme) (ss : List Stmt) (rest : List Lexeme) : Prop :=
  Reads ts (ss.map Stmt.span) rest ∧ ∀ s ∈ ss, s.Proper

namespace Takes

variable {ts ts' rest : List Lexeme} {ss ss' : List Stmt} {t : Lexeme} {s : Stmt}

theorem append (h : Takes ts ss ts') (h' : Takes ts' ss' rest) : Takes ts (ss ++ ss') rest := by
  refine ⟨?_, fun s hs => (List.mem_append.1 hs).elim (h.2 s) (h'.2 s)⟩
  rw [List.map_append]
  exact h.1.trans h'.1

theorem after (h : Reads ts [] ts') (h' : Takes ts' ss rest) : Takes ts ss rest :=
  ⟨h.trans h'.1, h'.2⟩

theorem cons (hspan : s.span = t.span) (hs : s.Proper) (h : Takes ts ss rest) :
    Takes (t :: ts) (s :: ss) rest := by
  refine ⟨?_, List.forall_mem_cons.2 ⟨hs, h.2⟩⟩
  rw [List.map_cons, hspan]
  exact h.1.cons t

theorem single (hspan : s.span = t.span) (hs : s.Proper) (h : Reads ts [] rest) :
    Takes (t :: ts) [s] rest :=
  cons hspan hs ⟨h, by simp⟩

end Takes

theorem drawing_takes {t : Lexeme} {graphic : Graphic} {ts : List Lexeme}
    {r : Parsed Stmt (ts.length + 1)} (hl : Lettered ts)
    (h : drawing stop t.span graphic ts = .ok r) : Takes (t :: ts) r.value.flat r.rest := by
  unfold drawing at h
  split at h
  · next harity =>
    cases h
    exact .single rfl ⟨harity.symm, by simp⟩ (surface_reads _)
  · obtain ⟨⟨_, rest, _⟩, hb, h⟩ := bind_eq_ok.1 h
    obtain ⟨⟨es, rest', _⟩, he, h⟩ := bind_eq_ok.1 h
    obtain ⟨⟨_, rest'', _⟩, hb', h⟩ := bind_eq_ok.1 h
    have rb := expect_reads hb
    obtain ⟨re, pe⟩ := expressions_reads (rb.lettered hl) he
    have rb' := (rb.trans re).trans (expect_reads hb')
    dsimp only at h
    split at h
    · cases h
    · next hcount =>
      cases h
      exact .single rfl ⟨Decidable.not_not.1 hcount, pe⟩ (rb'.trans (surface_reads _))

theorem shift_takes {t : Lexeme} {plus minus : Graphic} (hplus : plus.arity = 0)
    (hminus : minus.arity = 0) {ts : List Lexeme} {r : Parsed Stmt (ts.length + 1)}
    (h : shift stop t.span plus minus ts = .ok r) : Takes (t :: ts) r.value.flat r.rest := by
  unfold shift at h
  split at h
  · cases h
    exact .single rfl ⟨hplus.symm, by simp⟩ ((surface_reads _).skipCons _)
  · cases h
    exact .single rfl ⟨hminus.symm, by simp⟩ ((surface_reads _).skipCons _)
  · cases h

theorem effect_takes {t : Lexeme} {ts : List Lexeme} {r : Parsed Stmt (t :: ts).length}
    (hl : Lettered (t :: ts)) (h : effect stop t.span (t :: ts) = .ok r) :
    Takes (t :: ts) r.value.flat r.rest := by
  obtain ⟨⟨e, rest, hrest⟩, he, h⟩ := bind_eq_ok.1 h
  obtain ⟨re, pe⟩ := expression_reads hl he
  dsimp only at h
  split at h
  · next heffect =>
    cases h
    exact ⟨re.first hrest, by simpa [Stmt.flat, Stmt.Proper, heffect] using pe⟩
  · cases h

theorem effect_nil (stop span : Span) (r : Parsed Stmt 0) : effect stop span [] ≠ .ok r :=
  fun _ => Nat.not_lt_zero _ r.shorter

theorem command_takes {t : Lexeme} {word : CommandWord} {ts : List Lexeme}
    {r : Parsed Stmt (ts.length + 1)} (hl : Lettered ts)
    (h : command stop t.span word ts = .ok r) : Takes (t :: ts) r.value.flat r.rest := by
  unfold command at h
  cases word with
  | exit | help | about =>
    cases h
    exact .single rfl trivial (.refl _)
  | debug =>
    obtain ⟨⟨e, rest, _⟩, he, h⟩ := bind_eq_ok.1 h
    cases h
    obtain ⟨re, pe⟩ := expression_reads hl he
    exact .single rfl pe re

theorem simple_takes {ts : List Lexeme} {r : Parsed Stmt ts.length} (hl : Lettered ts)
    (h : simple stop ts = .ok r) : Takes ts r.value.flat r.rest := by
  unfold simple at h
  split at h
  · -- `Lbl`
    obtain ⟨⟨name, rest, _⟩, hn, h⟩ := bind_eq_ok.1 h
    cases h
    exact .single rfl trivial (labelName_reads hn)
  · -- `Goto`
    obtain ⟨⟨name, rest, _⟩, hn, h⟩ := bind_eq_ok.1 h
    cases h
    exact .single rfl trivial (labelName_reads hn)
  · -- `Disp`
    obtain ⟨⟨es, rest, _⟩, he, h⟩ := bind_eq_ok.1 h
    cases h
    obtain ⟨re, pe⟩ := expressions_reads hl.tail he
    exact .single rfl pe re
  · -- `Pause`
    obtain ⟨⟨e, rest, _⟩, he, h⟩ := bind_eq_ok.1 h
    cases h
    obtain ⟨re, pe⟩ := expression_reads hl.tail he
    exact .single rfl pe re
  · -- `DispGraph`
    cases h
    exact .single rfl trivial (shade_reads _)
  · exact shift_takes (t := ⟨_, .word .horizontal⟩) rfl rfl h
  · exact shift_takes (t := ⟨_, .word .vertical⟩) rfl rfl h
  · next span w ts _ _ _ _ _ _ _ =>
    split at h
    · exact drawing_takes (t := ⟨span, .word w⟩) hl.tail h
    · exact effect_takes hl h
  · next span word ts => exact command_takes (t := ⟨span, .command word⟩) hl.tail h
  · exact effect_takes hl h
  · exact absurd h (effect_nil _ _ _)

/-! ## Blocks -/

theorem forHead_reads {ts : List Lexeme} {r : Parsed Loop ts.length} (hl : Lettered ts)
    (h : forHead stop ts = .ok r) : Reads ts [] r.rest ∧ r.value.Proper := by
  obtain ⟨⟨_, rest, _⟩, hb, h⟩ := bind_eq_ok.1 h
  obtain ⟨⟨first, rest₁, _⟩, hf, h⟩ := bind_eq_ok.1 h
  have rb := expect_reads hb
  obtain ⟨rf, pf⟩ := expression_reads (rb.lettered hl) hf
  have rc := (rb.trans rf).trans (accept_reads .comma rest₁)
  dsimp only at h rc
  split at h
  · -- a variable, its first and its last value
    cases ht : first.toTarget? with
    | none =>
      rw [ht] at h
      cases h
    | some target =>
      rw [ht] at h
      obtain ⟨⟨start, rest₂, _⟩, hs, h⟩ := bind_eq_ok.1 h
      obtain ⟨⟨_, rest₃, _⟩, hc, h⟩ := bind_eq_ok.1 h
      obtain ⟨⟨last, rest₄, _⟩, hla, h⟩ := bind_eq_ok.1 h
      obtain ⟨⟨_, rest₅, _⟩, hb', h⟩ := bind_eq_ok.1 h
      cases h
      obtain ⟨rs, ps⟩ := expression_reads (rc.lettered hl) hs
      have rc' := (rc.trans rs).trans (expect_reads hc)
      obtain ⟨rl, pl⟩ := expression_reads (rc'.lettered hl) hla
      exact ⟨(rc'.trans rl).trans (expect_reads hb'), toTarget?_proper ht pf, ps, pl⟩
  · -- a number of passes
    obtain ⟨⟨_, rest₂, _⟩, hb', h⟩ := bind_eq_ok.1 h
    cases h
    exact ⟨rc.trans (expect_reads hb'), pf⟩

section

variable {n : Nat} {done : Array Stmt} {t : Lexeme} {ts : List Lexeme} {h : (t :: ts).length < n}

theorem block_separator (ht : t.token.isSeparator) :
    block stop n done (t :: ts) h = block stop n done ts (Nat.lt_of_succ_lt h) := by
  rw [block.eq_def]
  dsimp only
  split
  · rfl
  · rfl
  all_goals simp_all [Token.isSeparator]

theorem block_end (ht : t.token = .word .endWord) :
    block stop n done (t :: ts) h =
      .ok ⟨(done.toList, .endWord t.span), ts, Nat.lt_of_succ_lt h⟩ := by
  rw [block.eq_def]
  simp only [ht]

theorem block_else (ht : t.token = .word .elseWord) :
    block stop n done (t :: ts) h =
      .ok ⟨(done.toList, .elseWord t.span), ts, Nat.lt_of_succ_lt h⟩ := by
  rw [block.eq_def]
  simp only [ht]

theorem block_cons (hsep : ¬ t.token.isSeparator) (hend : t.token ≠ .word .endWord)
    (helse : t.token ≠ .word .elseWord) :
    block stop n done (t :: ts) h =
      statement stop (t :: ts) >>= fun r => endOfStatement stop r.rest >>= fun _ =>
        block stop n (done.push r.value) r.rest (Nat.lt_trans r.shorter h) := by
  rw [block.eq_def]
  dsimp only
  split
  case h_1 ht | h_2 ht => exact absurd (by rw [ht]; rfl) hsep
  · exact absurd ‹_› hend
  · exact absurd ‹_› helse
  · rfl

end

/-- The three readers of statements call each other as well. What each has wherever those that it
calls have it, the reader of blocks has on every list. -/
theorem block_induction {S B K : List Lexeme → Prop}
    (statement : ∀ ts, (∀ us, us.length < ts.length → K us) →
      (∀ us, us.length < ts.length → B us) → S ts)
    (block : ∀ ts, S ts → (∀ us, us.length < ts.length → K us) → K ts)
    (body : ∀ ts, K ts → B ts) (ts : List Lexeme) : K ts := by
  induction ts using (measure List.length).wf.induction with
  | h ts ih => exact block ts (statement ts ih fun us h => body us (ih us h)) ih

/-- The reader of a block takes the statements that it adds. -/
def BlockTakes (stop : Span) (ts : List Lexeme) : Prop :=
  ∀ n done hn r, Lettered ts → block stop n done ts hn = .ok r →
    ∃ ss, r.value.1 = done.toList ++ ss ∧ Takes ts (flatBlock ss) r.rest

section

variable {ts : List Lexeme}

theorem statement_takes (hblock : ∀ us, us.length < ts.length → BlockTakes stop us)
    (hbody : ∀ us, us.length < ts.length → ∀ r, Lettered us → body stop us = .ok r →
      Takes us (flatBlock r.value) r.rest) :
    ∀ r, Lettered ts → statement stop ts = .ok r → Takes ts r.value.flat r.rest := by
  intro r hl h
  rw [statement.eq_def] at h
  split at h
  next span us =>
    -- `If`: what closes the first block decides whether there is a second one
    obtain ⟨⟨c, rest, hrest⟩, hc, h⟩ := bind_eq_ok.1 h
    obtain ⟨rc, pc⟩ := expression_reads hl.tail hc
    have rt := rc.trans (accept_reads (.word .thenWord) rest)
    have ht : (accept (.word .thenWord) rest).rest.length ≤ rest.length :=
      Nat.le_of_lt_succ (accept (.word .thenWord) rest).shorter
    obtain ⟨⟨⟨yes, closing⟩, rest₁, hrest₁⟩, hy, h⟩ := bind_eq_ok.1 h
    obtain ⟨ss, hss, ty⟩ := hblock _ (Nat.lt_succ_of_lt (Nat.lt_of_le_of_lt ht hrest)) _ _ _ _
      (rt.lettered hl.tail) hy
    rw [List.nil_append] at hss
    subst hss
    have ty' := ty.after rt
    cases closing with
    | inputEnd => cases h
    | endWord _ =>
      cases h
      have hflat : (Stmt.cond span c yes []).flat = .cond span c yes [] :: flatBlock yes := by
        simp [Stmt.flat, flatBlock]
      rw [hflat]
      exact .cons rfl pc ty'
    | elseWord _ =>
      obtain ⟨⟨no, rest₂, _⟩, hn, h⟩ := bind_eq_ok.1 h
      cases h
      have hshorter : rest₁.length < us.length :=
        Nat.lt_of_le_of_lt (Nat.le_trans (Nat.le_of_lt_succ hrest₁) ht) hrest
      have tn := hbody rest₁ (Nat.lt_succ_of_lt hshorter) _ (ty'.1.lettered hl.tail) hn
      exact .cons rfl pc (ty'.append tn)
  case h_2 span us | h_3 span us =>
    -- `While` and `Repeat`
    obtain ⟨⟨c, rest, hrest⟩, hc, h⟩ := bind_eq_ok.1 h
    obtain ⟨⟨ss, rest', _⟩, hs, h⟩ := bind_eq_ok.1 h
    cases h
    obtain ⟨rc, pc⟩ := expression_reads hl.tail hc
    have tb := hbody rest (Nat.lt_succ_of_lt hrest) _ (rc.lettered hl.tail) hs
    exact .cons rfl pc (tb.after rc)
  next span us =>
    -- `For`
    obtain ⟨⟨c, rest, hrest⟩, hc, h⟩ := bind_eq_ok.1 h
    obtain ⟨⟨ss, rest', _⟩, hs, h⟩ := bind_eq_ok.1 h
    cases h
    obtain ⟨rc, pc⟩ := forHead_reads hl.tail hc
    have tb := hbody rest (Nat.lt_succ_of_lt hrest) _ (rc.lettered hl.tail) hs
    exact .cons rfl pc (tb.after rc)
  next => exact simple_takes hl h

theorem block_takes
    (hstatement : ∀ r, Lettered ts → statement stop ts = .ok r → Takes ts r.value.flat r.rest)
    (hblock : ∀ us, us.length < ts.length → BlockTakes stop us) : BlockTakes stop ts := by
  intro n done hn r hl h
  cases ts with
  | nil =>
    rw [block] at h
    cases h
    exact ⟨[], by simp, .refl _, by simp [flatBlock]⟩
  | cons t ts =>
    by_cases hsep : t.token.isSeparator
    · rw [block_separator hsep] at h
      obtain ⟨ss, hss, hts⟩ := hblock ts (Nat.lt_succ_self _) _ _ _ r hl.tail h
      exact ⟨ss, hss, hts.after (.skip t ts)⟩
    by_cases hend : t.token = .word .endWord
    · rw [block_end hend] at h
      cases h
      exact ⟨[], by simp, .skip t ts, by simp [flatBlock]⟩
    by_cases helse : t.token = .word .elseWord
    · rw [block_else helse] at h
      cases h
      exact ⟨[], by simp, .skip t ts, by simp [flatBlock]⟩
    -- one more statement
    rw [block_cons hsep hend helse] at h
    obtain ⟨⟨s, rest, hrest⟩, hs, h⟩ := bind_eq_ok.1 h
    obtain ⟨_, he, h⟩ := bind_eq_ok.1 h
    have ts₁ := hstatement _ hl hs
    obtain ⟨ss, hss, ts₂⟩ := hblock rest hrest _ _ _ r (ts₁.1.lettered hl) h
    refine ⟨s :: ss, ?_, ts₁.append ts₂⟩
    rw [hss, Array.toList_push, List.append_assoc]
    rfl

theorem body_takes (hblock : BlockTakes stop ts) :
    ∀ r, Lettered ts → body stop ts = .ok r → Takes ts (flatBlock r.value) r.rest := by
  intro r hl h
  rw [body] at h
  obtain ⟨⟨⟨ss, closing⟩, rest, _⟩, hs, h⟩ := bind_eq_ok.1 h
  obtain ⟨ss', hss, ts'⟩ := hblock _ _ _ _ hl hs
  rw [List.nil_append] at hss
  subst hss
  cases closing with
  | endWord _ =>
    cases h
    exact ts'
  | inputEnd | elseWord _ => cases h

end

theorem blocks_take (stop : Span) (ts : List Lexeme) : BlockTakes stop ts :=
  block_induction (fun _ => statement_takes) (fun _ => block_takes) (fun _ => body_takes) ts

end Parser

/-! ## Whole programs -/

theorem significant_sublist (ts : List Lexeme) : (significant ts).Sublist ts :=
  List.filter_sublist.trans (List.takeWhile_sublist _)

/-- The statements of a program begin at lexemes, in order, and they are proper. -/
theorem parse_takes {ts : List Lexeme} {ss : List Stmt} (hl : Lettered ts)
    (h : parse ts = .ok ss) :
    ((flatBlock ss).map Stmt.span).Sublist (ts.map Lexeme.span) ∧ ∀ s ∈ flatBlock ss, s.Proper := by
  obtain ⟨⟨⟨ss', closing⟩, rest, _⟩, hb, h⟩ := bind_eq_ok.1 h
  have hl' : Lettered (significant ts) := fun t ht => hl t ((significant_sublist ts).subset ht)
  obtain ⟨ss'', hss, hts⟩ := Parser.blocks_take (inputEnd ts) _ _ _ _ _ hl' hb
  rw [List.nil_append] at hss
  subst hss
  cases closing with
  | inputEnd =>
    cases h
    exact ⟨hts.1.sublist.trans ((significant_sublist ts).map _), hts.2⟩
  | endWord _ | elseWord _ => cases h

/-- A tree as it comes from a source text. -/
structure Written (ss : List Stmt) : Prop where
  proper : ∀ s ∈ flatBlock ss, s.Proper
  ordered : ((flatBlock ss).map Stmt.span).Pairwise Span.Before

theorem written_of_parse {source : String} {ts : List Lexeme} {ss : List Stmt}
    (hl : lexemes source = .ok ts) (hp : parse ts = .ok ss) : Written ss := by
  have hlettered : Lettered ts := fun t ht c hc => lexemes_var hl ht hc
  obtain ⟨hsub, hproper⟩ := parse_takes hlettered hp
  have hordered : (ts.map Lexeme.span).Pairwise Span.Before :=
    List.pairwise_map.2 (lexemes_ordered hl)
  exact ⟨hproper, hordered.sublist hsub⟩

end Handheld
