import Handheld.Proofs.Code.Emission
import Handheld.Proofs.Code.Linking

/-!
# Drafts

A tree is lowered to a draft, where branches over blocks go to symbols. The symbols
are those that the assembly hands out: all of them are negative, no two are the same,
and each is placed once. With the addresses of their places the draft is the code of
the tree, so that is what linking makes of it.
-/

namespace Handheld

/-! ## Symbols that are handed out -/

theorem Symbol.fresh_neg (n : Nat) : Symbol.fresh n < 0 := by
  have h : -((n : Int) + 1) < 0 := by omega
  exact h

theorem Symbol.fresh_inj {n k : Nat} (h : Symbol.fresh n = Symbol.fresh k) : n = k := by
  have h : -((n : Int) + 1) = -((k : Int) + 1) := h
  omega

/-- The next `k` symbols behind `n` others. -/
def Symbol.handed (n k : Nat) : List Symbol := (List.range' n k).map .fresh

theorem Symbol.nodup_handed (n k : Nat) : (Symbol.handed n k).Nodup :=
  List.Nodup.map (fun _ _ => Symbol.fresh_inj) List.nodup_range'

theorem Symbol.handed_succ (n k : Nat) :
    Symbol.handed n (k + 1) = .fresh n :: Symbol.handed (n + 1) k := by
  rw [handed, List.range'_succ, List.map_cons, handed]

theorem Symbol.handed_add (n j k : Nat) :
    Symbol.handed n (j + k) = Symbol.handed n j ++ Symbol.handed (n + j) k := by
  rw [handed, ← List.range'_append_1, List.map_append, handed, handed]

namespace Assembly

/-- The assembly when `k` more symbols have been handed out. -/
def handOut (a : Assembly) (k : Nat) : Assembly := { a with handedOut := a.handedOut + k }

theorem handOut_handOut (a : Assembly) (j k : Nat) :
    (a.handOut j).handOut k = a.handOut (j + k) := by
  rw [handOut, handOut, handOut, Nat.add_assoc]

theorem apply_handOut (a : Assembly) (k : Nat) (d : Directive) :
    (a.handOut k).apply d = ((a.apply d).1.handOut k, (a.apply d).2) := by
  cases d with
  | label span name =>
    rw [apply_label, apply_label]
    by_cases h : (a.places.lookup (a.symbolOf name)).isSome
    · rw [if_pos h, if_pos]
      · rfl
      · exact h
    · rw [if_neg h, if_neg]
      · rfl
      · exact h
  | goto span name =>
    rw [apply_goto, apply_goto]
    rfl
  | emit | branch | mark | place | reject => rfl

theorem follow_handOut (a : Assembly) (k : Nat) (d : Directive) :
    (a.handOut k).follow d = (a.follow d).map (·.handOut k) := by
  rw [follow, apply_handOut, follow]
  rcases a.apply d with ⟨b, _ | e⟩ <;> rfl

theorem foldlM_handOut (a : Assembly) (k : Nat) (ds : List Directive) :
    ds.foldlM follow (a.handOut k) = (ds.foldlM follow a).map (·.handOut k) := by
  induction ds generalizing a with
  | nil => rfl
  | cons d ds ih =>
    rw [List.foldlM_cons, List.foldlM_cons, follow_handOut]
    cases a.follow d with
    | error e => rfl
    | ok b => exact ih b

theorem handedOut_foldlM {a b : Assembly} {ds : List Directive}
    (h : ds.foldlM follow a = .ok b) : b.handedOut = a.handedOut := by
  induction ds generalizing a with
  | nil =>
    cases h
    rfl
  | cons d ds ih =>
    obtain ⟨c, hc, hb⟩ := bind_eq_ok.1 h
    rw [ih hb, ← handedOut_apply a d]
    rw [follow] at hc
    split at hc
    · next heq =>
      cases hc
      rw [heq]
    · cases hc

end Assembly

/-! ## What assemblers write -/

namespace Assembler

/-- Behind `n` symbols handed out, the assembler follows the directives and hands out `k` more. -/
def Writes (m : Assembler Unit) (n : Nat) (ds : List Directive) (k : Nat) : Prop :=
  ∀ a : Assembly, a.handedOut = n → m a = (ds.foldlM Assembly.follow a).map fun b => ((), b.handOut k)

namespace Writes

variable {m m' : Assembler Unit} {n k k' : Nat} {ds ds' : List Directive}

theorem of_eq (h : m.Writes n ds k) (hds : ds = ds') (hk : k = k') : m.Writes n ds' k' :=
  hds ▸ hk ▸ h

theorem pure (n : Nat) : Writes (pure ()) n [] 0 := fun _ _ => rfl

theorem follow (n : Nat) (d : Directive) : (Assembler.follow d).Writes n [d] 0 := by
  intro a _
  rw [List.foldlM_cons]
  change (a.follow d >>= fun b => _) = _
  cases a.follow d <;> rfl

theorem bind (h : m.Writes n ds k) (h' : m'.Writes (n + k) ds' k') :
    Writes (m >>= fun _ => m') n (ds ++ ds') (k + k') := by
  intro a ha
  change (m a >>= fun x => m' x.2) = _
  rw [h a ha, List.foldlM_append]
  cases hb : ds.foldlM Assembly.follow a with
  | error e => rfl
  | ok b =>
    have hcount : (b.handOut k).handedOut = n + k := by
      rw [Assembly.handOut, Assembly.handedOut_foldlM hb, ha]
    change m' (b.handOut k) = (ds'.foldlM Assembly.follow b).map _
    rw [h' _ hcount, Assembly.foldlM_handOut]
    cases ds'.foldlM Assembly.follow b with
    | error e => rfl
    | ok c => exact congrArg (fun c => Except.ok ((), c)) (c.handOut_handOut k k')

theorem fresh {f : Symbol → Assembler Unit} (h : (f (.fresh n)).Writes (n + 1) ds k) :
    Writes (freshSymbol >>= f) n ds (k + 1) := by
  intro a ha
  change f (.fresh a.handedOut) (a.handOut 1) = _
  rw [ha, h _ (congrArg (· + 1) ha), Assembly.foldlM_handOut]
  cases ds.foldlM Assembly.follow a with
  | error e => rfl
  | ok b => exact congrArg (fun b => Except.ok ((), b)) (by rw [b.handOut_handOut, Nat.add_comm])

end Writes

/-- The assembler gives instructions and nothing else. -/
def Emits (m : Assembler Unit) (is : List Instr) : Prop := ∀ n, m.Writes n (emits is) 0

namespace Emits

variable {m m' : Assembler Unit} {is js : List Instr}

theorem of_eq (h : m.Emits is) (heq : is = js) : m.Emits js := heq ▸ h

theorem emit (i : Instr) : (Assembler.emit i).Emits [i] := fun n => .follow n _

theorem bind (h : m.Emits is) (h' : m'.Emits js) : Emits (m >>= fun _ => m') (is ++ js) :=
  fun n => ((h n).bind (h' n)).of_eq (emits_append is js).symm rfl

theorem then_emit (h : m.Emits is) (i : Instr) :
    Emits (m >>= fun _ => Assembler.emit i) (is ++ [i]) := h.bind (.emit i)

theorem bump (h : m.Emits is) (op : BinaryOp) (h' : m'.Emits js) :
    Emits (do m; Assembler.emit (.literal 1); Assembler.emit (.binary op); m')
      (is ++ [.literal 1, .binary op] ++ js) :=
  (h.bind ((emit _).bind ((emit _).bind h'))).of_eq (by simp)

theorem forM {f : Expr → Assembler Unit} {code : Expr → List Instr} {es : List Expr}
    (h : ∀ e ∈ es, (f e).Emits (code e)) : Emits (es.forM f) (es.flatMap code) := by
  induction es with
  | nil => exact fun n => .pure n
  | cons e es ih =>
    obtain ⟨he, hes⟩ := List.forall_mem_cons.1 h
    exact he.bind (ih hes)

end Emits

end Assembler

/-! ## Expressions -/

section

open Assembler

theorem Target.emits_keep (t : Target) : t.keep.Emits t.keepCode := by
  unfold Target.keep Target.keepCode
  split
  · exact .bind (.emit _) (.emit _)
  · exact .bind (.emit _) (.emit _)
  · exact .emit _

mutual

theorem Expr.emits_lower {e : Expr} (he : e.Proper) : e.lower.Emits e.code := by
  cases e with
  | number n | var c | buffer b | rand => exact .emit _
  | deref address width => exact (Expr.emits_lower (e := address) he).then_emit _
  | addressOf target =>
    cases target with
    | var c =>
      obtain ⟨a, ha⟩ := variableAddress?_isSome he
      rw [Expr.lower, Expr.code, ha]
      exact .emit _
    | pointer address width => exact Expr.emits_lower (e := address) he
  | unary op operand =>
    have ih := Expr.emits_lower (e := operand) he
    cases op with
    | negate => exact ih.then_emit _
    | square => exact ih.bind ((Emits.emit _).then_emit _)
  | binary op lhs rhs =>
    have ih := (Expr.emits_lower he.1).bind ((Expr.emits_lower he.2).then_emit (.binary op))
    exact ih.of_eq (by simp [Expr.code])
  | assign value target =>
    have ih := (Expr.emits_lower he.1).bind (target.emits_keep.bind (Target.emits_store he.2))
    exact ih.of_eq (by simp [Expr.code])
  | increment target | decrement target =>
    have hload := Target.emits_load (t := target) he
    have hstore := target.emits_keep.bind (Target.emits_store (t := target) he)
    exact (hload.bump _ hstore).of_eq (List.append_assoc ..).symm
  | getKey key => exact (Expr.emits_lower (e := key) he).then_emit _
  | pxlTest surface x y =>
    have ih := (Expr.emits_lower he.1).bind ((Expr.emits_lower he.2).then_emit (.pxlTest surface))
    exact ih.of_eq (by simp [Expr.code])

theorem Target.emits_load {t : Target} (ht : t.Proper) : t.load.Emits t.loadCode := by
  cases t with
  | var c => exact .emit _
  | pointer address width => exact (Expr.emits_lower (e := address) ht).then_emit _

theorem Target.emits_store {t : Target} (ht : t.Proper) : t.store.Emits t.storeCode := by
  cases t with
  | var c => exact .emit _
  | pointer address width => exact (Expr.emits_lower (e := address) ht).then_emit _

end

theorem Target.emits_step {t : Target} (ht : t.Proper) (op : BinaryOp) :
    (t.step op).Emits (t.stepCode op) :=
  (Target.emits_load ht).bump op (Target.emits_store ht)

theorem Expr.emits_lowerEffect {e : Expr} (heffect : e.isEffect) (he : e.Proper) :
    e.lowerEffect.Emits e.effectCode := by
  cases e with
  | assign value target => exact (Expr.emits_lower he.1).bind (Target.emits_store he.2)
  | increment target | decrement target => exact Target.emits_step (t := target) he _
  | _ => simp [Expr.isEffect] at heffect

theorem Command.emits_lower {c : Command} (hc : c.Proper) : c.lower.Emits c.code := by
  cases c with
  | exit | help | about => exact .emit _
  | debug flag => exact (Expr.emits_lower (e := flag) hc).then_emit _

theorem Stmt.writes_straight {s : Stmt} {is : List Instr} (h : s.straight? = some is)
    (hs : s.Proper) (depth n : Nat) : (s.lower depth).Writes n (.mark s.span :: emits is) 0 := by
  have marked {m : Assembler Unit} {is : List Instr} (span : Span) (h : m.Emits is) :
      Writes (do follow (.mark span); m) n (.mark span :: emits is) 0 :=
    .bind (.follow n _) (h n)
  cases s with
  | cond | loop | label | goto => cases h
  | effect span e =>
    cases h
    exact marked span (Expr.emits_lowerEffect hs.1 hs.2)
  | disp span values =>
    cases h
    exact marked span (.forM fun e he => (Expr.emits_lower (hs e he)).then_emit _)
  | pause span e =>
    cases h
    exact marked span ((Expr.emits_lower (e := e) hs).then_emit _)
  | draw span graphic surface arguments =>
    cases h
    have harguments := Emits.forM fun e he => Expr.emits_lower (hs.2 e he)
    exact marked span (harguments.then_emit _)
  | dispGraph span shade =>
    cases h
    exact marked span (.emit _)
  | command span c =>
    cases h
    exact marked span (Command.emits_lower (c := c) hs)

end

/-! ## Drafts of statements -/

/-- How a loop begins: its top is where the test is. -/
def Loop.opening (depth : Nat) (span : Span) (top : Symbol) : Loop → List Directive
  | .whileTrue _ | .repeatUntil _ => [.place top, .mark span]
  | kind => .mark span :: emits (kind.startCode depth) ++ [.place top]

mutual

/-- How many symbols are handed out for the blocks of a statement. -/
def Stmt.symbols : Stmt → Nat
  | .cond _ _ yes [] => blockSymbols yes + 1
  | .cond _ _ yes no => blockSymbols yes + (blockSymbols no + 1) + 1
  | .loop _ _ body => blockSymbols body + 2
  | _ => 0

def blockSymbols : List Stmt → Nat
  | [] => 0
  | s :: ss => s.symbols + blockSymbols ss

end

mutual

/-- The directives that a statement is lowered to behind `n` symbols handed out, inside `depth`
loops of the form `For(n)`. -/
def Stmt.draft (depth n : Nat) : Stmt → List Directive
  | .cond span condition yes no =>
    let other := Symbol.fresh n
    match no with
    | [] =>
      .mark span :: emits condition.code ++ .branch .ifFalse span other ::
        blockDraft depth (n + 1) yes ++ [.place other]
    | no =>
      let next := n + 1 + blockSymbols yes
      let behind := Symbol.fresh next
      .mark span :: emits condition.code ++ .branch .ifFalse span other ::
        blockDraft depth (n + 1) yes ++ .branch .always span behind :: .place other ::
        blockDraft depth (next + 1) no ++ [.place behind]
  | .loop span kind body =>
    let top := Symbol.fresh n
    let exit := Symbol.fresh (n + 1)
    kind.opening depth span top ++ emits (kind.testCode depth) ++
      .branch kind.leaving span exit :: blockDraft (kind.depthInside depth) (n + 2) body ++
      kind.returnMark span ++ emits (kind.nextCode depth) ++
      [.branch .always span top, .place exit]
  | .label span name => [.label span name]
  | .goto span name => [.mark span, .goto span name]
  | s => .mark s.span :: emits (s.straight?.getD [])

def blockDraft (depth n : Nat) : List Stmt → List Directive
  | [] => []
  | s :: ss => s.draft depth n ++ blockDraft depth (n + s.symbols) ss

end

theorem Stmt.draft_of_straight {s : Stmt} {is : List Instr} (h : s.straight? = some is)
    (depth n : Nat) : s.draft depth n = .mark s.span :: emits is ∧ s.symbols = 0 := by
  cases s with
  | cond | loop | label | goto => cases h
  | _ => simp [Stmt.draft, Stmt.symbols, h]

/-! ### Lowering writes drafts -/

section

open Assembler

theorem writes_for {target : Target} {first last : Expr} (ht : target.Proper) (hf : first.Proper)
    (hl : last.Proper) {body : Assembler Unit} {n k : Nat} {ds : List Directive}
    (hbody : body.Writes (n + 2) ds k) (span : Span) (compare : BinaryOp) :
    (lowerFor span target first last compare body).Writes n
      (.mark span :: emits (first.code ++ target.storeCode) ++ .place (.fresh n) ::
        emits (target.loadCode ++ last.code ++ [.binary compare]) ++
        .branch .ifFalse span (.fresh (n + 1)) :: ds ++ .mark span ::
        emits (target.stepCode .add) ++
        [.branch .always span (.fresh n), .place (.fresh (n + 1))])
      (k + 2) := by
  have hfirst := Expr.emits_lower hf
  have hlast := Expr.emits_lower hl
  have hload := Target.emits_load ht
  have hstore := Target.emits_store ht
  have hstep := Target.emits_step ht .add
  refine .fresh (.fresh ?_)
  refine (Writes.bind (.follow _ _) (.bind (hfirst _) (.bind (hstore _) (.bind (.follow _ _)
    (.bind (hload _) (.bind (hlast _) (.bind (Emits.emit _ _) (.bind (.follow _ _) (.bind hbody
    (.bind (.follow _ _) (.bind (hstep _) (.bind (.follow _ _) (.follow _ _))))))))))))).of_eq ?_ ?_
  · simp
  · simp

theorem writes_loop {kind : Loop} (hk : kind.Proper) {body : List Stmt}
    (hbody : ∀ depth n, (lowerBlock depth body).Writes n (blockDraft depth n body)
      (blockSymbols body))
    (span : Span) (depth n : Nat) :
    ((Stmt.loop span kind body).lower depth).Writes n ((Stmt.loop span kind body).draft depth n)
      (Stmt.loop span kind body).symbols := by
  cases kind with
  | whileTrue c | repeatUntil c =>
    have hc := Expr.emits_lower (e := c) hk
    refine .fresh (.fresh ?_)
    refine (Writes.bind (.follow _ _) (.bind (.follow _ _) (.bind (hc _) (.bind (.follow _ _)
      (.bind (hbody depth _) (.bind (.follow _ _) (.follow _ _))))))).of_eq ?_ ?_
    · simp [Stmt.draft, Loop.opening, Loop.testCode, Loop.leaving, Loop.depthInside,
        Loop.returnMark, Loop.nextCode]
    · simp
  | count target first last =>
    refine (writes_for hk.1 hk.2.1 hk.2.2 (hbody depth _) span .lessEqual).of_eq ?_ rfl
    simp [Stmt.draft, Loop.opening, Loop.startCode, Loop.testCode, Loop.leaving, Loop.depthInside,
      Loop.returnMark, Loop.nextCode]
  | times c =>
    have hzero : (Expr.number 0).Proper := trivial
    refine (writes_for (counter_proper depth) hzero hk (hbody (depth + 1) _) span .less).of_eq ?_ rfl
    simp [Stmt.draft, Loop.opening, Loop.startCode, Loop.testCode, Loop.leaving, Loop.depthInside,
      Loop.returnMark, Loop.nextCode, Expr.code]

/-- A tree is lowered to its draft. -/
theorem writes_tree :
    (∀ s : Stmt, (∀ x ∈ s.flat, x.Proper) → ∀ depth n,
      (s.lower depth).Writes n (s.draft depth n) s.symbols) ∧
    (∀ ss : List Stmt, (∀ x ∈ flatBlock ss, x.Proper) → ∀ depth n,
      (lowerBlock depth ss).Writes n (blockDraft depth n ss) (blockSymbols ss)) := by
  apply tree_induction
  case straight =>
    intro s is his hs depth n
    obtain ⟨hdraft, hsymbols⟩ := s.draft_of_straight his depth n
    rw [hdraft, hsymbols]
    exact s.writes_straight his (hs s s.mem_flat) depth n
  case label =>
    intro span name _ depth n
    exact .follow n _
  case goto =>
    intro span name _ depth n
    exact .bind (.follow n _) (.follow n _)
  case cond =>
    intro span c yes no ihYes ihNo hs depth n
    obtain ⟨hc, hs⟩ := List.forall_mem_cons.1 hs
    obtain ⟨hyes, hno⟩ := List.forall_mem_append.1 hs
    have hcode := Expr.emits_lower (e := c) hc
    cases no with
    | nil =>
      refine (Writes.bind (.follow _ _) (.fresh (.bind (hcode _) (.bind (.follow _ _)
        (.bind (ihYes hyes depth _) (.follow _ _)))))).of_eq ?_ ?_
      · simp [Stmt.draft]
      · simp [Stmt.symbols]
    | cons t no =>
      refine (Writes.bind (.follow _ _) (.fresh (.bind (hcode _) (.bind (.follow _ _)
        (.bind (ihYes hyes depth _) (.fresh (.bind (.follow _ _) (.bind (.follow _ _)
        (.bind (ihNo hno depth _) (.follow _ _)))))))))).of_eq ?_ ?_
      · simp [Stmt.draft]
      · simp [Stmt.symbols]
  case loop =>
    intro span kind body ih hs depth n
    obtain ⟨hk, hbody⟩ := List.forall_mem_cons.1 hs
    exact writes_loop hk (ih hbody) span depth n
  case nil =>
    intro _ depth n
    exact .pure n
  case cons =>
    intro s ss ihs ihss hs depth n
    obtain ⟨hs, hss⟩ := List.forall_mem_append.1 hs
    exact .bind (ihs hs depth n) (ihss hss depth _)

end

/-! ### Blocks of drafts -/

section

variable (ds : List Directive) (span : Span)

@[simp] theorem blocksIn_append (ds' : List Directive) :
    blocksIn (ds ++ ds') = blocksIn ds ++ blocksIn ds' := List.filterMap_append

@[simp] theorem blocksIn_mark : blocksIn (.mark span :: ds) = blocksIn ds := rfl

@[simp] theorem blocksIn_place (symbol : Symbol) :
    blocksIn (.place symbol :: ds) = symbol :: blocksIn ds := rfl

@[simp] theorem blocksIn_branch (kind : Branch) (symbol : Symbol) :
    blocksIn (.branch kind span symbol :: ds) = blocksIn ds := rfl

@[simp] theorem blocksIn_nil : blocksIn [] = [] := rfl

@[simp] theorem blocksIn_emits (is : List Instr) : blocksIn (emits is) = [] := by
  induction is with
  | nil => rfl
  | cons i is ih => exact ih

end

@[simp] theorem Loop.blocksIn_opening (depth : Nat) (span : Span) (top : Symbol) (kind : Loop) :
    blocksIn (kind.opening depth span top) = [top] := by
  cases kind <;> simp [opening]

@[simp] theorem Loop.blocksIn_returnMark (span : Span) (kind : Loop) :
    blocksIn (kind.returnMark span) = [] := by
  cases kind <;> rfl

theorem blocksIn_tree :
    (∀ (s : Stmt) (depth n : Nat), (blocksIn (s.draft depth n)).Perm (Symbol.handed n s.symbols)) ∧
    (∀ (ss : List Stmt) (depth n : Nat),
      (blocksIn (blockDraft depth n ss)).Perm (Symbol.handed n (blockSymbols ss))) := by
  apply tree_induction
  case straight =>
    intro s is his depth n
    obtain ⟨hdraft, hsymbols⟩ := s.draft_of_straight his depth n
    rw [hdraft, hsymbols, blocksIn_mark, blocksIn_emits]
    exact .refl _
  case label =>
    intro span name depth n
    exact .refl _
  case goto =>
    intro span name depth n
    exact .refl _
  case cond =>
    intro span c yes no ihYes ihNo depth n
    cases no with
    | nil =>
      simp only [Stmt.draft, Stmt.symbols, blocksIn_append, blocksIn_mark, blocksIn_emits,
        blocksIn_branch, blocksIn_place, blocksIn_nil, List.nil_append, Symbol.handed_succ]
      exact (List.perm_append_singleton _ _).trans ((ihYes depth _).cons _)
    | cons t no =>
      simp only [Stmt.draft, Stmt.symbols, blocksIn_append, blocksIn_mark, blocksIn_emits,
        blocksIn_branch, blocksIn_place, blocksIn_nil, List.nil_append, List.append_assoc,
        Symbol.handed_succ, Symbol.handed_add]
      refine List.perm_middle.trans (((ihYes depth _).append ?_).cons _)
      exact (List.perm_append_singleton _ _).trans ((ihNo depth _).cons _)
  case loop =>
    intro span kind body ih depth n
    simp only [Stmt.draft, Stmt.symbols, blocksIn_append, Loop.blocksIn_opening, blocksIn_emits,
      blocksIn_branch, Loop.blocksIn_returnMark, blocksIn_place, blocksIn_nil, List.nil_append,
      List.append_assoc, List.singleton_append, Symbol.handed_succ]
    exact ((List.perm_append_singleton _ _).trans ((ih _ _).cons _)).cons _
  case nil =>
    intro depth n
    exact .refl _
  case cons =>
    intro s ss ihs ihss depth n
    simp only [blockDraft, blocksIn_append, blockSymbols, Symbol.handed_add]
    exact (ihs depth n).append (ihss depth _)

theorem not_mem_emits {d : Directive} (hd : ∀ i, d ≠ .emit i) (is : List Instr) :
    d ∉ emits is := by
  intro hmem
  obtain ⟨i, -, rfl⟩ := List.mem_map.1 hmem
  exact hd i rfl

theorem placed_tree :
    (∀ (s : Stmt) (depth n : Nat) (kind : Branch) (span : Span) (symbol : Symbol),
      .branch kind span symbol ∈ s.draft depth n → .place symbol ∈ s.draft depth n) ∧
    (∀ (ss : List Stmt) (depth n : Nat) (kind : Branch) (span : Span) (symbol : Symbol),
      .branch kind span symbol ∈ blockDraft depth n ss → .place symbol ∈ blockDraft depth n ss) := by
  have hemits (kind : Branch) (span : Span) (symbol : Symbol) (is : List Instr) :
      .branch kind span symbol ∉ emits is := not_mem_emits (by simp) is
  apply tree_induction
  case straight =>
    intro s is his depth n kind span symbol hmem
    rw [(s.draft_of_straight his depth n).1] at hmem
    simp [hemits] at hmem
  case label =>
    intro span name depth n kind span' symbol hmem
    simp [Stmt.draft] at hmem
  case goto =>
    intro span name depth n kind span' symbol hmem
    simp [Stmt.draft] at hmem
  case cond =>
    intro span c yes no ihYes ihNo depth n kind span' symbol hmem
    cases no with
    | nil =>
      simp only [Stmt.draft, List.mem_append, List.mem_cons, List.not_mem_nil, hemits] at hmem ⊢
      grind
    | cons t no =>
      simp only [Stmt.draft, List.mem_append, List.mem_cons, List.not_mem_nil, hemits] at hmem ⊢
      grind
  case loop =>
    intro span kind body ih depth n kind' span' symbol hmem
    have hopening : .branch kind' span' symbol ∉ kind.opening depth span (.fresh n) := by
      cases kind <;> simp [Loop.opening, hemits]
    have htop : .place (.fresh n) ∈ kind.opening depth span (.fresh n) := by
      cases kind <;> simp [Loop.opening]
    have hreturn : .branch kind' span' symbol ∉ kind.returnMark span := by
      cases kind <;> simp [Loop.returnMark]
    simp only [Stmt.draft, List.mem_append, List.mem_cons, List.not_mem_nil, hemits] at hmem ⊢
    grind
  case nil =>
    intro depth n kind span symbol hmem
    cases hmem
  case cons =>
    intro s ss ihs ihss depth n kind span symbol hmem
    exact (List.mem_append.1 hmem).elim (fun h => List.mem_append_left _ (ihs _ _ _ _ _ h))
      fun h => List.mem_append_right _ (ihss _ _ _ _ _ h)

theorem lowered_tree :
    (∀ (s : Stmt) (depth n : Nat), ∀ d ∈ s.draft depth n, d.Lowered) ∧
    (∀ (ss : List Stmt) (depth n : Nat), ∀ d ∈ blockDraft depth n ss, d.Lowered) := by
  have hemits (is : List Instr) : ∀ d ∈ emits is, d.Lowered := by
    intro d hd
    obtain ⟨i, -, rfl⟩ := List.mem_map.1 hd
    exact trivial
  have hfresh := Symbol.fresh_neg
  apply tree_induction
  case straight =>
    intro s is his depth n
    rw [(s.draft_of_straight his depth n).1]
    exact List.forall_mem_cons.2 ⟨trivial, hemits is⟩
  case label =>
    intro span name depth n
    simp [Stmt.draft, Directive.Lowered]
  case goto =>
    intro span name depth n
    simp [Stmt.draft, Directive.Lowered]
  case cond =>
    intro span c yes no ihYes ihNo depth n
    cases no with
    | nil =>
      simp only [Stmt.draft, List.forall_mem_append, List.forall_mem_cons]
      exact ⟨⟨⟨trivial, hemits _⟩, hfresh n, ihYes depth _⟩, hfresh n, by simp⟩
    | cons t no =>
      simp only [Stmt.draft, List.forall_mem_append, List.forall_mem_cons]
      exact ⟨⟨⟨⟨trivial, hemits _⟩, hfresh n, ihYes depth _⟩, hfresh _, hfresh n, ihNo depth _⟩,
        hfresh _, by simp⟩
  case loop =>
    intro span kind body ih depth n
    have hopening : ∀ d ∈ kind.opening depth span (.fresh n), d.Lowered := by
      cases kind with
      | whileTrue | repeatUntil => simp [Loop.opening, Directive.Lowered, hfresh]
      | count | times =>
        simp only [Loop.opening, List.forall_mem_append, List.forall_mem_cons]
        exact ⟨⟨trivial, hemits _⟩, hfresh n, by simp⟩
    have hreturn : ∀ d ∈ kind.returnMark span, d.Lowered := by
      cases kind <;> simp [Loop.returnMark, Directive.Lowered]
    simp only [Stmt.draft, List.forall_mem_append, List.forall_mem_cons]
    exact ⟨⟨⟨⟨⟨hopening, hemits _⟩, hfresh _, ih _ _⟩, hreturn⟩, hemits _⟩, hfresh n, hfresh _,
      by simp⟩
  case nil =>
    intro depth n
    simp [blockDraft]
  case cons =>
    intro s ss ihs ihss depth n
    exact List.forall_mem_append.2 ⟨ihs depth n, ihss depth _⟩

theorem closed_draft (ss : List Stmt) (depth n : Nat) : Closed (blockDraft depth n ss) where
  lowered := lowered_tree.2 ss depth n
  once := (blocksIn_tree.2 ss depth n).nodup_iff.2 (Symbol.nodup_handed n _)
  placed := placed_tree.2 ss depth n

/-! ### The code of a draft -/

/-- The addresses are those where the blocks stand, if the directives begin at `here`. -/
def Fits (address : Symbol → Nat) (here : Nat) (ds : List Directive) : Prop :=
  ∀ x symbol, (x, .place symbol) ∈ located here ds → address symbol = x

section

variable {address : Symbol → Nat} {here : Nat} (ds : List Directive) (span : Span)

@[simp] theorem fits_append (ds' : List Directive) :
    Fits address here (ds ++ ds') ↔
      Fits address here ds ∧ Fits address (here + codeLength ds) ds' := by
  simp only [Fits, located_append, List.mem_append, or_imp, forall_and]

@[simp] theorem fits_place (symbol : Symbol) :
    Fits address here (.place symbol :: ds) ↔ address symbol = here ∧ Fits address here ds := by
  simp only [Fits, located, List.mem_cons, or_imp, forall_and, Prod.mk.injEq, Directive.place.injEq]
  refine and_congr ⟨fun h => h here symbol ⟨rfl, rfl⟩, ?_⟩ Iff.rfl
  rintro h x _ ⟨rfl, rfl⟩
  exact h

@[simp] theorem fits_mark : Fits address here (.mark span :: ds) ↔ Fits address here ds := by
  simp [Fits, located]

@[simp] theorem fits_branch (kind : Branch) (symbol : Symbol) :
    Fits address here (.branch kind span symbol :: ds) ↔ Fits address (here + 1) ds := by
  simp [Fits, located]

@[simp] theorem fits_nil : Fits address here [] := nofun

variable (address)

@[simp] theorem fixed_mark : fixed address (.mark span :: ds) = .mark span :: fixed address ds :=
  rfl

@[simp] theorem fixed_place (symbol : Symbol) :
    fixed address (.place symbol :: ds) = fixed address ds := rfl

@[simp] theorem fixed_branch (kind : Branch) (symbol : Symbol) :
    fixed address (.branch kind span symbol :: ds) =
      .emit (.branch kind (address symbol)) :: fixed address ds := rfl

@[simp] theorem fixed_nil : fixed address [] = [] := rfl

end

@[simp] theorem Loop.codeLength_opening (depth : Nat) (span : Span) (top : Symbol) (kind : Loop) :
    codeLength (kind.opening depth span top) = (kind.startCode depth).length := by
  cases kind <;> simp [opening, startCode]

theorem codeLength_draft :
    (∀ (s : Stmt) (depth n : Nat), codeLength (s.draft depth n) = s.size) ∧
    (∀ (ss : List Stmt) (depth n : Nat), codeLength (blockDraft depth n ss) = blockSize ss) := by
  apply tree_induction
  case straight =>
    intro s is his depth n
    rw [(s.draft_of_straight his depth n).1, codeLength_mark, codeLength_emits,
      Stmt.length_of_straight his]
  case label =>
    intro span name depth n
    rfl
  case goto =>
    intro span name depth n
    rfl
  case cond =>
    intro span c yes no ihYes ihNo depth n
    cases no with
    | nil =>
      simp [Stmt.draft, Stmt.size, ihYes]
      omega
    | cons t no =>
      simp [Stmt.draft, Stmt.size, ihYes, ihNo]
      omega
  case loop =>
    intro span kind body ih depth n
    have hsize := kind.exit_eq depth 0 (blockSize body)
    simp [Stmt.draft, Stmt.size, ih, kind.codeLength_returnMark]
    simp [Loop.exit, Loop.inside, Loop.top] at hsize
    omega
  case nil =>
    intro depth n
    rfl
  case cons =>
    intro s ss ihs ihss depth n
    simp [blockDraft, blockSize, ihs, ihss]

theorem Loop.fits_opening {address : Symbol → Nat} {here depth : Nat} {span : Span} {top : Symbol}
    {kind : Loop} (h : Fits address here (kind.opening depth span top)) :
    address top = kind.top depth here := by
  cases kind with
  | whileTrue | repeatUntil => simpa [opening, Loop.top, startCode] using h
  | count | times =>
    simp only [opening, fits_append, fits_mark, fits_place, codeLength_mark, codeLength_emits] at h
    exact h.2.1

@[simp] theorem Loop.fixed_opening (address : Symbol → Nat) (depth : Nat) (span : Span)
    (top : Symbol) (kind : Loop) :
    fixed address (kind.opening depth span top) = .mark span :: emits (kind.startCode depth) := by
  cases kind <;>
    simp only [opening, startCode, emits_nil, fixed_append, fixed_mark, fixed_emits, fixed_place,
      fixed_nil, List.append_nil]

@[simp] theorem Loop.fixed_returnMark (address : Symbol → Nat) (span : Span) (kind : Loop) :
    fixed address (kind.returnMark span) = kind.returnMark span := by
  cases kind <;> rfl

theorem fixed_loop {kind : Loop} {body : List Stmt} {address : Symbol → Nat} {here : Nat}
    (hbody : ∀ depth n here, Fits address here (blockDraft depth n body) →
      fixed address (blockDraft depth n body) = blockDirectives depth here body)
    {span : Span} {depth n : Nat} (h : Fits address here ((Stmt.loop span kind body).draft depth n)) :
    fixed address ((Stmt.loop span kind body).draft depth n) =
      (Stmt.loop span kind body).directives depth here := by
  simp only [Stmt.draft, fits_append, fits_branch, fits_place, codeLength_append, codeLength_emits,
    codeLength_branch, codeLength_draft.2, Loop.codeLength_opening, Loop.codeLength_returnMark] at h
  obtain ⟨⟨⟨⟨⟨hopening, -⟩, hinside⟩, -⟩, -⟩, hexit, -⟩ := h
  have htop := Loop.fits_opening hopening
  have hstart : here + ((kind.startCode depth).length + (kind.testCode depth).length) + 1 =
      kind.inside depth here := by
    rw [Loop.inside, Loop.top]
    omega
  rw [hstart] at hinside
  have hleave : address (.fresh (n + 1)) = kind.exit depth here (blockSize body) := by
    rw [hexit, Loop.exit, ← hstart]
    omega
  simp only [Stmt.draft, Stmt.directives, fixed_append, Loop.fixed_opening, fixed_emits,
    fixed_branch, hbody _ _ _ hinside, Loop.fixed_returnMark, fixed_place, fixed_nil, htop, hleave]
  simp

/-- With the addresses of its blocks a draft is the code of its tree. -/
theorem fixed_tree {address : Symbol → Nat} :
    (∀ (s : Stmt) (depth n here : Nat), Fits address here (s.draft depth n) →
      fixed address (s.draft depth n) = s.directives depth here) ∧
    (∀ (ss : List Stmt) (depth n here : Nat), Fits address here (blockDraft depth n ss) →
      fixed address (blockDraft depth n ss) = blockDirectives depth here ss) := by
  apply tree_induction
  case straight =>
    intro s is his depth n here _
    rw [(s.draft_of_straight his depth n).1, s.directives_of_straight his, fixed_mark, fixed_emits]
  case label =>
    intro span name depth n here _
    rfl
  case goto =>
    intro span name depth n here _
    rfl
  case cond =>
    intro span c yes no ihYes ihNo depth n here h
    cases no with
    | nil =>
      simp only [Stmt.draft, fits_append, fits_mark, fits_branch, fits_place, codeLength_append,
        codeLength_mark, codeLength_branch, codeLength_emits, codeLength_draft.2] at h
      obtain ⟨⟨-, hyes⟩, hother, -⟩ := h
      have hbehind : here + (c.code.length + (blockSize yes + 1)) =
          here + c.code.length + 1 + blockSize yes := by omega
      rw [hbehind] at hother
      simp [Stmt.draft, Stmt.directives, ihYes depth _ _ hyes, hother]
    | cons t no =>
      simp only [Stmt.draft, fits_append, fits_mark, fits_branch, fits_place, codeLength_append,
        codeLength_mark, codeLength_branch, codeLength_place, codeLength_emits,
        codeLength_draft.2] at h
      obtain ⟨⟨⟨-, hyes⟩, hother, hno⟩, hlast, -⟩ := h
      have hinside : here + (c.code.length + (blockSize yes + 1)) + 1 =
          here + c.code.length + 1 + blockSize yes + 1 := by omega
      have hbehind : here + (c.code.length + (blockSize yes + 1) + (blockSize (t :: no) + 1)) =
          here + c.code.length + 1 + blockSize yes + 1 + blockSize (t :: no) := by omega
      rw [hinside] at hother hno
      rw [hbehind] at hlast
      simp [Stmt.draft, Stmt.directives, ihYes depth _ _ hyes, ihNo depth _ _ hno, hother, hlast]
  case loop =>
    intro span kind body ih depth n here h
    exact fixed_loop ih h
  case nil =>
    intro depth n here _
    rfl
  case cons =>
    intro s ss ihs ihss depth n here h
    rw [blockDraft, fits_append, codeLength_draft.1] at h
    rw [blockDraft, fixed_append, ihs depth n here h.1, ihss depth _ _ h.2, blockDirectives]

/-! ### The code of a tree -/

theorem exists_fits {ds : List Directive} (h : (blocksIn ds).Nodup) (here : Nat) :
    ∃ address, Fits address here ds := by
  induction ds generalizing here with
  | nil => exact ⟨fun _ => 0, fits_nil⟩
  | cons d ds ih =>
    cases d with
    | place s =>
      obtain ⟨hs, hds⟩ := List.nodup_cons.1 h
      obtain ⟨address, hfits⟩ := ih hds here
      refine ⟨Function.update address s here, (fits_place ds s).2 ⟨Function.update_self .., ?_⟩⟩
      intro x t ht
      have hne : t ≠ s := by
        rintro rfl
        exact hs (mem_blocksIn.2 (mem_of_mem_located ht))
      rw [Function.update_of_ne hne, hfits x t ht]
    | emit | mark | branch | label | goto | reject =>
      obtain ⟨address, hfits⟩ := ih h _
      refine ⟨address, fun x t ht => hfits x t ?_⟩
      exact (List.mem_cons.1 ht).resolve_left (by simp)

/-- The code of a tree is its draft, with the addresses of the blocks. -/
theorem exists_fixed :
    (∀ (s : Stmt) (depth here : Nat),
      ∃ address, fixed address (s.draft depth 0) = s.directives depth here) ∧
    (∀ (ss : List Stmt) (depth here : Nat),
      ∃ address, fixed address (blockDraft depth 0 ss) = blockDirectives depth here ss) := by
  constructor
  · intro s depth here
    have honce := (blocksIn_tree.1 s depth 0).nodup_iff.2 (Symbol.nodup_handed 0 _)
    obtain ⟨address, hfits⟩ := exists_fits honce here
    exact ⟨address, fixed_tree.1 s depth 0 here hfits⟩
  · intro ss depth here
    obtain ⟨address, hfits⟩ := exists_fits (closed_draft ss depth 0).once here
    exact ⟨address, fixed_tree.2 ss depth 0 here hfits⟩

theorem codeLength_tree :
    (∀ (s : Stmt) (depth here : Nat), codeLength (s.directives depth here) = s.size) ∧
    (∀ (ss : List Stmt) (depth here : Nat),
      codeLength (blockDirectives depth here ss) = blockSize ss) := by
  constructor
  · intro s depth here
    obtain ⟨address, hfixed⟩ := exists_fixed.1 s depth here
    rw [← hfixed, codeLength_fixed, codeLength_draft.1]
  · intro ss depth here
    obtain ⟨address, hfixed⟩ := exists_fixed.2 ss depth here
    rw [← hfixed, codeLength_fixed, codeLength_draft.2]

/-- Apart from jumps to labels there is nothing left to link. -/
def Directive.Plain : Directive → Prop
  | .emit _ | .mark _ | .label .. | .goto .. => True
  | .place _ | .branch .. | .reject _ => False

theorem plain_fixed {ds : List Directive} (h : ∀ d ∈ ds, d.Lowered) (address : Symbol → Nat) :
    ∀ d ∈ fixed address ds, d.Plain := by
  intro d hd
  obtain ⟨d', hd', heq⟩ := List.mem_filterMap.1 hd
  have hlowered := h d' hd'
  cases d' with
  | place => cases heq
  | reject => exact absurd hlowered id
  | _ =>
    cases heq
    exact trivial

theorem plain_directives (ss : List Stmt) (depth here : Nat) :
    ∀ d ∈ blockDirectives depth here ss, d.Plain := by
  obtain ⟨address, hfixed⟩ := exists_fixed.2 ss depth here
  rw [← hfixed]
  exact plain_fixed (lowered_tree.2 ss depth 0) address

/-! ## Whole programs -/

theorem fits_addressIn {ds : List Directive} (h : PlacedOnce ds) : Fits (addressIn ds) 0 ds := by
  intro x symbol hx
  rw [addressIn, (address?_eq_some_iff h).2 ⟨_, hx, rfl⟩, Option.getD_some]

theorem fixed_draft {ss : List Stmt} (h : PlacedOnce (blockDraft 0 0 ss)) :
    fixed (addressIn (blockDraft 0 0 ss)) (blockDraft 0 0 ss) = blockDirectives 0 0 ss :=
  fixed_tree.2 ss 0 0 0 (fits_addressIn h)

/-- A tree is assembled by following its draft. -/
theorem Program.ofTree_eq {ss : List Stmt} (hs : ∀ s ∈ flatBlock ss, s.Proper) :
    Program.ofTree ss = Assembly.build (blockDraft 0 0 ss) >>= Assembly.link := by
  have hwrites := writes_tree.2 ss hs 0 0 {} rfl
  change (lowerBlock 0 ss {} >>= fun x => x.2.link) = _
  rw [hwrites, Assembly.build]
  cases (blockDraft 0 0 ss).foldlM Assembly.follow {} <;> rfl

theorem Program.follows_of_tree {ss : List Stmt} {p : Program}
    (hs : ∀ s ∈ flatBlock ss, s.Proper) (h : Program.ofTree ss = .ok p) :
    ∃ a : Assembly, a.Follows (blockDraft 0 0 ss) ∧ a.link = .ok p := by
  rw [Program.ofTree_eq hs] at h
  obtain ⟨a, hbuild, hlink⟩ := bind_eq_ok.1 h
  rcases Assembly.build_cases (closed_draft ss 0 0).lowered with
    ⟨a', ha', hfollows⟩ | ⟨_, _, _, _, -, -, -, he⟩
  · cases hbuild.symm.trans ha'
    exact ⟨a, hfollows, hlink⟩
  · rw [he] at hbuild
    cases hbuild

theorem Program.placedOnce_of_tree {ss : List Stmt} {p : Program}
    (hs : ∀ s ∈ flatBlock ss, s.Proper) (h : Program.ofTree ss = .ok p) :
    PlacedOnce (blockDraft 0 0 ss) := by
  obtain ⟨a, hfollows, -⟩ := Program.follows_of_tree hs h
  exact hfollows.placedOnce (closed_draft ss 0 0)

/-- Linking the draft of a tree gives its code. -/
theorem Program.linked_of_tree {ss : List Stmt} {p : Program}
    (hs : ∀ s ∈ flatBlock ss, s.Proper) (h : Program.ofTree ss = .ok p) :
    p.Linked (blockDirectives 0 0 ss) := by
  have hclosed := closed_draft ss 0 0
  rw [← fixed_draft (Program.placedOnce_of_tree hs h)]
  obtain ⟨a, hfollows, hlink⟩ := Program.follows_of_tree hs h
  rw [hfollows.link_eq hclosed] at hlink
  cases hnone : Assembly.earliest? (Assembly.missing (blockDraft 0 0 ss)) with
  | some d =>
    rw [hnone] at hlink
    cases hlink
  | none =>
    rw [hnone] at hlink
    cases hlink
    exact hfollows.linked hclosed (Assembly.missing_eq_nil.1 (Assembly.earliest_eq_none.1 hnone))

theorem tree_of_compile {source : String} {p : Program} (h : compile source = .ok p) :
    ∃ ss, Written ss ∧ Program.ofTree ss = .ok p := by
  obtain ⟨ts, hts, h⟩ := bind_eq_ok.1 h
  obtain ⟨ss, hss, h⟩ := bind_eq_ok.1 h
  exact ⟨ss, written_of_parse hts hss, h⟩

end Handheld
