import Handheld.Machine.Stack
import Handheld.Proofs.Code.Drafts

/-!
# How deep the stack is

Every instruction takes a number of values off the stack and puts a number of
them there, so the depth of the stack is known at every address of straight
code. Between statements the stack is empty, and that is where every branch
leads and every label stands.
-/

namespace Handheld

/-! ## Instructions -/

namespace Instr

/-- How many values an instruction takes off the stack. -/
@[simp] def takes : Instr → Nat
  | .literal _ | .push _ | .branch .always _ | .dispGraph _ | .exit | .help | .about | .rand => 0
  | .pop _ | .peek _ | .dup | .mask | .branch .ifTrue _ | .branch .ifFalse _ | .disp | .pause
  | .debug | .negate | .getKey => 1
  | .poke _ | .binary _ | .pxlTest _ => 2
  | .draw graphic _ => graphic.arity

@[simp] def gives : Instr → Nat
  | .literal _ | .push _ | .peek _ | .mask | .negate | .binary _ | .getKey | .rand
  | .pxlTest _ => 1
  | .dup => 2
  | .pop _ | .poke _ | .branch .. | .disp | .pause | .draw .. | .dispGraph _ | .debug | .exit
  | .help | .about => 0

end Instr

/-- The depth behind some code, unless it takes a value that is not there. -/
@[simp] def depthAfter (depth : Nat) : List Instr → Option Nat
  | [] => some depth
  | i :: is => if i.takes ≤ depth then depthAfter (depth - i.takes + i.gives) is else none

theorem depthAfter_append (depth : Nat) (is js : List Instr) :
    depthAfter depth (is ++ js) = (depthAfter depth is).bind (depthAfter · js) := by
  induction is generalizing depth with
  | nil => rfl
  | cons i is ih =>
    rw [List.cons_append, depthAfter, depthAfter]
    split
    · exact ih _
    · rfl

theorem depthAfter_le {depth depth' : Nat} {is : List Instr}
    (h : depthAfter depth is = some depth') : depth' ≤ depth + is.length := by
  induction is generalizing depth with
  | nil =>
    cases h
    exact Nat.le_refl _
  | cons i is ih =>
    rw [depthAfter] at h
    split at h
    · next htakes =>
      have hone : i.gives ≤ i.takes + 1 := by cases i <;> simp
      have hle := ih h
      rw [List.length_cons]
      omega
    · cases h

/-! ## Expressions

What follows the code of an expression finds one more value on the stack. -/

theorem Target.depthAfter_keep (target : Target) (depth : Nat) (is : List Instr) :
    depthAfter (depth + 1) (target.keepCode ++ is) = depthAfter (depth + 2) is := by
  unfold Target.keepCode
  split <;> simp

mutual

theorem Expr.depthAfter_code {e : Expr} (he : e.Proper) (depth : Nat) (is : List Instr) :
    depthAfter depth (e.code ++ is) = depthAfter (depth + 1) is := by
  cases e with
  | number n | var c | buffer b | rand => simp [Expr.code]
  | deref address width =>
    have ih := fun is => Expr.depthAfter_code (e := address) he depth is
    simp [Expr.code, ih]
  | addressOf target =>
    cases target with
    | var c =>
      obtain ⟨a, ha⟩ := variableAddress?_isSome he
      simp [Expr.code, ha]
    | pointer address width => exact Expr.depthAfter_code (e := address) he depth is
  | unary op operand =>
    have ih := fun is => Expr.depthAfter_code (e := operand) he depth is
    cases op <;> simp [Expr.code, ih]
  | binary op lhs rhs =>
    have ihl := fun is => Expr.depthAfter_code he.1 depth is
    have ihr := fun is => Expr.depthAfter_code he.2 (depth + 1) is
    simp [Expr.code, ihl, ihr]
  | assign value target =>
    have ihv := fun is => Expr.depthAfter_code he.1 depth is
    have iht := fun is => Target.depthAfter_store he.2 (depth + 1) is
    simp [Expr.code, ihv, iht, Target.depthAfter_keep]
  | increment target | decrement target =>
    have ihl := fun is => Target.depthAfter_load (t := target) he depth is
    have ihs := fun is => Target.depthAfter_store (t := target) he (depth + 1) is
    simp [Expr.code, ihl, ihs, Target.depthAfter_keep]
  | getKey key =>
    have ih := fun is => Expr.depthAfter_code (e := key) he depth is
    simp [Expr.code, ih]
  | pxlTest surface x y =>
    have ihx := fun is => Expr.depthAfter_code he.1 depth is
    have ihy := fun is => Expr.depthAfter_code he.2 (depth + 1) is
    simp [Expr.code, ihx, ihy]

theorem Target.depthAfter_load {t : Target} (ht : t.Proper) (depth : Nat) (is : List Instr) :
    depthAfter depth (t.loadCode ++ is) = depthAfter (depth + 1) is := by
  cases t with
  | var c => simp [Target.loadCode]
  | pointer address width =>
    have ih := fun is => Expr.depthAfter_code (e := address) ht depth is
    simp [Target.loadCode, ih]

theorem Target.depthAfter_store {t : Target} (ht : t.Proper) (depth : Nat) (is : List Instr) :
    depthAfter (depth + 1) (t.storeCode ++ is) = depthAfter depth is := by
  cases t with
  | var c => simp [Target.storeCode]
  | pointer address width =>
    have ih := fun is => Expr.depthAfter_code (e := address) ht (depth + 1) is
    simp [Target.storeCode, ih]

end

/-! ## Statements without blocks -/

theorem Target.depthAfter_step {t : Target} (ht : t.Proper) (op : BinaryOp) (is : List Instr) :
    depthAfter 0 (t.stepCode op ++ is) = depthAfter 0 is := by
  simp [Target.stepCode, Target.depthAfter_load ht, Target.depthAfter_store ht]

theorem Expr.depthAfter_effect {e : Expr} (he : e.Proper) :
    depthAfter 0 e.effectCode = some 0 := by
  cases e with
  | assign value target =>
    have hstore := Target.depthAfter_store he.2 0 []
    rw [List.append_nil] at hstore
    rw [Expr.effectCode, Expr.depthAfter_code he.1, hstore]
    rfl
  | increment target | decrement target =>
    have hstep := fun op => Target.depthAfter_step (t := target) he op []
    simp only [List.append_nil] at hstep
    exact hstep _
  | _ => rfl

theorem depthAfter_values {values : List Expr} (hv : ∀ e ∈ values, e.Proper) :
    depthAfter 0 (values.flatMap fun e => e.code ++ [.disp]) = some 0 := by
  induction values with
  | nil => rfl
  | cons e values ih =>
    obtain ⟨he, hv⟩ := List.forall_mem_cons.1 hv
    simp [Expr.depthAfter_code he, ih hv]

theorem depthAfter_arguments {arguments : List Expr} (ha : ∀ e ∈ arguments, e.Proper)
    (depth : Nat) (is : List Instr) :
    depthAfter depth (arguments.flatMap Expr.code ++ is) =
      depthAfter (depth + arguments.length) is := by
  induction arguments generalizing depth with
  | nil => rfl
  | cons e arguments ih =>
    obtain ⟨he, ha⟩ := List.forall_mem_cons.1 ha
    rw [List.flatMap_cons, List.append_assoc, Expr.depthAfter_code he, ih ha, List.length_cons,
      Nat.add_right_comm, Nat.add_assoc]

theorem Stmt.depthAfter_straight {s : Stmt} {is : List Instr} (h : s.straight? = some is)
    (hs : s.Proper) : depthAfter 0 is = some 0 := by
  cases s with
  | cond | loop | label | goto => cases h
  | effect span e =>
    cases h
    exact Expr.depthAfter_effect hs.2
  | disp span values =>
    cases h
    exact depthAfter_values hs
  | pause span e =>
    cases h
    have he : e.Proper := hs
    simp [Expr.depthAfter_code he]
  | draw span graphic surface arguments =>
    cases h
    simp [depthAfter_arguments hs.2, hs.1]
  | dispGraph span shade =>
    cases h
    rfl
  | command span c =>
    cases h
    cases c with
    | exit | help | about => rfl
    | debug flag =>
      have hf : flag.Proper := hs
      simp [Command.code, Expr.depthAfter_code hf]

/-! ## Loops -/

namespace Loop

variable {kind : Loop} (hk : kind.Proper) (depth : Nat)
include hk

theorem depthAfter_start : depthAfter 0 (kind.startCode depth) = some 0 := by
  cases kind with
  | whileTrue c | repeatUntil c => rfl
  | count target first last =>
    have hstore := Target.depthAfter_store hk.1 0 []
    rw [List.append_nil] at hstore
    rw [startCode, Expr.depthAfter_code hk.2.1, hstore]
    rfl
  | times n => rfl

theorem depthAfter_test (is : List Instr) :
    depthAfter 0 (kind.testCode depth ++ is) = depthAfter 1 is := by
  cases kind with
  | whileTrue c | repeatUntil c => exact Expr.depthAfter_code (e := c) hk 0 is
  | count target first last =>
    simp [testCode, Target.depthAfter_load hk.1, Expr.depthAfter_code hk.2.2]
  | times n =>
    have hn : n.Proper := hk
    simp [testCode, Target.depthAfter_load (counter_proper depth), Expr.depthAfter_code hn]

theorem depthAfter_next (is : List Instr) :
    depthAfter 0 (kind.nextCode depth ++ is) = depthAfter 0 is := by
  cases kind with
  | whileTrue c | repeatUntil c => rfl
  | count target first last => exact Target.depthAfter_step hk.1 .add is
  | times n => exact Target.depthAfter_step (counter_proper depth) .add is

end Loop

/-! ## Code without branches -/

namespace Instr

/-- Variables are letters. -/
def Proper : Instr → Prop
  | .push name | .pop name => name.isUpper
  | _ => True

@[simp] def Straight : Instr → Prop
  | .branch .. | .exit => False
  | .push name | .pop name => name.isUpper
  | _ => True

theorem Straight.proper {i : Instr} (h : i.Straight) : i.Proper := by
  cases i with
  | push | pop => exact h
  | _ => trivial

end Instr

/-- Control leaves the code only at its end. -/
def Onward (is : List Instr) : Prop := ∀ i ∈ is, i.Straight

@[simp] theorem onward_nil : Onward [] := fun _ h => nomatch h

@[simp] theorem onward_cons {i : Instr} {is : List Instr} :
    Onward (i :: is) ↔ i.Straight ∧ Onward is :=
  List.forall_mem_cons

@[simp] theorem onward_append {is js : List Instr} : Onward (is ++ js) ↔ Onward is ∧ Onward js :=
  List.forall_mem_append

theorem Target.onward_keep (target : Target) : Onward target.keepCode := by
  unfold Target.keepCode
  split <;> simp

mutual

theorem Expr.onward_code {e : Expr} (he : e.Proper) : Onward e.code := by
  cases e with
  | number n | buffer b | rand => simp [Expr.code]
  | var c =>
    have hc : c.isUpper := he
    simp [Expr.code, hc]
  | deref e width => simp [Expr.code, Expr.onward_code (e := e) he]
  | addressOf target =>
    cases target with
    | var c => cases h : variableAddress? c <;> simp [Expr.code, h]
    | pointer e width => exact Expr.onward_code (e := e) he
  | unary op e => cases op <;> simp [Expr.code, Expr.onward_code (e := e) he]
  | binary op lhs rhs => simp [Expr.code, Expr.onward_code he.1, Expr.onward_code he.2]
  | assign value target =>
    simp [Expr.code, Expr.onward_code he.1, Target.onward_keep, Target.onward_access he.2]
  | increment target | decrement target =>
    simp [Expr.code, Target.onward_keep, Target.onward_access (t := target) he]
  | getKey e => simp [Expr.code, Expr.onward_code (e := e) he]
  | pxlTest surface x y => simp [Expr.code, Expr.onward_code he.1, Expr.onward_code he.2]

theorem Target.onward_access {t : Target} (ht : t.Proper) :
    Onward t.loadCode ∧ Onward t.storeCode := by
  cases t with
  | var c =>
    have hc : c.isUpper := ht
    simp [Target.loadCode, Target.storeCode, hc]
  | pointer e width => simp [Target.loadCode, Target.storeCode, Expr.onward_code (e := e) ht]

end

theorem Target.onward_step {t : Target} (ht : t.Proper) (op : BinaryOp) :
    Onward (t.stepCode op) := by
  simp [Target.stepCode, Target.onward_access ht]

theorem Stmt.onward_straight {s : Stmt} {is : List Instr} (h : s.straight? = some is)
    (hs : s.Proper) : is = [.exit] ∨ Onward is := by
  cases s with
  | command span c =>
    cases h
    cases c with
    | exit => exact .inl rfl
    | help | about => exact .inr (by simp [Command.code])
    | debug flag => exact .inr (by simp [Command.code, Expr.onward_code (e := flag) hs])
  | cond | loop | label | goto => cases h
  | effect span e =>
    cases h
    right
    cases e with
    | assign value target =>
      simp [Expr.effectCode, Expr.onward_code hs.2.1, Target.onward_access hs.2.2]
    | increment target | decrement target => exact Target.onward_step (t := target) hs.2 _
    | _ => exact onward_nil
  | disp span values =>
    cases h
    refine .inr fun i hi => ?_
    obtain ⟨e, he, hi⟩ := List.mem_flatMap.1 hi
    exact (onward_append.2 ⟨Expr.onward_code (hs e he), by simp⟩) i hi
  | pause span e =>
    cases h
    exact .inr (by simp [Expr.onward_code (e := e) hs])
  | draw span graphic surface arguments =>
    cases h
    refine .inr (onward_append.2 ⟨fun i hi => ?_, by simp⟩)
    obtain ⟨e, he, hi⟩ := List.mem_flatMap.1 hi
    exact Expr.onward_code (hs.2 e he) i hi
  | dispGraph span shade =>
    cases h
    exact .inr (by simp)

namespace Loop

variable {kind : Loop} (hk : kind.Proper) (depth : Nat)
include hk

theorem onward_start : Onward (kind.startCode depth) := by
  cases kind with
  | whileTrue c | repeatUntil c => exact onward_nil
  | count target first last =>
    simp [startCode, Expr.onward_code hk.2.1, Target.onward_access hk.1]
  | times n => simp [startCode, Target.onward_access (counter_proper depth)]

theorem onward_test : Onward (kind.testCode depth) := by
  cases kind with
  | whileTrue c | repeatUntil c => exact Expr.onward_code (e := c) hk
  | count target first last =>
    simp [testCode, Expr.onward_code hk.2.2, Target.onward_access hk.1]
  | times n =>
    have hn : n.Proper := hk
    simp [testCode, Expr.onward_code hn, Target.onward_access (counter_proper depth)]

theorem onward_next : Onward (kind.nextCode depth) := by
  cases kind with
  | whileTrue c | repeatUntil c => exact onward_nil
  | count target first last => exact Target.onward_step hk.1 .add
  | times n => exact Target.onward_step (counter_proper depth) .add

end Loop

/-! ## Places of rest -/

/-- The code takes what it puts on the stack, and no more. -/
def Level (ds : List Directive) : Prop := depthAfter 0 (instructions (fun _ => 0) ds) = some 0

/-- The code in front of `x` is level. -/
def Rests (here : Nat) (ds : List Directive) (x : Nat) : Prop :=
  ∃ front back, ds = front ++ back ∧ x = here + codeLength front ∧ Level front

/-- The addresses that matter to control: where marks, labels and exits stand, where branches lead,
and what is behind a branch. -/
def points (here : Nat) : List Directive → List Nat
  | [] => []
  | .mark _ :: ds | .label .. :: ds => here :: points here ds
  | .emit (.branch _ target) :: ds => target :: (here + 1) :: points (here + 1) ds
  | .goto .. :: ds => (here + 1) :: points (here + 1) ds
  | .emit .exit :: ds => here :: points (here + 1) ds
  | d :: ds => points (here + codeLength [d]) ds

section

variable {here x : Nat} {ds ds' : List Directive}

theorem Level.append (h : Level ds) (h' : Level ds') : Level (ds ++ ds') := by
  unfold Level at *
  rw [instructions_append, depthAfter_append, h]
  exact h'

theorem level_nil : Level [] := rfl

theorem level_mark (span : Span) : Level (.mark span :: ds) ↔ Level ds := .rfl

theorem level_emits {is : List Instr} (h : depthAfter 0 is = some 0) : Level (emits is) := by
  rw [Level, instructions_emits]
  exact h

theorem rests_start (here : Nat) (ds : List Directive) : Rests here ds here :=
  ⟨[], ds, rfl, rfl, level_nil⟩

theorem rests_end (h : Level ds) (hx : x = here + codeLength ds) : Rests here ds x :=
  ⟨ds, [], (List.append_nil ds).symm, hx, h⟩

theorem Rests.append_left (h : Rests here ds x) (ds' : List Directive) :
    Rests here (ds ++ ds') x := by
  obtain ⟨front, back, rfl, rfl, hfront⟩ := h
  exact ⟨front, back ++ ds', List.append_assoc .., rfl, hfront⟩

theorem Rests.append_right {there : Nat} (h : Rests there ds' x) (hds : Level ds)
    (hthere : there = here + codeLength ds) : Rests here (ds ++ ds') x := by
  obtain ⟨front, back, rfl, rfl, hfront⟩ := h
  refine ⟨ds ++ front, back, (List.append_assoc ..).symm, ?_, hds.append hfront⟩
  rw [codeLength_append, hthere, Nat.add_assoc]

theorem points_append (here : Nat) (ds ds' : List Directive) :
    points here (ds ++ ds') = points here ds ++ points (here + codeLength ds) ds' := by
  induction ds generalizing here with
  | nil => rfl
  | cons d ds ih =>
    have hlen : codeLength (d :: ds) = codeLength [d] + codeLength ds := codeLength_append [d] ds
    rw [List.cons_append, hlen, ← Nat.add_assoc]
    cases d with
    | emit i => cases i <;> simp [points, ih]
    | _ => simp [points, ih]

@[simp] theorem points_mark (here : Nat) (span : Span) (ds : List Directive) :
    points here (.mark span :: ds) = here :: points here ds := rfl

theorem points_emits {is : List Instr} (h : Onward is) (here : Nat) :
    points here (emits is) = [] := by
  induction is generalizing here with
  | nil => rfl
  | cons i is ih =>
    obtain ⟨hi, his⟩ := onward_cons.1 h
    cases i with
    | branch | exit => exact hi.elim
    | _ => exact ih his _

theorem points_emits_branch {is : List Instr} (h : Onward is) (here : Nat) (kind : Branch)
    (target : Nat) :
    points here (emits (is ++ [.branch kind target])) = [target, here + is.length + 1] := by
  rw [emits_append, points_append, points_emits h, codeLength_emits]
  rfl

theorem located_mem_points {d : Directive} (h : (x, d) ∈ located here ds)
    (hd : (∃ span, d = .mark span) ∨ (∃ span name, d = .label span name) ∨ d = .emit .exit) :
    x ∈ points here ds := by
  obtain ⟨front, back, rfl, rfl⟩ := mem_located_iff.1 h
  rw [points_append]
  refine List.mem_append_right _ ?_
  rcases hd with ⟨span, rfl⟩ | ⟨span, name, rfl⟩ | rfl
  all_goals exact List.mem_cons_self

theorem behind_mem_points {d : Directive} (h : (x, d) ∈ located here ds)
    (hd : (∃ kind target, d = .emit (.branch kind target)) ∨ ∃ span name, d = .goto span name) :
    x + 1 ∈ points here ds := by
  obtain ⟨front, back, rfl, rfl⟩ := mem_located_iff.1 h
  rw [points_append]
  refine List.mem_append_right _ ?_
  rcases hd with ⟨kind, target, rfl⟩ | ⟨span, name, rfl⟩
  · exact List.mem_cons_of_mem _ List.mem_cons_self
  · exact List.mem_cons_self

theorem target_mem_points {kind : Branch} (h : .emit (.branch kind x) ∈ ds) :
    x ∈ points here ds := by
  obtain ⟨front, back, rfl⟩ := List.append_of_mem h
  rw [points_append]
  exact List.mem_append_right _ List.mem_cons_self

end

/-! ## Trees -/

/-- Every instruction is proper. -/
def Spelled (ds : List Directive) : Prop := ∀ i, .emit i ∈ ds → i.Proper

theorem Spelled.append {ds ds' : List Directive} (h : Spelled ds) (h' : Spelled ds') :
    Spelled (ds ++ ds') := by
  intro i hi
  exact (List.mem_append.1 hi).elim (h i) (h' i)

theorem spelled_mark (span : Span) {ds : List Directive} (h : Spelled ds) :
    Spelled (.mark span :: ds) := by
  intro i hi
  exact h i (by simpa using hi)

theorem spelled_emits {is : List Instr} (h : Onward is) : Spelled (emits is) := by
  intro i hi
  obtain ⟨j, hj, heq⟩ := List.mem_map.1 hi
  cases heq
  exact (h _ hj).proper

theorem spelled_emits_branch {is : List Instr} (h : Onward is) (kind : Branch) (target : Nat) :
    Spelled (emits (is ++ [.branch kind target])) := by
  rw [emits_append]
  refine (spelled_emits h).append fun i hi => ?_
  cases List.mem_singleton.1 hi
  trivial

/-- The code is level, and all that matters to control rests. -/
structure Settled (here : Nat) (ds : List Directive) : Prop where
  level : Level ds
  rests : ∀ x ∈ points here ds, Rests here ds x
  spelled : Spelled ds

theorem settled_straight {is : List Instr} (hlevel : depthAfter 0 is = some 0) (h : Onward is)
    (here : Nat) (span : Span) : Settled here (.mark span :: emits is) where
  level := level_emits hlevel
  rests := by
    intro x hx
    rw [points_mark, points_emits h, List.mem_singleton] at hx
    exact hx ▸ rests_start _ _
  spelled := spelled_mark _ (spelled_emits h)

theorem settled_exit (here : Nat) (span : Span) :
    Settled here (.mark span :: emits [.exit]) where
  level := rfl
  rests := by
    intro x hx
    have hx : x = here := by simpa [points] using hx
    exact hx ▸ rests_start _ _
  spelled := by simp [Spelled, Instr.Proper]

theorem Settled.append {here : Nat} {ds ds' : List Directive} (h : Settled here ds)
    (h' : Settled (here + codeLength ds) ds') : Settled here (ds ++ ds') where
  level := h.level.append h'.level
  rests := by
    intro x hx
    rw [points_append, List.mem_append] at hx
    rcases hx with hx | hx
    · exact (h.rests x hx).append_left _
    · exact (h'.rests x hx).append_right h.level rfl
  spelled := h.spelled.append h'.spelled

theorem level_test {is : List Instr} (h : ∀ js, depthAfter 0 (is ++ js) = depthAfter 1 js)
    {kind : Branch} (hkind : kind ≠ .always) (target : Nat) :
    Level (emits (is ++ [.branch kind target])) := by
  refine level_emits ((h _).trans ?_)
  cases kind with
  | always => exact absurd rfl hkind
  | ifTrue | ifFalse => rfl

theorem Branch.ifFalse_ne : Branch.ifFalse ≠ .always := nofun

theorem Loop.leaving_ne (kind : Loop) : kind.leaving ≠ .always := by
  cases kind <;> exact Branch.noConfusion

section

variable {here : Nat} {test : List Instr} {yes no body : List Directive}
  (htest : ∀ js, depthAfter 0 (test ++ js) = depthAfter 1 js) (honward : Onward test)
include htest honward

theorem settled_if (span : Span) (hyes : Settled (here + test.length + 1) yes) :
    Settled here (.mark span :: emits (test ++
      [.branch .ifFalse (here + test.length + 1 + codeLength yes)]) ++ yes) := by
  have hlevel := (level_mark span).2 (level_test htest Branch.ifFalse_ne
    (here + test.length + 1 + codeLength yes))
  have hspelled := spelled_mark span (spelled_emits_branch honward .ifFalse
    (here + test.length + 1 + codeLength yes))
  refine ⟨hlevel.append hyes.level, fun x hx => ?_, hspelled.append hyes.spelled⟩
  rw [points_append, points_mark, points_emits_branch honward] at hx
  simp only [codeLength_mark, codeLength_emits, List.length_append, List.length_singleton,
    List.cons_append, List.mem_cons, List.nil_append, ← Nat.add_assoc] at hx
  rcases hx with rfl | rfl | rfl | hx
  · exact rests_start _ _
  · exact rests_end (hlevel.append hyes.level) (by simp; omega)
  · exact (rests_end hlevel (by simp; omega)).append_left _
  · exact (hyes.rests x hx).append_right hlevel (by simp; omega)

theorem settled_ifElse (span : Span) {other : Nat}
    (hother : other = here + test.length + 1 + codeLength yes + 1)
    (hyes : Settled (here + test.length + 1) yes) (hno : Settled other no) :
    Settled here (.mark span :: emits (test ++ [.branch .ifFalse other]) ++ yes ++
      emits [.branch .always (other + codeLength no)] ++ no) := by
  have hhead := (level_mark span).2 (level_test htest Branch.ifFalse_ne other)
  have hjump : Level (emits [.branch .always (other + codeLength no)]) := rfl
  have hlevel := (hhead.append hyes.level).append hjump
  have hspelled := ((spelled_mark span (spelled_emits_branch honward .ifFalse other)).append
    hyes.spelled).append (spelled_emits_branch onward_nil .always (other + codeLength no))
  refine ⟨hlevel.append hno.level, fun x hx => ?_, hspelled.append hno.spelled⟩
  rw [points_append, points_append, points_append, points_mark, points_emits_branch honward,
    List.mem_append, List.mem_append, List.mem_append] at hx
  rcases hx with ((hx | hx) | hx) | hx
  · -- the test
    simp only [List.mem_cons, List.not_mem_nil, or_false] at hx
    rcases hx with rfl | rfl | rfl
    · exact rests_start _ _
    · exact (rests_end hlevel (by simp; omega)).append_left _
    · exact (((rests_end hhead (by simp; omega)).append_left _).append_left _).append_left _
  · -- the first block
    have hrests : Rests here _ x :=
      (hyes.rests x (by simpa [Nat.add_assoc] using hx)).append_right hhead (by simp; omega)
    exact (hrests.append_left _).append_left _
  · -- the jump
    have hx : x = other + codeLength no ∨ x = other := by
      simp [points] at hx
      omega
    rcases hx with rfl | rfl
    · exact rests_end (hlevel.append hno.level) (by simp; omega)
    · exact (rests_end hlevel (by simp; omega)).append_left _
  · -- the second block
    refine (hno.rests x ?_).append_right hlevel (by simp; omega)
    have hthere : other = here + codeLength (.mark span :: emits (test ++
        [.branch .ifFalse other]) ++ yes ++ emits [.branch .always (other + codeLength no)]) := by
      simp
      omega
    rwa [← hthere] at hx

theorem settled_loop (span : Span) {start next : List Instr} {mark : List Directive} {kind : Branch}
    {exit : Nat} (hstart : depthAfter 0 start = some 0) (hstartOnward : Onward start)
    (hnext : ∀ js, depthAfter 0 (next ++ js) = depthAfter 0 js) (hnextOnward : Onward next)
    (hmark : mark = [] ∨ mark = [.mark span]) (hkind : kind ≠ .always)
    (hexit : exit =
      here + start.length + test.length + 1 + codeLength body + next.length + 1)
    (hbody : Settled (here + start.length + test.length + 1) body) :
    Settled here (.mark span :: emits (start ++ test ++ [.branch kind exit]) ++ body ++ mark ++
      emits (next ++ [.branch .always (here + start.length)])) := by
  have hsplit : .mark span :: emits (start ++ test ++ [.branch kind exit]) =
      (.mark span :: emits start) ++ emits (test ++ [.branch kind exit]) := by simp
  have hfront : Level (.mark span :: emits start) := level_emits hstart
  have hhead := hfront.append (level_test htest hkind exit)
  have hthrough := hhead.append hbody.level
  have hback : Level (mark ++ emits (next ++ [.branch .always (here + start.length)])) := by
    have hemits := level_emits ((hnext [.branch .always (here + start.length)]).trans rfl)
    rcases hmark with rfl | rfl
    · exact hemits
    · exact (level_mark _).2 hemits
  have hmarkLength : codeLength mark = 0 := by rcases hmark with rfl | rfl <;> rfl
  rw [hsplit, List.append_assoc _ mark]
  refine ⟨hthrough.append hback, fun x hx => ?_, ?spelled⟩
  case spelled =>
    refine (((spelled_mark span (spelled_emits hstartOnward)).append
      (spelled_emits_branch honward kind exit)).append hbody.spelled).append (.append ?_
        (spelled_emits_branch hnextOnward .always _))
    rcases hmark with rfl | rfl <;> simp [Spelled]
  rw [points_append, points_append, points_append, points_append, points_mark,
    points_emits hstartOnward, points_emits_branch honward, points_emits_branch hnextOnward] at hx
  simp only [List.mem_append, List.mem_cons, List.not_mem_nil, or_false] at hx
  rcases hx with ((rfl | rfl | rfl) | hx) | (hx | rfl | rfl)
  · exact rests_start _ _
  · -- where the test leads
    exact rests_end (hthrough.append hback) (by simp; omega)
  · exact ((rests_end hhead (by simp; omega)).append_left _).append_left _
  · -- the body
    have hthere : here + start.length + test.length + 1 =
        here + codeLength (.mark span :: emits start ++ emits (test ++ [.branch kind exit])) := by
      simp
      omega
    rw [← hthere] at hx
    exact ((hbody.rests x hx).append_right hhead hthere).append_left _
  · -- the code behind the body
    have hx : x = here + codeLength (.mark span :: emits start ++
        emits (test ++ [.branch kind exit]) ++ body) := by
      rcases hmark with rfl | rfl
      · cases hx
      · exact List.mem_singleton.1 hx
    exact (rests_end hthrough hx).append_left _
  · -- the way back to the test
    have hfront : Rests here _ _ := rests_end hfront rfl
    rw [codeLength_mark, codeLength_emits] at hfront
    exact ((hfront.append_left _).append_left _).append_left _
  · exact rests_end (hthrough.append hback) (by simp; omega)

end

theorem settled_tree :
    (∀ s : Stmt, (∀ x ∈ s.flat, x.Proper) → ∀ depth here, Settled here (s.directives depth here)) ∧
    (∀ ss : List Stmt, (∀ x ∈ flatBlock ss, x.Proper) → ∀ depth here,
      Settled here (blockDirectives depth here ss)) := by
  apply tree_induction
  case straight =>
    intro s is his hs depth here
    rw [Stmt.directives_of_straight his]
    have hlevel := Stmt.depthAfter_straight his (hs s s.mem_flat)
    rcases Stmt.onward_straight his (hs s s.mem_flat) with rfl | honward
    · exact settled_exit here _
    · exact settled_straight hlevel honward here _
  case label =>
    intro span name _ depth here
    refine ⟨rfl, fun x hx => ?_, by simp [Spelled, Stmt.directives]⟩
    rw [List.mem_singleton.1 hx]
    exact rests_start _ _
  case goto =>
    intro span name _ depth here
    refine ⟨rfl, fun x hx => ?_, by simp [Spelled, Stmt.directives]⟩
    have hx : x = here ∨ x = here + 1 := by simpa [Stmt.directives, points] using hx
    rcases hx with rfl | rfl
    · exact rests_start _ _
    · exact rests_end rfl rfl
  case cond =>
    intro span c yes no ihYes ihNo hs depth here
    obtain ⟨hc, hs⟩ := List.forall_mem_cons.1 hs
    obtain ⟨hyes, hno⟩ := List.forall_mem_append.1 hs
    have hc : c.Proper := hc
    have htest := Expr.depthAfter_code hc 0
    have hsettled := ihYes hyes depth (here + c.code.length + 1)
    cases no with
    | nil =>
      rw [Stmt.directives, ← codeLength_tree.2 yes depth (here + c.code.length + 1)]
      exact settled_if htest (Expr.onward_code hc) span hsettled
    | cons n no =>
      rw [Stmt.directives, ← codeLength_tree.2 yes depth (here + c.code.length + 1)]
      · rw [← codeLength_tree.2 (n :: no) depth]
        exact settled_ifElse htest (Expr.onward_code hc) span rfl hsettled (ihNo hno depth _)
      · exact List.cons_ne_nil n no
  case loop =>
    intro span kind body ih hs depth here
    obtain ⟨hk, hbody⟩ := List.forall_mem_cons.1 hs
    have hk : kind.Proper := hk
    rw [Stmt.directives]
    refine settled_loop (kind.depthAfter_test hk depth) (Loop.onward_test hk depth) span
      (kind.depthAfter_start hk depth) (Loop.onward_start hk depth)
      (kind.depthAfter_next hk depth) (Loop.onward_next hk depth) ?_ kind.leaving_ne ?_ (ih hbody _ _)
    · cases kind <;> simp [Loop.returnMark]
    · rw [codeLength_tree.2 body]
      rfl
  case nil =>
    intro _ depth here
    exact ⟨rfl, by simp [blockDirectives, points], by simp [Spelled, blockDirectives]⟩
  case cons =>
    intro s ss ihs ihss hs depth here
    obtain ⟨hs, hss⟩ := List.forall_mem_append.1 hs
    have hlen := codeLength_tree.1 s depth here
    refine (ihs hs depth here).append ?_
    rw [hlen]
    exact ihss hss depth _

/-! ## Programs -/

theorem depthAfter_instructions (address address' : String → Nat) (depth : Nat)
    (ds : List Directive) :
    depthAfter depth (instructions address ds) = depthAfter depth (instructions address' ds) := by
  induction ds generalizing depth with
  | nil => rfl
  | cons d ds ih =>
    cases d with
    | emit i =>
      change depthAfter depth (i :: instructions address ds) =
        depthAfter depth (i :: instructions address' ds)
      simp only [depthAfter, ih]
    | branch kind span symbol =>
      change depthAfter depth (.branch kind 0 :: instructions address ds) =
        depthAfter depth (.branch kind 0 :: instructions address' ds)
      simp only [depthAfter, ih]
    | goto span name => exact ih _
    | mark | place | label | reject => exact ih _

namespace Program

/-- The depth of the stack at an address. -/
def depthAt (p : Program) (x : Nat) : Option Nat := depthAfter 0 (p.code.toList.take x)

/-- An address where the stack is empty. The one behind the last instruction counts. -/
structure Still (p : Program) (x : Nat) : Prop where
  le_size : x ≤ p.size
  depth : p.depthAt x = some 0

/-- What keeps a program from failing by itself. -/
structure Calm (p : Program) : Prop where
  room : p.size ≤ codeLimit
  ends : p.Still p.size
  targets : ∀ (x : Nat) (kind : Branch) (target : Nat),
    p.code[x]? = some (.branch kind target) → p.Still target
  behind : ∀ (x : Nat) (kind : Branch) (target : Nat),
    p.code[x]? = some (.branch kind target) → p.Still (x + 1)
  labels : ∀ name x, p.label? name = some x → p.Still x
  marks : ∀ x span, (x, span) ∈ p.marks → p.Still x
  exits : ∀ x : Nat, p.code[x]? = some .exit → p.Still x
  proper : ∀ (x : Nat) (i : Instr), p.code[x]? = some i → i.Proper

namespace Linked

variable {p : Program} {ds : List Directive}

theorem still (h : p.Linked ds) {x : Nat} (hx : Rests 0 ds x) : p.Still x := by
  obtain ⟨front, back, rfl, rfl, hlevel⟩ := hx
  rw [Nat.zero_add]
  refine ⟨?_, ?_⟩
  · rw [h.size_eq, codeLength_append]
    exact Nat.le_add_right _ _
  · rw [depthAt, h.code, instructions_append, List.take_left' (length_instructions _ _),
      depthAfter_instructions _ (fun _ => 0)]
    exact hlevel

theorem exists_directive (h : p.Linked ds) {x : Nat} {i : Instr} (hi : p.code[x]? = some i) :
    ∃ d, (x, d) ∈ located 0 ds ∧ d.instr? (fun name => (p.label? name).getD 0) = some i := by
  rw [← Array.getElem?_toList, h.code] at hi
  exact (getElem?_instructions _).1 hi

theorem calm (h : p.Linked ds) (hds : Settled 0 ds) (hplain : ∀ d ∈ ds, d.Plain) : p.Calm where
  room := h.size_eq ▸ h.room
  ends := h.still (rests_end hds.level (by rw [h.size_eq, Nat.zero_add]))
  targets := by
    intro x kind target hx
    obtain ⟨d, hd, heq⟩ := h.exists_directive hx
    cases d with
    | emit i =>
      cases heq
      exact h.still (hds.rests _ (target_mem_points (mem_of_mem_located hd)))
    | goto span name =>
      cases heq
      have hdefined := h.defined span name (mem_of_mem_located hd)
      obtain ⟨span', hlabel⟩ := Assembly.mem_labelNames.1 hdefined
      obtain ⟨y, hy⟩ := exists_mem_located 0 hlabel
      simp only [(h.label name y).2 ⟨span', hy⟩, Option.getD_some]
      exact h.still (hds.rests _ (located_mem_points hy (.inr (.inl ⟨_, _, rfl⟩))))
    | branch => exact (hplain _ (mem_of_mem_located hd)).elim
    | mark | place | label | reject => cases heq
  behind := by
    intro x kind target hx
    obtain ⟨d, hd, heq⟩ := h.exists_directive hx
    refine h.still (hds.rests _ (behind_mem_points hd ?_))
    cases d with
    | emit i =>
      cases heq
      exact .inl ⟨_, _, rfl⟩
    | goto span name => exact .inr ⟨_, _, rfl⟩
    | branch => exact (hplain _ (mem_of_mem_located hd)).elim
    | mark | place | label | reject => cases heq
  labels := by
    intro name x hx
    obtain ⟨span, hx⟩ := (h.label name x).1 hx
    exact h.still (hds.rests _ (located_mem_points hx (.inr (.inl ⟨_, _, rfl⟩))))
  marks := by
    intro x span hx
    rw [← Array.mem_toList_iff, h.marks] at hx
    obtain ⟨⟨y, d⟩, hy, heq⟩ := List.mem_filterMap.1 hx
    cases d with
    | mark span' =>
      cases heq
      exact h.still (hds.rests _ (located_mem_points hy (.inl ⟨_, rfl⟩)))
    | _ => cases heq
  exits := by
    intro x hx
    obtain ⟨d, hd, heq⟩ := h.exists_directive hx
    cases d with
    | emit i =>
      cases heq
      exact h.still (hds.rests _ (located_mem_points hd (.inr (.inr rfl))))
    | _ => cases heq
  proper := by
    intro x i hx
    obtain ⟨d, hd, heq⟩ := h.exists_directive hx
    cases d with
    | emit j =>
      cases heq
      exact hds.spelled _ (mem_of_mem_located hd)
    | goto | branch =>
      cases heq
      trivial
    | mark | place | label | reject => cases heq

end Linked

/-! ## From address to address -/

namespace Calm

variable {p : Program} (h : p.Calm)
include h

theorem exists_depth (x : Nat) : ∃ depth, p.depthAt x = some depth := by
  have hends := h.ends.depth
  rw [depthAt, Program.size, ← Array.length_toList, List.take_length,
    ← List.take_append_drop x p.code.toList, depthAfter_append] at hends
  cases hdepth : depthAfter 0 (p.code.toList.take x) with
  | none =>
    rw [hdepth] at hends
    cases hends
  | some depth => exact ⟨depth, hdepth⟩

/-- From one address to the next the depth changes by what the instruction takes and gives. -/
theorem depth_succ {x depth : Nat} {i : Instr} (hi : p.code[x]? = some i)
    (hdepth : p.depthAt x = some depth) :
    i.takes ≤ depth ∧ p.depthAt (x + 1) = some (depth - i.takes + i.gives) := by
  obtain ⟨depth', hnext⟩ := h.exists_depth (x + 1)
  have hnext' := hnext
  rw [depthAt, List.take_add_one, Array.getElem?_toList, hi, depthAfter_append,
    ← depthAt, hdepth] at hnext'
  simp only [Option.toList_some, Option.bind_some, depthAfter] at hnext'
  split at hnext'
  · next htakes => exact ⟨htakes, hnext.trans hnext'.symm⟩
  · cases hnext'

theorem depth_le {x depth : Nat} (hdepth : p.depthAt x = some depth) :
    depth ≤ stackLimit := by
  have hle := depthAfter_le hdepth
  have hlength : (p.code.toList.take x).length ≤ p.size := List.length_take_le' x p.code.toList
  have hroom : p.size ≤ 65535 := h.room
  have hlimit : stackLimit = 65535 := rfl
  omega

end Calm

theorem calm_of_tree {ss : List Stmt} {p : Program} (hs : ∀ s ∈ flatBlock ss, s.Proper)
    (h : ofTree ss = .ok p) : p.Calm :=
  (linked_of_tree hs h).calm (settled_tree.2 ss hs 0 0) (plain_directives ss 0 0)

end Program

end Handheld
