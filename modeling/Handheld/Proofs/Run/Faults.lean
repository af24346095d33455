import Handheld.Proofs.Code.Depth
import Handheld.Proofs.Run.Transcript
import Mathlib

/-!
# What a compiled program can fail with

A machine that runs a calm program always has as many values on its stack as the
address of its next instruction says. So nothing is missing there and nothing is
too much, and the only failures left are those that depend on values: a division
by zero and an address outside memory.
-/

namespace Handheld

/-- Failures that depend on values. -/
def Cause.OfValues (c : Cause) : Prop := c = .divisionByZero ∨ ∃ a, c = .badAddress a

theorem BinaryOp.cause_eval {op : BinaryOp} {a b : Int64} {cause : Cause}
    (h : op.eval a b = .error cause) : cause.OfValues := by
  obtain ⟨-, -, rfl⟩ := BinaryOp.eval_eq_error_iff.1 h
  exact .inl rfl

namespace Stack

variable {α : Type}

theorem pop_of_pos {s : Stack α} (h : 1 ≤ s.size) :
    ∃ a t, s.pop = (some a, t) ∧ t.size = s.size - 1 := by
  obtain ⟨items, size, hsize⟩ := s
  cases items with
  | nil =>
    subst hsize
    cases h
  | cons a rest => exact ⟨a, _, rfl, rfl⟩

theorem pop2_of_two_le {s : Stack α} (h : 2 ≤ s.size) :
    ∃ a b t, s.pop2 = (some (a, b), t) ∧ t.size = s.size - 2 := by
  obtain ⟨b, t, ht, hsize⟩ := pop_of_pos (Nat.le_of_succ_le h)
  obtain ⟨a, u, hu, hsize'⟩ := pop_of_pos (s := t) (by omega)
  refine ⟨a, b, u, ?_, by omega⟩
  simp only [pop2, ht, hu]

theorem popN_of_le {s : Stack α} {n : Nat} (h : n ≤ s.size) :
    ∃ vs t, s.popN n = (some vs, t) ∧ vs.length = n ∧ t.size = s.size - n := by
  refine ⟨_, _, if_pos h, ?_, rfl⟩
  rw [List.length_reverse, List.length_take, ← s.size_eq, Nat.min_eq_left h]

end Stack

namespace Machine

/-! ## Machines with the right depth -/

/-- The machine runs the program with the depth that belongs to the address, or it is over. -/
structure Steady (p : Program) (m : Machine) : Prop where
  program : m.program = p
  running : m.status = .running → m.pc ≤ p.size ∧ p.depthAt m.pc = some m.stack.size
  halted : m.status = .halted → m.stack.size = 0

/-- What a step may come to. -/
structure Sound (p : Program) (e : Event) (m : Machine) : Prop where
  steady : m.Steady p
  fault : ∀ d, e = .fault d → d.cause.OfValues

variable {p : Program} {m : Machine}

/-- The machine runs the program, and there is an instruction at the program counter. -/
structure Busy (p : Program) (m : Machine) : Prop where
  program : m.program = p
  status : m.status = .running
  pc_lt : m.pc < p.size

theorem Busy.withStack (h : m.Busy p) (stack : Stack Int64) : Busy p { m with stack } :=
  ⟨h.program, h.status, h.pc_lt⟩

theorem Busy.withMemory (h : m.Busy p) (memory : Memory) : Busy p { m with memory } :=
  ⟨h.program, h.status, h.pc_lt⟩

/-! ## Ends of an instruction -/

theorem sound_next (h : m.Busy p) (hdepth : p.depthAt (m.pc + 1) = some m.stack.size) :
    m.next.Always (Sound p) := by
  change Sound p .running _
  refine ⟨⟨h.program, fun _ => ⟨h.pc_lt, hdepth⟩, fun hs => ?_⟩, fun d hd => ?_⟩
  · rw [h.status] at hs
    cases hs
  · cases hd

theorem sound_fault (h : m.Busy p) {cause : Cause} (hcause : cause.OfValues) :
    (m.fault cause).Always (Sound p) := by
  change Sound p (.fault (m.program.locate m.pc cause)) _
  refine ⟨⟨h.program, fun hs => ?_, fun hs => ?_⟩, fun d hd => ?_⟩
  · cases hs
  · cases hs
  · cases hd
    rwa [Program.cause_locate]

theorem sound_jump (h : m.Busy p) (hstack : m.stack.size = 0) {target : Nat}
    (htarget : p.Still target) : (m.jump target).Always (Sound p) := by
  have hle : target ≤ m.program.size := h.program ▸ htarget.le_size
  rw [jump, if_pos hle]
  change Sound p .running _
  refine ⟨⟨h.program, fun _ => ⟨htarget.le_size, ?_⟩, fun hs => ?_⟩, fun d hd => ?_⟩
  · rw [htarget.depth, hstack]
  · rw [h.status] at hs
    cases hs
  · cases hd

theorem sound_push (hp : p.Calm) (h : m.Busy p) (v : Int64)
    (hdepth : p.depthAt (m.pc + 1) = some (m.stack.size + 1)) : (m.push v).Always (Sound p) := by
  have hroom : ¬ stackLimit < m.stack.size + 1 := Nat.not_lt.2 (hp.depth_le hdepth)
  have hover : (m.stack.push v).overflows = false := decide_eq_false hroom
  rw [push]
  simp only [hover]
  exact sound_next (h.withStack _) hdepth

/-! ## Operands -/

theorem sound_withTop {k : Machine → Int64 → Action} (hsize : 1 ≤ m.stack.size)
    (hk : ∀ stack v, stack.size = m.stack.size - 1 →
      (k { m with stack } v).Always (Sound p)) : (m.withTop k).Always (Sound p) := by
  obtain ⟨v, stack, hpop, hstack⟩ := Stack.pop_of_pos hsize
  rw [withTop, hpop]
  exact hk stack v hstack

theorem sound_withPair {k : Machine → Int64 → Int64 → Action} (hsize : 2 ≤ m.stack.size)
    (hk : ∀ stack a b, stack.size = m.stack.size - 2 →
      (k { m with stack } a b).Always (Sound p)) : (m.withPair k).Always (Sound p) := by
  obtain ⟨a, b, stack, hpop, hstack⟩ := Stack.pop2_of_two_le hsize
  rw [withPair, hpop]
  exact hk stack a b hstack

theorem sound_withAddress {a : Int64} {width : Width}
    {k : (a : Nat) → a + width.bytes ≤ memorySize → Action} (h : m.Busy p)
    (hk : ∀ a ha, (k a ha).Always (Sound p)) : (m.withAddress a width k).Always (Sound p) := by
  unfold withAddress
  split
  · exact hk _ _
  · exact sound_fault h (.inr ⟨a, rfl⟩)

theorem sound_withVariable {name : Char} {k : (a : Nat) → a + 2 ≤ memorySize → Action}
    (hname : name.isUpper) (hk : ∀ a ha, (k a ha).Always (Sound p)) :
    (m.withVariable name k).Always (Sound p) := by
  obtain ⟨a, ha⟩ := variableAddress?_isSome hname
  unfold withVariable
  split
  · exact hk _ _
  · next hnone => cases hnone.symm.trans ha

/-! ## Instructions -/

theorem sound_exec (hp : p.Calm) (h : m.Busy p) {i : Instr} (hi : p.code[m.pc]? = some i)
    (hdepth : p.depthAt m.pc = some m.stack.size) : (m.exec i).Always (Sound p) := by
  obtain ⟨htakes, hnext⟩ := hp.depth_succ hi hdepth
  have hproper := hp.proper _ _ hi
  -- The stack is empty in front of a jump, and behind a test.
  have hjump : ∀ {kind target}, i = .branch kind target →
      p.Still target ∧ m.stack.size - i.takes = 0 := by
    rintro kind target rfl
    have hbehind := hnext.symm.trans (hp.behind _ _ _ hi).depth
    exact ⟨hp.targets _ _ _ hi, Option.some.inj hbehind⟩
  cases i with
  | literal n => exact sound_push hp h n hnext
  | push name => exact sound_withVariable hproper fun a ha => sound_push hp h _ hnext
  | pop name =>
    rw [exec]
    refine sound_withVariable hproper fun a ha => sound_withTop htakes fun stack v hstack => ?_
    exact sound_next ((h.withStack _).withMemory _) (hnext.trans (by rw [hstack]; rfl))
  | peek width =>
    rw [exec]
    refine sound_withTop htakes fun stack a hstack => ?_
    refine sound_withAddress (h.withStack _) fun a ha => ?_
    exact sound_push hp (h.withStack _) _ (hnext.trans (by rw [hstack]; rfl))
  | poke width =>
    rw [exec]
    simp only [Instr.takes] at htakes
    refine sound_withTop (Nat.le_of_succ_le htakes) fun stack a hstack => ?_
    refine sound_withTop (by simp only [hstack]; omega) fun stack' v hstack' => ?_
    refine sound_withAddress ((h.withStack _).withStack _) fun a ha => ?_
    refine sound_next (((h.withStack _).withStack _).withMemory _) (hnext.trans ?_)
    simp only [hstack', hstack]
    rfl
  | dup =>
    rw [exec]
    refine sound_withTop htakes fun stack v hstack => ?_
    refine sound_push hp ((h.withStack _).withStack _) v (hnext.trans ?_)
    change some (m.stack.size - 1 + 2) = some (stack.size + 1 + 1)
    rw [hstack]
  | mask =>
    rw [exec]
    refine sound_withTop htakes fun stack v hstack => ?_
    exact sound_push hp (h.withStack _) _ (hnext.trans (by rw [hstack]; rfl))
  | branch kind target =>
    obtain ⟨hstill, hempty⟩ := hjump rfl
    cases kind with
    | always => exact sound_jump h hempty hstill
    | ifTrue =>
      rw [exec]
      refine sound_withTop htakes fun stack v hstack => ?_
      split
      · exact sound_next (h.withStack _) (hnext.trans (by rw [hstack]; rfl))
      · exact sound_jump (h.withStack _) (hstack.trans hempty) hstill
    | ifFalse =>
      rw [exec]
      refine sound_withTop htakes fun stack v hstack => ?_
      split
      · exact sound_jump (h.withStack _) (hstack.trans hempty) hstill
      · exact sound_next (h.withStack _) (hnext.trans (by rw [hstack]; rfl))
  | disp | pause =>
    rw [exec]
    refine sound_withTop htakes fun stack v hstack answer => ?_
    exact sound_next (h.withStack _) (hnext.trans (by rw [hstack]; rfl))
  | draw graphic surface =>
    have htakes : graphic.arity ≤ m.stack.size := htakes
    obtain ⟨vs, stack, hpop, hlength, hstack⟩ := Stack.popN_of_le htakes
    have hsome := Drawing.isSome_ofArguments? graphic vs
    rw [hlength, beq_self_eq_true] at hsome
    obtain ⟨drawing, hdrawing⟩ := Option.isSome_iff_exists.1 hsome
    rw [exec, hpop]
    simp only [hdrawing]
    exact fun _ => sound_next (h.withStack _) (hnext.trans (by rw [hstack]; rfl))
  | dispGraph shade => exact fun _ => sound_next h hnext
  | debug =>
    rw [exec]
    refine sound_withTop htakes fun stack v hstack => ?_
    exact sound_next ⟨h.program, h.status, h.pc_lt⟩ (hnext.trans (by rw [hstack]; rfl))
  | exit =>
    have hempty := hdepth.symm.trans (hp.exits _ hi).depth
    change Sound p .exit _
    refine ⟨⟨h.program, fun hs => ?_, fun _ => Option.some.inj hempty⟩, fun d hd => ?_⟩
    · cases hs
    · cases hd
  | help | about =>
    change Sound p _ _
    refine ⟨⟨h.program, fun _ => ⟨h.pc_lt, hnext⟩, fun hs => ?_⟩, fun d hd => ?_⟩
    · rw [h.status] at hs
      cases hs
    · cases hd
  | negate =>
    rw [exec]
    refine sound_withTop htakes fun stack v hstack => ?_
    exact sound_push hp (h.withStack _) _ (hnext.trans (by rw [hstack]; rfl))
  | binary op =>
    rw [exec]
    refine sound_withPair htakes fun stack a b hstack => ?_
    split
    · exact sound_push hp (h.withStack _) _ (hnext.trans (by rw [hstack]; rfl))
    · next heval => exact sound_fault (h.withStack _) (BinaryOp.cause_eval heval)
  | getKey =>
    rw [exec]
    refine sound_withTop htakes fun stack code hstack => ?_
    split
    · exact fun pressed => sound_push hp (h.withStack _) _ (hnext.trans (by rw [hstack]; rfl))
    · exact sound_push hp (h.withStack _) _ (hnext.trans (by rw [hstack]; rfl))
  | rand => exact fun r => sound_push hp h _ hnext
  | pxlTest surface =>
    rw [exec]
    refine sound_withPair htakes fun stack x y hstack lit => ?_
    exact sound_push hp (h.withStack _) _ (hnext.trans (by rw [hstack]; rfl))

/-! ## Steps -/

theorem steady_load (p : Program) (m : Machine) : (m.load p).Steady p where
  program := rfl
  running := fun _ => ⟨Nat.zero_le _, rfl⟩
  halted := nofun

theorem Steady.step (hp : p.Calm) (h : m.Steady p) : m.step.Always (Sound p) := by
  by_cases hrun : m.status = .running
  · obtain ⟨hpc, hdepth⟩ := h.running hrun
    have hcode : m.program.code = p.code := congrArg Program.code h.program
    rw [Machine.step, if_pos hrun, hcode]
    cases hi : p.code[m.pc]? with
    | none =>
      have hend : m.pc = p.size := Nat.le_antisymm hpc (Array.getElem?_eq_none_iff.1 hi)
      have hempty := hdepth.symm.trans (hend ▸ hp.ends.depth)
      refine ⟨⟨h.program, fun hs => ?_, fun _ => Option.some.inj hempty⟩, fun d hd => ?_⟩
      · cases hs
      · cases hd
    | some i =>
      have hbusy : m.Busy p := ⟨h.program, hrun, (Array.getElem?_eq_some_iff.1 hi).1⟩
      have hexec := sound_exec hp hbusy hi hdepth
      dsimp only
      split
      · exact fun _ => hexec
      · exact hexec
  · rw [step_of_over hrun]
    refine ⟨h, fun d hd => ?_⟩
    cases hd

theorem Steady.after (hp : p.Calm) {σ : Type} (d : Device σ) (n : Nat) {m : Machine} {s : σ}
    (h : m.Steady p) : (m.after d n s).1.Steady p :=
  after_induction (fun _ hm => (Steady.step hp hm).mono fun _ _ hsound => hsound.steady) d n m s h

end Machine

/-! ## Compiled programs -/

/-- A compiled program has one depth of the stack at each of its addresses, on whatever way it gets
there. The stack is empty where a branch leads, at labels, where statements begin, and when the
program has stopped. A step fails only by a division by zero or by an address outside memory. -/
theorem compiled_fails_by_values {source : String} {p : Program} (h : compile source = .ok p) :
    (∀ {σ : Type} (d : Device σ) (m : Machine) (s : σ) (n : Nat),
      let (m', s') := (m.load p).after d n s
      (m'.status = .running → m'.pc ≤ p.size ∧ p.depthAt m'.pc = some m'.stack.size) ∧
      (m'.status = .halted → m'.stack.isEmpty) ∧
      ∀ e, (m'.step.perform d s').1 = .fault e →
        e.cause = .divisionByZero ∨ ∃ a, e.cause = .badAddress a) ∧
    (∀ x, ∃ depth, p.depthAt x = some depth) ∧
    (∀ (x : Nat) (kind : Branch) (target : Nat), p.code[x]? = some (.branch kind target) →
      target ≤ p.size ∧ p.depthAt target = some 0) ∧
    (∀ name x, p.label? name = some x → p.depthAt x = some 0) ∧
    ∀ x span, (x, span) ∈ p.marks → p.depthAt x = some 0 := by
  obtain ⟨ss, hwritten, htree⟩ := tree_of_compile h
  have hp := Program.calm_of_tree hwritten.proper htree
  refine ⟨?_, hp.exists_depth, ?_, ?_, ?_⟩
  · intro σ d m s n
    have hsteady := Machine.Steady.after hp d n (s := s) (Machine.steady_load p m)
    refine ⟨hsteady.running, fun hhalt => ?_, fun e he => ?_⟩
    · exact beq_iff_eq.2 (hsteady.halted hhalt)
    · exact ((Machine.Steady.step hp hsteady).perform d _).fault e he
  · intro x kind target hx
    have hstill := hp.targets x kind target hx
    exact ⟨hstill.le_size, hstill.depth⟩
  · exact fun name x hx => (hp.labels name x hx).depth
  · exact fun x span hx => (hp.marks x span hx).depth

theorem compiled_fails_by_values_loop :
    ∃ p, compile "Repeat A\nDisp 1/B\nEnd" = .ok p ∧ ∀ x, ∃ depth, p.depthAt x = some depth := by
  obtain ⟨p, hp⟩ := exists_of_isOk (x := compile "Repeat A\nDisp 1/B\nEnd") (by cbv)
  exact ⟨p, hp, (compiled_fails_by_values hp).2.1⟩

end Handheld
