import Handheld.Proofs.Run.Control
import Handheld.Proofs.Run.Course

/-!
# What a failure leaves alone

An instruction that fails has taken values off the stack and has done nothing
else. It calls the device only when nothing can go wrong any more: what it pops
makes room for what it pushes. The one exception is the instruction for a random
number, which takes nothing off a stack that may be full.
-/

namespace Handheld

variable {σ : Type}

/-! ## Calls before a failure -/

theorem Event.running_ne_fault (d : Diagnostic) : Event.running ≠ .fault d := nofun

namespace Action

/-- Once the action has called the device, it does not fail any more. -/
def Careful : Action → Prop
  | .done _ _ => True
  | .call _ resume => ∀ answer, (resume answer).Always fun e _ => ∀ d, e ≠ .fault d

/-- So an action that has failed has made no calls. -/
theorem Careful.chronicle_eq {a : Action} (h : a.Careful) {d : Device σ} {s : σ} {e : Diagnostic}
    (hfault : (a.perform d s).1 = .fault e) : a.chronicle d s = [.event (.fault e)] := by
  cases a with
  | done event m => exact congrArg (fun e => [Observation.event e]) hfault
  | call c resume => exact absurd hfault ((h (d.perform c s).1).perform d (d.perform c s).2 e)

end Action

namespace Machine

variable {m : Machine}

theorem careful_push (v : Int64) : (m.push v).Careful := by
  unfold push
  dsimp only
  split <;> trivial

theorem careful_jump (target : Nat) : (m.jump target).Careful := by
  unfold jump
  split <;> trivial

theorem careful_withTop {k : Machine → Int64 → Action}
    (hk : ∀ stack v, stack.size + 1 = m.stack.size → (k { m with stack } v).Careful) :
    (m.withTop k).Careful :=
  withTop_of (fun _ _ => trivial) fun _ _ hpop => hk _ _ (Stack.size_of_pop hpop)

theorem careful_withPair {k : Machine → Int64 → Int64 → Action}
    (hk : ∀ stack a b, stack.size + 2 = m.stack.size → (k { m with stack } a b).Careful) :
    (m.withPair k).Careful :=
  withPair_of (fun _ _ => trivial) fun _ _ _ hpop => hk _ _ _ (Stack.size_of_pop2 hpop)

theorem careful_withAddress {a : Int64} {width : Width}
    {k : (a : Nat) → a + width.bytes ≤ memorySize → Action} (hk : ∀ a ha, (k a ha).Careful) :
    (m.withAddress a width k).Careful :=
  withAddress_of (fun _ _ => trivial) fun _ _ _ => hk _ _

theorem careful_withVariable {name : Char} {k : (a : Nat) → a + 2 ≤ memorySize → Action}
    (hk : ∀ a ha, (k a ha).Careful) : (m.withVariable name k).Careful :=
  withVariable_of (fun _ _ => trivial) fun _ _ _ => hk _ _

theorem push_succeeds (hroom : m.stack.size + 1 ≤ stackLimit) (v : Int64) :
    (m.push v).Always fun e _ => ∀ d, e ≠ .fault d := by
  rw [(m.push_eq_done v).2 hroom]
  exact Event.running_ne_fault

theorem careful_exec (hroom : m.stack.size ≤ stackLimit) {i : Instr} (hi : i ≠ .rand) :
    (m.exec i).Careful := by
  cases i with
  | literal n => exact careful_push n
  | push name =>
    rw [exec]
    exact careful_withVariable fun _ _ => careful_push _
  | pop name =>
    rw [exec]
    exact careful_withVariable fun _ _ => careful_withTop fun _ _ _ => trivial
  | peek width =>
    rw [exec]
    exact careful_withTop fun _ _ _ => careful_withAddress fun _ _ => careful_push _
  | poke width =>
    rw [exec]
    refine careful_withTop fun _ _ _ => careful_withTop fun _ _ _ => ?_
    exact careful_withAddress fun _ _ => trivial
  | dup | mask | negate =>
    rw [exec]
    exact careful_withTop fun _ _ _ => careful_push _
  | branch kind target =>
    cases kind with
    | always => exact careful_jump target
    | ifTrue =>
      rw [exec]
      refine careful_withTop fun _ _ _ => ?_
      split
      · trivial
      · exact careful_jump target
    | ifFalse =>
      rw [exec]
      refine careful_withTop fun _ _ _ => ?_
      split
      · exact careful_jump target
      · trivial
  | disp | pause =>
    rw [exec]
    exact careful_withTop fun _ _ _ _ => Event.running_ne_fault
  | draw graphic surface =>
    rw [exec]
    split
    · trivial
    · split
      · exact fun _ => Event.running_ne_fault
      · trivial
  | dispGraph shade => exact fun _ => Event.running_ne_fault
  | debug =>
    rw [exec]
    exact careful_withTop fun _ _ _ => trivial
  | exit | help | about => trivial
  | binary op =>
    rw [exec]
    refine careful_withPair fun _ _ _ _ => ?_
    split
    · exact careful_push _
    · trivial
  | getKey =>
    rw [exec]
    refine careful_withTop fun stack _ hs => ?_
    split
    · exact fun _ => push_succeeds (m := { m with stack }) (hs ▸ hroom) _
    · exact careful_push _
  | rand => exact absurd rfl hi
  | pxlTest surface =>
    rw [exec]
    refine careful_withPair fun stack _ _ hs _ => push_succeeds (m := { m with stack }) ?_ _
    change stack.size + 1 ≤ stackLimit
    omega

theorem chronicle_exec_of_fault (hroom : m.stack.size ≤ stackLimit) {i : Instr} {d : Device σ}
    {s : σ} {e : Diagnostic} (hfault : ((m.exec i).perform d s).1 = .fault e) :
    ∃ os, (m.exec i).chronicle d s = os ++ [.event (.fault e)] ∧
      (os = [] ∨
        i = .rand ∧ m.stack.size = stackLimit ∧ ∃ r : UInt16, os = [.exchange .random r]) := by
  by_cases hi : i = .rand
  · -- the device has been asked before it turns out that there is no room
    subst hi
    have hfull : m.stack.size = stackLimit := by
      by_contra hne
      have hpush := push_succeeds (m := m) (by omega) (Int64.ofNat (d.perform .random s).1.toNat)
      exact hpush.perform d (d.perform .random s).2 e hfault
    have hpush := (careful_push (m := m) _).chronicle_eq hfault
    exact ⟨[.exchange .random (d.perform .random s).1], congrArg (_ :: ·) hpush,
      .inr ⟨rfl, hfull, _, rfl⟩⟩
  · exact ⟨[], (careful_exec hroom hi).chronicle_eq hfault, .inl rfl⟩

/-! ## Records -/

/-- The device when it has the record of the instruction, if there is to be one. -/
def logged (d : Device σ) (m : Machine) (i : Instr) (s : σ) : σ :=
  if m.debug then (d.perform (.log (m.record i)) s).2 else s

theorem perform_step (hrun : m.status = .running) {i : Instr}
    (hi : m.program.code[m.pc]? = some i) (d : Device σ) (s : σ) :
    m.step.perform d s = (m.exec i).perform d (m.logged d i s) := by
  rw [step_eq_exec hrun hi, logged]
  split <;> rfl

theorem chronicle_step (hrun : m.status = .running) {i : Instr}
    (hi : m.program.code[m.pc]? = some i) (d : Device σ) (s : σ) :
    m.step.chronicle d s = (if m.debug then [.exchange (.log (m.record i)) ()] else []) ++
      (m.exec i).chronicle d (m.logged d i s) := by
  rw [step_eq_exec hrun hi, logged]
  split <;> rfl

end Machine

/-! ## Failures -/

/-- A step that fails, of a machine that any host has come to with any code. Memory, the debug flag
and the program are as they were, and the program counter is behind the instruction that failed. The
device has seen a record of that instruction, if the log is on, and otherwise nothing but a question
for a random number, and that only if there was no room for it. -/
theorem failure_spares_rest {m : Machine} (h : m.Reachable) (d : Device σ) (s : σ) {e : Diagnostic}
    (hfault : (m.step.perform d s).1 = .fault e) :
    let m' := (m.step.perform d s).2.1
    m'.memory = m.memory ∧ m'.debug = m.debug ∧ m'.program = m.program ∧ m'.status = .faulted ∧
    m'.pc = m.pc + 1 ∧ e.address = some m.pc ∧
    ∃ i os, m.program.code[m.pc]? = some i ∧
      m.step.chronicle d s =
        (if m.debug then [.exchange (.log (m.record i)) ()] else []) ++ os ++ [.event (.fault e)] ∧
      (os = [] ∨
        i = .rand ∧ m.stack.size = stackLimit ∧ ∃ r : UInt16, os = [.exchange .random r]) := by
  have hrun : m.status = .running := by
    by_contra hover
    rw [Machine.step_of_over hover] at hfault
    cases hfault
  have hmoves := (Machine.moves_step hrun).perform d s
  have hfaulted : (m.step.perform d s).2.1.status = .faulted := by
    rw [hmoves.status, hfault]
    rfl
  obtain ⟨hmemory, hdebug, hpc⟩ := hmoves.faulted hfaulted
  obtain ⟨cause, rfl⟩ := hmoves.located e hfault
  have haddress : (m.program.locate m.pc cause).address = some m.pc := by
    unfold Program.locate
    split <;> rfl
  refine ⟨hmemory, hdebug, hmoves.program, hfaulted, hpc, haddress, ?_⟩
  cases hi : m.program.code[m.pc]? with
  | none =>
    rw [Machine.step_behind hrun hi] at hfault
    cases hfault
  | some i =>
    rw [Machine.perform_step hrun hi] at hfault
    obtain ⟨os, hos, honly⟩ := Machine.chronicle_exec_of_fault (h.safe.room hrun) hfault
    refine ⟨i, os, rfl, ?_, honly⟩
    rw [Machine.chronicle_step hrun hi, hos, List.append_assoc]

/-- With the log on, a word is to be stored below memory. Both of its operands are gone by then. -/
theorem failure_spares_rest_below :
    let d := Recorder.device
    let p : Program := { code := #[.literal 1, .debug, .literal 7, .literal (-1), .poke .word] }
    let m := ((Machine.fresh.serve d (.load p) {}).2.1.serve d (.execute 4) {}).2.1
    let m' := (m.step.perform d {}).2.1
    (m.step.perform d {}).1 = .fault (p.locate 4 (.badAddress (-1))) ∧
    m'.memory = m.memory ∧ m'.debug = true ∧ m'.pc = 5 ∧ m'.stack.isEmpty ∧
    m.step.chronicle d {} = [.exchange (.log "    4 POKE^^R        [7, -1]") (),
      .event (.fault (p.locate 4 (.badAddress (-1))))] := by
  intro d p m m'
  have hreach : m.Reachable := .serve (.serve .fresh d (.load p) {}) d (.execute 4) {}
  have hfault : (m.step.perform d {}).1 = .fault (p.locate 4 (.badAddress (-1))) := by
    decide +kernel
  have hpc : m.pc = 4 := by decide +kernel
  have hdebug : m.debug = true := by decide +kernel
  have hcode : m.program.code[m.pc]? = some (.poke .word) := by decide +kernel
  have hrecord : m.record (.poke .word) = "    4 POKE^^R        [7, -1]" := by decide +kernel
  have hempty : m'.stack.isEmpty := by decide +kernel
  obtain ⟨hmemory, hkept, -, -, hnext, -, i, os, hi, hos, honly⟩ :=
    failure_spares_rest hreach d {} hfault
  cases hcode.symm.trans hi
  rcases honly with rfl | ⟨hrand, -⟩
  · rw [hdebug, if_pos rfl, hrecord] at hos
    exact ⟨hfault, hmemory, hkept.trans hdebug, hnext.trans (congrArg (· + 1) hpc), hempty, hos⟩
  · cases hrand

end Handheld
