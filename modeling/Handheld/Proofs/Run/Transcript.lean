import Handheld.Machine.Run
import Handheld.Proofs.Run.Script

/-!
# What a machine shows on a device

A machine takes step after step, and its transcript lists the calls with their
answers and the events, in order. Records for the log are left out of it. A
machine that is over shows nothing more.
-/

namespace Handheld

variable {σ : Type}

theorem Program.cause_locate (p : Program) (address : Nat) (cause : Cause) :
    (p.locate address cause).cause = cause := by
  unfold Program.locate
  split <;> rfl

def Call.isLog : Call → Bool
  | .log _ => true
  | _ => false

/-! ## Actions -/

namespace Action

/-- What is seen of an action that is carried out on a device. -/
def transcript (d : Device σ) : Action → σ → List Observation
  | .done event _, _ => if event = .running then [] else [.event event]
  | .call c resume, s =>
    let (answer, s) := d.perform c s
    let rest := (resume answer).transcript d s
    if c.isLog then rest else .exchange c answer :: rest

/-- An action as a script, with nothing written to the log. -/
def script : Action → Script Machine
  | .done event m => if event = .running then .done m else .tell event (.done m)
  | .call (.log _) resume => (resume ()).script
  | .call c resume => .call c fun answer => (resume answer).script

theorem script_call {c : Call} (hc : c.isLog = false) (resume : c.Answer → Action) :
    (call c resume).script = .call c fun answer => (resume answer).script := by
  cases c <;> first | rfl | simp [Call.isLog] at hc

theorem script_shows (d : Device σ) (a : Action) (s : σ) :
    a.script.Shows (a.transcript d s) (a.perform d s).2.1 := by
  induction a generalizing s with
  | done event m =>
    simp only [script, transcript, perform]
    split
    · exact .done m
    · exact .tell (.done m)
  | call c resume ih =>
    cases hc : c.isLog with
    | false =>
      rw [script_call hc]
      simp only [transcript, perform, hc]
      exact .call (ih _ _)
    | true =>
      -- The answer to a record is the only one there is.
      cases c with
      | log text =>
        simp only [script, transcript, perform, hc]
        exact ih _ _
      | _ => simp [Call.isLog] at hc

/-- However its calls are answered, the action ends with an event and a machine for which `P`
holds. -/
def Always (P : Event → Machine → Prop) : Action → Prop
  | .done event m => P event m
  | .call _ resume => ∀ answer, (resume answer).Always P

theorem Always.perform {P : Event → Machine → Prop} {a : Action} (h : a.Always P)
    (d : Device σ) (s : σ) : P (a.perform d s).1 (a.perform d s).2.1 := by
  induction a generalizing s with
  | done event m => exact h
  | call c resume ih => exact ih _ (h _) _

theorem Always.mono {P Q : Event → Machine → Prop} {a : Action} (h : a.Always P)
    (hPQ : ∀ e m, P e m → Q e m) : a.Always Q := by
  induction a with
  | done event m => exact hPQ _ _ h
  | call c resume ih => exact fun answer => ih answer (h answer)

theorem perform_of_mem {d : Device σ} {a : Action} {s : σ} {e : Event}
    (h : .event e ∈ a.transcript d s) : (a.perform d s).1 = e := by
  induction a generalizing s with
  | done event m =>
    rw [transcript] at h
    split at h
    · cases h
    · cases List.mem_singleton.1 h
      rfl
  | call c resume ih =>
    rw [transcript] at h
    dsimp only at h
    split at h
    · exact ih _ h
    · rcases List.mem_cons.1 h with heq | h
      · cases heq
      · exact ih _ h

end Action

namespace Machine

/-! ## Operands -/

section

variable {Q : Action → Prop} {m : Machine} (hfault : ∀ stack cause, Q (fault { m with stack } cause))
include hfault

theorem withTop_of {k : Machine → Int64 → Action}
    (hk : ∀ stack v, m.stack.pop = (some v, stack) → Q (k { m with stack } v)) :
    Q (m.withTop k) := by
  unfold withTop
  split
  · next hpop => exact hk _ _ hpop
  · exact hfault _ _

theorem withPair_of {k : Machine → Int64 → Int64 → Action}
    (hk : ∀ stack a b, m.stack.pop2 = (some (a, b), stack) → Q (k { m with stack } a b)) :
    Q (m.withPair k) := by
  unfold withPair
  split
  · next hpop => exact hk _ _ _ hpop
  · exact hfault _ _

theorem withAddress_of {a : Int64} {width : Width}
    {k : (a : Nat) → a + width.bytes ≤ memorySize → Action}
    (hk : ∀ (b : Nat) hb, a.toInt = b → Q (k b hb)) : Q (m.withAddress a width k) := by
  unfold withAddress
  split
  · next hthere => exact hk _ _ (Int.toNat_of_nonneg hthere.1).symm
  · exact hfault m.stack _

theorem withVariable_of {name : Char} {k : (a : Nat) → a + 2 ≤ memorySize → Action}
    (hk : ∀ a ha, variableAddress? name = some a → Q (k a ha)) : Q (m.withVariable name k) := by
  unfold withVariable
  split
  · next ha => exact hk _ _ ha
  · exact hfault m.stack _

end

section

variable {R : Action → Action → Prop} (n m : Machine)

theorem withTop_both (hstack : n.stack = m.stack)
    (hfault : ∀ stack cause, R (fault { n with stack } cause) (fault { m with stack } cause))
    {f g : Machine → Int64 → Action}
    (hf : ∀ stack v, R (f { n with stack } v) (g { m with stack } v)) :
    R (n.withTop f) (m.withTop g) := by
  rw [withTop, withTop, hstack]
  rcases m.stack.pop with ⟨_ | v, stack⟩
  · exact hfault stack _
  · exact hf stack v

theorem withPair_both (hstack : n.stack = m.stack)
    (hfault : ∀ stack cause, R (fault { n with stack } cause) (fault { m with stack } cause))
    {f g : Machine → Int64 → Int64 → Action}
    (hf : ∀ stack a b, R (f { n with stack } a b) (g { m with stack } a b)) :
    R (n.withPair f) (m.withPair g) := by
  rw [withPair, withPair, hstack]
  rcases m.stack.pop2 with ⟨_ | ⟨a, b⟩, stack⟩
  · exact hfault stack _
  · exact hf stack a b

theorem withAddress_both (hfault : ∀ cause, R (n.fault cause) (m.fault cause)) {a : Int64}
    {width : Width} {f g : (a : Nat) → a + width.bytes ≤ memorySize → Action}
    (hf : ∀ a ha, R (f a ha) (g a ha)) : R (n.withAddress a width f) (m.withAddress a width g) := by
  unfold withAddress
  split
  · exact hf _ _
  · exact hfault _

theorem withVariable_both (hfault : ∀ cause, R (n.fault cause) (m.fault cause)) {name : Char}
    {f g : (a : Nat) → a + 2 ≤ memorySize → Action} (hf : ∀ a ha, R (f a ha) (g a ha)) :
    R (n.withVariable name f) (m.withVariable name g) := by
  unfold withVariable
  split
  · exact hf _ _
  · exact hfault _

end

/-! ## Ends of an instruction -/

section

variable {P : Event → Machine → Prop} {m : Machine} (hfault : ∀ d m, P (.fault d) m)
include hfault

theorem always_withTop {k : Machine → Int64 → Action} (hk : ∀ m v, (k m v).Always P) :
    (m.withTop k).Always P :=
  withTop_of (fun _ _ => hfault _ _) fun _ _ _ => hk _ _

theorem always_withPair {k : Machine → Int64 → Int64 → Action} (hk : ∀ m a b, (k m a b).Always P) :
    (m.withPair k).Always P :=
  withPair_of (fun _ _ => hfault _ _) fun _ _ _ _ => hk _ _ _

theorem always_withAddress {a : Int64} {width : Width}
    {k : (a : Nat) → a + width.bytes ≤ memorySize → Action} (hk : ∀ a h, (k a h).Always P) :
    (m.withAddress a width k).Always P :=
  withAddress_of (fun _ _ => hfault _ _) fun _ _ _ => hk _ _

theorem always_withVariable {name : Char} {k : (a : Nat) → a + 2 ≤ memorySize → Action}
    (hk : ∀ a h, (k a h).Always P) : (m.withVariable name k).Always P :=
  withVariable_of (fun _ _ => hfault _ _) fun _ _ _ => hk _ _

variable (hnext : ∀ m, P .running m)
include hnext

theorem always_push (v : Int64) : (m.push v).Always P := by
  unfold push
  dsimp only
  split
  · exact hfault _ _
  · exact hnext _

theorem always_jump (target : Nat) : (m.jump target).Always P := by
  unfold jump
  split
  · exact hnext _
  · exact hfault _ _

theorem always_exec (hexit : ∀ m, P .exit m) (hhelp : ∀ m, P .help m) (habout : ∀ m, P .about m)
    (i : Instr) : (m.exec i).Always P := by
  have hpush : ∀ (m : Machine) v, (m.push v).Always P := fun _ => always_push hfault hnext
  have hjump : ∀ (m : Machine) x, (m.jump x).Always P := fun _ => always_jump hfault hnext
  cases i with
  | literal n => exact hpush _ _
  | push name =>
    rw [exec]
    exact always_withVariable hfault fun _ _ => hpush _ _
  | pop name =>
    rw [exec]
    refine always_withVariable hfault fun _ _ => always_withTop hfault fun _ _ => ?_
    exact hnext _
  | peek width =>
    rw [exec]
    exact always_withTop hfault fun _ _ => always_withAddress hfault fun _ _ => hpush _ _
  | poke width =>
    rw [exec]
    refine always_withTop hfault fun _ _ => always_withTop hfault fun _ _ => ?_
    exact always_withAddress hfault fun _ _ => hnext _
  | dup | mask | negate =>
    rw [exec]
    exact always_withTop hfault fun _ _ => hpush _ _
  | branch kind target =>
    cases kind with
    | always => exact hjump _ _
    | ifTrue =>
      rw [exec]
      refine always_withTop hfault fun _ _ => ?_
      split
      · exact hnext _
      · exact hjump _ _
    | ifFalse =>
      rw [exec]
      refine always_withTop hfault fun _ _ => ?_
      split
      · exact hjump _ _
      · exact hnext _
  | disp | pause =>
    rw [exec]
    refine always_withTop hfault fun _ _ _ => ?_
    exact hnext _
  | debug =>
    rw [exec]
    refine always_withTop hfault fun _ _ => ?_
    exact hnext _
  | draw graphic surface =>
    rw [exec]
    split
    · exact hfault _ _
    · split
      · exact fun _ => hnext _
      · exact hfault _ _
  | dispGraph shade => exact fun _ => hnext _
  | exit => exact hexit _
  | help => exact hhelp _
  | about => exact habout _
  | binary op =>
    rw [exec]
    refine always_withPair hfault fun _ _ _ => ?_
    split
    · exact hpush _ _
    · exact hfault _ _
  | getKey =>
    rw [exec]
    refine always_withTop hfault fun _ _ => ?_
    split
    · exact fun _ => hpush _ _
    · exact hpush _ _
  | rand => exact fun _ => hpush _ _
  | pxlTest surface =>
    rw [exec]
    exact always_withPair hfault fun _ _ _ _ => hpush _ _

end

/-! ## Step after step -/

/-- The machine and its device after `n` steps, whatever events they bring. -/
def after (d : Device σ) : Nat → Machine → σ → Machine × σ
  | 0, m, s => (m, s)
  | n + 1, m, s => after d n (m.step.perform d s).2.1 (m.step.perform d s).2.2

/-- What is seen of `n` steps on a device. -/
def transcript (d : Device σ) : Nat → Machine → σ → List Observation
  | 0, _, _ => []
  | n + 1, m, s =>
    (if m.status = .running then m.step.transcript d s else []) ++
      transcript d n (m.step.perform d s).2.1 (m.step.perform d s).2.2

theorem after_add (d : Device σ) (n k : Nat) (m : Machine) (s : σ) :
    m.after d (n + k) s = (m.after d n s).1.after d k (m.after d n s).2 := by
  induction n generalizing m s with
  | zero => rw [Nat.zero_add]; rfl
  | succ n ih => rw [Nat.succ_add]; exact ih _ _

theorem transcript_add (d : Device σ) (n k : Nat) (m : Machine) (s : σ) :
    m.transcript d (n + k) s =
      m.transcript d n s ++ (m.after d n s).1.transcript d k (m.after d n s).2 := by
  induction n generalizing m s with
  | zero => rw [Nat.zero_add]; rfl
  | succ n ih =>
    rw [Nat.succ_add]
    simp only [transcript, after, ih, List.append_assoc]

/-- What holds at first and is kept by every step holds after any number of them. -/
theorem after_induction {Inv : Machine → Prop} (step : ∀ m, Inv m → m.step.Always fun _ m => Inv m)
    (d : Device σ) (n : Nat) (m : Machine) (s : σ) (h : Inv m) : Inv (m.after d n s).1 := by
  induction n generalizing m s with
  | zero => exact h
  | succ n ih => exact ih _ _ ((step m h).perform d s)

theorem step_of_over {m : Machine} (h : m.status ≠ .running) : m.step = .done .stopped m := by
  rw [step, if_neg h]

theorem step_behind {m : Machine} (hrun : m.status = .running)
    (hend : m.program.code[m.pc]? = none) : m.step = .done .stopped { m with status := .halted } := by
  rw [step, if_pos hrun, hend]

theorem behind_of_stopped {m : Machine} {d : Device σ} {s : σ} (hrun : m.status = .running)
    (h : (m.step.perform d s).1 = .stopped) : m.program.code[m.pc]? = none := by
  cases hi : m.program.code[m.pc]? with
  | none => rfl
  | some i =>
    have hexec : (m.exec i).Always fun e _ => e ≠ .stopped :=
      always_exec (fun _ _ => nofun) (fun _ => nofun) (fun _ => nofun) (fun _ => nofun)
        (fun _ => nofun) i
    have hstep : m.step.Always fun e _ => e ≠ .stopped := by
      rw [step, if_pos hrun, hi]
      dsimp only
      split
      · exact fun _ => hexec
      · exact hexec
    exact absurd h (hstep.perform d s)

theorem after_of_over {m : Machine} (h : m.status ≠ .running) (d : Device σ) (n : Nat) (s : σ) :
    m.after d n s = (m, s) := by
  induction n with
  | zero => rfl
  | succ n ih => rw [after, step_of_over h]; exact ih

theorem transcript_of_over {m : Machine} (h : m.status ≠ .running) (d : Device σ) (n : Nat)
    (s : σ) : m.transcript d n s = [] := by
  induction n with
  | zero => rfl
  | succ n ih =>
    rw [transcript, if_neg h, step_of_over h]
    exact ih

/-! ## Steps as scripts -/

/-- What one step does in the sight of the surroundings. -/
def turn (m : Machine) : Script Machine :=
  if m.status = .running then m.step.script else .done m

def turns : Nat → Machine → Script Machine
  | 0, m => .done m
  | n + 1, m => m.turn.bind (turns n)

theorem turns_one (m : Machine) : m.turns 1 = m.turn := Script.bind_done _

theorem turns_add (n k : Nat) (m : Machine) : m.turns (n + k) = (m.turns n).bind (turns k) := by
  induction n generalizing m with
  | zero => rw [Nat.zero_add]; rfl
  | succ n ih =>
    rw [Nat.succ_add, turns, turns, Script.bind_assoc]
    congr 1
    funext m'
    exact ih m'

theorem turn_of_over {m : Machine} (h : m.status ≠ .running) : m.turn = .done m := by
  rw [turn, if_neg h]

theorem turns_of_over {m : Machine} (h : m.status ≠ .running) (n : Nat) : m.turns n = .done m := by
  induction n with
  | zero => rfl
  | succ n ih => rw [turns, turn_of_over h]; exact ih

theorem turn_eq_exec {m : Machine} {i : Instr} (hrun : m.status = .running)
    (hi : m.program.code[m.pc]? = some i) : m.turn = (m.exec i).script := by
  rw [turn, if_pos hrun, step, if_pos hrun, hi]
  by_cases hd : m.debug = true
  · simp only [hd, if_true]
    rfl
  · simp only [hd]
    rfl

theorem turn_shows (d : Device σ) (m : Machine) (s : σ) :
    m.turn.Shows (if m.status = .running then m.step.transcript d s else [])
      (m.step.perform d s).2.1 := by
  unfold turn
  split
  · exact m.step.script_shows d s
  · next h =>
    rw [step_of_over h]
    exact .done m

/-- On every device the machine goes the way of its script. -/
theorem turns_shows (d : Device σ) (n : Nat) (m : Machine) (s : σ) :
    (m.turns n).Shows (m.transcript d n s) (m.after d n s).1 := by
  induction n generalizing m s with
  | zero => exact .done m
  | succ n ih => exact (m.turn_shows d s).bind (ih _ _)

end Machine

end Handheld
