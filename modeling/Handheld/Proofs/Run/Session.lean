import Handheld.Device.Recorder
import Handheld.Proofs.Code.Relocation
import Handheld.Proofs.Run.Faults
import Mathlib

/-!
# One program after the other

A program that stands inside of another one runs there as it does alone, up to
its end: the machines take the same steps, at addresses that differ by the same
number all the time. So two texts, given to a machine one after the other, do
what both do as one text.
-/

namespace Handheld

/-! ## A machine inside of another program -/

/-- An event of code that has been moved on by `k`. -/
def Event.shifted (k : Nat) : Event → Event
  | .fault d => .fault { d with address := d.address.map (k + ·) }
  | e => e

/-- The machine with its code somewhere in another program. -/
def Machine.relocated (q : Program) (k : Nat) (m : Machine) : Machine :=
  { m with program := q, pc := k + m.pc }

def Action.relocated (q : Program) (k : Nat) : Action → Action
  | .done event m => .done (event.shifted k) (m.relocated q k)
  | .call c resume => .call c fun answer => (resume answer).relocated q k

/-- At the program counter is an instruction of a program that `q` contains. -/
structure Machine.Within (q : Program) (k : Nat) (m : Machine) : Prop where
  contains : q.Contains k m.program
  pc_lt : m.pc < m.program.size

namespace Machine

variable {q : Program} {k : Nat} {m : Machine}

theorem Within.withStack (h : m.Within q k) (stack : Stack Int64) : Within q k { m with stack } :=
  ⟨h.contains, h.pc_lt⟩

/-! ## Ends of an instruction -/

theorem relocated_fault (h : m.Within q k) (cause : Cause) :
    (m.relocated q k).fault cause = (m.fault cause).relocated q k := by
  have hlocate : Event.fault (q.locate (k + m.pc) cause) =
      Event.shifted k (.fault (m.program.locate m.pc cause)) := by
    rw [Program.locate, Program.locate, h.contains.spanAt m.pc h.pc_lt]
    cases m.program.spanAt? m.pc <;> rfl
  change Action.done (.fault (q.locate (k + m.pc) cause)) _ = Action.done _ _
  rw [hlocate]
  rfl

theorem relocated_jump (h : m.Within q k) {target : Nat} (htarget : target ≤ m.program.size) :
    (m.relocated q k).jump (k + target) = (m.jump target).relocated q k := by
  have hle : k + target ≤ (m.relocated q k).program.size :=
    Nat.le_trans (Nat.add_le_add_left htarget k) h.contains.size_le
  rw [jump, jump, if_pos htarget, if_pos hle]
  rfl

theorem relocated_push (h : m.Within q k) (v : Int64) :
    (m.relocated q k).push v = (m.push v).relocated q k := by
  unfold push
  change (if (m.stack.push v).overflows then _ else _) =
    (if (m.stack.push v).overflows then _ else _ : Action).relocated q k
  split
  · exact relocated_fault (h.withStack _) _
  · rfl

/-! ## Operands -/

theorem relocated_withTop (h : m.Within q k) {f g : Machine → Int64 → Action}
    (hf : ∀ stack v, f (relocated q k { m with stack }) v = (g { m with stack } v).relocated q k) :
    (m.relocated q k).withTop f = (m.withTop g).relocated q k :=
  withTop_both (R := fun a b => a = b.relocated q k) (m.relocated q k) m rfl
    (fun stack => relocated_fault (h.withStack stack)) hf

theorem relocated_withPair (h : m.Within q k) {f g : Machine → Int64 → Int64 → Action}
    (hf : ∀ stack a b,
      f (relocated q k { m with stack }) a b = (g { m with stack } a b).relocated q k) :
    (m.relocated q k).withPair f = (m.withPair g).relocated q k :=
  withPair_both (R := fun a b => a = b.relocated q k) (m.relocated q k) m rfl
    (fun stack => relocated_fault (h.withStack stack)) hf

theorem relocated_withAddress (h : m.Within q k) {a : Int64} {width : Width}
    {f g : (a : Nat) → a + width.bytes ≤ memorySize → Action}
    (hf : ∀ a ha, f a ha = (g a ha).relocated q k) :
    (m.relocated q k).withAddress a width f = (m.withAddress a width g).relocated q k :=
  withAddress_both (R := fun a b => a = b.relocated q k) (m.relocated q k) m (relocated_fault h) hf

theorem relocated_withVariable (h : m.Within q k) {name : Char}
    {f g : (a : Nat) → a + 2 ≤ memorySize → Action}
    (hf : ∀ a ha, f a ha = (g a ha).relocated q k) :
    (m.relocated q k).withVariable name f = (m.withVariable name g).relocated q k :=
  withVariable_both (R := fun a b => a = b.relocated q k) (m.relocated q k) m (relocated_fault h) hf

/-! ## Instructions -/

theorem relocated_exec (h : m.Within q k) (i : Instr)
    (htarget : ∀ kind target, i = .branch kind target → target ≤ m.program.size) :
    (m.relocated q k).exec (i.shifted k) = (m.exec i).relocated q k := by
  cases i with
  | literal n => exact relocated_push h n
  | push name =>
    simp only [Instr.shifted, exec]
    exact relocated_withVariable h fun a ha => relocated_push h _
  | pop name =>
    simp only [Instr.shifted, exec]
    exact relocated_withVariable h fun a ha => relocated_withTop h fun stack v => rfl
  | peek width =>
    simp only [Instr.shifted, exec]
    refine relocated_withTop h fun stack a => ?_
    exact relocated_withAddress (h.withStack stack) fun a ha => relocated_push (h.withStack stack) _
  | poke width =>
    simp only [Instr.shifted, exec]
    refine relocated_withTop h fun stack a => relocated_withTop (h.withStack stack) fun stack v => ?_
    exact relocated_withAddress (h.withStack stack) fun a ha => rfl
  | dup =>
    simp only [Instr.shifted, exec]
    exact relocated_withTop h fun stack v => relocated_push (h.withStack (stack.push v)) v
  | mask | negate =>
    simp only [Instr.shifted, exec]
    exact relocated_withTop h fun stack v => relocated_push (h.withStack stack) _
  | branch kind target =>
    have hle := htarget kind target rfl
    rw [Instr.shifted]
    cases kind with
    | always => exact relocated_jump h hle
    | ifTrue =>
      rw [exec, exec]
      refine relocated_withTop h fun stack v => ?_
      split
      · rfl
      · exact relocated_jump (h.withStack stack) hle
    | ifFalse =>
      rw [exec, exec]
      refine relocated_withTop h fun stack v => ?_
      split
      · exact relocated_jump (h.withStack stack) hle
      · rfl
  | disp | pause | debug =>
    simp only [Instr.shifted, exec]
    exact relocated_withTop h fun stack v => rfl
  | draw graphic surface =>
    have hsame : (m.relocated q k).stack.popN graphic.arity = m.stack.popN graphic.arity := rfl
    simp only [Instr.shifted, exec, hsame]
    rcases m.stack.popN graphic.arity with ⟨_ | vs, stack⟩
    · exact relocated_fault (h.withStack stack) _
    · dsimp only
      cases Drawing.ofArguments? graphic vs with
      | some drawing => rfl
      | none => exact relocated_fault (h.withStack stack) _
  | dispGraph | exit | help | about => rfl
  | binary op =>
    simp only [Instr.shifted, exec]
    refine relocated_withPair h fun stack a b => ?_
    cases op.eval a b with
    | ok v => exact relocated_push (h.withStack stack) v
    | error cause => exact relocated_fault (h.withStack stack) cause
  | getKey =>
    simp only [Instr.shifted, exec]
    refine relocated_withTop h fun stack code => ?_
    split
    · refine congrArg (Action.call _) (funext fun pressed => ?_)
      exact relocated_push (h.withStack stack) _
    · exact relocated_push (h.withStack stack) _
  | rand =>
    refine congrArg (Action.call _) (funext fun r => ?_)
    exact relocated_push h _
  | pxlTest surface =>
    simp only [Instr.shifted, exec]
    refine relocated_withPair h fun stack x y => congrArg (Action.call _) (funext fun lit => ?_)
    exact relocated_push (h.withStack stack) _

end Machine

theorem Event.shifted_eq_running {k : Nat} {e : Event} : e.shifted k = .running ↔ e = .running := by
  cases e <;> simp [Event.shifted]

theorem Action.mirrors_relocated (q : Program) (k : Nat) (a : Action) :
    Script.Mirrors (Event.shifted k) (fun m' m => m' = m.relocated q k) (a.relocated q k).script
      a.script := by
  induction a with
  | done event m =>
    simp only [relocated, script, Event.shifted_eq_running]
    split
    · exact .done rfl
    · exact .tell (.done rfl)
  | call c resume ih =>
    cases c with
    | log text => exact ih ()
    | _ => exact .call ih

/-! ## Steps -/

namespace Machine

variable {p q : Program} {k : Nat} {m : Machine}

theorem mirrors_turn (hp : p.Calm) (hq : q.Contains k p) (hprogram : m.program = p)
    (hrun : m.status = .running) (hpc : m.pc < p.size) :
    Script.Mirrors (Event.shifted k) (fun m' m => m' = m.relocated q k) (m.relocated q k).turn
      m.turn := by
  subst hprogram
  have hi : m.program.code[m.pc]? = some m.program.code[m.pc] := Array.getElem?_eq_getElem hpc
  have hexec := relocated_exec (q := q) (k := k) ⟨hq, hpc⟩ m.program.code[m.pc] fun kind target heq =>
    (hp.targets m.pc kind target (hi.trans (congrArg some heq))).le_size
  rw [turn_eq_exec hrun hi, turn_eq_exec (m := m.relocated q k) hrun (hq.code _ _ hi), hexec]
  exact Action.mirrors_relocated q k _

variable {σ : Type} {d : Device σ} {s : σ}

theorem relocated_turn_shows (hp : p.Calm) (hq : q.Contains k p) (h : m.Steady p)
    (hend : k + p.size = q.size ∨ .event .stopped ∉ m.transcript d 1 s) :
    (m.relocated q k).turn.Shows ((m.transcript d 1 s).map (.mapEvent (.shifted k)))
      ((m.after d 1 s).1.relocated q k) := by
  have hshows := m.turns_shows d 1 s
  rw [turns_one] at hshows
  by_cases hrun : m.status = .running
  · obtain ⟨hpc, -⟩ := h.running hrun
    rcases Nat.lt_or_eq_of_le hpc with hpc | hpc
    · obtain ⟨m', hm', rfl⟩ := (mirrors_turn hp hq h.program hrun hpc).shows hshows
      exact hm'
    · have hnone : m.program.code[m.pc]? = none := by
        rw [h.program, hpc]
        exact Array.getElem?_eq_none (Nat.le_refl _)
      have hstop : m.transcript d 1 s = [.event .stopped] := by
        rw [transcript, if_pos hrun, step_behind hrun hnone]
        rfl
      have hhalt : (m.after d 1 s).1 = { m with status := .halted } := by
        rw [after, step_behind hrun hnone]
        rfl
      rcases hend with hend | hnot
      · have hnone' : (m.relocated q k).program.code[(m.relocated q k).pc]? = none := by
          change q.code[k + m.pc]? = none
          rw [hpc, hend]
          exact Array.getElem?_eq_none (Nat.le_refl _)
        have hrun' : (m.relocated q k).status = .running := hrun
        rw [hstop, hhalt, turn, if_pos hrun', step_behind hrun' hnone']
        exact .tell (.done _)
      · rw [hstop] at hnot
        exact absurd List.mem_cons_self hnot
  · rw [transcript_of_over hrun, after_of_over hrun,
      turn_of_over (m := m.relocated q k) (h := hrun)]
    exact .done _

/-- Step after step, the machine shows in the other program what it shows alone. -/
theorem relocated_turns_shows (hp : p.Calm) (hq : q.Contains k p) (n : Nat) (h : m.Steady p)
    (hend : k + p.size = q.size ∨ .event .stopped ∉ m.transcript d n s) :
    ((m.relocated q k).turns n).Shows ((m.transcript d n s).map (.mapEvent (.shifted k)))
      ((m.after d n s).1.relocated q k) := by
  induction n generalizing m s with
  | zero => exact .done _
  | succ n ih =>
    rw [Nat.add_comm n 1] at hend ⊢
    rw [transcript_add, List.mem_append, not_or] at hend
    rw [transcript_add, after_add, turns_add, turns_one, List.map_append]
    refine (relocated_turn_shows hp hq h (hend.imp id And.left)).bind ?_
    exact ih (h.after hp d 1) (hend.imp id And.right)

theorem transcript_of_stopped (h : .event .stopped ∈ m.transcript d 1 s) :
    m.status = .running ∧ m.program.code[m.pc]? = none ∧
      m.transcript d 1 s = [.event .stopped] ∧
      m.after d 1 s = ({ m with status := .halted }, s) := by
  by_cases hrun : m.status = .running
  · rw [transcript, if_pos hrun, transcript, List.append_nil] at h
    have hbehind := behind_of_stopped hrun (Action.perform_of_mem h)
    refine ⟨hrun, hbehind, ?_, ?_⟩
    · rw [transcript, if_pos hrun, step_behind hrun hbehind]
      rfl
    · rw [after, step_behind hrun hbehind]
      rfl
  · rw [transcript_of_over hrun] at h
    cases h

theorem exists_stop {n : Nat} (h : .event .stopped ∈ m.transcript d n s) :
    ∃ j < n, m.transcript d (j + 1) s = m.transcript d j s ++ [.event .stopped] := by
  induction n with
  | zero => cases h
  | succ n ih =>
    rw [transcript_add, List.mem_append] at h
    rcases h with h | h
    · obtain ⟨j, hj, hstop⟩ := ih h
      exact ⟨j, Nat.lt_succ_of_lt hj, hstop⟩
    · refine ⟨n, Nat.lt_succ_self n, ?_⟩
      rw [transcript_add, (transcript_of_stopped h).2.2.1]

theorem over_of_stopped {n : Nat} (h : .event .stopped ∈ m.transcript d n s) :
    (m.after d n s).1.status ≠ .running := by
  obtain ⟨j, hj, hstop⟩ := exists_stop h
  rw [transcript_add] at hstop
  have hlast := List.append_cancel_left hstop
  obtain ⟨-, -, -, hafter⟩ := transcript_of_stopped (hlast ▸ List.mem_cons_self)
  obtain ⟨l, rfl⟩ := Nat.exists_eq_add_of_le (Nat.succ_le_of_lt hj)
  have hover : (m.after d (j + 1) s).1.status ≠ .running := by
    rw [after_add, hafter]
    exact nofun
  rwa [after_add, after_of_over hover]

end Machine

/-! ## Devices and their log -/

section

variable {σ : Type} {d : Device σ} {same : σ → σ → Prop}

/-- The states that are the same to a device differ by its log only, and the device does not look at
its log to answer. -/
structure Device.Overlooks (d : Device σ) (same : σ → σ → Prop) : Prop where
  equivalence : Equivalence same
  log : ∀ text s, same (d.perform (.log text) s).2 s
  alike : ∀ {c : Call} {s s' : σ}, c.isLog = false → same s s' →
    (d.perform c s).1 = (d.perform c s').1 ∧ same (d.perform c s).2 (d.perform c s').2

/-- A recorder does not look at the records it keeps. -/
theorem Recording.device_overlooks {γ : Type} [RandomSource γ] :
    (device : Device (Recording γ)).Overlooks
      fun r r' => { r with records := #[] } = { r' with records := #[] } where
  equivalence := ⟨fun _ => rfl, Eq.symm, Eq.trans⟩
  log _ _ := rfl
  alike := by
    rintro c ⟨screen, keypad, answers, chance, output, records, pauses, frames⟩ r' hc hsame
    cases r'
    cases hsame
    cases c with
    | log text => cases hc
    | keyPressed code =>
      match answers with
      | none | some [] | some (_ :: _) => exact ⟨rfl, rfl⟩
    | _ => exact ⟨rfl, rfl⟩

/-- The device gives the answers in the list, and then its state is the same as the one at the end. -/
inductive Device.Answers (d : Device σ) (same : σ → σ → Prop) : σ → List Observation → σ → Prop
  | nil {s s' : σ} : same s s' → Answers d same s [] s'
  | exchange {c : Call} {s s' : σ} {os : List Observation} (hc : c.isLog = false) :
      Answers d same (d.perform c s).2 os s' →
      Answers d same s (.exchange c (d.perform c s).1 :: os) s'
  | event {e : Event} {s s' : σ} {os : List Observation} :
      Answers d same s os s' → Answers d same s (.event e :: os) s'

namespace Device.Answers

variable {s s' s'' : σ} {os os' : List Observation}

theorem mapEvent (h : d.Answers same s os s') (f : Event → Event) :
    d.Answers same s (os.map (.mapEvent f)) s' := by
  induction h with
  | nil h => exact .nil h
  | exchange hc _ ih => exact .exchange hc ih
  | event _ ih => exact .event ih

variable (hd : d.Overlooks same)
include hd

theorem of_same (h : d.Answers same s' os s'') (hsame : same s s') : d.Answers same s os s'' := by
  induction h generalizing s with
  | nil h => exact .nil (hd.equivalence.trans hsame h)
  | exchange hc _ ih =>
    obtain ⟨hanswer, hnext⟩ := hd.alike hc hsame
    rw [← hanswer]
    exact .exchange hc (ih hnext)
  | event _ ih => exact .event (ih hsame)

theorem append (h : d.Answers same s os s') (h' : d.Answers same s' os' s'') :
    d.Answers same s (os ++ os') s'' := by
  induction h with
  | nil h => exact h'.of_same hd h
  | exchange hc _ ih => exact .exchange hc (ih h')
  | event _ ih => exact .event (ih h')

theorem unique {α : Type} {t : Script α} {a a' : α} (h : d.Answers same s os s')
    (h' : d.Answers same s os' s'') (ht : t.Shows os a) (ht' : t.Shows os' a') :
    os = os' ∧ a = a' ∧ same s' s'' := by
  induction ht generalizing s os' with
  | done a =>
    cases ht'
    cases h with
    | nil h =>
      cases h' with
      | nil h' => exact ⟨rfl, rfl, hd.equivalence.trans (hd.equivalence.symm h) h'⟩
  | call _ ih =>
    cases h with
    | exchange _ h =>
      cases ht' with
      | call ht' =>
        cases h' with
        | exchange _ h' =>
          obtain ⟨rfl, hrest⟩ := ih h h' ht'
          exact ⟨rfl, hrest⟩
  | tell _ ih =>
    cases h with
    | event h =>
      cases ht' with
      | tell ht' =>
        cases h' with
        | event h' =>
          obtain ⟨rfl, hrest⟩ := ih h h' ht'
          exact ⟨rfl, hrest⟩

end Device.Answers

theorem Action.answers (hd : d.Overlooks same) (a : Action) (s : σ) :
    d.Answers same s (a.transcript d s) (a.perform d s).2.2 := by
  induction a generalizing s with
  | done event m =>
    rw [transcript]
    split
    · exact .nil (hd.equivalence.refl s)
    · exact .event (.nil (hd.equivalence.refl s))
  | call c resume ih =>
    cases hc : c.isLog with
    | false =>
      simp only [transcript, perform, hc]
      exact .exchange hc (ih _ _)
    | true =>
      cases c with
      | log text =>
        simp only [transcript, perform, hc]
        exact (ih _ _).of_same hd (hd.equivalence.symm (hd.log text s))
      | _ => cases hc

theorem Machine.answers (hd : d.Overlooks same) (n : Nat) (m : Machine) (s : σ) :
    d.Answers same s (m.transcript d n s) (m.after d n s).2 := by
  induction n generalizing m s with
  | zero => exact .nil (hd.equivalence.refl s)
  | succ n ih =>
    refine Device.Answers.append hd ?_ (ih _ _)
    by_cases hrun : m.status = .running
    · rw [if_pos hrun]
      exact m.step.answers hd s
    · rw [if_neg hrun, step_of_over hrun]
      exact .nil (hd.equivalence.refl s)

/-- The device without a log. -/
def Device.deaf (d : Device σ) : Device σ where
  perform
    | .log _, s => ((), s)
    | c, s => d.perform c s

theorem Device.perform_deaf (d : Device σ) {c : Call} (hc : c.isLog = false) :
    d.deaf.perform c = d.perform c := by
  cases c with
  | log text => cases hc
  | _ => rfl

theorem Device.deaf_overlooks (d : Device σ) : d.deaf.Overlooks Eq where
  equivalence := eq_equivalence
  log _ _ := rfl
  alike := by
    rintro c s _ - rfl
    exact ⟨rfl, rfl⟩

/-- The action writes nothing to the log. -/
def Action.Silent : Action → Prop
  | .done _ _ => True
  | .call c resume => c.isLog = false ∧ ∀ answer, (resume answer).Silent

theorem Action.Silent.perform_deaf {a : Action} (h : a.Silent) (d : Device σ) (s : σ) :
    a.perform d.deaf s = a.perform d s ∧ a.transcript d.deaf s = a.transcript d s := by
  induction a generalizing s with
  | done event m => exact ⟨rfl, rfl⟩
  | call c resume ih =>
    obtain ⟨hperform, htranscript⟩ := ih (d.perform c s).1 (h.2 _) (d.perform c s).2
    simp only [perform, transcript, d.perform_deaf h.1]
    rw [hperform, htranscript]
    exact ⟨rfl, rfl⟩

namespace Machine

variable {m : Machine}

theorem silent_push (v : Int64) : (m.push v).Silent := by
  unfold push
  dsimp only
  split <;> trivial

theorem silent_withTop {k : Machine → Int64 → Action} (hk : ∀ m v, (k m v).Silent) :
    (m.withTop k).Silent :=
  withTop_of (fun _ _ => trivial) fun _ _ _ => hk _ _

theorem silent_withPair {k : Machine → Int64 → Int64 → Action} (hk : ∀ m a b, (k m a b).Silent) :
    (m.withPair k).Silent :=
  withPair_of (fun _ _ => trivial) fun _ _ _ _ => hk _ _ _

theorem silent_withAddress {a : Int64} {width : Width}
    {k : (a : Nat) → a + width.bytes ≤ memorySize → Action} (hk : ∀ a h, (k a h).Silent) :
    (m.withAddress a width k).Silent :=
  withAddress_of (fun _ _ => trivial) fun _ _ _ => hk _ _

theorem silent_withVariable {name : Char} {k : (a : Nat) → a + 2 ≤ memorySize → Action}
    (hk : ∀ a h, (k a h).Silent) : (m.withVariable name k).Silent :=
  withVariable_of (fun _ _ => trivial) fun _ _ _ => hk _ _

theorem silent_exec (m : Machine) (i : Instr) : (m.exec i).Silent := by
  have hjump (m : Machine) (target : Nat) : (m.jump target).Silent := by
    unfold jump
    split <;> trivial
  cases i with
  | literal n => exact silent_push n
  | push name =>
    rw [exec]
    exact silent_withVariable fun _ _ => silent_push _
  | pop name =>
    rw [exec]
    refine silent_withVariable fun _ _ => silent_withTop fun _ _ => ?_
    trivial
  | peek width =>
    rw [exec]
    exact silent_withTop fun _ _ => silent_withAddress fun _ _ => silent_push _
  | poke width =>
    rw [exec]
    refine silent_withTop fun _ _ => silent_withTop fun _ _ => silent_withAddress fun _ _ => ?_
    trivial
  | dup | mask | negate =>
    rw [exec]
    exact silent_withTop fun _ _ => silent_push _
  | branch kind target =>
    cases kind with
    | always => exact hjump m target
    | ifTrue =>
      rw [exec]
      refine silent_withTop fun m v => ?_
      split
      · trivial
      · exact hjump m target
    | ifFalse =>
      rw [exec]
      refine silent_withTop fun m v => ?_
      split
      · exact hjump m target
      · trivial
  | disp | pause =>
    rw [exec]
    exact silent_withTop fun _ _ => ⟨rfl, fun _ => trivial⟩
  | draw graphic surface =>
    rw [exec]
    split
    · trivial
    · split
      · exact ⟨rfl, fun _ => trivial⟩
      · trivial
  | dispGraph shade => exact ⟨rfl, fun _ => trivial⟩
  | debug =>
    rw [exec]
    refine silent_withTop fun _ _ => ?_
    trivial
  | exit | help | about => trivial
  | binary op =>
    rw [exec]
    refine silent_withPair fun _ a b => ?_
    split
    · exact silent_push _
    · trivial
  | getKey =>
    rw [exec]
    refine silent_withTop fun _ code => ?_
    split
    · exact ⟨rfl, fun _ => silent_push _⟩
    · exact silent_push _
  | rand => exact ⟨rfl, fun _ => silent_push _⟩
  | pxlTest surface =>
    rw [exec]
    exact silent_withPair fun _ _ _ => ⟨rfl, fun _ => silent_push _⟩

theorem silent_step (hdebug : m.debug = false) : m.step.Silent := by
  unfold step
  split
  · split
    · trivial
    · rw [hdebug]
      exact m.silent_exec _
  · trivial

theorem after_deaf {d : Device σ} {n : Nat} {s : σ}
    (h : ∀ k < n, (m.after d k s).1.debug = false) :
    m.after d.deaf n s = m.after d n s ∧ m.transcript d.deaf n s = m.transcript d n s := by
  induction n generalizing m s with
  | zero => exact ⟨rfl, rfl⟩
  | succ n ih =>
    have hsilent : m.step.Silent := silent_step (h 0 (Nat.succ_pos n))
    obtain ⟨hperform, hshown⟩ := hsilent.perform_deaf d s
    obtain ⟨hafter, hrest⟩ := ih (m := (m.step.perform d s).2.1) (s := (m.step.perform d s).2.2)
      fun k hk => h (k + 1) (Nat.succ_lt_succ hk)
    simp only [after, transcript, hperform, hshown, hafter, hrest, and_self]

end Machine

end

/-! ## Programs in a row -/

/-- The machine ends as the other one does. -/
structure Machine.EndsAs (m m' : Machine) : Prop where
  memory : m.memory = m'.memory
  debug : m.debug = m'.debug
  status : m.status = m'.status

/-- In `n` steps the machine shows what is in the list, if it is answered as there, and it ends as
`m'` does. On a device that overlooks its log that is what happens, and the device ends as in `s'`. -/
structure Machine.Repeats {σ : Type} (d : Device σ) (n : Nat) (m : Machine) (s : σ)
    (os : List Observation) (m' : Machine) (s' : σ) : Prop where
  answered : ∃ m'', (m.turns n).Shows os m'' ∧ m''.EndsAs m'
  performed : ∀ {same : σ → σ → Prop}, d.Overlooks same →
    m.transcript d n s = os ∧ (m.after d n s).1.EndsAs m' ∧ same (m.after d n s).2 s'

namespace Machine

variable {σ : Type} {d : Device σ} {s s' : σ} {m m' m'' : Machine} {os : List Observation} {n : Nat}

theorem Repeats.of_shows (hshows : (m.turns n).Shows os m'') (hends : m''.EndsAs m')
    (hanswers : ∀ {same : σ → σ → Prop}, d.Overlooks same → d.Answers same s os s') :
    m.Repeats d n s os m' s' where
  answered := ⟨m'', hshows, hends⟩
  performed := by
    intro same hd
    obtain ⟨hos, hm, hs⟩ :=
      (m.answers hd n s).unique hd (hanswers hd) (m.turns_shows d n s) hshows
    exact ⟨hos, hm ▸ hends, hs⟩

theorem endsAs_relocated (q : Program) (k : Nat) (m : Machine) : (m.relocated q k).EndsAs m :=
  ⟨rfl, rfl, rfl⟩

end Machine

theorem mapEvent_shifted_zero (os : List Observation) : os.map (.mapEvent (.shifted 0)) = os := by
  refine List.map_id'' (fun o => ?_) os
  cases o with
  | exchange c answer => rfl
  | event e =>
    cases e with
    | fault d =>
      obtain ⟨_, _, _, _, _ | address⟩ := d
      · rfl
      · simp [Observation.mapEvent, Event.shifted]
    | _ => rfl

theorem Machine.Steady.stopping {σ : Type} {d : Device σ} {s : σ} {p : Program} {m : Machine}
    (hp : p.Calm) (h : m.Steady p) (hstop : m.transcript d 1 s = [.event .stopped]) :
    m.status = .running ∧ m.pc = p.size ∧ m.stack = {} ∧
      m.after d 1 s = ({ m with status := .halted }, s) := by
  obtain ⟨hrun, hbehind, -, hafter⟩ := transcript_of_stopped (hstop ▸ List.mem_cons_self)
  obtain ⟨hle, hdepth⟩ := h.running hrun
  have hpc : m.pc = p.size := by
    rw [h.program] at hbehind
    exact Nat.le_antisymm hle (Array.getElem?_eq_none_iff.1 hbehind)
  have hempty : m.stack.items.length = 0 := by
    rw [hpc, hp.ends.depth] at hdepth
    rw [← m.stack.size_eq]
    exact (Option.some.inj hdepth).symm
  exact ⟨hrun, hpc, Stack.ext (List.eq_nil_of_length_eq_zero hempty), hafter⟩

/-- Two texts, one after the other, against both as one. As long as the first one has not stopped,
both as one do what it does, for ever if it goes on for ever. If it stops, it does so with a step of
its own, and both as one go on as the second one does when it is loaded then, at addresses that are
further on by the size of the first one. -/
theorem whole_repeats_session {source source' : String} {ts ts' : List Lexeme}
    {ss ss' : List Stmt} {p p' q : Program} (hlex : lexemes source = .ok ts)
    (hparse : parse ts = .ok ss) (hlex' : lexemes source' = .ok ts') (hparse' : parse ts' = .ok ss')
    (htree : Program.ofTree ss = .ok p) (htree' : Program.ofTree ss' = .ok p')
    (hboth : Program.ofTree (ss ++ ss') = .ok q) {σ : Type} (d : Device σ) (m : Machine) (s : σ) :
    let first := m.load p
    let whole := m.load q
    (∀ n, .event .stopped ∉ first.transcript d n s →
      whole.Repeats d n s (first.transcript d n s) (first.after d n s).1 (first.after d n s).2) ∧
    (∀ n, .event .stopped ∈ first.transcript d n s →
      ∃ j < n, first.transcript d (j + 1) s = first.transcript d j s ++ [.event .stopped]) ∧
    ∀ n, first.transcript d (n + 1) s = first.transcript d n s ++ [.event .stopped] →
      let s' := (first.after d (n + 1) s).2
      let second := (first.after d (n + 1) s).1.load p'
      ∀ k, whole.Repeats d (n + k) s
        (first.transcript d n s ++ (second.transcript d k s').map (.mapEvent (.shifted p.size)))
        (second.after d k s').1 (second.after d k s').2 := by
  intro first whole
  have hs := (written_of_parse hlex hparse).proper
  have hs' := (written_of_parse hlex' hparse').proper
  have hp := Program.calm_of_tree hs htree
  have hp' := Program.calm_of_tree hs' htree'
  obtain ⟨hfirst, hsecond, hsize⟩ := Program.contains_of_append hs hs' htree htree' hboth
  have hshows : ∀ n, .event .stopped ∉ first.transcript d n s →
      (whole.turns n).Shows (first.transcript d n s) ((first.after d n s).1.relocated q 0) := by
    intro n hnot
    have hshows := Machine.relocated_turns_shows hp hfirst n (Machine.steady_load p m) (.inr hnot)
    rwa [mapEvent_shifted_zero] at hshows
  refine ⟨fun n hnot => ?_, fun n => Machine.exists_stop, ?_⟩
  · exact .of_shows (hshows n hnot) (Machine.endsAs_relocated ..) fun hd => first.answers hd n s
  · intro n hstop s' second k
    have hsteady : (first.after d n s).1.Steady p := (Machine.steady_load p m).after hp d n
    rw [Machine.transcript_add] at hstop
    obtain ⟨hrun, hpc, hstack, hafter⟩ := hsteady.stopping hp (List.append_cancel_left hstop)
    have hnot : .event .stopped ∉ first.transcript d n s :=
      fun hmem => Machine.over_of_stopped hmem hrun
    have hstate : s' = (first.after d n s).2 := by
      change (first.after d (n + 1) s).2 = _
      rw [Machine.after_add, hafter]
    -- what the first program leaves is where the second one begins
    have hmeet : (first.after d n s).1.relocated q 0 = second.relocated q p.size := by
      change _ = ((first.after d (n + 1) s).1.load p').relocated q p.size
      rw [Machine.after_add, hafter]
      simp only [Machine.relocated, Machine.load, hrun, hpc, hstack, Nat.zero_add, Nat.add_zero]
    have hload : second.Steady p' := Machine.steady_load p' _
    have hgoes := Machine.relocated_turns_shows (d := d) (s := s') hp' hsecond k hload
      (.inl hsize.symm)
    refine .of_shows ?_ (Machine.endsAs_relocated q p.size _) fun hd => ?_
    · rw [Machine.turns_add]
      refine (hshows n hnot).bind ?_
      rw [hmeet]
      exact hgoes
    · refine (first.answers hd n s).append hd ?_
      rw [← hstate]
      exact (second.answers hd k s').mapEvent _

theorem whole_repeats_session_jumps :
    ∃ ts ts' ss ss' p p' q, lexemes "Lbl A\nIf getKey(1)\nGoto A\nEnd" = .ok ts ∧
      parse ts = .ok ss ∧ lexemes "Goto B\nDisp 1/C\nLbl B" = .ok ts' ∧ parse ts' = .ok ss' ∧
      Program.ofTree ss = .ok p ∧ Program.ofTree ss' = .ok p' ∧ Program.ofTree (ss ++ ss') = .ok q ∧
      ∀ (d : Device Unit) (n : Nat),
        .event .stopped ∉ (Machine.fresh.load p).transcript d n () →
        (Machine.fresh.load q).Repeats d n () ((Machine.fresh.load p).transcript d n ())
          ((Machine.fresh.load p).after d n ()).1 () := by
  have hread : (do
      let ts ← lexemes "Lbl A\nIf getKey(1)\nGoto A\nEnd"
      let ss ← parse ts
      let ts' ← lexemes "Goto B\nDisp 1/C\nLbl B"
      let ss' ← parse ts'
      let _ ← Program.ofTree ss
      let _ ← Program.ofTree ss'
      Program.ofTree (ss ++ ss')).isOk := by cbv
  obtain ⟨q, hread⟩ := exists_of_isOk hread
  obtain ⟨ts, hlex, hread⟩ := bind_eq_ok.1 hread
  obtain ⟨ss, hparse, hread⟩ := bind_eq_ok.1 hread
  obtain ⟨ts', hlex', hread⟩ := bind_eq_ok.1 hread
  obtain ⟨ss', hparse', hread⟩ := bind_eq_ok.1 hread
  obtain ⟨p, htree, hread⟩ := bind_eq_ok.1 hread
  obtain ⟨p', htree', hboth⟩ := bind_eq_ok.1 hread
  refine ⟨ts, ts', ss, ss', p, p', q, hlex, hparse, hlex', hparse', htree, htree', hboth, fun d => ?_⟩
  exact (whole_repeats_session hlex hparse hlex' hparse' htree htree' hboth d Machine.fresh ()).1

end Handheld
