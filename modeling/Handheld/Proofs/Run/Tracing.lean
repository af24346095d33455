import Handheld.Proofs.Run.Frames
import Handheld.Proofs.Run.Session

/-!
# The log changes nothing

No instruction looks at the debug flag. Two machines that differ in it take the
same steps, ask the same and are answered the same by a device that does not look
at its log. They differ until an instruction sets the flag of both. What is logged
is one record for each instruction that is started with the flag up.
-/

namespace Handheld

variable {σ : Type}

/-! ## Machines without their flag -/

/-- The machine with its debug flag down. -/
def Machine.muted (m : Machine) : Machine := { m with debug := false }

theorem Machine.eq_of_muted {m m' : Machine} (h : m.muted = m'.muted) :
    ∃ debug, m' = { m with debug } := by
  obtain ⟨program, memory, stack, pc, debug, status⟩ := m'
  cases h
  exact ⟨debug, rfl⟩

/-- The action, at the end of which the debug flag is lowered. -/
def Action.muted : Action → Action
  | .done event m => .done event m.muted
  | .call c resume => .call c fun answer => (resume answer).muted

namespace Machine

variable {m : Machine}

theorem muted_jump (target : Nat) : (m.muted.jump target).muted = (m.jump target).muted := by
  unfold jump
  change (if target ≤ m.program.size then _ else _ : Action).muted =
    (if target ≤ m.program.size then _ else _ : Action).muted
  split <;> rfl

theorem muted_push (v : Int64) : (m.muted.push v).muted = (m.push v).muted := by
  unfold push
  change (if (m.stack.push v).overflows then _ else _ : Action).muted =
    (if (m.stack.push v).overflows then _ else _ : Action).muted
  split <;> rfl

theorem muted_withTop {f g : Machine → Int64 → Action}
    (hf : ∀ stack v, (f (muted { m with stack }) v).muted = (g { m with stack } v).muted) :
    (m.muted.withTop f).muted = (m.withTop g).muted :=
  withTop_both (R := fun a b => a.muted = b.muted) m.muted m rfl (fun _ _ => rfl) hf

theorem muted_withPair {f g : Machine → Int64 → Int64 → Action}
    (hf : ∀ stack a b, (f (muted { m with stack }) a b).muted = (g { m with stack } a b).muted) :
    (m.muted.withPair f).muted = (m.withPair g).muted :=
  withPair_both (R := fun a b => a.muted = b.muted) m.muted m rfl (fun _ _ => rfl) hf

theorem muted_withAddress {a : Int64} {width : Width}
    {f g : (a : Nat) → a + width.bytes ≤ memorySize → Action}
    (hf : ∀ a ha, (f a ha).muted = (g a ha).muted) :
    (m.muted.withAddress a width f).muted = (m.withAddress a width g).muted :=
  withAddress_both (R := fun a b => a.muted = b.muted) m.muted m (fun _ => rfl) hf

theorem muted_withVariable {name : Char} {f g : (a : Nat) → a + 2 ≤ memorySize → Action}
    (hf : ∀ a ha, (f a ha).muted = (g a ha).muted) :
    (m.muted.withVariable name f).muted = (m.withVariable name g).muted :=
  withVariable_both (R := fun a b => a.muted = b.muted) m.muted m (fun _ => rfl) hf

theorem muted_exec (m : Machine) (i : Instr) : (m.muted.exec i).muted = (m.exec i).muted := by
  cases i with
  | literal n => exact muted_push n
  | push name =>
    simp only [exec]
    exact muted_withVariable fun a ha => muted_push _
  | pop name =>
    simp only [exec]
    exact muted_withVariable fun a ha => muted_withTop fun stack v => rfl
  | peek width =>
    simp only [exec]
    exact muted_withTop fun stack a => muted_withAddress fun a ha => muted_push _
  | poke width =>
    simp only [exec]
    refine muted_withTop fun stack a => muted_withTop fun stack v => ?_
    exact muted_withAddress fun a ha => rfl
  | dup =>
    simp only [exec]
    exact muted_withTop fun stack v => muted_push (m := { m with stack := stack.push v }) v
  | mask | negate =>
    simp only [exec]
    exact muted_withTop fun stack v => muted_push _
  | branch kind target =>
    cases kind with
    | always => exact muted_jump target
    | ifTrue =>
      rw [exec, exec]
      refine muted_withTop fun stack v => ?_
      split
      · rfl
      · exact muted_jump target
    | ifFalse =>
      rw [exec, exec]
      refine muted_withTop fun stack v => ?_
      split
      · exact muted_jump target
      · rfl
  | disp | pause | debug =>
    simp only [exec]
    exact muted_withTop fun stack v => rfl
  | draw graphic surface =>
    have hsame : m.muted.stack.popN graphic.arity = m.stack.popN graphic.arity := rfl
    simp only [exec, hsame]
    rcases m.stack.popN graphic.arity with ⟨_ | vs, stack⟩
    · rfl
    · dsimp only
      cases Drawing.ofArguments? graphic vs <;> rfl
  | dispGraph | exit | help | about => rfl
  | binary op =>
    simp only [exec]
    refine muted_withPair fun stack a b => ?_
    cases op.eval a b with
    | ok v => exact muted_push v
    | error cause => rfl
  | getKey =>
    simp only [exec]
    refine muted_withTop fun stack code => ?_
    split
    · exact congrArg (Action.call _) (funext fun pressed => muted_push _)
    · exact muted_push _
  | rand => exact congrArg (Action.call _) (funext fun r => muted_push _)
  | pxlTest surface =>
    simp only [exec]
    refine muted_withPair fun stack x y => ?_
    exact congrArg (Action.call _) (funext fun lit => muted_push _)

end Machine

/-! ## Steps without the flag -/

/-- The same but for the debug flag of the machine and the log of the device. -/
structure Parallel (same : σ → σ → Prop) (x x' : Machine × σ) : Prop where
  machine : x.1.muted = x'.1.muted
  device : same x.2 x'.2

section

variable {d : Device σ} {same : σ → σ → Prop} (hd : d.Overlooks same)
include hd

theorem Action.Silent.perform_parallel {a a' : Action} (ha : a.Silent) (h : a.muted = a'.muted)
    {s s' : σ} (hs : same s s') :
    (a.perform d s).1 = (a'.perform d s').1 ∧
      Parallel same (a.perform d s).2 (a'.perform d s').2 := by
  induction a generalizing a' s s' with
  | done event m =>
    cases a' with
    | done event' m' =>
      obtain ⟨hevent, hm⟩ := Action.done.inj h
      exact ⟨hevent, hm, hs⟩
    | call c' resume' => cases h
  | call c resume ih =>
    cases a' with
    | done event' m' => cases h
    | call c' resume' =>
      obtain ⟨rfl, hresume⟩ := Action.call.inj h
      obtain ⟨hanswer, hnext⟩ := hd.alike ha.1 hs
      have hrest : (resume (d.perform c s).1).muted = (resume' (d.perform c s').1).muted := by
        rw [← hanswer]
        exact congrFun (eq_of_heq hresume) _
      exact ih _ (ha.2 _) hrest hnext

namespace Machine

variable {m m' : Machine} {s s' : σ}

theorem same_logged (i : Instr) (hs : same s s') : same (m.logged d i s) (m'.logged d i s') := by
  have hlogged (m : Machine) (s : σ) : same (m.logged d i s) s := by
    unfold logged
    split
    · exact hd.log _ s
    · exact hd.equivalence.refl s
  exact hd.equivalence.trans (hlogged m s)
    (hd.equivalence.trans hs (hd.equivalence.symm (hlogged m' s')))

theorem step_parallel (h : Parallel same (m, s) (m', s')) :
    (m.step.perform d s).1 = (m'.step.perform d s').1 ∧
      Parallel same (m.step.perform d s).2 (m'.step.perform d s').2 := by
  have hm : m.muted = m'.muted := h.machine
  obtain ⟨debug, rfl⟩ := eq_of_muted hm
  by_cases hrun : m.status = .running
  · cases hi : m.program.code[m.pc]? with
    | none =>
      rw [step_behind hrun hi, step_behind (m := { m with debug }) hrun hi]
      exact ⟨rfl, rfl, h.device⟩
    | some i =>
      have hexec : (m.exec i).muted = (exec { m with debug } i).muted := by
        rw [← muted_exec, hm, muted_exec]
      rw [perform_step hrun hi, perform_step (m := { m with debug }) hrun hi]
      exact (silent_exec m i).perform_parallel hd hexec (same_logged hd i h.device)
  · rw [step_of_over hrun, step_of_over (m := { m with debug }) hrun]
    exact ⟨rfl, h⟩

theorem after_parallel (h : Parallel same (m, s) (m', s')) (n : Nat) :
    Parallel same (m.after d n s) (m'.after d n s') := by
  induction n generalizing m m' s s' with
  | zero => exact h
  | succ n ih => exact ih (step_parallel hd h).2

theorem eventAt_parallel (h : Parallel same (m, s) (m', s')) (n : Nat) :
    m.eventAt d n s = m'.eventAt d n s' :=
  (step_parallel hd (after_parallel hd h n)).1

end Machine

end

/-! ## What sets the flag -/

namespace Machine

/-- The instruction that the next step starts with. -/
def started? (m : Machine) : Option Instr :=
  if m.status = .running then m.program.code[m.pc]? else none

variable {m m' : Machine} {d : Device σ} {s s' : σ}

theorem started?_eq_some {i : Instr} :
    m.started? = some i ↔ m.status = .running ∧ m.program.code[m.pc]? = some i := by
  rw [started?]
  split <;> simp [*]

theorem debug_step (m : Machine) (d : Device σ) (s : σ) :
    let r := m.step.perform d s
    (m.started? = some .debug ∧ r.1 = .running ∧
        ∃ v, m.stack.pop.1 = some v ∧ r.2.1.debug = (v != 0)) ∨
      ¬ (m.started? = some .debug ∧ r.1 = .running) ∧ r.2.1.debug = m.debug := by
  dsimp only
  by_cases hstart : m.started? = some .debug
  · obtain ⟨hrun, hi⟩ := started?_eq_some.1 hstart
    rw [perform_step hrun hi, exec, withTop]
    rcases m.stack.pop with ⟨_ | v, stack⟩
    · exact .inr ⟨fun h => Event.running_ne_fault _ h.2.symm, rfl⟩
    · exact .inl ⟨hstart, rfl, v, rfl, rfl⟩
  · refine .inr ⟨fun h => hstart h.1, ?_⟩
    by_cases hrun : m.status = .running
    · exact ((moves_step hrun).perform d s).debug fun hi => hstart (started?_eq_some.2 ⟨hrun, hi⟩)
    · rw [step_of_over hrun]
      rfl

/-- The instruction is carried out, and it is the one that sets the flag. -/
def SetsFlag (d : Device σ) (m : Machine) (s : σ) : Prop :=
  m.started? = some .debug ∧ (m.step.perform d s).1 = .running

section

variable {same : σ → σ → Prop} (hd : d.Overlooks same)
include hd

/-- Flags that are equal stay so, and those that are not become equal when both are set. -/
theorem debug_step_parallel (h : Parallel same (m, s) (m', s'))
    (heq : m.debug = m'.debug ∨ m.SetsFlag d s) :
    (m.step.perform d s).2.1.debug = (m'.step.perform d s').2.1.debug := by
  have hevent := (step_parallel hd h).1
  obtain ⟨debug, rfl⟩ := eq_of_muted h.machine
  rcases m.debug_step d s with ⟨hi, he, v, hv, hset⟩ | ⟨hnot, hkept⟩
  · rcases debug_step { m with debug } d s' with ⟨-, -, v', hv', hset'⟩ | ⟨hnot', -⟩
    · cases hv.symm.trans hv'
      rw [hset, hset']
    · exact absurd ⟨hi, hevent.symm.trans he⟩ hnot'
  · rcases debug_step { m with debug } d s' with ⟨hi', he', -⟩ | ⟨-, hkept'⟩
    · exact absurd ⟨hi', hevent.trans he'⟩ hnot
    · rw [hkept, hkept']
      exact heq.resolve_right hnot

theorem debug_after_parallel (h : Parallel same (m, s) (m', s')) {n : Nat}
    (hset : ∃ k < n, (m.after d k s).1.SetsFlag d (m.after d k s).2) :
    (m.after d n s).1.debug = (m'.after d n s').1.debug := by
  induction n with
  | zero =>
    obtain ⟨k, hk, -⟩ := hset
    cases hk
  | succ n ih =>
    rw [after_add, after_add]
    refine debug_step_parallel hd (after_parallel hd h n) ?_
    obtain ⟨k, hk, hset⟩ := hset
    rcases Nat.lt_succ_iff_lt_or_eq.1 hk with hk | rfl
    · exact .inl (ih ⟨k, hk, hset⟩)
    · exact .inr hset

end

end Machine

/-! ## What is logged -/

/-- What a record shows. -/
structure Note where
  address : Nat
  instr : Instr
  stack : List Int64

def Note.text (note : Note) : String :=
  Text.alignedRight 5 (toString note.address) ++ " " ++ Text.alignedLeft 14 note.instr.text ++
    " [" ++ ", ".intercalate (note.stack.map fun v => toString v.toInt) ++ "]"

/-- The note for the next step, if it starts an instruction and the flag is up. -/
def Machine.note? (m : Machine) : Option Note :=
  if m.debug then m.started?.map fun i => ⟨m.pc, i, m.stack.toList⟩ else none

theorem Machine.record_eq (m : Machine) (i : Instr) :
    m.record i = Note.text ⟨m.pc, i, m.stack.toList⟩ := rfl

section

variable {γ : Type} [RandomSource γ]

theorem Recording.records_perform {c : Call} (hc : c.isLog = false) (r : Recording γ) :
    (device.perform c r).2.records = r.records := by
  cases c with
  | log text => cases hc
  | keyPressed code =>
    obtain ⟨screen, keypad, answers, chance, output, records, pauses, frames⟩ := r
    match answers with
    | none | some [] | some (_ :: _) => rfl
  | _ => rfl

theorem Action.Silent.records {a : Action} (h : a.Silent) (r : Recording γ) :
    (a.perform Recording.device r).2.2.records = r.records := by
  induction a generalizing r with
  | done event m => rfl
  | call c resume ih => exact (ih _ (h.2 _) _).trans (Recording.records_perform h.1 r)

namespace Machine

theorem records_step (m : Machine) (r : Recording γ) :
    (m.step.perform Recording.device r).2.2.records.toList =
      r.records.toList ++ (m.note?.map Note.text).toList := by
  by_cases hrun : m.status = .running
  · cases hi : m.program.code[m.pc]? with
    | none =>
      have hnone : m.note? = none := by simp [note?, started?, hi]
      rw [step_behind hrun hi, hnone]
      exact (List.append_nil _).symm
    | some i =>
      have hstart : m.started? = some i := started?_eq_some.2 ⟨hrun, hi⟩
      rw [perform_step hrun hi, (silent_exec m i).records, logged, note?, hstart]
      split
      · rw [record_eq]
        exact Array.toList_push
      · exact (List.append_nil _).symm
  · have hnone : m.note? = none := by simp [note?, started?, hrun]
    rw [step_of_over hrun, hnone]
    exact (List.append_nil _).symm

/-- The notes for the first `n` steps, in the order of the steps. -/
def notes (d : Device σ) (n : Nat) (m : Machine) (s : σ) : List Note :=
  (List.range n).filterMap fun k => (m.after d k s).1.note?

theorem notes_succ (d : Device σ) (n : Nat) (m : Machine) (s : σ) :
    m.notes d (n + 1) s = m.notes d n s ++ (m.after d n s).1.note?.toList := by
  rw [notes, List.range_succ, List.filterMap_append, List.filterMap_cons, List.filterMap_nil]
  cases (m.after d n s).1.note? <;> rfl

theorem length_notes (d : Device σ) (n : Nat) (m : Machine) (s : σ) :
    (m.notes d n s).length = (List.range n).countP fun k =>
      (m.after d k s).1.debug && (m.after d k s).1.started?.isSome := by
  rw [notes, List.length_filterMap_eq_countP]
  refine List.countP_congr fun k _ => ?_
  rw [note?]
  cases (m.after d k s).1.debug <;> simp

theorem records_after (m : Machine) (r : Recording γ) (n : Nat) :
    (m.after Recording.device n r).2.records.toList =
      r.records.toList ++ (m.notes Recording.device n r).map Note.text := by
  induction n with
  | zero => exact (List.append_nil _).symm
  | succ n ih =>
    rw [after_add, notes_succ, List.map_append, ← List.append_assoc, ← ih]
    refine (records_step _ _).trans ?_
    cases (m.after Recording.device n r).1.note? <;> rfl

end Machine

/-- Two machines that differ by their debug flag at most, on recorders that differ by their records
at most. After any number of steps they are the same but for that and have come back with the same
events, and when both have carried out an instruction that sets the flag, the flags are the same as
well. The records are those of the instructions that were started with the flag up, each with its
address and the stack before it, in the order of the run. -/
theorem tracing_transparent (m : Machine) (debug : Bool) (r : Recording γ) (records : Array String)
    (n : Nat) :
    let d := Recording.device
    let m' := { m with debug }
    let r' := { r with records }
    let x := m.after d n r
    let x' := m'.after d n r'
    x'.1.program = x.1.program ∧ x'.1.memory = x.1.memory ∧ x'.1.stack = x.1.stack ∧
    x'.1.pc = x.1.pc ∧ x'.1.status = x.1.status ∧
    m'.eventAt d n r' = m.eventAt d n r ∧
    { x'.2 with records := #[] } = { x.2 with records := #[] } ∧
    ((∃ k < n, (m.after d k r).1.SetsFlag d (m.after d k r).2) → x'.1.debug = x.1.debug) ∧
    x.2.records.toList = r.records.toList ++ (m.notes d n r).map Note.text ∧
    x.2.records.size = r.records.size + (List.range n).countP fun k =>
      (m.after d k r).1.debug && (m.after d k r).1.started?.isSome := by
  intro d m' r' x x'
  have hd := Recording.device_overlooks (γ := γ)
  have hparallel : Parallel (fun r r' : Recording γ =>
      { r with records := #[] } = { r' with records := #[] }) (m', r') (m, r) := ⟨rfl, rfl⟩
  have hafter := Machine.after_parallel hd hparallel n
  have hsame {α : Type} (f : Machine → α) : f x'.1.muted = f x.1.muted := congrArg f hafter.machine
  have hrecords := m.records_after r n
  have hsize : x.2.records.size = r.records.size + (m.notes d n r).length := by
    rw [← Array.length_toList, hrecords, List.length_append, List.length_map, Array.length_toList]
  refine ⟨hsame (·.program), hsame (·.memory), hsame (·.stack), hsame (·.pc), hsame (·.status),
    Machine.eventAt_parallel hd hparallel n, hafter.device, fun hset => ?_, hrecords,
    hsize.trans (congrArg _ (m.length_notes d n r))⟩
  exact (Machine.debug_after_parallel hd ⟨hparallel.machine.symm, hparallel.device.symm⟩ hset).symm

end

theorem tracing_transparent_raised :
    let d := Recorder.device
    let m := Machine.fresh.load { code := #[.literal 1, .debug, .exit] }
    let m' := { m with debug := true }
    (m.after d 3 {}).2.records = #["    2 EXIT           []"] ∧
    (m'.after d 3 {}).2.records =
      #["    0 LITERAL(1)     []", "    1 DEBUG          [1]", "    2 EXIT           []"] ∧
    (m'.after d 3 {}).1.debug = (m.after d 3 {}).1.debug := by
  intro d m m'
  have hset : (m.after d 1 {}).1.SetsFlag d (m.after d 1 {}).2 := by
    constructor <;> decide +kernel
  have hflag (n : Nat) (hn : 1 < n) : (m'.after d n {}).1.debug = (m.after d n {}).1.debug := by
    obtain ⟨-, -, -, -, -, -, -, hflag, -⟩ :=
      tracing_transparent m true ({} : Recorder) #[] n
    exact hflag ⟨1, hn, hset⟩
  exact ⟨by decide +kernel, by decide +kernel, hflag 3 (by decide)⟩

end Handheld
