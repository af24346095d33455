import Handheld.Device.Recorder
import Handheld.Proofs.Run.Slices

/-!
# A machine in the hands of its host

Any program can be loaded, and the host may call for a step, a number of steps,
a run, an interruption or a new start, in any order and on any device. Whatever
it does, the machine stays within its program, its memory and its stack, and a
machine that is over waits for the next program.
-/

namespace Handheld

/-! ## Memory by index -/

namespace Memory

/-- The byte at an index, which there need not be. -/
def peek? (m : Memory) (a : Nat) : Option UInt8 :=
  m.bytes[a]?

def poke? (m : Memory) (a : Nat) (v : UInt8) : Option Memory :=
  if h : a < memorySize then some (m.poke a v h) else none

def peekWord? (m : Memory) (a : Nat) : Option UInt16 := do
  let low ← m.peek? a
  let high ← m.peek? (a + 1)
  return UInt16.ofNat (low.toNat + 256 * high.toNat)

def pokeWord? (m : Memory) (a : Nat) (v : UInt16) : Option Memory := do
  let m ← m.poke? a (UInt8.ofNat v.toNat)
  m.poke? (a + 1) (UInt8.ofNat (v.toNat / 256))

def read? (m : Memory) (width : Width) (a : Nat) : Option Int64 :=
  match width with
  | .byte => (m.peek? a).map fun v => Int64.ofNat v.toNat
  | .word => (m.peekWord? a).map fun v => Int64.ofNat v.toNat

def write? (m : Memory) (width : Width) (a : Nat) (v : Int64) : Option Memory :=
  match width with
  | .byte => m.poke? a v.toUInt64.toUInt8
  | .word => m.pokeWord? a v.toUInt64.toUInt16

theorem peek?_eq (m : Memory) (a : Nat) :
    m.peek? a = if h : a < memorySize then some (m.peek a h) else none := by
  unfold peek?
  split
  · next h => exact Vector.getElem?_eq_getElem h
  · next h => exact Vector.getElem?_eq_none (Nat.not_lt.1 h)

theorem peekWord?_eq (m : Memory) (a : Nat) :
    m.peekWord? a = if h : a + 2 ≤ memorySize then some (m.peekWord a h) else none := by
  unfold peekWord?
  rw [peek?_eq, peek?_eq]
  by_cases h : a + 2 ≤ memorySize
  · have hlow : a < memorySize := by omega
    have hhigh : a + 1 < memorySize := by omega
    rw [dif_pos h, dif_pos hlow, dif_pos hhigh]
    rfl
  · have hhigh : ¬ a + 1 < memorySize := by omega
    rw [dif_neg h, dif_neg hhigh]
    exact Option.bind_fun_none _

theorem pokeWord?_eq (m : Memory) (a : Nat) (v : UInt16) :
    m.pokeWord? a v = if h : a + 2 ≤ memorySize then some (m.pokeWord a v h) else none := by
  unfold pokeWord? poke?
  by_cases h : a + 2 ≤ memorySize
  · have hlow : a < memorySize := by omega
    have hhigh : a + 1 < memorySize := by omega
    simp only [dif_pos h, dif_pos hlow, dif_pos hhigh]
    rfl
  · have hhigh : ¬ a + 1 < memorySize := by omega
    simp only [dif_neg h, dif_neg hhigh]
    exact Option.bind_fun_none _

theorem read?_eq (m : Memory) (width : Width) (a : Nat) :
    m.read? width a =
      if h : a + width.bytes ≤ memorySize then some (m.read width a h) else none := by
  cases width with
  | byte =>
    rw [read?, peek?_eq]
    exact apply_dite ..
  | word =>
    rw [read?, peekWord?_eq]
    exact apply_dite ..

theorem write?_eq (m : Memory) (width : Width) (a : Nat) (v : Int64) :
    m.write? width a v =
      if h : a + width.bytes ≤ memorySize then some (m.write width a v h) else none := by
  cases width with
  | byte => rfl
  | word => exact m.pokeWord?_eq a _

theorem isSome_read? (m : Memory) (width : Width) (a : Nat) :
    (m.read? width a).isSome ↔ a + width.bytes ≤ memorySize := by
  rw [read?_eq]
  split <;> simp_all

theorem isSome_write? (m : Memory) (width : Width) (a : Nat) (v : Int64) :
    (m.write? width a v).isSome ↔ a + width.bytes ≤ memorySize := by
  rw [write?_eq]
  split <;> simp_all

theorem valueOf?_eq (m : Memory) (name : Char) :
    m.valueOf? name = (variableAddress? name).bind m.peekWord? := by
  unfold valueOf?
  split
  · next a heq =>
    have hword : m.peekWord? a = some (m.peekWord a (variableAddress?_le heq)) := by
      rw [peekWord?_eq, dif_pos]
    simp only [heq, Option.bind_some, hword]
  · next hnone => rw [hnone, Option.bind_none]

theorem read?_of_le (m : Memory) (width : Width) (a : Nat) (h : a + width.bytes ≤ memorySize) :
    m.read? width a = some (m.read width a h) := by
  rw [read?_eq, dif_pos h]

theorem write?_of_le (m : Memory) (width : Width) (a : Nat) (v : Int64)
    (h : a + width.bytes ≤ memorySize) : m.write? width a v = some (m.write width a v h) := by
  rw [write?_eq, dif_pos h]

end Memory

namespace Machine

def tryTop (m : Machine) (k : Machine → Int64 → Option Action) : Option Action :=
  match m.stack.pop with
  | (some v, stack) => k { m with stack } v
  | (none, stack) => some (fault { m with stack } .stackUnderflow)

def tryAddress (m : Machine) (a : Int64) (width : Width) (k : Nat → Option Action) :
    Option Action :=
  if 0 ≤ a.toInt ∧ a.toInt.toNat + width.bytes ≤ memorySize then k a.toInt.toNat
  else some (m.fault (.badAddress a))

def tryVariable (m : Machine) (name : Char) (k : Nat → Option Action) : Option Action :=
  match variableAddress? name with
  | some a => k a
  | none => some (m.fault .unknownVariable)

/-- Carries out an instruction that gets at memory by index. If an index were outside of memory,
there would be no action. -/
def execByIndex (m : Machine) : Instr → Option Action
  | .push name => m.tryVariable name fun a => (m.memory.read? .word a).map m.push
  | .pop name =>
    m.tryVariable name fun a =>
      m.tryTop fun m v => (m.memory.write? .word a v).map fun memory => next { m with memory }
  | .peek width =>
    m.tryTop fun m a => m.tryAddress a width fun a => (m.memory.read? width a).map m.push
  | .poke width =>
    m.tryTop fun m a =>
      m.tryTop fun m v =>
        m.tryAddress a width fun a =>
          (m.memory.write? width a v).map fun memory => next { m with memory }
  | i => some (m.exec i)

variable {m : Machine}

theorem tryTop_eq {k : Machine → Int64 → Option Action} {k' : Machine → Int64 → Action}
    (hk : ∀ m v, k m v = some (k' m v)) : m.tryTop k = some (m.withTop k') := by
  unfold tryTop withTop
  obtain ⟨_ | v, stack⟩ := m.stack.pop
  · rfl
  · exact hk _ _

theorem tryAddress_eq {a : Int64} {width : Width} {k : Nat → Option Action}
    {k' : (a : Nat) → a + width.bytes ≤ memorySize → Action} (hk : ∀ a h, k a = some (k' a h)) :
    m.tryAddress a width k = some (m.withAddress a width k') := by
  unfold tryAddress withAddress
  split
  · exact hk _ _
  · rfl

theorem tryVariable_eq {name : Char} {k : Nat → Option Action}
    {k' : (a : Nat) → a + 2 ≤ memorySize → Action} (hk : ∀ a h, k a = some (k' a h)) :
    m.tryVariable name k = some (m.withVariable name k') := by
  unfold tryVariable withVariable
  split
  · next heq =>
    rw [hk _ (variableAddress?_le heq)]
    split
    · next heq' =>
      cases heq.symm.trans heq'
      rfl
    · next hnone => cases heq.symm.trans hnone
  · next hnone =>
    split
    · next heq => cases hnone.symm.trans heq
    · rfl

/-- No instruction gets at an index outside of memory. -/
theorem execByIndex_eq (m : Machine) (i : Instr) : m.execByIndex i = some (m.exec i) := by
  cases i with
  | push name =>
    rw [execByIndex, exec]
    refine tryVariable_eq fun a h => ?_
    rw [m.memory.read?_of_le .word a h]
    rfl
  | pop name =>
    rw [execByIndex, exec]
    refine tryVariable_eq fun a h => tryTop_eq fun m v => ?_
    rw [m.memory.write?_of_le .word a v h]
    rfl
  | peek width =>
    rw [execByIndex, exec]
    refine tryTop_eq fun m a => tryAddress_eq fun a h => ?_
    rw [m.memory.read?_of_le width a h]
    rfl
  | poke width =>
    rw [execByIndex, exec]
    refine tryTop_eq fun m a => tryTop_eq fun m v => tryAddress_eq fun a h => ?_
    rw [m.memory.write?_of_le width a v h]
    rfl
  | _ => rfl

end Machine

/-! ## Calls of the host -/

inductive Control
  | load (p : Program)
  | reset
  | interrupt
  | step
  | execute (cycles : Nat)
  | run (flag : Bool) (raises : List Bool)

/-- Does the machine start anew? -/
def Control.startsAnew : Control → Bool
  | .load _ | .reset => true
  | _ => false

namespace Machine

variable {σ : Type}

/-- What the host gets for a call: the event if there is one, the machine and the device. -/
def serve (d : Device σ) (c : Control) (m : Machine) (s : σ) : Option Event × Machine × σ :=
  match c with
  | .load p => (none, m.load p, s)
  | .reset => (none, .fresh, s)
  | .interrupt => (none, m.interrupt.2, s)
  | .step => (some (m.step.perform d s).1, (m.step.perform d s).2)
  | .execute cycles => (some (m.execute d cycles s).1, (m.execute d cycles s).2)
  | .run flag raises => (some (m.run d flag raises s).1.1, (m.run d flag raises s).1.2)

/-- The host may have come there, by any calls on any devices. -/
inductive Reachable : Machine → Prop
  | fresh : Reachable .fresh
  | serve {σ : Type} {m : Machine} (h : Reachable m) (d : Device σ) (c : Control) (s : σ) :
      Reachable (m.serve d c s).2.1

/-! ## What all calls keep -/

structure Safe (m : Machine) : Prop where
  pc_le : m.pc ≤ m.program.size
  room : m.status = .running → m.stack.size ≤ stackLimit

variable {m : Machine}

theorem Safe.halted (h : m.Safe) : Safe { m with status := .halted } :=
  ⟨h.pc_le, nofun⟩

theorem Safe.load (m : Machine) (p : Program) : (m.load p).Safe :=
  ⟨Nat.zero_le _, fun _ => Nat.zero_le _⟩

theorem Safe.step (h : m.Safe) (d : Device σ) (s : σ) : (m.step.perform d s).2.1.Safe := by
  by_cases hrun : m.status = .running
  · have hmoves := (moves_step hrun).perform d s
    refine ⟨?_, hmoves.room (h.room hrun)⟩
    rw [hmoves.program]
    exact hmoves.pc_le h.pc_le
  · rw [step_of_over hrun]
    exact h

section

variable {P : Machine → Prop} (d : Device σ) (hstep : ∀ m s, P m → P (m.step.perform d s).2.1)
include hstep

theorem execute_keeps (n : Nat) (m : Machine) (s : σ) (h : P m) : P (m.execute d n s).2.1 := by
  induction n generalizing m s with
  | zero => exact h
  | succ n ih =>
    rw [execute_succ]
    split
    · exact ih _ _ (hstep m s h)
    · exact hstep m s h

theorem run_keeps (hhalted : ∀ m, P m → P { m with status := .halted }) (flag : Bool)
    (raises : List Bool) (m : Machine) (s : σ) (h : P m) : P (m.run d flag raises s).1.2.1 := by
  induction raises generalizing flag m s with
  | nil => exact h
  | cons raised raises ih =>
    rw [run]
    split
    · exact hhalted m h
    · have hslice := execute_keeps d hstep slice m s h
      split
      · next heq =>
        rw [heq] at hslice
        exact ih false _ _ hslice
      · exact hslice

end

theorem Safe.serve (h : m.Safe) (d : Device σ) (c : Control) (s : σ) :
    (m.serve d c s).2.1.Safe := by
  cases c with
  | load p => exact .load m p
  | reset => exact ⟨Nat.zero_le _, nofun⟩
  | interrupt =>
    simp only [Machine.serve, interrupt]
    split
    · exact h.halted
    · exact h
  | step => exact h.step d s
  | execute cycles => exact execute_keeps d (fun _ s h => h.step d s) cycles m s h
  | run flag raises =>
    exact run_keeps d (fun _ s h => h.step d s) (fun _ h => h.halted) flag raises m s h

theorem Reachable.safe (h : m.Reachable) : m.Safe := by
  induction h with
  | fresh => exact ⟨Nat.zero_le _, nofun⟩
  | serve _ d c s ih => exact ih.serve d c s

/-! ## Events and the status -/

theorem status_execute (hrun : m.status = .running) (d : Device σ) (n : Nat) (s : σ) :
    (m.execute d n s).2.1.status = (m.execute d n s).1.status := by
  induction n generalizing m s with
  | zero =>
    rw [execute, if_pos hrun]
    exact hrun
  | succ n ih =>
    rw [execute_succ]
    split
    · next hfirst => exact ih (proceeds_of_event hfirst).status _
    · exact status_step hrun d s

theorem status_run (hrun : m.status = .running) (d : Device σ) (flag : Bool) (raises : List Bool)
    (s : σ) : (m.run d flag raises s).1.2.1.status = (m.run d flag raises s).1.1.status := by
  induction raises generalizing flag m s with
  | nil => exact hrun
  | cons raised raises ih =>
    rw [run]
    split
    · rfl
    · have hslice := status_execute hrun d slice s
      split
      · next heq =>
        rw [heq] at hslice
        exact ih hslice false _
      · exact hslice

theorem serve_of_over (h : m.status ≠ .running) {c : Control} (hc : c.startsAnew = false)
    (d : Device σ) (s : σ) :
    (m.serve d c s).2 = (m, s) ∧ ∀ e, (m.serve d c s).1 ≠ some (.fault e) := by
  cases c with
  | load | reset => cases hc
  | interrupt => simp [serve, interrupt, h]
  | step => simp [serve, step_of_over h, Action.perform]
  | execute cycles => simp [serve, execute_of_over h]
  | run flag raises =>
    cases raises with
    | nil => simp [serve, run]
    | cons raised raises => simp [serve, run_of_over h]

theorem serve_fault (d : Device σ) (c : Control) (m : Machine) (s : σ) :
    (∃ e, (m.serve d c s).1 = some (.fault e)) ↔
      m.status ≠ .faulted ∧ (m.serve d c s).2.1.status = .faulted := by
  by_cases hrun : m.status = .running
  · have hevent {e : Event} {m' : Machine} (h : m'.status = e.status) :
        (∃ d, some e = some (.fault d)) ↔ m.status ≠ .faulted ∧ m'.status = .faulted := by
      rw [h, Event.status_eq_faulted]
      simp [hrun]
    cases c with
    | load p => simp [serve, load]
    | reset => simp [serve, fresh]
    | interrupt => simp [serve, interrupt, hrun]
    | step => exact hevent (status_step hrun d s)
    | execute cycles => exact hevent (status_execute hrun d cycles s)
    | run flag raises => exact hevent (status_run hrun d flag raises s)
  · cases hc : c.startsAnew with
    | false =>
      obtain ⟨hsame, hnone⟩ := serve_of_over hrun hc d s
      rw [hsame]
      simp [hnone]
    | true =>
      cases c with
      | load p => simp [serve, load]
      | reset => simp [serve, fresh]
      | _ => cases hc

end Machine

/-! ## Safety -/

/-- Whatever has been loaded and called, the program counter, memory and the stack stay within their
bounds. An access by index outside of memory would find nothing, and there is none. A failure is
told by the call in which the machine fails. A machine that is over stays as it is, and leaves the
device alone, up to the next start. -/
theorem reachable_safe {m : Machine} (h : m.Reachable) :
    m.pc ≤ m.program.size ∧
    m.memory.bytes.toList.length = 65535 ∧
    (m.status = .running → m.stack.items.length ≤ 65535) ∧
    (∀ width a v, ((m.memory.read? width a).isSome ↔ a + width.bytes ≤ 65535) ∧
      ((m.memory.write? width a v).isSome ↔ a + width.bytes ≤ 65535)) ∧
    (∀ i, m.execByIndex i = some (m.exec i)) ∧
    (∀ name, m.valueOf? name = (variableAddress? name).bind m.memory.peekWord?) ∧
    ∀ {σ : Type} (d : Device σ) (c : Control) (s : σ),
      ((∃ e, (m.serve d c s).1 = some (.fault e)) ↔
        m.status ≠ .faulted ∧ (m.serve d c s).2.1.status = .faulted) ∧
      (m.status ≠ .running → c.startsAnew = false → (m.serve d c s).2 = (m, s)) := by
  refine ⟨h.safe.pc_le, Vector.length_toList, ?_, fun width a v => ?_, m.execByIndex_eq,
    m.memory.valueOf?_eq, fun d c s => ⟨m.serve_fault d c s, ?_⟩⟩
  · intro hrun
    rw [← m.stack.size_eq]
    exact h.safe.room hrun
  · exact ⟨m.memory.isSome_read? width a, m.memory.isSome_write? width a v⟩
  · exact fun hover hc => (Machine.serve_of_over hover hc d s).1

theorem reachable_safe_wild :
    let d := Recorder.device
    let p : Program := { code := #[.literal 3, .literal (-1), .poke .word, .branch .always 9] }
    let m := ((Machine.fresh.serve d (.load p) {}).2.1.serve d (.execute 9) {}).2.1
    m.status = .faulted ∧ m.pc ≤ m.program.size ∧
      (m.serve d (.run true [true]) {}).2 = (m, {}) := by
  intro d p m
  have hfaulted : m.status = .faulted := by decide +kernel
  have hreach : m.Reachable := .serve (.serve .fresh d (.load p) {}) d (.execute 9) {}
  obtain ⟨hpc, -, -, -, -, -, hserve⟩ := reachable_safe hreach
  refine ⟨hfaulted, hpc, (hserve d (.run true [true]) {}).2 ?_ rfl⟩
  rw [hfaulted]
  exact nofun

end Handheld
