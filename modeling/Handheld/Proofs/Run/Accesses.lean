import Handheld.Proofs.Meaning.Instructions
import Handheld.Proofs.Run.Frames
import Mathlib

/-!
# What memory holds

Variables, bytes and words share one memory and may overlap. An access by address
fails if one of its bytes is not there, and a store that succeeds changes its own
bytes and no others. So each byte is the one that the last store over it has put
there, whatever the stores were, and words and variables are read from the bytes.
-/

namespace Handheld

/-! ## Stores -/

theorem Memory.peek_pokeWord (m : Memory) {a x : Nat} (v : UInt16) (h : a + 2 ≤ memorySize)
    (hx : x < memorySize) : (m.pokeWord a v h).peek x hx =
      if a ≤ x ∧ x < a + 2 then UInt8.ofNat (v.toNat / 256 ^ (x - a)) else m.peek x hx := by
  split
  · obtain rfl | rfl : x = a ∨ x = a + 1 := by omega
    · rw [pokeWord, peek_poke, peek_poke, if_neg (Nat.succ_ne_self x), if_pos rfl, Nat.sub_self,
        Nat.pow_zero, Nat.div_one]
    · rw [pokeWord, peek_poke, if_pos rfl, Nat.add_sub_cancel_left, Nat.pow_one]
  · exact m.peek_pokeWord_of_not hx v h (by omega)

/-- A store that succeeds: the low bytes of a value, at a place that has room for them. -/
structure Stored where
  width : Width
  place : Nat
  value : Int64
  within : place + width.bytes ≤ memorySize

namespace Stored

def Covers (w : Stored) (x : Nat) : Prop :=
  w.place ≤ x ∧ x < w.place + w.width.bytes

instance (w : Stored) (x : Nat) : Decidable (w.Covers x) :=
  inferInstanceAs (Decidable (_ ∧ _))

/-- The byte of the value that belongs to an address, the lowest byte to the first one. -/
def byteAt (w : Stored) (x : Nat) : UInt8 :=
  UInt8.ofNat (w.value.toUInt64.toNat / 256 ^ (x - w.place))

def into (w : Stored) (m : Memory) : Memory :=
  m.write w.width w.place w.value w.within

/-- A store into a variable, if there is one of this name. -/
def ofName? (name : Char) (v : Int64) : Option Stored :=
  match h : variableAddress? name with
  | some b => some ⟨.word, b, v, variableAddress?_le h⟩
  | none => none

/-- A store by address, if all of its bytes are there. -/
def ofAddress? (width : Width) (a v : Int64) : Option Stored :=
  if h : 0 ≤ a.toInt ∧ a.toInt.toNat + width.bytes ≤ memorySize then
    some ⟨width, a.toInt.toNat, v, h.2⟩
  else
    none

theorem ofName?_eq {name : Char} {b : Nat} (hb : variableAddress? name = some b) (v : Int64) :
    ofName? name v = some ⟨.word, b, v, variableAddress?_le hb⟩ := by
  unfold ofName?
  split
  · next hb' =>
    cases hb'.symm.trans hb
    rfl
  · next hnone => cases hnone.symm.trans hb

theorem ofName?_none {name : Char} (h : variableAddress? name = none) (v : Int64) :
    ofName? name v = none := by
  unfold ofName?
  split
  · next hb => cases h.symm.trans hb
  · rfl

/-- The last one of the stores into the byte at `x`. -/
def last? (ws : List Stored) (x : Nat) : Option Stored :=
  ws.reverse.find? fun w => w.Covers x

theorem last?_concat (ws : List Stored) (w : Stored) (x : Nat) :
    last? (ws ++ [w]) x = if w.Covers x then some w else last? ws x := by
  unfold last?
  rw [List.reverse_append, List.reverse_singleton, List.singleton_append, List.find?_cons]
  split <;> simp_all

theorem peek_into (w : Stored) (m : Memory) {x : Nat} (hx : x < memorySize) :
    (w.into m).peek x hx = if w.Covers x then w.byteAt x else m.peek x hx := by
  obtain ⟨width, a, v, h⟩ := w
  split
  · next hcovers =>
    cases width with
    | byte =>
      obtain rfl : a = x := by
        simp only [Covers, Width.bytes] at hcovers
        omega
      refine ((m.peek_poke a a v.toUInt64.toUInt8 h hx).trans (if_pos rfl)).trans ?_
      simp [byteAt]
    | word =>
      refine ((m.peek_pokeWord v.toUInt64.toUInt16 h hx).trans (if_pos hcovers)).trans ?_
      have hword : v.toUInt64.toUInt16.toNat = v.toUInt64.toNat % 65536 := rfl
      obtain hoffset | hoffset : x - a = 0 ∨ x - a = 1 := by
        simp only [Covers, Width.bytes] at hcovers
        omega
      all_goals
        refine UInt8.toNat_inj.1 ?_
        simp only [byteAt, hoffset, hword, UInt8.toNat_ofNat', Nat.pow_zero, Nat.pow_one,
          Nat.div_one]
        omega
  · next hcovers =>
    refine m.peek_write_of_not hx v h ?_
    simp only [Covers] at hcovers
    omega

end Stored

namespace Memory

/-- Memory after some stores, the first one first. -/
def stored (m : Memory) (ws : List Stored) : Memory :=
  ws.foldl (fun m w => w.into m) m

theorem stored_append (m : Memory) (us ws : List Stored) :
    m.stored (us ++ ws) = (m.stored us).stored ws :=
  List.foldl_append

theorem peek_stored (m : Memory) (ws : List Stored) {x : Nat} (hx : x < memorySize) :
    (m.stored ws).peek x hx =
      ((Stored.last? ws x).map fun w => w.byteAt x).getD (m.peek x hx) := by
  induction ws using List.reverseRecOn with
  | nil => rfl
  | append_singleton ws w ih =>
    rw [stored_append, Stored.last?_concat]
    change (w.into (m.stored ws)).peek x hx = _
    rw [Stored.peek_into, ih]
    split <;> rfl

theorem ext_peek {m n : Memory} (h : ∀ x hx, m.peek x hx = n.peek x hx) : m = n := by
  cases m with | mk a =>
  cases n with | mk b =>
  congr 1
  exact Vector.ext h

/-- The bytes of an access as a number, the lowest byte first. -/
def number (m : Memory) (width : Width) (a : Nat) (h : a + width.bytes ≤ memorySize) : Nat :=
  match width, h with
  | .byte, h => (m.peek a h).toNat
  | .word, h => (m.peek a (Nat.lt_of_succ_lt h)).toNat + 256 * (m.peek (a + 1) h).toNat

theorem toNat_peekWord (m : Memory) (a : Nat) (h : a + 2 ≤ memorySize) :
    (m.peekWord a h).toNat = m.number .word a h := by
  have hlow := (m.peek a (by omega)).toNat_lt
  have hhigh := (m.peek (a + 1) (by omega)).toNat_lt
  rw [peekWord, UInt16.toNat_ofNat', Nat.mod_eq_of_lt (by omega)]
  rfl

theorem valueOf?_eq_peekWord (m : Memory) {name : Char} {b : Nat}
    (hb : variableAddress? name = some b) :
    m.valueOf? name = some (m.peekWord b (variableAddress?_le hb)) := by
  rw [valueOf?_eq, hb, Option.bind_some, peekWord?_eq, dif_pos]

theorem read_eq_number (m : Memory) (width : Width) (a : Nat) (h : a + width.bytes ≤ memorySize) :
    m.read width a h = Int64.ofNat (m.number width a h) := by
  cases width with
  | byte => rfl
  | word =>
    rw [← m.toNat_peekWord a h]
    rfl

end Memory

/-! ## Steps that read or store -/

namespace Machine

variable {σ : Type} {m : Machine} {d : Device σ} {s : σ}

/-- The machine runs, with an instruction to be carried out and a stack that is not too large. -/
structure Poised (m : Machine) (i : Instr) : Prop where
  running : m.status = .running
  code : m.program.code[m.pc]? = some i
  room : m.stack.size ≤ stackLimit

/-- The step fails if an access at the address would not stay within memory, only then, and only
because of that. -/
structure Guarded (m : Machine) (d : Device σ) (s : σ) (width : Width) (a : Int64) : Prop where
  fails_iff : (∃ e, (m.step.perform d s).1 = .fault e) ↔
    a.toInt < 0 ∨ 65535 < a.toInt + width.bytes
  code : ∀ e, (m.step.perform d s).1 = .fault e → e.code = .memoryFault

/-- The step goes on with the values on the stack and with this memory, and nothing else has
changed. -/
structure Leaves (m : Machine) (d : Device σ) (s : σ) (items : List Int64) (memory : Memory) :
    Prop where
  event : (m.step.perform d s).1 = .running
  machine : (m.step.perform d s).2.1 =
    { m with stack := .ofList items, memory, pc := m.pc + 1 }

theorem exists_place_iff {a : Int64} {width : Width} :
    (∃ b : Nat, a.toInt = b ∧ b + width.bytes ≤ memorySize) ↔
      ¬ (a.toInt < 0 ∨ 65535 < a.toInt + width.bytes) := by
  have hsize : memorySize = 65535 := rfl
  constructor
  · rintro ⟨b, hab, hb⟩
    omega
  · intro h
    exact ⟨a.toInt.toNat, by omega, by omega⟩

theorem withAddress_place {a : Int64} {width : Width} {b : Nat} (hab : a.toInt = b)
    (hb : b + width.bytes ≤ memorySize) (m : Machine)
    (k : (a : Nat) → a + width.bytes ≤ memorySize → Action) : m.withAddress a width k = k b hb := by
  have hnat : a.toInt.toNat = b := by omega
  subst hnat
  exact dif_pos ⟨by omega, hb⟩

theorem withAddress_outside {a : Int64} {width : Width}
    (h : a.toInt < 0 ∨ 65535 < a.toInt + width.bytes) (m : Machine)
    (k : (a : Nat) → a + width.bytes ≤ memorySize → Action) :
    m.withAddress a width k = m.fault (.badAddress a) := by
  have hsize : memorySize = 65535 := rfl
  exact dif_neg (by omega)

theorem guarded_of_exec {i : Instr} (hm : m.Poised i) {m' : Machine} {width : Width} {a : Int64}
    {k : (a : Nat) → a + width.bytes ≤ memorySize → Action}
    (hexec : m.exec i = m'.withAddress a width k)
    (hk : ∀ b hb, (k b hb).Always fun e _ => ∀ d, e ≠ .fault d) : m.Guarded d s width a := by
  have hstep := perform_step hm.running hm.code d s
  rw [hexec] at hstep
  by_cases hout : a.toInt < 0 ∨ 65535 < a.toInt + width.bytes
  · rw [withAddress_outside hout] at hstep
    refine ⟨⟨fun _ => hout, fun _ => ⟨_, congrArg Prod.fst hstep⟩⟩, fun e he => ?_⟩
    rw [hstep] at he
    cases he
    rw [Diagnostic.code, Program.cause_locate]
    rfl
  · obtain ⟨b, hab, hb⟩ := exists_place_iff.2 hout
    rw [withAddress_place hab hb] at hstep
    have hgoes : ∀ e, (m.step.perform d s).1 ≠ .fault e := by
      rw [hstep]
      exact (hk b hb).perform d _
    exact ⟨⟨fun ⟨e, he⟩ => absurd he (hgoes e), fun h => absurd h hout⟩,
      fun e he => absurd he (hgoes e)⟩

theorem leaves_of_exec {i : Instr} (hm : m.Poised i) {items : List Int64} {memory : Memory}
    (hexec : m.exec i = .done .running { m with stack := .ofList items, memory, pc := m.pc + 1 }) :
    m.Leaves d s items memory := by
  have hstep := perform_step hm.running hm.code d s
  rw [hexec] at hstep
  exact ⟨congrArg Prod.fst hstep, congrArg (fun r => r.2.1) hstep⟩

theorem stack_eq_ofList {items : List Int64} (h : m.stack.items = items) :
    m.stack = .ofList items :=
  Stack.ext h

section

variable {width : Width} {a v : Int64} {rest : List Int64}

theorem exec_peek (h : m.stack.items = a :: rest) :
    m.exec (.peek width) = withAddress { m with stack := .ofList rest } a width fun b hb =>
      push { m with stack := .ofList rest } (m.memory.read width b hb) := by
  rw [exec, withTop, stack_eq_ofList h]
  rfl

theorem exec_poke (h : m.stack.items = a :: v :: rest) :
    m.exec (.poke width) = withAddress { m with stack := .ofList rest } a width fun b hb =>
      next { m with stack := .ofList rest, memory := m.memory.write width b v hb } := by
  rw [exec, withTop, stack_eq_ofList h]
  rfl

theorem push_in_place (hroom : m.stack.size ≤ stackLimit) (h : m.stack.items = a :: rest)
    (v : Int64) : push { m with stack := .ofList rest } v =
      .done .running { m with stack := .ofList (v :: rest), pc := m.pc + 1 } := by
  refine (push_eq_done { m with stack := .ofList rest } v).2 ?_
  rw [m.stack.size_eq, h] at hroom
  exact hroom

theorem guarded_peek (hm : m.Poised (.peek width)) (h : m.stack.items = a :: rest) :
    m.Guarded d s width a := by
  refine guarded_of_exec hm (exec_peek h) fun b hb => ?_
  rw [push_in_place hm.room h]
  exact Event.running_ne_fault

theorem leaves_peek (hm : m.Poised (.peek width)) (h : m.stack.items = a :: rest) {b : Nat}
    (hab : a.toInt = b) (hb : b + width.bytes ≤ memorySize) :
    m.Leaves d s (Int64.ofNat (m.memory.number width b hb) :: rest) m.memory := by
  refine leaves_of_exec hm ?_
  rw [exec_peek h, withAddress_place hab hb, push_in_place hm.room h, m.memory.read_eq_number]

theorem guarded_poke (hm : m.Poised (.poke width)) (h : m.stack.items = a :: v :: rest) :
    m.Guarded d s width a :=
  guarded_of_exec hm (exec_poke h) fun _ _ => Event.running_ne_fault

theorem leaves_poke (hm : m.Poised (.poke width)) (h : m.stack.items = a :: v :: rest) {b : Nat}
    (hab : a.toInt = b) (hb : b + width.bytes ≤ memorySize) :
    m.Leaves d s rest (Stored.into ⟨width, b, v, hb⟩ m.memory) := by
  refine leaves_of_exec hm ?_
  rw [exec_poke h, withAddress_place hab hb]
  rfl

end

theorem leaves_push {name : Char} {b : Nat} (hb : variableAddress? name = some b)
    (hm : m.Poised (.push name)) (hroom : m.stack.size < stackLimit) :
    m.Leaves d s
      (Int64.ofNat (m.memory.number .word b (variableAddress?_le hb)) :: m.stack.items)
      m.memory := by
  generalize hv : Int64.ofNat (m.memory.number .word b (variableAddress?_le hb)) = v
  have hread : m.memory.read .word b (variableAddress?_le hb) = v :=
    (m.memory.read_eq_number .word b _).trans hv
  have hstack : m.stack.push v = .ofList (v :: m.stack.items) := Stack.ext rfl
  refine leaves_of_exec hm ?_
  rw [exec, withVariable_eq hb, hread, (m.push_eq_done v).2 hroom, hstack]

/-! ## All stores of a run -/

theorem withVariable_none {name : Char} (h : variableAddress? name = none) (m : Machine)
    (k : (a : Nat) → a + 2 ≤ memorySize → Action) :
    m.withVariable name k = m.fault .unknownVariable := by
  unfold withVariable
  split
  · next hb => cases h.symm.trans hb
  · rfl

/-- What the next step stores, if it does. -/
def stored? (m : Machine) : Option Stored :=
  if m.status = .running then
    match m.program.code[m.pc]?, m.stack.items with
    | some (.pop name), v :: _ => Stored.ofName? name v
    | some (.poke width), a :: v :: _ => Stored.ofAddress? width a v
    | _, _ => none
  else
    none

/-- What `n` steps store, the first one first. -/
def stores (d : Device σ) : Nat → Machine → σ → List Stored
  | 0, _, _ => []
  | n + 1, m, s =>
    m.stored?.toList ++ stores d n (m.step.perform d s).2.1 (m.step.perform d s).2.2

theorem memory_step_of_not {i : Instr} (hrun : m.status = .running)
    (hi : m.program.code[m.pc]? = some i) (hpop : ∀ name, i ≠ .pop name)
    (hpoke : ∀ width, i ≠ .poke width) : (m.step.perform d s).2.1.memory = m.memory := by
  have hstores : m.storesTo? = none := by
    unfold storesTo?
    rw [hi]
    cases i <;> simp_all
  refine Memory.ext_peek fun x hx => ((moves_step hrun).perform d s).memory x hx ?_
  rintro ⟨a, width, hinto, -⟩
  rw [hstores] at hinto
  cases hinto

theorem stored?_of_not {i : Instr} (hi : m.program.code[m.pc]? = some i)
    (hpop : ∀ name, i ≠ .pop name) (hpoke : ∀ width, i ≠ .poke width) : m.stored? = none := by
  unfold stored?
  rw [hi]
  cases i <;> simp_all

theorem memory_step_pop {name : Char} (hrun : m.status = .running)
    (hi : m.program.code[m.pc]? = some (.pop name)) :
    (m.step.perform d s).2.1.memory = m.memory.stored m.stored?.toList := by
  rw [perform_step hrun hi, stored?, if_pos hrun, hi, exec]
  cases hb : variableAddress? name with
  | none =>
    rw [withVariable_none hb]
    cases m.stack.items with
    | nil => rfl
    | cons v rest =>
      simp only [Stored.ofName?_none hb]
      rfl
  | some b =>
    rw [withVariable_eq hb, withTop]
    cases hitems : m.stack.items with
    | nil =>
      rw [stack_eq_ofList hitems]
      rfl
    | cons v rest =>
      simp only [Stored.ofName?_eq hb, stack_eq_ofList hitems]
      rfl

theorem memory_step_poke {width : Width} (hrun : m.status = .running)
    (hi : m.program.code[m.pc]? = some (.poke width)) :
    (m.step.perform d s).2.1.memory = m.memory.stored m.stored?.toList := by
  rw [perform_step hrun hi, stored?, if_pos hrun, hi]
  rcases hitems : m.stack.items with _ | ⟨a, _ | ⟨v, rest⟩⟩
  · rw [exec, withTop, stack_eq_ofList hitems]
    rfl
  · rw [exec, withTop, stack_eq_ofList hitems]
    rfl
  · rw [exec_poke hitems]
    simp only [withAddress, Stored.ofAddress?]
    split <;> rfl

theorem memory_step (m : Machine) (d : Device σ) (s : σ) :
    (m.step.perform d s).2.1.memory = m.memory.stored m.stored?.toList := by
  by_cases hrun : m.status = .running
  · cases hi : m.program.code[m.pc]? with
    | none =>
      have hnone : m.stored? = none := by
        unfold stored?
        rw [if_pos hrun, hi]
      rw [step_behind hrun hi, hnone]
      rfl
    | some i =>
      cases i with
      | pop name => exact memory_step_pop hrun hi
      | poke width => exact memory_step_poke hrun hi
      | _ =>
        rw [stored?_of_not hi (by simp) (by simp)]
        exact memory_step_of_not hrun hi (by simp) (by simp)
  · rw [step_of_over hrun, stored?, if_neg hrun]
    rfl

/-- The memory behind a run has what its steps store. -/
theorem memory_after (m : Machine) (d : Device σ) (n : Nat) (s : σ) :
    (m.after d n s).1.memory = m.memory.stored (m.stores d n s) := by
  induction n generalizing m s with
  | zero => rfl
  | succ n ih => rw [after, stores, ih, memory_step, Memory.stored_append]

end Machine

/-- A running machine has room for what is on its stack. It fails to read or to store by address
exactly if the bytes there are not all in memory, and that is what it reports. Otherwise it reads
the bytes, or it changes just these. After any stores, whether to variables, bytes or words, each
byte comes from the last store over it, and so it does after any steps. A word is read from its two
bytes, and a variable is the word at its address. -/
theorem memory_coherent :
    (∀ m : Machine, m.Reachable → m.status = .running → m.stack.size ≤ stackLimit) ∧
    (∀ {σ : Type} (d : Device σ) (s : σ) (m : Machine) (width : Width) (a : Int64),
      (∀ rest, m.Poised (.peek width) → m.stack.items = a :: rest →
        m.Guarded d s width a ∧ ∀ b (hb : b + width.bytes ≤ memorySize), a.toInt = b →
          m.Leaves d s (Int64.ofNat (m.memory.number width b hb) :: rest) m.memory) ∧
      ∀ v rest, m.Poised (.poke width) → m.stack.items = a :: v :: rest →
        m.Guarded d s width a ∧ ∀ b, b + width.bytes ≤ memorySize → a.toInt = b →
          ∃ memory, m.Leaves d s rest memory ∧ ∀ x hx, memory.peek x hx =
            if b ≤ x ∧ x < b + width.bytes then UInt8.ofNat (v.toUInt64.toNat / 256 ^ (x - b))
            else m.memory.peek x hx) ∧
    (∀ (m : Memory) (ws : List Stored) (x : Nat) (hx : x < memorySize), (m.stored ws).peek x hx =
      ((Stored.last? ws x).map fun w => w.byteAt x).getD (m.peek x hx)) ∧
    (∀ {σ : Type} (d : Device σ) (n : Nat) (m : Machine) (s : σ),
      (m.after d n s).1.memory = m.memory.stored (m.stores d n s)) ∧
    (∀ (m : Memory) (a : Nat) (h : a + 2 ≤ memorySize), (m.peekWord a h).toNat =
      (m.peek a (Nat.lt_of_succ_lt h)).toNat + 256 * (m.peek (a + 1) h).toNat) ∧
    ∀ (name : Char) (b : Nat) (hb : variableAddress? name = some b),
      (∀ m : Memory, m.valueOf? name = some (m.peekWord b (variableAddress?_le hb))) ∧
      ∀ {σ : Type} (d : Device σ) (s : σ) (m : Machine), m.Poised (.push name) →
        m.stack.size < stackLimit → m.Leaves d s
          (Int64.ofNat (m.memory.number .word b (variableAddress?_le hb)) :: m.stack.items)
          m.memory := by
  refine ⟨fun m h hrun => h.safe.room hrun, ?_, fun m ws x hx => m.peek_stored ws hx,
    fun d n m s => m.memory_after d n s, fun m a h => m.toNat_peekWord a h,
    fun name b hb => ⟨fun m => m.valueOf?_eq_peekWord hb,
      fun d s m hm hroom => Machine.leaves_push hb hm hroom⟩⟩
  intro σ d s m width a
  constructor
  · intro rest hm hitems
    exact ⟨Machine.guarded_peek hm hitems, fun b hb hab => Machine.leaves_peek hm hitems hab hb⟩
  · intro v rest hm hitems
    refine ⟨Machine.guarded_poke hm hitems, fun b hb hab => ?_⟩
    refine ⟨_, Machine.leaves_poke hm hitems hab hb, fun x hx => ?_⟩
    rw [Stored.peek_into]
    rfl

/-- A word at the last byte of memory is not there. Behind a store into `A`, one into its high byte
and one into its low byte and the byte below, `A` has a part of each of the last two. -/
theorem memory_coherent_overlap :
    let m : Machine :=
      { program := { code := #[.peek .word] }, stack := .ofList [65534], status := .running }
    let ws : List Stored := [⟨.word, 35254, 0x1234, by decide⟩, ⟨.byte, 35255, 0x1ab, by decide⟩,
      ⟨.word, 35253, 0x5678, by decide⟩]
    (∃ e, (m.step.perform Recorder.device {}).1 = .fault e ∧ e.code = .memoryFault) ∧
    (Memory.blank.stored ws).valueOf? 'A' = some 0xab56 := by
  intro m ws
  obtain ⟨-, haccess, hbytes, -, hwords, hvariables⟩ := memory_coherent
  constructor
  · have hm : m.Poised (.peek .word) := ⟨rfl, rfl, by decide⟩
    obtain ⟨hguarded, -⟩ := (haccess Recorder.device {} m .word 65534).1 [] hm rfl
    obtain ⟨e, he⟩ := hguarded.fails_iff.2 (by decide)
    exact ⟨e, he, hguarded.code e he⟩
  · have ha : variableAddress? 'A' = some 35254 := rfl
    have hlow : (Memory.blank.stored ws).peek 35254 (by decide) = 0x56 :=
      (hbytes _ ws _ _).trans (by decide)
    have hhigh : (Memory.blank.stored ws).peek 35255 (by decide) = 0xab :=
      (hbytes _ ws _ _).trans (by decide)
    rw [(hvariables 'A' 35254 ha).1, Option.some.injEq]
    refine UInt16.toNat_inj.1 ((hwords _ 35254 _).trans ?_)
    rw [hlow, hhigh]
    rfl

end Handheld
