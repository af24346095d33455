import Handheld.Proofs.Code.Depth
import Handheld.Proofs.Run.Transcript

/-!
# What one step can do

Whatever its code is, a running machine keeps its program. Its status afterwards
is the one that belongs to the event, its program counter goes no further than
behind the last instruction, and as long as it runs its stack has room for all
values on it, as many as the instruction leaves there. If it fails, the failure is
located where the step began and has changed nothing but the stack, and if it goes
on, then to the next address or to where a branch leads. Of its memory only those
bytes can change that the instruction stores into, and only one instruction turns
the log on or off.
-/

namespace Handheld

/-- The status of a machine that comes back with the event. -/
def Event.status : Event → Status
  | .running | .help | .about => .running
  | .stopped | .exit | .interrupted => .halted
  | .fault _ => .faulted

theorem Event.status_eq_faulted {e : Event} : e.status = .faulted ↔ ∃ d, e = .fault d := by
  cases e <;> simp [Event.status]

namespace Stack

variable {α : Type} {s t : Stack α}

theorem size_of_pop {a : α} (h : s.pop = (some a, t)) : t.size + 1 = s.size := by
  obtain ⟨items, size, hsize⟩ := s
  subst hsize
  cases items with
  | nil => cases h
  | cons b rest =>
    cases h
    rfl

theorem items_of_pop {a : α} (h : s.pop = (some a, t)) : s.items = a :: t.items := by
  obtain ⟨items, size, hsize⟩ := s
  subst hsize
  cases items with
  | nil => cases h
  | cons b rest =>
    cases h
    rfl

theorem size_of_pop2 {a b : α} (h : s.pop2 = (some (a, b), t)) : t.size + 2 = s.size := by
  unfold pop2 at h
  split at h
  · cases h
  · next hb =>
    split at h
    · cases h
    · next ha =>
      cases h
      have hfirst := size_of_pop hb
      have hsecond := size_of_pop ha
      omega

theorem size_of_popN {n : Nat} {vs : List α} (h : s.popN n = (some vs, t)) :
    t.size + n = s.size := by
  unfold popN at h
  split at h
  · next hle =>
    cases h
    exact Nat.sub_add_cancel hle
  · cases h

end Stack

/-! ## Accesses to memory -/

namespace Memory

theorem peekWord_pokeWord (m : Memory) (a : Nat) (v : UInt16) (h : a + 2 ≤ memorySize) :
    (m.pokeWord a v h).peekWord a h = v := by
  have hlt := v.toNat_lt
  have hlow : (UInt8.ofNat v.toNat).toNat = v.toNat % 256 := UInt8.toNat_ofNat'
  have hhigh : (UInt8.ofNat (v.toNat / 256)).toNat = v.toNat / 256 % 256 := UInt8.toNat_ofNat'
  have hsum : v.toNat % 256 + 256 * (v.toNat / 256 % 256) = v.toNat := by omega
  rw [peekWord, pokeWord, peek_poke, peek_poke, peek_poke, if_neg (Nat.succ_ne_self a), if_pos rfl,
    if_pos rfl, hlow, hhigh, hsum, UInt16.ofNat_toNat]

variable (m : Memory) {a x : Nat} (hx : x < memorySize)

theorem peek_pokeWord_of_not (v : UInt16) (h : a + 2 ≤ memorySize) (hout : x < a ∨ a + 2 ≤ x) :
    (m.pokeWord a v h).peek x hx = m.peek x hx := by
  rw [pokeWord, peek_poke, peek_poke, if_neg (by omega), if_neg (by omega)]

theorem peek_write_of_not {width : Width} (v : Int64) (h : a + width.bytes ≤ memorySize)
    (hout : x < a ∨ a + width.bytes ≤ x) : (m.write width a v h).peek x hx = m.peek x hx := by
  cases width with
  | byte =>
    have hne : a ≠ x := by
      simp only [Width.bytes] at hout
      omega
    exact (m.peek_poke a x _ h hx).trans (if_neg hne)
  | word => exact m.peek_pokeWord_of_not hx _ h hout

end Memory

namespace Machine

/-- Where the next instruction reads from memory, and how much. -/
def loadsFrom? (m : Machine) : Option (Int64 × Width) :=
  match m.program.code[m.pc]? with
  | some (.push name) => (variableAddress? name).map fun a => (.ofNat a, .word)
  | some (.peek width) => m.stack.items.head?.map fun a => (a, width)
  | _ => none

/-- Where the next instruction stores, and how much. -/
def storesTo? (m : Machine) : Option (Int64 × Width) :=
  match m.program.code[m.pc]? with
  | some (.pop name) => (variableAddress? name).map fun a => (.ofNat a, .word)
  | some (.poke width) => m.stack.items.head?.map fun a => (a, width)
  | _ => none

/-- Does the next instruction store into the byte at `x`? -/
def StoresInto (m : Machine) (x : Nat) : Prop :=
  ∃ a width, m.storesTo? = some (a, width) ∧ a.toInt ≤ x ∧ x < a.toInt + width.bytes

/-- Memory is as before, or as the next instruction may make it. -/
def Spares (m : Machine) (memory : Memory) : Prop :=
  ∀ x hx, ¬ m.StoresInto x → memory.peek x hx = m.memory.peek x hx

theorem toInt_address {a n : Nat} (h : a + n ≤ memorySize) : (Int64.ofNat a).toInt = a := by
  have hsize : memorySize = 65535 := rfl
  exact Int64.toInt_ofNat_of_lt (by omega)

theorem spares_self (m : Machine) : m.Spares m.memory := fun _ _ _ => rfl

theorem spares_write {m : Machine} {a : Int64} {b : Nat} {width : Width}
    (hstores : m.storesTo? = some (a, width)) (hab : a.toInt = b) (v : Int64)
    (h : b + width.bytes ≤ memorySize) : m.Spares (m.memory.write width b v h) := by
  intro x hx hnot
  refine m.memory.peek_write_of_not hx v h (Decidable.byContradiction fun hin => ?_)
  exact hnot ⟨a, width, hstores, by omega, by omega⟩

/-! ## Steps and parts of them -/

/-- The next instruction leaves so many values on the stack. -/
def Levels (m : Machine) (size : Nat) : Prop :=
  ∀ i, m.program.code[m.pc]? = some i →
    i.takes ≤ m.stack.size ∧ size = m.stack.size - i.takes + i.gives

/-- What a step that ends with `e` may have made of the machine. -/
structure Moves (m : Machine) (e : Event) (m' : Machine) : Prop where
  program : m'.program = m.program
  status : m'.status = e.status
  pc_le : m.pc ≤ m.program.size → m'.pc ≤ m.program.size
  room : m.stack.size ≤ stackLimit → m'.status = .running → m'.stack.size ≤ stackLimit
  located : ∀ d, e = .fault d → ∃ cause, d = m.program.locate m.pc cause
  goes : m'.status = .running →
    m'.pc = m.pc + 1 ∨ ∃ kind, m.program.code[m.pc]? = some (.branch kind m'.pc)
  memory : m.Spares m'.memory
  debug : m.program.code[m.pc]? ≠ some .debug → m'.debug = m.debug
  levels : m'.status = .running → m.Levels m'.stack.size
  faulted : m'.status = .faulted →
    m'.memory = m.memory ∧ m'.debug = m.debug ∧ m'.pc = m.pc + 1

/-- The machine `m` on its way through an instruction. So far it has done nothing but take values
off the stack. -/
structure Amid (m n : Machine) : Prop where
  program : n.program = m.program
  pc : n.pc = m.pc
  pc_lt : m.pc < m.program.size
  status : n.status = .running
  stack : n.stack.size ≤ m.stack.size
  memory : n.memory = m.memory
  debug : n.debug = m.debug

variable {m n : Machine}

theorem Amid.withStack (h : Amid m n) {stack : Stack Int64} (hs : stack.size ≤ n.stack.size) :
    Amid m { n with stack } :=
  ⟨h.program, h.pc, h.pc_lt, h.status, Nat.le_trans hs h.stack, h.memory, h.debug⟩

theorem Amid.spares (h : Amid m n) : m.Spares n.memory := by
  rw [h.memory]
  exact m.spares_self

theorem Amid.not_faulted (h : Amid m n) : n.status ≠ .faulted := by
  rw [h.status]
  exact nofun

/-! ## Ends of an instruction -/

theorem Amid.pc_succ_le (h : Amid m n) : n.pc + 1 ≤ m.program.size :=
  h.pc ▸ h.pc_lt

theorem moves_change (h : Amid m n) (hlevels : m.Levels n.stack.size) {memory : Memory}
    {debug : Bool} (hmemory : m.Spares memory)
    (hdebug : m.program.code[m.pc]? ≠ some .debug → debug = m.debug) :
    (next { n with memory, debug }).Always (Moves m) := by
  change Moves m .running _
  refine ⟨h.program, h.status, fun _ => h.pc_succ_le, fun hroom _ => Nat.le_trans h.stack hroom,
    fun d hd => ?_, fun _ => .inl (congrArg (· + 1) h.pc), hmemory, hdebug, fun _ => hlevels,
    fun hfault => absurd hfault h.not_faulted⟩
  cases hd

theorem moves_next (h : Amid m n) (hlevels : m.Levels n.stack.size) : n.next.Always (Moves m) :=
  moves_change h hlevels h.spares fun _ => h.debug

theorem moves_fault (h : Amid m n) (stack : Stack Int64) (cause : Cause) :
    (fault { n with stack } cause).Always (Moves m) := by
  change Moves m (.fault (n.program.locate n.pc cause)) _
  refine ⟨h.program, rfl, fun _ => h.pc_succ_le, fun _ hrun => ?_, fun d hd => ⟨cause, ?_⟩,
    fun hrun => ?_, h.spares, fun _ => h.debug, fun hrun => ?_,
    fun _ => ⟨h.memory, h.debug, congrArg (· + 1) h.pc⟩⟩
  · cases hrun
  · cases hd
    rw [h.program, h.pc]
  · cases hrun
  · cases hrun

theorem moves_jump (h : Amid m n) {kind : Branch} {target : Nat}
    (hi : m.program.code[m.pc]? = some (.branch kind target)) (hlevels : m.Levels n.stack.size) :
    (n.jump target).Always (Moves m) := by
  unfold jump
  split
  · next hle =>
    change Moves m .running _
    rw [h.program] at hle
    refine ⟨h.program, h.status, fun _ => hle, fun hroom _ => Nat.le_trans h.stack hroom,
      fun d hd => ?_, fun _ => .inr ⟨kind, hi⟩, h.spares, fun _ => h.debug, fun _ => hlevels,
      fun hfault => absurd hfault h.not_faulted⟩
    cases hd
  · exact moves_fault h n.stack _

theorem moves_push (h : Amid m n) (hlevels : m.Levels (n.stack.size + 1)) (v : Int64) :
    (n.push v).Always (Moves m) := by
  unfold push
  dsimp only
  split
  · exact moves_fault h _ _
  · next hover =>
    have hfits : n.stack.size + 1 ≤ stackLimit :=
      Nat.not_lt.1 fun hlt => hover (decide_eq_true hlt)
    change Moves m .running _
    refine ⟨h.program, h.status, fun _ => h.pc_succ_le, fun _ _ => hfits, fun d hd => ?_,
      fun _ => .inl (congrArg (· + 1) h.pc), h.spares, fun _ => h.debug, fun _ => hlevels,
      fun hfault => absurd hfault h.not_faulted⟩
    cases hd

/-! ## Operands -/

theorem moves_withTop (h : Amid m n) {k : Machine → Int64 → Action}
    (hk : ∀ stack v, n.stack.pop = (some v, stack) → (k { n with stack } v).Always (Moves m)) :
    (n.withTop k).Always (Moves m) :=
  withTop_of (moves_fault h) hk

theorem moves_withPair (h : Amid m n) {k : Machine → Int64 → Int64 → Action}
    (hk : ∀ stack a b, stack.size + 2 = n.stack.size → (k { n with stack } a b).Always (Moves m)) :
    (n.withPair k).Always (Moves m) :=
  withPair_of (moves_fault h) fun _ _ _ hpop => hk _ _ _ (Stack.size_of_pop2 hpop)

theorem moves_withAddress (h : Amid m n) {a : Int64} {width : Width}
    {k : (a : Nat) → a + width.bytes ≤ memorySize → Action}
    (hk : ∀ (b : Nat) hb, a.toInt = b → (k b hb).Always (Moves m)) :
    (n.withAddress a width k).Always (Moves m) :=
  withAddress_of (moves_fault h) hk

theorem moves_withVariable (h : Amid m n) {name : Char}
    {k : (a : Nat) → a + 2 ≤ memorySize → Action}
    (hk : ∀ a ha, variableAddress? name = some a → (k a ha).Always (Moves m)) :
    (n.withVariable name k).Always (Moves m) :=
  withVariable_of (moves_fault h) hk

/-! ## Instructions -/

theorem moves_exec (h : Amid m m) {i : Instr} (hi : m.program.code[m.pc]? = some i) :
    (m.exec i).Always (Moves m) := by
  -- the machine without its top value, or without the two top values
  have one {stack : Stack Int64} {v : Int64} (hs : m.stack.pop = (some v, stack)) :
      Amid m { m with stack } :=
    h.withStack (Nat.le.intro (Stack.size_of_pop hs))
  have two {stack : Stack Int64} (hs : stack.size + 2 = m.stack.size) : Amid m { m with stack } :=
    h.withStack (by omega)
  have level {size : Nat} (htakes : i.takes ≤ m.stack.size)
      (hsize : size + i.takes = m.stack.size + i.gives) : m.Levels size := by
    intro j hj
    cases hi.symm.trans hj
    exact ⟨htakes, by omega⟩
  have level_one {stack : Stack Int64} {v : Int64} (hs : m.stack.pop = (some v, stack))
      (htakes : i.takes = 1) : m.Levels (stack.size + i.gives) := by
    have hsize := Stack.size_of_pop hs
    exact level (by omega) (by omega)
  have level_two {stack : Stack Int64} (hs : stack.size + 2 = m.stack.size)
      (htakes : i.takes = 2) : m.Levels (stack.size + i.gives) :=
    level (by omega) (by omega)
  cases i with
  | literal n => exact moves_push h (level (Nat.zero_le _) rfl) n
  | push name =>
    rw [exec]
    exact moves_withVariable h fun a ha _ => moves_push h (level (Nat.zero_le _) rfl) _
  | pop name =>
    rw [exec]
    refine moves_withVariable h fun a ha hname => moves_withTop h fun stack v hs => ?_
    have hstores : m.storesTo? = some (.ofNat a, .word) := by
      rw [storesTo?, hi]
      simp only [hname, Option.map_some]
    exact moves_change (one hs) (level_one hs rfl)
      (spares_write hstores (toInt_address ha) v ha) fun _ => rfl
  | peek width =>
    rw [exec]
    refine moves_withTop h fun stack a hs => moves_withAddress (one hs) fun b hb _ => ?_
    exact moves_push (one hs) (level_one hs rfl) _
  | poke width =>
    rw [exec]
    refine moves_withTop h fun stack a hs => moves_withTop (one hs) fun stack' v hs' => ?_
    have hboth : stack'.size + 2 = m.stack.size :=
      (congrArg (· + 1) (Stack.size_of_pop hs')).trans (Stack.size_of_pop hs)
    have hstores : m.storesTo? = some (a, width) := by
      rw [storesTo?, hi]
      simp only [Stack.items_of_pop hs, List.head?_cons, Option.map_some]
    refine moves_withAddress (two hboth) fun b hb hab => ?_
    exact moves_change (two hboth) (level_two hboth rfl) (spares_write hstores hab v hb)
      fun _ => rfl
  | dup =>
    rw [exec]
    refine moves_withTop h fun stack v hs => ?_
    have hback : (stack.push v).size ≤ m.stack.size := Nat.le_of_eq (Stack.size_of_pop hs)
    exact moves_push (h.withStack hback) (level_one hs rfl) v
  | mask | negate =>
    rw [exec]
    exact moves_withTop h fun stack v hs => moves_push (one hs) (level_one hs rfl) _
  | branch kind target =>
    cases kind with
    | always => exact moves_jump h hi (level (Nat.zero_le _) rfl)
    | ifTrue =>
      rw [exec]
      refine moves_withTop h fun stack v hs => ?_
      split
      · exact moves_next (one hs) (level_one hs rfl)
      · exact moves_jump (one hs) hi (level_one hs rfl)
    | ifFalse =>
      rw [exec]
      refine moves_withTop h fun stack v hs => ?_
      split
      · exact moves_jump (one hs) hi (level_one hs rfl)
      · exact moves_next (one hs) (level_one hs rfl)
  | disp | pause =>
    rw [exec]
    exact moves_withTop h fun stack v hs _ => moves_next (one hs) (level_one hs rfl)
  | draw graphic surface =>
    rw [exec]
    split
    · exact moves_fault h _ _
    · next hpop =>
      have hs := Stack.size_of_popN hpop
      have hrest := h.withStack (Nat.le.intro hs)
      split
      · exact fun _ => moves_next hrest (level (Nat.le.intro ((Nat.add_comm _ _).trans hs)) hs)
      · exact moves_fault hrest _ _
  | dispGraph shade => exact fun _ => moves_next h (level (Nat.zero_le _) rfl)
  | debug =>
    rw [exec]
    refine moves_withTop h fun stack v hs => ?_
    exact moves_change (one hs) (level_one hs rfl) m.spares_self fun hne => absurd hi hne
  | exit =>
    refine ⟨h.program, rfl, fun _ => h.pc_succ_le, fun _ hrun => ?_, fun d hd => ?_,
      fun hrun => ?_, h.spares, fun _ => rfl, fun hrun => ?_, fun hfault => ?_⟩
    · cases hrun
    · cases hd
    · cases hrun
    · cases hrun
    · cases hfault
  | help | about =>
    refine ⟨h.program, h.status, fun _ => h.pc_succ_le, fun hroom _ => hroom, fun d hd => ?_,
      fun _ => .inl rfl, h.spares, fun _ => rfl, fun _ => level (Nat.zero_le _) rfl,
      fun hfault => absurd hfault h.not_faulted⟩
    cases hd
  | binary op =>
    rw [exec]
    refine moves_withPair h fun stack a b hs => ?_
    split
    · exact moves_push (two hs) (level_two hs rfl) _
    · exact moves_fault (two hs) _ _
  | getKey =>
    rw [exec]
    refine moves_withTop h fun stack code hs => ?_
    split
    · exact fun _ => moves_push (one hs) (level_one hs rfl) _
    · exact moves_push (one hs) (level_one hs rfl) _
  | rand => exact fun _ => moves_push h (level (Nat.zero_le _) rfl) _
  | pxlTest surface =>
    rw [exec]
    exact moves_withPair h fun stack x y hs _ => moves_push (two hs) (level_two hs rfl) _

/-! ## Steps -/

theorem step_eq_exec (hrun : m.status = .running) {i : Instr}
    (hi : m.program.code[m.pc]? = some i) :
    m.step = if m.debug then .call (.log (m.record i)) fun _ => m.exec i else m.exec i := by
  rw [step, if_pos hrun, hi]

theorem moves_step (hrun : m.status = .running) : m.step.Always (Moves m) := by
  cases hi : m.program.code[m.pc]? with
  | none =>
    rw [step_behind hrun hi]
    refine ⟨rfl, rfl, id, fun _ hrun => ?_, fun d hd => ?_, fun hrun => ?_, m.spares_self,
      fun _ => rfl, fun hrun => ?_, fun hfault => ?_⟩
    · cases hrun
    · cases hd
    · cases hrun
    · cases hrun
    · cases hfault
  | some i =>
    have hpc : m.pc < m.program.size := (Array.getElem?_eq_some_iff.1 hi).1
    have hexec := moves_exec ⟨rfl, rfl, hpc, hrun, Nat.le_refl _, rfl, rfl⟩ hi
    rw [step_eq_exec hrun hi]
    split
    · exact fun _ => hexec
    · exact hexec

end Machine

end Handheld
