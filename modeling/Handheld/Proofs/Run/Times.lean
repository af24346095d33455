import Handheld.Proofs.Run.Loops
import Mathlib

/-!
# Loops that repeat

A loop `For(n)` keeps its count in a word of memory, and no place of the source
names it. The address of the word says how many such loops are around this one.
So loops inside it have other words, loops behind it begin with 0 again, and as a
program has at most 65535 instructions, there are too few loops around each other
for a word to reach the buffers or the variables. What is left are stores through
a pointer: if none of them hits the word, the body runs as often as `n` says.
-/

namespace Handheld

/-! ## Counters -/

namespace Placed

/-- Where a loop `For(n)` reads its counter: in front of the test, and behind the body. -/
def counterLoads (q : Placed) : List Nat :=
  match q.stmt with
  | .loop _ (.times n) body =>
    [(Loop.times n).top q.depth q.here + 1,
      (Loop.times n).inside q.depth q.here + blockSize body + 1]
  | _ => []

/-- Where a loop `For(n)` stores its counter: at its beginning, and behind the body. -/
def counterStores (q : Placed) : List Nat :=
  match q.stmt with
  | .loop _ (.times n) body =>
    [q.here + 2, (Loop.times n).inside q.depth q.here + blockSize body + 5]
  | _ => []

/-- The statement is inside at least `depth` loops `For(n)`, and each loop more has taken code
behind `here`. -/
structure Past (depth here : Nat) (q : Placed) : Prop where
  depth_le : depth ≤ q.depth
  here_le : here + 7 * (q.depth - depth) ≤ q.here

theorem Past.trans {depth here depth' here' : Nat} {q : Placed} (h : q.Past depth' here')
    (hdepth : depth ≤ depth') (hhere : here + 7 * (depth' - depth) ≤ here') :
    q.Past depth here := by
  obtain ⟨hdepth', hhere'⟩ := h
  exact ⟨by omega, by omega⟩

end Placed

theorem Loop.depthInside_le (kind : Loop) (depth here : Nat) :
    depth ≤ kind.depthInside depth ∧
      here + 7 * (kind.depthInside depth - depth) ≤ kind.inside depth here := by
  cases kind with
  | times n =>
    simp only [depthInside, inside, top, startCode, testCode, counter, Target.loadCode,
      Target.storeCode, Expr.code, List.length_append, List.length_cons]
    omega
  | whileTrue | repeatUntil | count =>
    simp only [depthInside, inside, top]
    omega

theorem past_of_placed :
    (∀ (s : Stmt) (depth here : Nat), ∀ q ∈ s.placed depth here, q.Past depth here) ∧
    (∀ (ss : List Stmt) (depth here : Nat), ∀ q ∈ placedBlock depth here ss,
      q.Past depth here) := by
  have self (depth here : Nat) (s : Stmt) : Placed.Past depth here ⟨depth, here, s⟩ :=
    ⟨Nat.le_refl _, by simp⟩
  apply tree_induction
  case straight =>
    intro s is his depth here q hq
    rw [Stmt.placed_of_straight his, List.mem_singleton] at hq
    exact hq ▸ self depth here s
  case label | goto =>
    intro span name depth here q hq
    exact List.mem_singleton.1 hq ▸ self depth here _
  case cond =>
    intro span c yes no ihYes ihNo depth here q hq
    rw [Stmt.placed, List.mem_cons, List.mem_append] at hq
    rcases hq with rfl | hq | hq
    · exact self depth here _
    · exact (ihYes _ _ q hq).trans (Nat.le_refl _) (by omega)
    · refine (ihNo _ _ q hq).trans (Nat.le_refl _) ?_
      cases no <;> simp only [Program.elseAddress] <;> omega
  case loop =>
    intro span kind body ih depth here q hq
    rw [Stmt.placed, List.mem_cons] at hq
    rcases hq with rfl | hq
    · exact self depth here _
    · obtain ⟨hdepth, hhere⟩ := kind.depthInside_le depth here
      exact (ih _ _ q hq).trans hdepth hhere
  case nil =>
    intro depth here q hq
    cases hq
  case cons =>
    intro s ss ihs ihss depth here q hq
    rw [placedBlock, List.mem_append] at hq
    rcases hq with hq | hq
    · exact ihs depth here q hq
    · exact (ihss _ _ q hq).trans (Nat.le_refl _) (by omega)

/-- The address `a` is put on the stack in front of the instruction at `x`. -/
def Program.Aims (p : Program) (a x : Nat) (i : Instr) : Prop :=
  ∃ y, x = y + 1 ∧ p.code[y]? = some (.literal (.ofNat a)) ∧ p.code[x]? = some i

theorem Program.StmtAt.aims {p : Program} {q : Placed} (h : p.StmtAt q.depth q.here q.stmt) :
    (∀ x ∈ q.counterLoads, p.Aims (counterAddress q.depth) x (.peek .word)) ∧
    (∀ x ∈ q.counterStores, p.Aims (counterAddress q.depth) x (.poke .word)) := by
  obtain ⟨depth, here, stmt⟩ := q
  unfold Placed.counterLoads Placed.counterStores
  split
  · next span n body hstmt =>
    cases hstmt
    obtain ⟨hstart, hloop⟩ := h.loop
    refine ⟨fun x hx => ?_, fun x hx => ?_⟩
    · rcases List.mem_pair.1 hx with rfl | rfl
      · exact ⟨_, rfl, hloop.test 0 _ rfl, hloop.test 1 _ rfl⟩
      · exact ⟨_, rfl, hloop.next 0 _ rfl, hloop.next 1 _ rfl⟩
    · rcases List.mem_pair.1 hx with rfl | rfl
      · exact ⟨_, rfl, hstart 1 _ rfl, hstart 2 _ rfl⟩
      · exact ⟨_, rfl, hloop.next 4 _ rfl, hloop.next 5 _ rfl⟩
  · exact ⟨nofun, nofun⟩

/-! ## Where counters are -/

theorem Buffer.base_ge (b : Buffer) : 33445 ≤ b.base := by
  cases b <;> decide

theorem Placed.here_le {q : Placed} {x : Nat} (hx : x ∈ q.counterStores) : q.here ≤ x := by
  unfold counterStores at hx
  split at hx
  · simp only [Loop.inside, Loop.top] at hx
    rcases List.mem_pair.1 hx with rfl | rfl <;> omega
  · cases hx

/-- Each loop `For(n)` has at least 7 instructions in front of its body, so a program has no room for
more of them around each other. -/
theorem Placed.Past.counterAddress_le {p : Program} (hp : p.Calm) {depth here : Nat} {q : Placed}
    (h : q.Past depth here) (hq : q.here < p.size) :
    counterAddress q.depth + 2 ≤ counterAddress depth + 18726 := by
  obtain ⟨hdepth, hhere⟩ := h
  have hroom : p.size ≤ 65535 := hp.room
  simp only [counterAddress]
  omega

/-! ## Accesses -/

theorem Program.Calm.not_still_literal {p : Program} (hp : p.Calm) {x : Nat} {v : Int64}
    (hx : p.code[x]? = some (.literal v)) : ¬ p.Still (x + 1) := by
  intro hstill
  -- the stack is empty where a branch leads, and a literal leaves a value there
  obtain ⟨depth, hdepth⟩ := hp.exists_depth x
  have hsucc := (hp.depth_succ hx hdepth).2
  rw [hstill.depth] at hsucc
  simp at hsucc

namespace Machine

variable {p : Program} {m : Machine} {σ : Type} {d : Device σ} {s : σ}

/-- Behind a literal its value is on top of the stack. -/
def Fed (p : Program) (m : Machine) : Prop :=
  ∀ (x : Nat) (v : Int64), m.status = .running → m.pc = x + 1 → p.code[x]? = some (.literal v) →
    m.stack.items.head? = some v

theorem head_of_literal {v : Int64} (hrun : m.status = .running)
    (hi : m.program.code[m.pc]? = some (.literal v)) :
    m.step.Always fun _ m' => m'.status = .running → m'.stack.items.head? = some v := by
  have hpush : (m.push v).Always fun _ m' => m'.status = .running →
      m'.stack.items.head? = some v := by
    unfold push
    dsimp only
    split
    · exact nofun
    · exact fun _ => rfl
  rw [step_eq_exec hrun hi]
  split
  · exact fun _ => hpush
  · exact hpush

theorem fed_of_still (hp : p.Calm) (hstill : p.Still m.pc) : m.Fed p :=
  fun _ _ _ hpc hx => absurd (hpc ▸ hstill) (hp.not_still_literal hx)

theorem Fed.after (hp : p.Calm) (hprogram : m.program = p) (h : m.Fed p) (n : Nat) :
    (m.after d n s).1.Fed p := by
  cases n with
  | zero => exact h
  | succ n =>
    intro x v hrun hpc hx
    rcases goes_after hprogram hrun with hnext | ⟨kind, hbranch⟩
    · have hbefore := running_of_le (Nat.le_succ n) hrun
      have hat : (m.after d n s).1.pc = x := Nat.succ_inj.1 (hnext.symm.trans hpc)
      rw [after_add] at hrun ⊢
      refine (head_of_literal (v := v) hbefore ?_).perform d _ hrun
      rwa [hat, program_after, hprogram]
    · exact absurd (hpc ▸ hp.targets _ _ _ hbranch) (hp.not_still_literal hx)

variable {a : Nat} (hp : p.Calm) (hm : m.Steady p) (hfed : m.Fed p) (hrun : m.status = .running)
include hp hm hfed hrun

theorem loads_of_aims (haims : p.Aims a m.pc (.peek .word)) (ha : a + 2 ≤ memorySize) :
    m.loadsFrom? = some (.ofNat a, .word) ∧ (m.after d 1 s).1.status = .running := by
  obtain ⟨y, hy, hliteral, hpeek⟩ := haims
  have hhead := hfed y _ hrun hy hliteral
  obtain ⟨below, hitems⟩ := List.head?_eq_some_iff.1 hhead
  have hafter := hm.after_computes (d := d) (s := s) hp hrun (computes_peek .word (.ofNat a))
    (.singleton hpeek) (Stack.ext hitems) (Eval.read_ofNat ha _)
  refine ⟨?_, (congrArg Machine.status hafter).trans hrun⟩
  rw [loadsFrom?, hm.program, hpeek]
  simp only [hhead, Option.map_some]

omit hp in
theorem storesTo_of_aims (haims : p.Aims a m.pc (.poke .word)) :
    m.storesTo? = some (.ofNat a, .word) := by
  obtain ⟨y, hy, hliteral, hpoke⟩ := haims
  rw [storesTo?, hm.program, hpoke]
  simp only [hfed y _ hrun hy hliteral, Option.map_some]

theorem stores_of_aims (haims : p.Aims a m.pc (.poke .word)) (ha : a + 2 ≤ memorySize) :
    (m.after d 1 s).1.status = .running := by
  obtain ⟨y, hy, hliteral, hpoke⟩ := haims
  obtain ⟨rest, hitems⟩ := List.head?_eq_some_iff.1 (hfed y _ hrun hy hliteral)
  -- the value to be stored is below the address
  have htakes : 2 ≤ m.stack.size := (hp.depth_succ hpoke (hm.running hrun).2).1
  rw [m.stack.size_eq, hitems, List.length_cons] at htakes
  obtain ⟨v, below, rfl⟩ := List.exists_cons_of_length_pos (Nat.le_of_succ_le_succ htakes)
  have hafter := hm.after_computes (d := d) (s := s) hp hrun (computes_poke .word (.ofNat a) v)
    (.singleton hpoke) (Stack.ext hitems) (Eval.write_ofNat ha _ _)
  exact (congrArg Machine.status hafter).trans hrun

end Machine

/-! ## The count -/

/-- The word at an address. -/
def Memory.HasWord (m : Memory) (a : Nat) (v : UInt16) : Prop :=
  ∃ h, m.peekWord a h = v

theorem Memory.HasWord.of_same {m m' : Memory} {a : Nat} {v : UInt16} (h : m.HasWord a v)
    (hsame : ∀ x hx, a ≤ x → x < a + 2 → m'.peek x hx = m.peek x hx) : m'.HasWord a v := by
  obtain ⟨ha, rfl⟩ := h
  refine ⟨ha, ?_⟩
  rw [peekWord, peekWord, hsame a _ (by omega) (by omega), hsame (a + 1) _ (by omega) (by omega)]

theorem Memory.HasWord.after {m : Machine} {a : Nat} {v : UInt16} {σ : Type} {d : Device σ} {s : σ}
    {n : Nat} (h : m.memory.HasWord a v) (hrun : (m.after d n s).1.status = .running)
    (hnot : ∀ k < n, ∀ x, a ≤ x → x < a + 2 → ¬ (m.after d k s).1.StoresInto x) :
    (m.after d n s).1.memory.HasWord a v := by
  induction n with
  | zero => exact h
  | succ n ih =>
    have hbefore := Machine.running_of_le (Nat.le_succ n) hrun
    obtain ⟨e, hmoves⟩ := Machine.moves_after hbefore
    refine (ih hbefore fun k hk => hnot k (Nat.lt_succ_of_lt hk)).of_same fun x hx hge hlt => ?_
    exact hmoves.memory x hx (hnot n (Nat.lt_succ_self n) x hge hlt)

theorem Eval.write_hasWord {a : Nat} (ha : a + 2 ≤ memorySize) (w : Int64) (store : Store) :
    ∃ store', Eval.write .word (.ofNat a) w store = .done (.ok (), store') ∧
      store'.memory.HasWord a w.toUInt64.toUInt16 :=
  ⟨_, Eval.write_ofNat ha w store, ha, store.memory.peekWord_pokeWord a _ ha⟩

namespace Loop

variable (n : Expr) {depth : Nat} {store : Store} {v : UInt16}

theorem start_times (hc : counterAddress depth + 2 ≤ memorySize) (store : Store) :
    ∃ store', (Loop.times n).start depth store = .done (.ok (), store') ∧
      store'.memory.HasWord (counterAddress depth) 0 :=
  Eval.write_hasWord hc 0 store

theorem next_times (hv : store.memory.HasWord (counterAddress depth) v) :
    ∃ store', (Loop.times n).next depth store = .done (.ok (), store') ∧
      store'.memory.HasWord (counterAddress depth) (v + 1) := by
  obtain ⟨hc, rfl⟩ := hv
  obtain ⟨store', hwrite, hword⟩ := Eval.write_hasWord hc
    (.ofNat (store.memory.peekWord (counterAddress depth) hc).toNat + 1) store
  rw [word_plusOne] at hword
  exact ⟨store', (Eval.bind_of_done (@Eval.read_ofNat _ .word hc store)).trans hwrite, hword⟩

end Loop

theorem value_less_word {v : UInt16} {count : Nat} (hcount : count ≤ 65535) (store : Store) :
    BinaryOp.less.value (.ofNat v.toNat) (.ofNat count) store =
      .done (.ok (truth (v.toNat < count)), store) := by
  have hlt := v.toNat_lt
  have hword : (Int64.ofNat v.toNat).toInt = v.toNat := Int64.toInt_ofNat_of_lt (by omega)
  have hlast : (Int64.ofNat count).toInt = count := Int64.toInt_ofNat_of_lt (by omega)
  have hiff : Int64.ofNat v.toNat < Int64.ofNat count ↔ v.toNat < count := by
    rw [Int64.lt_iff_toInt_lt, hword, hlast, Int.ofNat_lt]
  change Script.done (Except.ok (truth (Int64.ofNat v.toNat < Int64.ofNat count)), store) = _
  rw [decide_eq_decide.2 hiff]

/-! ## The way through a loop -/

namespace Machine

variable {σ : Type}

/-- Before the machine gets to the address `exit`, this is so at every step. -/
def Until (d : Device σ) (exit : Nat) (P : Machine → σ → Prop) (m : Machine) (s : σ) : Prop :=
  ∀ k, (∀ l ≤ k, (m.after d l s).1.pc ≠ exit) → (m.after d k s).1.status = .running →
    P (m.after d k s).1 (m.after d k s).2

/-- What is asked of the way from the beginning of a loop `For(n)` to its end. -/
structure Undisturbed (d : Device σ) (depth here : Nat) (n : Expr) (body : List Stmt) (count : Nat)
    (m : Machine) (s : σ) : Prop where
  /-- Whenever `n` is computed, it comes to the same count and leaves the rest as it is. -/
  counts : m.Until d ((Loop.times n).exit depth here (blockSize body)) (fun m s =>
    m.pc = (Loop.times n).top depth here + 2 → (m.after d n.code.length s).1 =
      m.moved m.store (.ofNat count :: m.stack.items) (m.pc + n.code.length)) s
  /-- Every pass gets to the end of the body, and the program goes on there. -/
  ends : m.Until d ((Loop.times n).exit depth here (blockSize body)) (fun m s =>
    m.pc = (Loop.times n).inside depth here →
      ∃ k, (m.after d k s).1.pc = (Loop.times n).inside depth here + blockSize body ∧
        (m.after d k s).1.status = .running) s
  /-- No store of the body through a pointer hits the counter. Of the stores of the counters in the
  body nothing is asked. -/
  spares : m.Until d ((Loop.times n).exit depth here (blockSize body)) (fun m _ =>
    (Loop.times n).inside depth here ≤ m.pc →
    m.pc < (Loop.times n).inside depth here + blockSize body →
    m.pc ∉ (placedBlock (depth + 1) ((Loop.times n).inside depth here) body).flatMap
      Placed.counterStores →
    ∀ width, m.program.code[m.pc]? = some (.poke width) →
      ∀ x, counterAddress depth ≤ x → x < counterAddress depth + 2 → ¬ m.StoresInto x) s

variable {d : Device σ} {exit : Nat} {P : Machine → σ → Prop} {m : Machine} {s : σ}

theorem Until.now (h : m.Until d exit P s) (hpc : m.pc ≠ exit) (hrun : m.status = .running) :
    P m s := by
  refine h 0 (fun l hl => ?_) hrun
  cases Nat.le_zero.1 hl
  exact hpc

theorem Until.after {n : Nat} (h : m.Until d exit P s)
    (hbefore : ∀ k < n, (m.after d k s).1.pc ≠ exit) :
    (m.after d n s).1.Until d exit P (m.after d n s).2 := by
  intro k hk hrun
  rw [← after_add] at hrun ⊢
  refine h (n + k) (fun l hl => ?_) hrun
  exact forall_after_add (·.pc ≠ exit) hbefore (fun i hi => hk i (Nat.le_of_lt_succ hi)) l
    (Nat.lt_succ_of_le hl)

variable {depth here count : Nat} {n : Expr} {body : List Stmt}

theorem Undisturbed.after {i : Nat} (h : m.Undisturbed d depth here n body count s)
    (hbefore : ∀ k < i, (m.after d k s).1.pc ≠ (Loop.times n).exit depth here (blockSize body)) :
    (m.after d i s).1.Undisturbed d depth here n body count (m.after d i s).2 :=
  ⟨h.counts.after hbefore, h.ends.after hbefore, h.spares.after hbefore⟩

end Machine

section

variable {p : Program} (hp : p.Calm) {depth here : Nat} {n : Expr} {body : List Stmt}
  (hloop : p.LoopAt depth here (.times n) body) {σ : Type} {d : Device σ} {m : Machine} {s : σ}
  {v : UInt16} {count : Nat}
include hp hloop

theorem not_storesInto_of_inner (hc : counterAddress depth + 2 ≤ 33445) (hm : m.Steady p)
    (hfed : m.Fed p) (hrun : m.status = .running) {q : Placed}
    (hq : q ∈ placedBlock (depth + 1) ((Loop.times n).inside depth here) body)
    (hpc : m.pc ∈ q.counterStores) {x : Nat} (hx : x < counterAddress depth + 2) :
    ¬ m.StoresInto x := by
  have hat := (Program.stmtAt_of_placed p).2 body _ _ hloop.inner q hq
  have hpast := past_of_placed.2 body _ _ q hq
  have haims := hat.aims.2 _ hpc
  have hplace : q.here < p.size := by
    obtain ⟨-, -, -, hpoke⟩ := haims
    exact Nat.lt_of_le_of_lt (Placed.here_le hpc) (Array.getElem?_eq_some_iff.1 hpoke).1
  have hbound := hpast.counterAddress_le hp hplace
  -- the inner loop lies deeper, so its counter is a later one
  have hdeep := hpast.depth_le
  simp only [counterAddress] at hc hx hbound
  have hmemory : counterAddress q.depth + 2 ≤ memorySize := by
    simp only [counterAddress, memorySize]
    omega
  rintro ⟨a, width, hstores, hle, -⟩
  cases (Machine.storesTo_of_aims hm hfed hrun haims).symm.trans hstores
  rw [Machine.toInt_address hmemory, counterAddress] at hle
  omega

theorem not_storesInto_counter (hc : counterAddress depth + 2 ≤ 33445) (hm : m.Steady p)
    (hfed : m.Fed p) (hrun : m.status = .running)
    (hpc : (Loop.times n).inside depth here ≤ m.pc ∧
      m.pc < (Loop.times n).inside depth here + blockSize body)
    (hway : m.Undisturbed d depth here n body count s) {x : Nat} (hx : counterAddress depth ≤ x)
    (hx' : x < counterAddress depth + 2) : ¬ m.StoresInto x := by
  have hexit : m.pc ≠ (Loop.times n).exit depth here (blockSize body) := by
    simp only [Loop.exit]
    omega
  by_cases hown : m.pc ∈ (placedBlock (depth + 1) ((Loop.times n).inside depth here) body).flatMap
      Placed.counterStores
  · obtain ⟨q, hq, hmem⟩ := List.mem_flatMap.1 hown
    exact not_storesInto_of_inner hp hloop hc hm hfed hrun hq hmem hx'
  · intro hinto
    obtain ⟨a, width, hstores, hle, -⟩ := id hinto
    rw [Machine.storesTo?] at hstores
    split at hstores
    · -- variables have words of their own
      obtain ⟨b, hb, heq⟩ := Option.map_eq_some_iff.1 hstores
      cases heq
      have hge : 35254 ≤ b := (variableAddress?_bounds hb).1
      rw [Machine.toInt_address (variableAddress?_le hb)] at hle
      omega
    · next width' hpoke =>
      exact hway.spares.now hexit hrun hpc.1 hpc.2 hown width' hpoke x hx hx' hinto
    · cases hstores

/-- A pass leaves the counter as it was. -/
theorem counter_kept (hc : counterAddress depth + 2 ≤ 33445)
    (hgoto : ∀ span name, .goto span name ∉ flatBlock body)
    (hm : m.Rests p ((Loop.times n).inside depth here) (·.HasWord (counterAddress depth) v))
    (hway : m.Undisturbed d depth here n body count s) :
    ∃ i, (∀ k < i, (m.after d k s).1.pc ≠ (Loop.times n).inside depth here + blockSize body) ∧
      (m.after d i s).1.pc = (Loop.times n).inside depth here + blockSize body ∧
      (m.after d i s).1.status = .running ∧
      (m.after d i s).1.memory.HasWord (counterAddress depth) v := by
  have hstill := hloop.still_inside hp
  have hexit : m.pc ≠ (Loop.times n).exit depth here (blockSize body) := by
    rw [hm.pc, Loop.exit]
    omega
  obtain ⟨i, hfirst, hpc, hrun⟩ := Machine.exists_first (hway.ends.now hexit hm.status hm.pc)
  have hwithin {k : Nat} (hk : k < i) := body_within hloop hgoto hm hfirst hrun hk
  refine ⟨i, hfirst, hpc, hrun, hm.value.after hrun fun k hk x hge hlt => ?_⟩
  refine not_storesInto_counter hp hloop hc ((hm.steady hstill).after hp d k)
    ((Machine.fed_of_still hp (hm.pc.symm ▸ hstill)).after hp hm.program k)
    (Machine.running_of_le (Nat.le_of_lt hk) hrun) (hwithin hk) (hway.after fun l hl => ?_) hge hlt
  have hbody := (hwithin (Nat.lt_trans hl hk)).2
  simp only [Loop.exit]
  omega

theorem times_gate (hcount : count ≤ 65535)
    (hm : m.Rests p ((Loop.times n).top depth here) (·.HasWord (counterAddress depth) v))
    (hway : m.Undisturbed d depth here n body count s) :
    (m.after d ((Loop.times n).testCode depth).length s).1 =
      m.moved m.store [truth (v.toNat < count)] ((Loop.times n).gate depth here) := by
  obtain ⟨htest, -⟩ := Program.HasCode.append.1 hloop.test
  obtain ⟨hfront, hless⟩ := Program.HasCode.append.1 htest
  obtain ⟨hload, -⟩ := Program.HasCode.append.1 hfront
  have hsteady := hm.steady (hloop.still_top hp)
  obtain ⟨hc, hv⟩ := hm.value
  -- the counter
  have hloaded : (m.after d 2 s).1 =
      m.moved m.store [.ofNat v.toNat] ((Loop.times n).top depth here + 2) := by
    have hread : (counter depth).content m.store = .done (.ok (.ofNat v.toNat), m.store) :=
      hv ▸ @Eval.read_ofNat _ .word hc m.store
    rw [← hm.pc] at hload ⊢
    exact hsteady.after_computes hp hm.status (Target.computes_load (counter_proper depth)) hload
      hm.stack hread
  have hround : m.Rounds d here ((Loop.times n).gate depth here)
      ((Loop.times n).exit depth here (blockSize body)) s 2 [] := by
    refine Machine.rounds_onward hm.program hload (Target.onward_access (counter_proper depth)).1
      hm.pc ?_ (Nat.le_add_right here _) ?_ (.inr ?_)
    · exact (congrArg Machine.status hloaded).trans hm.status
    · simp only [Loop.exit, Loop.inside, Loop.testCode, List.length_append]
      omega
    · simp only [Loop.gate, Loop.testCode, List.length_append]
      omega
  -- `n`
  have hcounted : (m.after d (2 + n.code.length) s).1 =
      m.moved m.store [.ofNat count, .ofNat v.toNat]
        ((Loop.times n).top depth here + 2 + n.code.length) := by
    have hcounts := hway.counts.after fun k hk => Nat.ne_of_lt (hround.within k hk).2
    rw [Machine.after_add]
    generalize m.after d 2 s = q at hloaded hcounts ⊢
    obtain ⟨m', s'⟩ := q
    obtain rfl : m' = _ := hloaded
    refine hcounts.now ?_ hm.status rfl
    simp only [Machine.moved, Loop.exit, Loop.inside, Loop.testCode, List.length_append,
      List.length_singleton]
    omega
  -- which of them is less
  have hsteady' := hsteady.after hp d (2 + n.code.length) (s := s)
  have hlength : ((Loop.times n).testCode depth).length = 2 + n.code.length + 1 := by
    rw [Loop.testCode, List.length_append, List.length_append]
    rfl
  have hgate : (Loop.times n).gate depth here =
      (Loop.times n).top depth here + 2 + n.code.length + 1 := by
    rw [Loop.gate, hlength]
    omega
  rw [List.length_append, ← Nat.add_assoc] at hless
  rw [hgate, hlength, Machine.after_add]
  generalize m.after d (2 + n.code.length) s = q at hcounted hsteady' ⊢
  obtain ⟨m', s'⟩ := q
  obtain rfl : m' = _ := hcounted
  exact hsteady'.after_computes hp hm.status (computes_binary .less _ _) hless rfl
    (value_less_word hcount _)

theorem times_tested (hcount : count ≤ 65535)
    (hm : m.Rests p ((Loop.times n).top depth here) (·.HasWord (counterAddress depth) v))
    (hway : m.Undisturbed d depth here n body count s) :
    ∃ i, (m.after d (i + 1) s).1.Rests p
        (if v.toNat < count then (Loop.times n).inside depth here else
          (Loop.times n).exit depth here (blockSize body)) (·.HasWord (counterAddress depth) v) ∧
      m.Rounds d here ((Loop.times n).gate depth here)
        ((Loop.times n).exit depth here (blockSize body)) s (i + 1)
        (if v.toNat < count then [m.after d (i + 1) s] else []) := by
  have hgoes : (Loop.times n).goesOn (truth (v.toNat < count)) = decide (v.toNat < count) := by
    cases decide (v.toNat < count) <;> rfl
  simpa only [hgoes, decide_eq_true_eq] using
    loop_tested hp hloop hm (times_gate hp hloop hcount hm hway)

/-! ## Pass after pass -/

variable (hc : counterAddress depth + 2 ≤ 33445) (hcount : count ≤ 65535)
  (hgoto : ∀ span name, .goto span name ∉ flatBlock body)
include hc hcount hgoto

theorem times_pass
    (hm : m.Rests p ((Loop.times n).top depth here) (·.HasWord (counterAddress depth) v))
    (hlt : v.toNat < count) (hway : m.Undisturbed d depth here n body count s) :
    ∃ i q, 0 < i ∧ q.1.memory.HasWord (counterAddress depth) v ∧
      (m.after d i s).1.Rests p ((Loop.times n).top depth here)
        (·.HasWord (counterAddress depth) (v + 1)) ∧
      m.Rounds d here ((Loop.times n).gate depth here)
        ((Loop.times n).exit depth here (blockSize body)) s i [q] := by
  obtain ⟨i, hinside, hround⟩ := times_tested hp hloop hcount hm hway
  rw [if_pos hlt] at hinside hround
  have hway' := hway.after fun k hk => Nat.ne_of_lt (hround.within k hk).2
  obtain ⟨k, hending, hround'⟩ := loop_passed hp hloop (Q := (·.HasWord (counterAddress depth) v))
    hgoto hinside (counter_kept hp hloop hc hgoto hinside hway')
  rw [← Machine.after_add] at hending
  obtain ⟨l, htop, hround''⟩ := loop_returns hp hloop (d := d)
    (Q := (·.HasWord (counterAddress depth) (v + 1))) (s := (m.after d (i + 1 + k) s).2) hending
    (Loop.next_times n hending.value)
  rw [← Machine.after_add] at htop
  exact ⟨i + 1 + k + l, _, by omega, hinside.value, htop, (hround.trans hround').trans hround''⟩

theorem times_leaves {P : Memory → Prop} (hstart : p.HasCode here ((Loop.times n).startCode depth))
    (hm : m.Rests p here P) (hway : m.Undisturbed d depth here n body count s) :
    ∃ i qs, qs.length = count ∧
      (m.after d i s).1.Rests p ((Loop.times n).exit depth here (blockSize body)) (fun _ => True) ∧
      m.Rounds d here ((Loop.times n).gate depth here)
        ((Loop.times n).exit depth here (blockSize body)) s i qs := by
  have hmemory : counterAddress depth + 2 ≤ memorySize := by
    simp only [memorySize]
    omega
  have hnat {j : Nat} (hj : j ≤ count) : (UInt16.ofNat j).toNat = j :=
    UInt16.toNat_ofNat_of_lt' (show j < 65536 by omega)
  obtain ⟨i, htop, hround⟩ := loop_starts hp hloop (d := d) (s := s)
    (Q := (·.HasWord (counterAddress depth) (.ofNat 0))) hstart hm
    (Loop.start_times n hmemory m.store)
  have hway' := hway.after fun k hk => Nat.ne_of_lt (hround.within k hk).2
  obtain ⟨k, qs, -, hpasses, htop', hround'⟩ := rounds_of_round
    (P := fun v m => m.HasWord (counterAddress depth) v) (G := (·.toNat < count))
    (fun hway hround => hway.after fun k hk => Nat.ne_of_lt (hround.within k hk).2)
    (fun hway hm hlt => times_pass hp hloop hc hcount hgoto hm hlt hway)
    hway' htop count fun j hj => by
      rw [Nat.zero_add, hnat (Nat.le_of_lt hj)]
      exact hj
  have hway'' := hway'.after fun k hk => Nat.ne_of_lt (hround'.within k hk).2
  -- the test that is made behind the last pass
  obtain ⟨l, hexit, hround''⟩ := times_tested hp hloop hcount htop' hway''
  have hover : ¬ (UInt16.ofNat (0 + count)).toNat < count := by
    rw [Nat.zero_add, hnat (Nat.le_refl _)]
    exact Nat.lt_irrefl _
  rw [if_neg hover] at hexit hround''
  simp only [← Machine.after_add, Nat.add_assoc] at hexit
  have hall := hround.trans (hround'.trans hround'')
  rw [List.nil_append, List.append_nil] at hall
  refine ⟨_, qs, ?_, ⟨hexit.program, hexit.status, hexit.pc, hexit.stack, trivial⟩, hall⟩
  rw [← hpasses.length_eq, List.length_range]

end

/-! ## Loops that are undisturbed -/

section

variable {p : Program} (hp : p.Calm) {depth here count : Nat} {body : List Stmt} {σ : Type}
  {d : Device σ} {m : Machine} {s : σ} (hm : m.Steady p)
include hp hm

theorem until_counts_number (exit : Nat)
    (hloop : p.LoopAt depth here (.times (.number (.ofNat count))) body) :
    m.Until d exit (fun m s => m.pc = (Loop.times (.number (.ofNat count))).top depth here + 2 →
      (m.after d 1 s).1 = m.moved m.store (.ofNat count :: m.stack.items) (m.pc + 1)) s := by
  intro k _ hrun hpc
  refine (hm.after hp d k).after_computes hp hrun (computes_literal (.ofNat count)) ?_
    (Stack.ext rfl) rfl
  exact hpc ▸ .singleton (hloop.test 2 _ rfl)

theorem until_ends_assign (exit : Nat) {kind : Loop} {span : Span} {v : Int64} {name : Char}
    (hloop : p.LoopAt depth here kind [.effect span (.assign (.number v) (.var name))]) :
    m.Until d exit (fun m s => m.pc = kind.inside depth here →
      ∃ k, (m.after d k s).1.pc = kind.inside depth here +
          blockSize [.effect span (.assign (.number v) (.var name))] ∧
        (m.after d k s).1.status = .running) s := by
  intro k _ hrun hpc
  have hsteady := hm.after hp d k (s := s)
  have hstack := hsteady.stack_eq hrun (hpc.symm ▸ hloop.still_inside hp)
  have hat := hloop.inner.cons.1
  have hproper := (hat.fits _ (Stmt.mem_flat _)).proper
  obtain ⟨a, ha⟩ := variableAddress?_isSome (c := name) hproper.2.2
  have hact : (Stmt.effect span (.assign (.number v) (.var name))).act
      (m.after d k s).1.store = _ :=
    (congrFun (Eval.addressOf_bind ha fun a => Eval.write .word a v) _).trans
      (Eval.write_ofNat (variableAddress?_le ha) v _)
  have hafter := hsteady.after_computes (d := d) (s := (m.after d k s).2) hp hrun
    (Stmt.computes_straight rfl hproper) (hpc ▸ hat.straight rfl) hstack hact
  refine ⟨2, (congrArg Machine.pc hafter).trans ?_, (congrArg Machine.status hafter).trans hrun⟩
  exact congrArg (· + 2) hpc

end

/-! ## Compiled programs -/

/-- In a compiled program every statement has its place. The counter of a loop `For(n)`, in whatever
place, is in front of the buffers and the variables, and no load or store of it fails. Each time the
loop is begun, with a body without `Goto` and with nothing to disturb it, there are as many passes as
`n` says, and then the loop is left at its end. -/
theorem repeats_exactly {source : String} {ts : List Lexeme} {ss : List Stmt} {p : Program}
    (hlex : lexemes source = .ok ts) (hparse : parse ts = .ok ss)
    (htree : Program.ofTree ss = .ok p) :
    (placedBlock 0 0 ss).map (·.stmt) = flatBlock ss ∧
    ∀ (depth here : Nat) (span : Span) (n : Expr) (body : List Stmt),
      let q : Placed := ⟨depth, here, .loop span (.times n) body⟩
      let c := counterAddress depth
      let gate := (Loop.times n).gate depth here
      let exit := (Loop.times n).exit depth here (blockSize body)
      q ∈ placedBlock 0 0 ss →
      p.StmtAt depth here q.stmt ∧ 2000 ≤ c ∧ c + 2 ≤ 33445 ∧
      (∀ b : Buffer, c + 2 ≤ b.base) ∧ (∀ name a, variableAddress? name = some a → c + 2 ≤ a) ∧
      ∀ {σ : Type} (d : Device σ) (m₀ : Machine) (s₀ : σ) (n₀ : Nat),
        let (m, s) := (m₀.load p).after d n₀ s₀
        m.status = .running →
        (m.pc ∈ q.counterLoads → m.loadsFrom? = some (.ofNat c, .word) ∧
          (m.after d 1 s).1.status = .running) ∧
        (m.pc ∈ q.counterStores → m.storesTo? = some (.ofNat c, .word) ∧
          (m.after d 1 s).1.status = .running) ∧
        ∀ count ≤ 65535, m.pc = here → (∀ span name, .goto span name ∉ flatBlock body) →
          m.Undisturbed d depth here n body count s →
          ∃ k, (m.passes d gate k s).length = count ∧
            (∀ l < k, here ≤ (m.after d l s).1.pc ∧ (m.after d l s).1.pc < exit) ∧
            (m.after d k s).1.pc = exit ∧ (m.after d k s).1.status = .running ∧
            (m.after d k s).1.stack.isEmpty := by
  have hs := (written_of_parse hlex hparse).proper
  have hp := Program.calm_of_tree hs htree
  refine ⟨map_stmt_placed.2 ss 0 0, ?_⟩
  intro depth here span n body q c gate exit hq
  have hat : p.StmtAt depth here q.stmt :=
    (Program.stmtAt_of_placed p).2 ss 0 0 (Program.resumes_start hs htree).block q hq
  have haims := Program.StmtAt.aims (q := q) hat
  obtain ⟨hstart, hloop⟩ := hat.loop
  have hplace : here < p.size := (Array.getElem?_eq_some_iff.1 (hstart 0 _ rfl)).1
  have hc : c + 2 ≤ 33445 := by
    have hle := (past_of_placed.2 ss 0 0 q hq).counterAddress_le hp hplace
    exact Nat.le_trans hle (by decide)
  have hmemory : c + 2 ≤ memorySize := Nat.le_trans hc (by decide)
  refine ⟨hat, Nat.le_add_right _ _, hc, fun b => Nat.le_trans hc b.base_ge, ?_, ?_⟩
  · intro name a ha
    have hge : 35254 ≤ a := (variableAddress?_bounds ha).1
    omega
  intro σ d m₀ s₀ n₀
  have hsteady := Machine.Steady.after hp d n₀ (s := s₀) (Machine.steady_load p m₀)
  have hfed : ((m₀.load p).after d n₀ s₀).1.Fed p := by
    refine Machine.Fed.after hp rfl (fun x v _ hpc _ => ?_) n₀
    cases hpc
  generalize (m₀.load p).after d n₀ s₀ = r at hsteady hfed ⊢
  obtain ⟨m, s⟩ := r
  intro hrun
  refine ⟨fun hpc => ?_, fun hpc => ?_, fun count hcount hpc hgoto hway => ?_⟩
  · exact Machine.loads_of_aims hp hsteady hfed hrun (haims.1 _ hpc) hmemory
  · exact ⟨Machine.storesTo_of_aims hsteady hfed hrun (haims.2 _ hpc),
      Machine.stores_of_aims hp hsteady hfed hrun (haims.2 _ hpc) hmemory⟩
  · have hstill : p.Still here := Program.StmtAt.still_loop hp hat
    have hm : m.Rests p here (fun _ => True) :=
      ⟨hsteady.program, hrun, hpc, hsteady.stack_eq hrun (hpc.symm ▸ hstill), trivial⟩
    obtain ⟨k, qs, hlength, hexit, hround⟩ :=
      times_leaves hp hloop hc hcount hgoto hstart hm hway
    exact ⟨k, hround.begun ▸ hlength, hround.within, hexit.pc, hexit.status, hexit.stack ▸ rfl⟩

theorem repeats_exactly_nested :
    ∃ p, compile "For(2)\nFor(3)\n7->A\nEnd\nEnd" = .ok p ∧
      ∀ {σ : Type} (d : Device σ) (s : σ), ∃ k,
        ((Machine.fresh.load p).passes d 7 k s).length = 2 ∧
        ((Machine.fresh.load p).after d k s).1.pc = 32 := by
  have hread : (lexemes "For(2)\nFor(3)\n7->A\nEnd\nEnd" >>= parse) =
      .ok [.loop ⟨1, 0, 3⟩ (.times (.number 2)) [.loop ⟨2, 0, 3⟩ (.times (.number 3))
        [.effect ⟨3, 0, 1⟩ (.assign (.number 7) (.var 'A'))]]] := by cbv
  obtain ⟨ts, hlex, hparse⟩ := bind_eq_ok.1 hread
  obtain ⟨p, htree⟩ := exists_of_isOk (x := Program.ofTree
    [.loop ⟨1, 0, 3⟩ (.times (.number 2)) [.loop ⟨2, 0, 3⟩ (.times (.number 3))
        [.effect ⟨3, 0, 1⟩ (.assign (.number 7) (.var 'A'))]]]) (by cbv)
  have hs := (written_of_parse hlex hparse).proper
  have hp := Program.calm_of_tree hs htree
  have hpokes {x : Nat} {width : Width} (hx : p.code[x]? = some (.poke width)) :
      x = 2 ∨ x = 10 ∨ x = 23 ∨ x = 30 := by
    rw [← Array.getElem?_toList, (Program.linked_of_tree hs htree).code] at hx
    have hlt : x < 32 := (List.getElem?_eq_some_iff.1 hx).1
    interval_cases x <;> cases hx <;> decide
  have hat := (Program.resumes_start hs htree).block.cons.1
  obtain ⟨hstart, hloop⟩ := hat.loop
  obtain ⟨hstart', hloop'⟩ := hloop.inner.cons.1.loop
  refine ⟨p, bind_eq_ok.2 ⟨ts, hlex, bind_eq_ok.2 ⟨_, hparse, htree⟩⟩, fun d s => ?_⟩
  have hinner {m : Machine} {s : _} (hm : m.Steady p) : m.Undisturbed d 1 8 (.number 3)
      [.effect ⟨3, 0, 1⟩ (.assign (.number 7) (.var 'A'))] 3 s := by
    refine ⟨until_counts_number hp hm _ hloop', until_ends_assign hp hm _ hloop', ?_⟩
    intro k _ _ hge hlt _ width hpoke
    rw [Machine.program_after, hm.program] at hpoke
    have hmem := hpokes hpoke
    change 16 ≤ _ at hge
    change _ < 18 at hlt
    omega
  have houter : (Machine.fresh.load p).Undisturbed d 0 0 (.number 2)
      [.loop ⟨2, 0, 3⟩ (.times (.number 3)) [.effect ⟨3, 0, 1⟩ (.assign (.number 7) (.var 'A'))]] 2
      s := by
    have hm := Machine.steady_load p Machine.fresh
    refine ⟨until_counts_number hp hm _ hloop, ?_, ?_⟩
    · intro k _ hrun hpc
      have hsteady := hm.after hp d k (s := s)
      have hrests : (((Machine.fresh.load p).after d k s).1).Rests p 8 (fun _ => True) :=
        ⟨hsteady.program, hrun, hpc,
          hsteady.stack_eq hrun (hpc.symm ▸ hloop.still_inside hp), trivial⟩
      obtain ⟨i, qs, -, hexit, -⟩ := times_leaves hp hloop' (by decide) (by decide)
        (by simp [flatBlock, Stmt.flat]) hstart' hrests (hinner hsteady)
      exact ⟨i, hexit.pc, hexit.status⟩
    · intro k _ _ hge hlt hown width hpoke
      rw [Machine.program_after, hm.program] at hpoke
      have hmem := hpokes hpoke
      generalize ((Machine.fresh.load p).after d k s).1.pc = x at hge hlt hmem hown
      change 8 ≤ x at hge
      change x < 25 at hlt
      obtain rfl | rfl : x = 10 ∨ x = 23 := by omega
      · exact absurd (by decide) hown
      · exact absurd (by decide) hown
  obtain ⟨k, hlength, -, hpc, -⟩ := (((repeats_exactly hlex hparse htree).2 0 0 _ _ _
    List.mem_cons_self).2.2.2.2.2 d Machine.fresh s 0 rfl).2.2 2 (by decide) rfl
      (by simp [flatBlock, Stmt.flat]) houter
  exact ⟨k, hlength, hpc⟩

end Handheld
