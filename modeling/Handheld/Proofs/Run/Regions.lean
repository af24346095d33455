import Handheld.Proofs.Meaning.Placement
import Handheld.Proofs.Run.Faults
import Handheld.Proofs.Run.Steps

/-!
# Ways through the code

A machine that goes on is at the next address or where a branch leads. So it
takes code without branches address by address, and it leaves a block without
`Goto` at its end only. Wherever control comes to a block, the stack is empty.
-/

namespace Handheld

/-! ## Step after step -/

namespace Machine

variable {σ : Type} {d : Device σ} {m : Machine} {s : σ} {p : Program} {n : Nat}

theorem running_of_le {k : Nat} (hle : k ≤ n) (hrun : (m.after d n s).1.status = .running) :
    (m.after d k s).1.status = .running := by
  obtain ⟨l, rfl⟩ := Nat.exists_eq_add_of_le hle
  rw [after_add] at hrun
  by_cases hk : (m.after d k s).1.status = .running
  · exact hk
  · rwa [after_of_over hk] at hrun

theorem program_after (d : Device σ) (n : Nat) (m : Machine) (s : σ) :
    (m.after d n s).1.program = m.program := by
  have hstep (m' : Machine) (h : m'.program = m.program) :
      m'.step.Always fun _ m'' => m''.program = m.program := by
    by_cases hrun : m'.status = .running
    · exact (moves_step hrun).mono fun _ _ hmoves => hmoves.program.trans h
    · rw [step_of_over hrun]
      exact h
  exact after_induction hstep d n m s rfl

theorem moves_after (hrun : (m.after d n s).1.status = .running) :
    ∃ e, Moves (m.after d n s).1 e (m.after d (n + 1) s).1 := by
  rw [after_add d n 1]
  exact ⟨_, (moves_step hrun).perform d (m.after d n s).2⟩

theorem goes_after (hprogram : m.program = p) (hrun : (m.after d (n + 1) s).1.status = .running) :
    (m.after d (n + 1) s).1.pc = (m.after d n s).1.pc + 1 ∨
      ∃ kind, p.code[(m.after d n s).1.pc]? = some (.branch kind (m.after d (n + 1) s).1.pc) := by
  obtain ⟨e, hmoves⟩ := moves_after (running_of_le (Nat.le_succ n) hrun)
  rw [← (program_after d n m s).trans hprogram]
  exact hmoves.goes hrun

theorem stack_le_after (hroom : m.stack.size ≤ stackLimit)
    (hrun : (m.after d n s).1.status = .running) : (m.after d n s).1.stack.size ≤ stackLimit := by
  induction n with
  | zero => exact hroom
  | succ n ih =>
    have hbefore := running_of_le (Nat.le_succ n) hrun
    obtain ⟨e, hmoves⟩ := moves_after hbefore
    exact hmoves.room (ih hbefore) hrun

theorem pc_onward {x : Nat} {is : List Instr} (hprogram : m.program = p) (hcode : p.HasCode x is)
    (his : Onward is) (hpc : m.pc = x) (hn : n ≤ is.length)
    (hrun : (m.after d n s).1.status = .running) : (m.after d n s).1.pc = x + n := by
  induction n with
  | zero => exact hpc
  | succ n ih =>
    have hbefore := ih (Nat.le_of_succ_le hn) (running_of_le (Nat.le_succ n) hrun)
    rcases goes_after hprogram hrun with hnext | ⟨kind, hbranch⟩
    · rw [hnext, hbefore, Nat.add_assoc]
    · rw [hbefore, hcode n is[n] (List.getElem?_eq_getElem hn)] at hbranch
      have hstraight := his is[n] (List.getElem_mem hn)
      rw [Option.some.inj hbranch] at hstraight
      exact absurd hstraight id

section

variable {x : Nat} {is : List Instr} (hprogram : m.program = p) (hcode : p.HasCode x is)
  (his : Onward is) (hpc : m.pc = x)
include hprogram hcode his hpc

theorem code_onward (hn : n < is.length) (hrun : (m.after d n s).1.status = .running) :
    (m.after d n s).1.program.code[(m.after d n s).1.pc]? = some is[n] := by
  rw [program_after, hprogram, pc_onward hprogram hcode his hpc (Nat.le_of_lt hn) hrun]
  exact hcode n is[n] (List.getElem?_eq_getElem hn)

theorem levels_onward (hn : n ≤ is.length) (hrun : (m.after d n s).1.status = .running) :
    depthAfter m.stack.size (is.take n) = some (m.after d n s).1.stack.size := by
  induction n with
  | zero => rfl
  | succ n ih =>
    have hbefore := running_of_le (Nat.le_succ n) hrun
    obtain ⟨e, hmoves⟩ := moves_after hbefore
    obtain ⟨htakes, hsize⟩ :=
      hmoves.levels hrun _ (code_onward hprogram hcode his hpc hn hbefore)
    rw [List.take_succ_eq_append_getElem hn, depthAfter_append, ih (Nat.le_of_succ_le hn) hbefore,
      Option.bind_some, depthAfter, if_pos htakes, ← hsize, depthAfter]

theorem hasRoom_of_running (hroom : m.stack.size ≤ stackLimit)
    (hrun : (m.after d is.length s).1.status = .running) : HasRoom m.stack.size is := by
  intro js hjs depth hdepth
  have hafter := running_of_le hjs.length_le hrun
  rw [List.prefix_iff_eq_take.1 hjs, levels_onward hprogram hcode his hpc hjs.length_le hafter]
    at hdepth
  cases hdepth
  exact stack_le_after hroom hafter

theorem debug_onward (hdebug : .debug ∉ is) (hn : n ≤ is.length) :
    (m.after d n s).1.debug = m.debug := by
  induction n with
  | zero => rfl
  | succ n ih =>
    rw [← ih (Nat.le_of_succ_le hn)]
    by_cases hrun : (m.after d n s).1.status = .running
    · obtain ⟨e, hmoves⟩ := moves_after hrun
      refine hmoves.debug fun heq => hdebug ?_
      rw [code_onward hprogram hcode his hpc hn hrun] at heq
      rw [← Option.some.inj heq]
      exact List.getElem_mem hn
    · rw [after_add d n 1, after_of_over hrun]

end

end Machine

/-! ## Parts that are left at their end -/

namespace Program

/-- The branches between two addresses lead to addresses between them. -/
def Encloses (p : Program) (x y : Nat) : Prop :=
  ∀ (z : Nat) (kind : Branch) (target : Nat), x ≤ z → z < y →
    p.code[z]? = some (.branch kind target) → x ≤ target ∧ target ≤ y

variable {p : Program} {x y : Nat}

theorem Encloses.after (h : p.Encloses x y) {σ : Type} {d : Device σ} {m : Machine} {s : σ}
    {n : Nat} (hprogram : m.program = p) (hpc : x ≤ m.pc ∧ m.pc ≤ y)
    (hrun : (m.after d n s).1.status = .running) (hbefore : ∀ k < n, (m.after d k s).1.pc ≠ y) :
    x ≤ (m.after d n s).1.pc ∧ (m.after d n s).1.pc ≤ y := by
  induction n with
  | zero => exact hpc
  | succ n ih =>
    obtain ⟨hle, hge⟩ := ih (Machine.running_of_le (Nat.le_succ n) hrun) fun k hk =>
      hbefore k (Nat.lt_succ_of_lt hk)
    have hlt := Nat.lt_of_le_of_ne hge (hbefore n (Nat.lt_succ_self n))
    rcases Machine.goes_after hprogram hrun with hnext | ⟨kind, hbranch⟩
    · omega
    · exact h _ kind _ hle hlt hbranch

theorem BlockAt.encloses {depth : Nat} {ss : List Stmt} (h : p.BlockAt depth x ss)
    (hgoto : ∀ span name, .goto span name ∉ flatBlock ss) : p.Encloses x (x + blockSize ss) := by
  intro z kind target hle hlt hbranch
  have hproper : ∀ s ∈ flatBlock ss, s.Proper := fun s hs => (h.fits s hs).proper
  have hlength := codeLength_tree.2 ss depth x
  obtain ⟨k, rfl⟩ := Nat.exists_eq_add_of_le hle
  have hk : k < (instructions p.address (blockDirectives depth x ss)).length := by
    rw [length_instructions, hlength]
    omega
  have hi := List.getElem?_eq_getElem hk
  rw [h.code k _ hi] at hbranch
  rw [Option.some.inj hbranch] at hi
  obtain ⟨d, hd, hinstr⟩ := (getElem?_instructions _).1 hi
  have hmem := mem_of_mem_located hd
  cases d with
  | mark | place | label | reject => cases hinstr
  | branch => exact absurd (plain_directives ss depth x _ hmem) id
  | goto span name => exact absurd (goto_mem_blockDirectives.1 hmem) (hgoto span name)
  | emit i =>
    cases hinstr
    -- Branches lead to places in the code of the block, or behind it.
    obtain ⟨front, back, hsplit, rfl, -⟩ :=
      (settled_tree.2 ss hproper depth x).rests target (target_mem_points hmem)
    rw [← hlength, hsplit, codeLength_append]
    omega

end Program

/-! ## Empty stacks -/

theorem depthAfter_add {depth depth' : Nat} {is : List Instr} (k : Nat)
    (h : depthAfter depth is = some depth') : depthAfter (depth + k) is = some (depth' + k) := by
  induction is generalizing depth with
  | nil =>
    cases h
    rfl
  | cons i is ih =>
    rw [depthAfter] at h ⊢
    split at h
    · next htakes =>
      have hsum : depth + k - i.takes + i.gives = depth - i.takes + i.gives + k := by omega
      rw [if_pos (Nat.le_add_right_of_le htakes), hsum]
      exact ih h
    · cases h

namespace Program.Calm

variable {p : Program} (hp : p.Calm)
include hp

theorem depthAfter_code {x depth : Nat} {is : List Instr} (hcode : p.HasCode x is)
    (hdepth : p.depthAt x = some depth) : depthAfter depth is = p.depthAt (x + is.length) := by
  induction is generalizing x depth with
  | nil => exact hdepth.symm
  | cons i is ih =>
    obtain ⟨hhead, htail⟩ : p.HasCode x [i] ∧ p.HasCode (x + 1) is := HasCode.append.1 hcode
    obtain ⟨htakes, hnext⟩ := hp.depth_succ hhead.head hdepth
    rw [depthAfter, if_pos htakes, ih htail hnext, List.length_cons, Nat.add_assoc, Nat.add_comm 1]

theorem hasRoom {x depth : Nat} {is : List Instr} (hcode : p.HasCode x is)
    (hdepth : p.depthAt x = some depth) : HasRoom depth is := by
  intro js hjs depth' hdepth'
  obtain ⟨ks, rfl⟩ := hjs
  rw [hp.depthAfter_code (HasCode.append.1 hcode).1 hdepth] at hdepth'
  exact hp.depth_le hdepth'

theorem still_of_branch {x : Nat} {is : List Instr} {kind : Branch} {target : Nat}
    (hcode : p.HasCode x (is ++ [.branch kind target]))
    (hlevel : depthAfter 0 (is ++ [.branch kind target]) = some 0) : p.Still x := by
  have hbranch := (HasCode.append.1 hcode).2.head
  have hbehind := hp.behind _ _ _ hbranch
  obtain ⟨depth, hdepth⟩ := hp.exists_depth x
  have hend := hp.depthAfter_code hcode hdepth
  rw [List.length_append, List.length_singleton, ← Nat.add_assoc, hbehind.depth] at hend
  have hsame := depthAfter_add depth hlevel
  rw [Nat.zero_add, hend] at hsame
  cases Option.some.inj hsame
  refine ⟨?_, hdepth⟩
  have hle := hbehind.le_size
  omega

end Program.Calm

namespace Program.LoopAt

variable {p : Program} (hp : p.Calm) {depth here : Nat} {kind : Loop} {body : List Stmt}
  (hloop : p.LoopAt depth here kind body)
include hp hloop

theorem still_here (hstart : p.HasCode here (kind.startCode depth)) : p.Still here := by
  have hcode := HasCode.append.2 ⟨hstart, hloop.test⟩
  rw [← List.append_assoc] at hcode
  refine hp.still_of_branch hcode ?_
  rw [List.append_assoc, depthAfter_append, kind.depthAfter_start hloop.proper, Option.bind_some,
    kind.depthAfter_test hloop.proper]
  cases kind <;> rfl

theorem still_top : p.Still (kind.top depth here) :=
  hp.targets _ _ _ (HasCode.append.1 hloop.next).2.head

theorem still_inside : p.Still (kind.inside depth here) :=
  hp.behind _ _ _ (HasCode.append.1 hloop.test).2.head

theorem still_ending : p.Still (kind.inside depth here + blockSize body) := by
  refine hp.still_of_branch hloop.next ?_
  rw [kind.depthAfter_next hloop.proper]
  rfl

end Program.LoopAt

theorem Program.StmtAt.still_loop {p : Program} (hp : p.Calm) {depth x : Nat} {span : Span}
    {kind : Loop} {body : List Stmt} (h : p.StmtAt depth x (.loop span kind body)) : p.Still x :=
  h.loop.2.still_here hp h.loop.1

theorem Stack.eq_nil_of_size {α : Type} {s : Stack α} (h : s.size = 0) : s = .ofList [] := by
  obtain ⟨items, size, hsize⟩ := s
  cases h
  cases List.eq_nil_of_length_eq_zero hsize.symm
  rfl

namespace Machine

variable {p : Program} {m : Machine}

theorem Steady.stack_eq (h : m.Steady p) (hrun : m.status = .running) (hstill : p.Still m.pc) :
    m.stack = .ofList [] := by
  have hdepth := (h.running hrun).2
  rw [hstill.depth] at hdepth
  exact Stack.eq_nil_of_size (Option.some.inj hdepth).symm

theorem steady_of_still (hprogram : m.program = p) (hstack : m.stack = .ofList [])
    (hrun : m.status = .running) (hstill : p.Still m.pc) : m.Steady p where
  program := hprogram
  running := fun _ => ⟨hstill.le_size, hstack ▸ hstill.depth⟩
  halted := by
    intro hhalted
    rw [hrun] at hhalted
    cases hhalted

end Machine

end Handheld
