import Handheld.Proofs.Meaning.Simulation
import Handheld.Proofs.Run.Regions
import Mathlib

/-!
# Passes of a loop

Between the passes of a loop the stack is empty, and what the loop counts with is
in memory. Code in front of the first test sets it, the code behind the body
changes it, and a branch behind the test begins the next pass or leaves the loop.
What is known of one round is known of as many rounds as the test allows.
-/

namespace Handheld

namespace Loop

/-- The address of the branch that leaves the loop. The body begins behind it. -/
def gate (depth here : Nat) (kind : Loop) : Nat :=
  kind.top depth here + (kind.testCode depth).length

end Loop

/-! ## Passes -/

namespace Machine

variable {σ : Type}

/-- The beginnings of the passes that a loop makes within `n` steps. A pass begins when the branch
at the address `gate` is not taken. -/
def passes (d : Device σ) (gate : Nat) : Nat → Machine → σ → List (Machine × σ)
  | 0, _, _ => []
  | n + 1, m, s =>
    let q := (m.step.perform d s).2
    if m.pc = gate ∧ q.1.pc = gate + 1 ∧ q.1.status = .running then
      q :: passes d gate n q.1 q.2
    else
      passes d gate n q.1 q.2

variable {d : Device σ} {gate : Nat} {m : Machine} {s : σ} {n : Nat}

theorem passes_add (n k : Nat) :
    m.passes d gate (n + k) s =
      m.passes d gate n s ++ (m.after d n s).1.passes d gate k (m.after d n s).2 := by
  induction n generalizing m s with
  | zero =>
    rw [Nat.zero_add]
    rfl
  | succ n ih =>
    rw [Nat.succ_add, passes, passes]
    split
    · exact congrArg (_ :: ·) ih
    · exact ih

theorem passes_of_ne (h : ∀ k < n, (m.after d k s).1.pc ≠ gate) : m.passes d gate n s = [] := by
  induction n generalizing m s with
  | zero => rfl
  | succ n ih =>
    have hpc : m.pc ≠ gate := h 0 (Nat.succ_pos n)
    rw [passes, if_neg fun hbegins => hpc hbegins.1]
    exact ih fun k hk => h (k + 1) (Nat.succ_lt_succ hk)

theorem mem_passes {q : Machine × σ} (h : q ∈ m.passes d gate n s) :
    (∃ k, q = m.after d k s) ∧ q.1.pc = gate + 1 ∧ q.1.status = .running := by
  induction n generalizing m s with
  | zero => cases h
  | succ n ih =>
    rw [passes] at h
    split at h
    · next hbegins =>
      rcases List.mem_cons.1 h with rfl | h
      · exact ⟨⟨1, rfl⟩, hbegins.2⟩
      · obtain ⟨⟨k, hk⟩, hq⟩ := ih h
        exact ⟨⟨k + 1, hk⟩, hq⟩
    · obtain ⟨⟨k, hk⟩, hq⟩ := ih h
      exact ⟨⟨k + 1, hk⟩, hq⟩

theorem forall_after_add (P : Machine → Prop) {k : Nat} (h : ∀ l < n, P (m.after d l s).1)
    (h' : ∀ l < k, P ((m.after d n s).1.after d l (m.after d n s).2).1) :
    ∀ l < n + k, P (m.after d l s).1 := by
  intro l hl
  rcases Nat.lt_or_ge l n with hlt | hge
  · exact h l hlt
  · obtain ⟨i, rfl⟩ := Nat.exists_eq_add_of_le hge
    rw [after_add]
    exact h' i (by omega)

theorem after_of_turns {m' : Machine} (h : m.turns n = .done m') : (m.after d n s).1 = m' := by
  have hshows := m.turns_shows d n s
  generalize m.transcript d n s = os at hshows
  rw [h] at hshows
  cases hshows
  rfl

/-- In `n` steps the machine does not leave the code from `here` up to `exit`, and it begins these
passes. -/
structure Rounds (d : Device σ) (here gate exit : Nat) (m : Machine) (s : σ) (n : Nat)
    (begun : List (Machine × σ)) : Prop where
  within : ∀ k < n, here ≤ (m.after d k s).1.pc ∧ (m.after d k s).1.pc < exit
  begun : m.passes d gate n s = begun

variable {here exit : Nat}

theorem Rounds.trans {k : Nat} {qs qs' : List (Machine × σ)}
    (h : Rounds d here gate exit m s n qs)
    (h' : Rounds d here gate exit (m.after d n s).1 (m.after d n s).2 k qs') :
    Rounds d here gate exit m s (n + k) (qs ++ qs') where
  within := forall_after_add (fun m => here ≤ m.pc ∧ m.pc < exit) h.within h'.within
  begun := by rw [passes_add, h.begun, h'.begun]

theorem rounds_of_ne
    (h : ∀ k < n, here ≤ (m.after d k s).1.pc ∧ (m.after d k s).1.pc < exit ∧
      (m.after d k s).1.pc ≠ gate) : Rounds d here gate exit m s n [] where
  within := fun k hk => ⟨(h k hk).1, (h k hk).2.1⟩
  begun := passes_of_ne fun k hk => (h k hk).2.2

theorem rounds_onward {p : Program} {x : Nat} {is : List Instr} (hprogram : m.program = p)
    (hcode : p.HasCode x is) (his : Onward is) (hpc : m.pc = x)
    (hrun : (m.after d is.length s).1.status = .running) (hx : here ≤ x)
    (hexit : x + is.length ≤ exit) (hgate : gate < x ∨ x + is.length ≤ gate) :
    Rounds d here gate exit m s is.length [] := by
  refine rounds_of_ne fun k hk => ?_
  rw [pc_onward hprogram hcode his hpc (Nat.le_of_lt hk) (running_of_le (Nat.le_of_lt hk) hrun)]
  omega

theorem rounds_gate (hpc : m.pc = gate) (hgate : here ≤ gate ∧ gate < exit) :
    Rounds d here gate exit m s 1
      (if (m.after d 1 s).1.pc = gate + 1 ∧ (m.after d 1 s).1.status = .running then
        [m.after d 1 s] else []) where
  within := by
    intro k hk
    cases Nat.lt_one_iff.1 hk
    exact hpc.symm ▸ hgate
  begun := by simp [passes, after, hpc]

theorem exists_first {y : Nat}
    (h : ∃ n, (m.after d n s).1.pc = y ∧ (m.after d n s).1.status = .running) :
    ∃ n, (∀ k < n, (m.after d k s).1.pc ≠ y) ∧ (m.after d n s).1.pc = y ∧
      (m.after d n s).1.status = .running := by
  obtain ⟨j, hj, hrun⟩ := h
  have hsome : ∃ n, (m.after d n s).1.pc = y := ⟨j, hj⟩
  exact ⟨Nat.find hsome, fun k hk => Nat.find_min hsome hk, Nat.find_spec hsome,
    running_of_le (Nat.find_min' hsome hj) hrun⟩

/-- The machine runs the program at the address `x` with an empty stack, and its memory is as it should
be there. -/
structure Rests (p : Program) (x : Nat) (P : Memory → Prop) (m : Machine) : Prop where
  program : m.program = p
  status : m.status = .running
  pc : m.pc = x
  stack : m.stack = .ofList []
  value : P m.memory

theorem Rests.steady {p : Program} {x : Nat} {P : Memory → Prop} (h : m.Rests p x P)
    (hstill : p.Still x) : m.Steady p :=
  steady_of_still h.program h.stack h.status (h.pc.symm ▸ hstill)

end Machine

theorem Machine.Steady.after_computes {α : Type} {p : Program} {m : Machine} {σ : Type}
    {d : Device σ} {s : σ} {is : List Instr} {before below : List Int64} {e : Eval α}
    {mid : α → List Int64} {a : α} {store : Store} (hm : m.Steady p) (hp : p.Calm)
    (hrun : m.status = .running) (h : Computes is before e mid) (hcode : p.HasCode m.pc is)
    (hstack : m.stack = .ofList (before ++ below)) (he : e m.store = .done (.ok a, store)) :
    (m.after d is.length s).1 = m.moved store (mid a ++ below) (m.pc + is.length) := by
  refine Machine.after_of_turns ?_
  have hroom := hp.hasRoom hcode (hm.running hrun).2
  have hmirrors := h m below hrun (hm.program ▸ hcode) hstack hroom
  rw [he] at hmirrors
  generalize m.turns is.length = t at hmirrors ⊢
  cases hmirrors with
  | done hlands =>
    cases hlands with
    | going => rfl

theorem Eval.bind_of_done {α β : Type} {x : Eval α} {f : α → Eval β} {a : α} {store store' : Store}
    (h : x store = .done (.ok a, store')) : (x >>= f) store = f a store' := by
  change (x store).bind _ = _
  rw [h]
  rfl

theorem word_plusOne (v : UInt16) : (Int64.ofNat v.toNat + 1).toUInt64.toUInt16 = v + 1 := by
  rw [show Int64.ofNat v.toNat + 1 = Int64.ofNat (v.toNat + 1) from (Int64.ofNat_add ..).symm]
  refine (UInt64.toUInt16_ofNat' (v.toNat + 1)).trans ?_
  rw [UInt16.ofNat_add, UInt16.ofNat_toNat]
  rfl

/-! ## The parts of a loop -/

section

variable {p : Program} (hp : p.Calm) {depth here : Nat} {kind : Loop} {body : List Stmt}
  (hloop : p.LoopAt depth here kind body) {σ : Type} {d : Device σ} {m : Machine} {s : σ}
  {P Q : Memory → Prop}
include hp hloop

theorem loop_starts (hstart : p.HasCode here (kind.startCode depth)) (hm : m.Rests p here P)
    (hstore : ∃ store, kind.start depth m.store = .done (.ok (), store) ∧ Q store.memory) :
    ∃ n, (m.after d n s).1.Rests p (kind.top depth here) Q ∧
      m.Rounds d here (kind.gate depth here) (kind.exit depth here (blockSize body)) s n [] := by
  obtain ⟨store, hstore, hvalue⟩ := hstore
  have hsteady := hm.steady (hloop.still_here hp hstart)
  have hafter := hsteady.after_computes (d := d) (s := s) hp hm.status
    (kind.computes_start hloop.proper depth) (hm.pc.symm ▸ hstart) hm.stack hstore
  rw [hm.pc] at hafter
  refine ⟨_, ?_, Machine.rounds_onward hm.program hstart (Loop.onward_start hloop.proper depth)
    hm.pc ?_ (Nat.le_refl _) ?_ (.inr ?_)⟩
  · rw [hafter]
    exact ⟨hm.program, hm.status, rfl, rfl, hvalue⟩
  · rw [hafter]
    exact hm.status
  · simp only [Loop.exit, Loop.inside, Loop.top]
    omega
  · simp only [Loop.gate, Loop.top]
    omega

theorem loop_tested {v : Int64} (hm : m.Rests p (kind.top depth here) P)
    (hgate : (m.after d (kind.testCode depth).length s).1 =
      m.moved m.store [v] (kind.gate depth here)) :
    ∃ n, (m.after d (n + 1) s).1.Rests p (if kind.goesOn v then kind.inside depth here else
        kind.exit depth here (blockSize body)) P ∧
      m.Rounds d here (kind.gate depth here) (kind.exit depth here (blockSize body)) s (n + 1)
        (if kind.goesOn v then [m.after d (n + 1) s] else []) := by
  obtain ⟨htest, hbranch⟩ := Program.HasCode.append.1 hloop.test
  have hhere : here ≤ kind.top depth here := Nat.le_add_right _ _
  have hexit : kind.gate depth here + 1 < kind.exit depth here (blockSize body) := by
    simp only [Loop.exit, Loop.inside, Loop.gate]
    omega
  have htarget := hm.program ▸ (hp.targets _ _ _ hbranch.head).le_size
  have hbehind : (m.after d ((kind.testCode depth).length + 1) s).1 = m.moved m.store []
      (if kind.goesOn v then kind.inside depth here else kind.exit depth here (blockSize body)) := by
    rw [Machine.after_add, hgate]
    refine Machine.after_of_turns ?_
    rw [Loop.gate, Machine.turns_branch hm.status htarget kind.leaving_ne
      (hm.program ▸ hbranch.head), kind.taken_leaving]
    cases kind.goesOn v <;> rfl
  refine ⟨(kind.testCode depth).length, ?_, ?_⟩
  · rw [hbehind]
    exact ⟨hm.program, hm.status, rfl, rfl, hm.value⟩
  · have hquiet := Machine.rounds_onward hm.program htest (Loop.onward_test hloop.proper depth)
      hm.pc (by rw [hgate]; exact hm.status) hhere (Nat.le_of_succ_le (Nat.le_of_lt hexit))
      (.inr (Nat.le_refl _))
    have hround := hquiet.trans (Machine.rounds_gate (by rw [hgate]; rfl)
      ⟨Nat.le_trans hhere (Nat.le_add_right _ _), Nat.lt_of_succ_lt hexit⟩)
    rw [← Machine.after_add, hbehind] at hround
    cases hgoes : kind.goesOn v with
    | true =>
      rwa [hgoes, if_pos rfl, if_pos ⟨rfl, hm.status⟩] at hround
    | false =>
      rwa [hgoes, if_neg Bool.false_ne_true, if_neg fun hgate => Nat.ne_of_gt hexit hgate.1]
        at hround

omit hp in
theorem body_within (hgoto : ∀ span name, .goto span name ∉ flatBlock body)
    (hm : m.Rests p (kind.inside depth here) P) {n : Nat}
    (hfirst : ∀ k < n, (m.after d k s).1.pc ≠ kind.inside depth here + blockSize body)
    (hrun : (m.after d n s).1.status = .running) {k : Nat} (hk : k < n) :
    kind.inside depth here ≤ (m.after d k s).1.pc ∧
      (m.after d k s).1.pc < kind.inside depth here + blockSize body := by
  obtain ⟨hge, hle⟩ := (hloop.inner.encloses hgoto).after hm.program
    ⟨Nat.le_of_eq hm.pc.symm, hm.pc ▸ Nat.le_add_right _ _⟩
    (Machine.running_of_le (Nat.le_of_lt hk) hrun) fun l hl => hfirst l (Nat.lt_trans hl hk)
  exact ⟨hge, Nat.lt_of_le_of_ne hle (hfirst k hk)⟩

theorem loop_passed (hgoto : ∀ span name, .goto span name ∉ flatBlock body)
    (hm : m.Rests p (kind.inside depth here) P)
    (hends : ∃ n, (∀ k < n, (m.after d k s).1.pc ≠ kind.inside depth here + blockSize body) ∧
      (m.after d n s).1.pc = kind.inside depth here + blockSize body ∧
      (m.after d n s).1.status = .running ∧ Q (m.after d n s).1.memory) :
    ∃ n, (m.after d n s).1.Rests p (kind.inside depth here + blockSize body) Q ∧
      m.Rounds d here (kind.gate depth here) (kind.exit depth here (blockSize body)) s n [] := by
  have hsteady := hm.steady (hloop.still_inside hp)
  obtain ⟨n, hfirst, hpc, hrun, hvalue⟩ := hends
  refine ⟨n, ⟨?_, hrun, hpc, ?_, hvalue⟩, Machine.rounds_of_ne fun k hk => ?_⟩
  · exact (Machine.program_after d n m s).trans hm.program
  · exact (hsteady.after hp d n).stack_eq hrun (hpc.symm ▸ hloop.still_ending hp)
  · have hinside := body_within hloop hgoto hm hfirst hrun hk
    simp only [Loop.exit, Loop.inside, Loop.gate, Loop.top] at *
    omega

theorem loop_returns (hm : m.Rests p (kind.inside depth here + blockSize body) P)
    (hstore : ∃ store, kind.next depth m.store = .done (.ok (), store) ∧ Q store.memory) :
    ∃ n, (m.after d n s).1.Rests p (kind.top depth here) Q ∧
      m.Rounds d here (kind.gate depth here) (kind.exit depth here (blockSize body)) s n [] := by
  obtain ⟨hnext, hback⟩ := Program.HasCode.append.1 hloop.next
  obtain ⟨store, hstore, hvalue⟩ := hstore
  have hsteady := hm.steady (hloop.still_ending hp)
  have hat := hsteady.after_computes (d := d) (s := s) hp hm.status
    (kind.computes_next hloop.proper depth) (hm.pc.symm ▸ hnext) hm.stack hstore
  rw [hm.pc] at hat
  have htarget := hm.program ▸ (hp.targets _ _ _ hback.head).le_size
  have htop : (m.after d ((kind.nextCode depth).length + 1) s).1 =
      m.moved store [] (kind.top depth here) := by
    rw [Machine.after_add, hat]
    exact Machine.after_of_turns
      (Machine.turns_jump hm.status htarget (hm.program ▸ hback.head))
  refine ⟨(kind.nextCode depth).length + 1, ?_, Machine.rounds_of_ne fun k hk => ?_⟩
  · rw [htop]
    exact ⟨hm.program, hm.status, rfl, rfl, hvalue⟩
  · have hle := Nat.le_of_lt_succ hk
    rw [Machine.pc_onward hm.program hnext (Loop.onward_next hloop.proper depth) hm.pc hle
      (Machine.running_of_le hle (by rw [hat]; exact hm.status))]
    simp only [Loop.exit, Loop.inside, Loop.gate, Loop.top]
    omega

end

/-! ## Pass after pass -/

/-- A loop counts its passes in a word, one for each. `H` is what is known of the run from a test on,
and it stays known. -/
theorem rounds_of_round {p : Program} {here top gate exit : Nat} {σ : Type} {d : Device σ}
    {H : Machine → σ → Prop} {P : UInt16 → Memory → Prop} {G : UInt16 → Prop}
    (hafter : ∀ {m s n qs}, H m s → m.Rounds d here gate exit s n qs →
      H (m.after d n s).1 (m.after d n s).2)
    (hround : ∀ {m s v}, H m s → m.Rests p top (P v) → G v → ∃ n q, 0 < n ∧ P v q.1.memory ∧
      (m.after d n s).1.Rests p top (P (v + 1)) ∧ m.Rounds d here gate exit s n [q])
    {m : Machine} {s : σ} (hH : H m s) {first : Nat} (hm : m.Rests p top (P (.ofNat first)))
    (i : Nat) (hgo : ∀ j < i, G (.ofNat (first + j))) :
    ∃ n qs, i ≤ n ∧
      List.Forall₂ (fun j (q : Machine × σ) => P (.ofNat (first + j)) q.1.memory) (List.range i) qs ∧
      (m.after d n s).1.Rests p top (P (.ofNat (first + i))) ∧
      m.Rounds d here gate exit s n qs := by
  induction i with
  | zero =>
    exact ⟨0, [], Nat.le_refl 0, .nil, hm, Machine.rounds_of_ne fun k hk => absurd hk k.not_lt_zero⟩
  | succ i ih =>
    obtain ⟨n, qs, hn, hvalues, htop, hrounds⟩ := ih fun j hj => hgo j (Nat.lt_succ_of_lt hj)
    obtain ⟨k, q, hk, hvalue, htop', hround'⟩ :=
      hround (hafter hH hrounds) htop (hgo i (Nat.lt_succ_self i))
    rw [← Machine.after_add] at htop'
    refine ⟨n + k, qs ++ [q], by omega, ?_, ?_, hrounds.trans hround'⟩
    · rw [List.range_succ]
      exact List.rel_append hvalues (.cons hvalue .nil)
    · rw [← Nat.add_assoc, UInt16.ofNat_add]
      exact htop'

end Handheld
