import Handheld.Proofs.Run.Steps

/-!
# Parts of a run

However the instructions of a run are parted, they are the same. What `execute`
gives is what so many single steps come to, and `run` gives what one long
`execute` does, up to the moment when it sees the cancel flag.
-/

namespace Handheld.Machine

variable {σ : Type} {d : Device σ} {m : Machine} {s : σ}

/-! ## Single steps -/

/-- The event of the step that comes after `n` others. -/
def eventAt (d : Device σ) (n : Nat) (m : Machine) (s : σ) : Event :=
  ((m.after d n s).1.step.perform d (m.after d n s).2).1

/-- The step after `k` others is the first that does not just go on, and comes to `r`. -/
structure ComesTo (d : Device σ) (k : Nat) (m : Machine) (s : σ) (r : Event × Machine × σ) :
    Prop where
  before : ∀ j < k, m.eventAt d j s = .running
  event : r.1 ≠ .running
  step : (m.after d k s).1.step.perform d (m.after d k s).2 = r

/-- An instruction is carried out, and there may be more of them. -/
structure Proceeds (d : Device σ) (m : Machine) (s : σ) : Prop where
  running : m.status = .running
  instruction : ∃ i, m.program.code[m.pc]? = some i
  event : (m.step.perform d s).1 = .running

theorem status_step (hrun : m.status = .running) (d : Device σ) (s : σ) :
    (m.step.perform d s).2.1.status = (m.step.perform d s).1.status :=
  ((moves_step hrun).perform d s).status

theorem proceeds_of_event (h : (m.step.perform d s).1 = .running) : m.Proceeds d s := by
  have hrun : m.status = .running := by
    by_cases hrun : m.status = .running
    · exact hrun
    · rw [step_of_over hrun] at h
      cases h
  refine ⟨hrun, ?_, h⟩
  cases hi : m.program.code[m.pc]? with
  | some i => exact ⟨i, rfl⟩
  | none =>
    rw [step_behind hrun hi] at h
    cases h

theorem Proceeds.status (h : m.Proceeds d s) : (m.step.perform d s).2.1.status = .running := by
  rw [status_step h.running, h.event]
  rfl

/-! ## Execute -/

theorem execute_of_over (h : m.status ≠ .running) (d : Device σ) (n : Nat) (s : σ) :
    m.execute d n s = (.stopped, m, s) := by
  cases n with
  | zero => rw [execute, if_neg h]
  | succ n =>
    rw [execute, step_of_over h]
    rfl

theorem execute_succ (d : Device σ) (n : Nat) (m : Machine) (s : σ) :
    m.execute d (n + 1) s =
      if (m.step.perform d s).1 = .running then
        (m.step.perform d s).2.1.execute d n (m.step.perform d s).2.2
      else m.step.perform d s := by
  rw [execute]
  obtain ⟨e, m', s'⟩ := m.step.perform d s
  cases e <;> rfl

theorem execute_add (d : Device σ) (a b : Nat) (m : Machine) (s : σ) :
    let r := m.execute d a s
    m.execute d (a + b) s = if r.1 = .running then r.2.1.execute d b r.2.2 else r := by
  dsimp only
  induction a generalizing m s with
  | zero =>
    rw [Nat.zero_add]
    by_cases hrun : m.status = .running
    · rw [execute.eq_1 d m s, if_pos hrun, if_pos rfl]
    · rw [execute_of_over hrun, execute_of_over hrun]
      exact (if_neg nofun).symm
  | succ a ih =>
    rw [Nat.succ_add, execute_succ, execute_succ]
    split
    · exact ih _ _
    · rfl

theorem execute_of_proceeds {n : Nat} (hrun : m.status = .running)
    (h : ∀ k < n, m.eventAt d k s = .running) : m.execute d n s = (.running, m.after d n s) := by
  induction n generalizing m s with
  | zero => rw [execute, if_pos hrun]; rfl
  | succ n ih =>
    have hfirst : (m.step.perform d s).1 = .running := h 0 (Nat.succ_pos n)
    rw [execute_succ, if_pos hfirst]
    exact ih (proceeds_of_event hfirst).status fun k hk => h (k + 1) (Nat.succ_lt_succ hk)

theorem ComesTo.execute {k n : Nat} {r : Event × Machine × σ} (h : m.ComesTo d k s r) (hk : k < n) :
    m.execute d n s = r := by
  induction k generalizing m s n with
  | zero =>
    obtain ⟨n, rfl⟩ := Nat.exists_eq_succ_of_ne_zero (Nat.ne_of_gt hk)
    have hstep : m.step.perform d s = r := h.step
    rw [execute_succ, hstep, if_neg h.event]
  | succ k ih =>
    obtain ⟨n, rfl⟩ := Nat.exists_eq_succ_of_ne_zero (Nat.ne_zero_of_lt hk)
    have hfirst : (m.step.perform d s).1 = .running := h.before 0 (Nat.succ_pos k)
    rw [execute_succ, if_pos hfirst]
    exact ih ⟨fun j hj => h.before (j + 1) (Nat.succ_lt_succ hj), h.event, h.step⟩
      (Nat.lt_of_succ_lt_succ hk)

theorem execute_running {n : Nat} (h : (m.execute d n s).1 = .running) :
    (m.execute d n s).2 = m.after d n s ∧ (m.after d n s).1.status = .running ∧
      ∀ k < n, (m.after d k s).1.Proceeds d (m.after d k s).2 := by
  induction n generalizing m s with
  | zero =>
    rw [execute] at h
    split at h
    · next hrun => exact ⟨rfl, hrun, nofun⟩
    · cases h
  | succ n ih =>
    rw [execute_succ] at h ⊢
    split at h
    · next hfirst =>
      obtain ⟨hafter, hstatus, hall⟩ := ih h
      rw [if_pos hfirst]
      refine ⟨hafter, hstatus, fun k hk => ?_⟩
      cases k with
      | zero => exact proceeds_of_event hfirst
      | succ k => exact hall k (Nat.lt_of_succ_lt_succ hk)
    · next hfirst => exact absurd h hfirst

/-! ## Run -/

/-- What the looks at the flag see, one after the other. The flag stays as it is up to the first. -/
def seen (flag : Bool) : List Bool → List Bool
  | [] => []
  | raised :: raises => (flag || raised) :: raises

theorem run_eq_seen {flag : Bool} {raises : List Bool} (h : seen flag raises ≠ []) (d : Device σ)
    (m : Machine) (s : σ) : m.run d flag raises s = m.run d false (seen flag raises) s := by
  cases raises with
  | nil => exact absurd rfl h
  | cons raised raises => rw [seen, run, run, Bool.false_or]

theorem run_cons (d : Device σ) (raises : List Bool) (m : Machine) (s : σ) :
    let r := m.execute d slice s
    m.run d false (false :: raises) s =
      if r.1 = .running then r.2.1.run d false raises r.2.2 else (r, false) := by
  rw [run]
  obtain ⟨e, m', s'⟩ := m.execute d slice s
  cases e <;> rfl

theorem run_append (d : Device σ) (n : Nat) (raises : List Bool) (m : Machine) (s : σ)
    (h : m.status = .running ∨ 0 < n) :
    m.run d false (.replicate n false ++ raises) s =
      if (m.execute d (slice * n) s).1 = .running then
        (m.execute d (slice * n) s).2.1.run d false raises (m.execute d (slice * n) s).2.2
      else (m.execute d (slice * n) s, false) := by
  induction n generalizing m s with
  | zero =>
    have hrun : m.status = .running := h.resolve_right (Nat.lt_irrefl 0)
    rw [Nat.mul_zero, execute, if_pos hrun, if_pos rfl]
    rfl
  | succ n ih =>
    rw [List.replicate_succ, List.cons_append, run_cons, Nat.mul_succ, Nat.add_comm, execute_add]
    split
    · next hfirst =>
      obtain ⟨hafter, hstatus, -⟩ := execute_running hfirst
      exact ih _ _ (.inl (hafter ▸ hstatus))
    · rfl

variable {flag : Bool} {raises later : List Bool} {n : Nat}

theorem ComesTo.run {k : Nat} {r : Event × Machine × σ} (h : m.ComesTo d k s r)
    (hseen : seen flag raises = .replicate n false ++ later) (hk : k < slice * n) :
    m.run d flag raises s = (r, false) := by
  have hn : 0 < n := Nat.pos_of_mul_pos_left (Nat.zero_lt_of_lt hk)
  have hlooks : seen flag raises ≠ [] := by
    rw [hseen]
    exact List.append_ne_nil_of_left_ne_nil (by simp [Nat.ne_of_gt hn]) later
  rw [run_eq_seen hlooks, hseen, run_append _ _ _ _ _ (.inr hn), h.execute hk]
  exact if_neg h.event

theorem run_of_proceeds (hseen : seen flag raises = .replicate n false)
    (h : ∀ k < slice * n, m.eventAt d k s = .running) :
    (m.run d flag raises s).1 = (.running, m.after d (slice * n) s) := by
  cases n with
  | zero =>
    cases raises with
    | nil => rfl
    | cons raised raises => cases hseen
  | succ n =>
    have hpos : 0 < slice * (n + 1) := Nat.mul_pos (by decide) (Nat.succ_pos n)
    have hrun : m.status = .running := (proceeds_of_event (h 0 hpos)).running
    have hexec := execute_of_proceeds hrun h
    have happend := run_append d (n + 1) [] m s (.inl hrun)
    rw [run_eq_seen (by simp [hseen]), hseen, ← List.append_nil (.replicate ..), happend]
    cases hafter : m.after d (slice * (n + 1)) s with
    | mk m' s' =>
      rw [hexec, hafter]
      rfl

theorem run_of_seen (hseen : seen flag raises = .replicate n false ++ true :: later)
    (h : (m.execute d (slice * n) s).1 = .running) :
    m.run d flag raises s =
      ((.interrupted, { (m.after d (slice * n) s).1 with status := .halted },
        (m.after d (slice * n) s).2), false) := by
  obtain ⟨hafter, hrun, -⟩ := execute_running h
  have hstart : m.status = .running ∨ 0 < n := by
    cases n with
    | zero => exact .inl hrun
    | succ n => exact .inr (Nat.succ_pos n)
  rw [run_eq_seen (by simp [hseen]), hseen, run_append _ _ _ _ _ hstart, if_pos h, hafter, run]
  exact if_pos ⟨rfl, hrun⟩

theorem run_of_over (h : m.status ≠ .running) (d : Device σ) (flag raised : Bool)
    (raises : List Bool) (s : σ) :
    m.run d flag (raised :: raises) s = ((.stopped, m, s), false) := by
  rw [Machine.run, if_neg fun hseen => h hseen.2, execute_of_over h]

end Handheld.Machine
