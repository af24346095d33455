import Handheld.Proofs.Code.Depth
import Handheld.Proofs.Meaning.Placement
import Mathlib

/-!
# Compiled programs do what their trees mean

A machine and a tree on its way match if the address of the machine stands for
what is left to do in the tree. From there the machine follows each turn of the
tree with some steps, and only finitely many turns need no step at all.
-/

namespace Handheld

/-! ## Control -/

/-- Is a branch taken that finds this value? -/
def Branch.taken (v : Int64) : Branch → Bool
  | .ifTrue => v ≠ 0
  | .ifFalse => v = 0
  | .always => true

namespace Machine

variable {m : Machine} {store : Store} {x target : Nat}

theorem turns_jump (hrun : m.status = .running) (htarget : target ≤ m.program.size)
    (hcode : m.program.code[x]? = some (.branch .always target)) :
    (m.moved store [] x).turns 1 = .done (m.moved store [] target) := by
  rw [turns_one, turn_eq_exec (m := m.moved store [] x) hrun hcode, exec, jump]
  have hle : target ≤ (m.moved store [] x).program.size := htarget
  rw [if_pos hle]
  rfl

theorem turns_branch {kind : Branch} {v : Int64} (hrun : m.status = .running)
    (htarget : target ≤ m.program.size) (hkind : kind ≠ .always)
    (hcode : m.program.code[x]? = some (.branch kind target)) :
    (m.moved store [v] x).turns 1 =
      .done (m.moved store [] (if kind.taken v then target else x + 1)) := by
  have hjump : ((m.moved store [] x).jump target).script = .done (m.moved store [] target) := by
    have hle : target ≤ (m.moved store [] x).program.size := htarget
    rw [jump, if_pos hle]
    rfl
  rw [turns_one, turn_eq_exec (m := m.moved store [v] x) hrun hcode]
  cases kind with
  | always => exact absurd rfl hkind
  | ifTrue =>
    change Action.script (if v = 0 then (m.moved store [] x).next else
      (m.moved store [] x).jump target) = _
    by_cases hv : v = 0
    · rw [if_pos hv]
      simp [Branch.taken, hv]
      rfl
    · rw [if_neg hv, hjump]
      simp [Branch.taken, hv]
  | ifFalse =>
    change Action.script (if v = 0 then (m.moved store [] x).jump target else
      (m.moved store [] x).next) = _
    by_cases hv : v = 0
    · rw [if_pos hv, hjump]
      simp [Branch.taken, hv]
    · rw [if_neg hv]
      simp [Branch.taken, hv]
      rfl

end Machine

/-! ## Computations from address to address -/

/-- How a machine comes out of a computation: at an address with the result, or at an end. -/
inductive Arrives {α : Type} (m : Machine) (y : Nat) (after : α → List Int64) :
    Except Status α × Store → Machine → Prop
  | going (a : α) (store : Store) : Arrives m y after (.ok a, store) (m.moved store (after a) y)
  | over {status : Status} {store : Store} {m' : Machine} (hprogram : m'.program = m.program)
      (hstore : m'.store = store) (hstatus : m'.status = status) (hover : status ≠ .running) :
      Arrives m y after (.error status, store) m'

/-- From the address `x` the program gets to `y` in `n` steps and does the computation. -/
def Runs {α : Type} (p : Program) (x : Nat) (before : List Int64) (e : Eval α)
    (after : α → List Int64) (y n : Nat) : Prop :=
  ∀ (m : Machine) (store : Store), m.program = p → m.status = .running →
    Script.Mirrors Event.unplaced (Arrives m y after) (e store) ((m.moved store before x).turns n)

section

variable {p : Program} {x y z n k : Nat} {α β : Type}

theorem Runs.bind {before : List Int64} {e : Eval α} {f : α → Eval β} {mid : α → List Int64}
    {after : β → List Int64} (h : Runs p x before e mid y n)
    (h' : ∀ a, Runs p y (mid a) (f a) after z k) :
    Runs p x before (e >>= f) after z (n + k) := by
  intro m store hprogram hrun
  rw [Machine.turns_add]
  refine (h m store hprogram hrun).bind ?_
  rintro _ m' (⟨a, store'⟩ | ⟨hprogram', hstore, hstatus, hover⟩)
  · exact h' a m store' hprogram hrun
  · rw [Machine.turns_of_over (hstatus ▸ hover)]
    exact .done (.over hprogram' hstore hstatus hover)

theorem Computes.runs {is : List Instr} {e : Eval α} {after : α → List Int64}
    (h : Computes is [] e after) (hp : p.Calm) (hcode : p.HasCode x is) :
    Runs p x [] e after (x + is.length) is.length := by
  intro m store hprogram hrun
  have hroom : is.length ≤ stackLimit := Nat.le_trans hcode.length_le hp.room
  have hmirrors := h (m.moved store [] x) [] hrun (hprogram ▸ hcode) rfl
    (hasRoom_of_length (Nat.le_trans (Nat.le_of_eq (Nat.zero_add _)) hroom))
  refine hmirrors.mono ?_
  rintro _ m' (⟨a, store', -⟩ | ⟨hprogram', hstore, hstatus, hover⟩)
  · rw [List.append_nil]
    exact .going a store'
  · exact .over hprogram' hstore hstatus hover

theorem Program.Leads.turns (hp : p.Calm) (h : p.Leads x y) :
    ∃ n, ∀ (m : Machine) (store : Store), m.program = p → m.status = .running →
      (m.moved store [] x).turns n = .done (m.moved store [] y) := by
  induction h with
  | here x => exact ⟨0, fun m store _ _ => rfl⟩
  | jump hcode _ ih =>
    obtain ⟨n, hn⟩ := ih
    refine ⟨1 + n, fun m store hprogram hrun => ?_⟩
    rw [Machine.turns_add, Machine.turns_jump hrun (hprogram ▸ (hp.targets _ _ _ hcode).le_size)
      (hprogram ▸ hcode)]
    exact hn m store hprogram hrun

theorem Program.Leads.runs (hp : p.Calm) (h : p.Leads x y) :
    ∃ n, Runs p x [] (pure ()) (fun _ => []) y n := by
  obtain ⟨n, hn⟩ := h.turns hp
  refine ⟨n, fun m store hprogram hrun => ?_⟩
  rw [hn m store hprogram hrun]
  exact .done (.going () store)

end

/-! ## Matching -/

/-- The machine runs the program, and its address stands for what is left to do in the tree. -/
structure Matches (p : Program) (c : Config) (m : Machine) : Prop where
  program : m.program = p
  store : m.store = c.store
  status : m.status = c.status
  rest : c.status = .running → m.stack = .ofList [] ∧ p.Resumes m.pc c.todo c.frames

def framesWeight : List Frame → Nat
  | [] => 0
  | .rest ss :: fs => ss.length + 1 + framesWeight fs
  | .again .. :: fs => framesWeight fs

/-- How many turns there can be without a step of the machine. -/
def Config.weight (c : Config) : Nat := c.todo.length + framesWeight c.frames

/-- A turn that takes `n` steps of the machine. If it takes none, there is less to do, or nothing. -/
structure Followed (p : Program) (c : Config) (n : Nat) (c' : Config) (m' : Machine) : Prop where
  isMatch : Matches p c' m'
  progress : 0 < n ∨ c'.weight < c.weight ∨ c'.status ≠ .running

section

variable {p : Program} {c : Config} {m : Machine} {x y n k : Nat} {α : Type}

theorem matches_moved {store : Store} {todo : List Stmt} {fs : List Frame}
    (hprogram : m.program = p) (hrun : m.status = .running) (h : p.Resumes x todo fs) :
    Matches p ⟨todo, fs, store, .running⟩ (m.moved store [] x) where
  program := hprogram
  store := rfl
  status := hrun
  rest := fun _ => ⟨rfl, h⟩

theorem Runs.doing {e : Eval α} {after : α → List Int64} {next : α → List Stmt × List Frame}
    (h : Runs p x [] e after y n) (hprogram : m.program = p) (hrun : m.status = .running)
    (hnext : ∀ a store, ∃ m', (m.moved store (after a) y).turns k = .done m' ∧
      Matches p ⟨(next a).1, (next a).2, store, .running⟩ m')
    (hprogress : 0 < n + k ∨ ∀ a store,
      Config.weight ⟨(next a).1, (next a).2, store, .running⟩ < c.weight) :
    Script.Mirrors Event.unplaced (Followed p c (n + k)) (c.doing e next)
      ((m.moved c.store [] x).turns (n + k)) := by
  rw [Machine.turns_add]
  refine (h m c.store hprogram hrun).bind ?_
  rintro _ m' (⟨a, store⟩ | ⟨hprogram', hstore, hstatus, hover⟩)
  · obtain ⟨m', hturns, hmatch⟩ := hnext a store
    rw [hturns]
    exact .done ⟨hmatch, hprogress.imp id fun hless => .inl (hless a store)⟩
  · rw [Machine.turns_of_over (hstatus ▸ hover)]
    refine .done ⟨⟨hprogram'.trans hprogram, hstore, hstatus, fun hgoes => ?_⟩, .inr (.inr hover)⟩
    exact absurd hgoes hover

theorem Runs.doing_branch {e : Eval Int64} {next : Int64 → List Stmt × List Frame} {kind : Branch}
    {target : Nat} (hp : p.Calm) (h : Runs p x [] e (fun v => [v]) y n) (hprogram : m.program = p)
    (hrun : m.status = .running) (hkind : kind ≠ .always)
    (hcode : p.code[y]? = some (.branch kind target))
    (hnext : ∀ v, p.Resumes (if kind.taken v then target else y + 1) (next v).1 (next v).2) :
    Script.Mirrors Event.unplaced (Followed p c (n + 1)) (c.doing e next)
      ((m.moved c.store [] x).turns (n + 1)) := by
  refine h.doing hprogram hrun (fun v store => ?_) (.inl (Nat.succ_pos n))
  subst hprogram
  have htarget := (hp.targets _ _ _ hcode).le_size
  exact ⟨_, Machine.turns_branch hrun htarget hkind hcode, matches_moved rfl hrun (hnext v)⟩

end

/-! ## One turn -/

theorem Loop.taken_leaving (kind : Loop) (v : Int64) : kind.leaving.taken v = !kind.goesOn v := by
  cases kind <;> simp [Loop.leaving, Loop.goesOn, Branch.taken]

theorem Program.Behind.resumes {p : Program} {x : Nat} {fs : List Frame} (h : p.Behind x fs) :
    p.Resumes x [] fs := by
  refine ⟨⟨fun k i hi => ?_, by simp [flatBlock]⟩, h⟩
  cases hi

theorem resumes_test {p : Program} {kind : Loop} {body ss : List Stmt} {fs fs' : List Frame}
    {inside exit : Nat} (hinside : p.Resumes inside body fs) (hexit : p.Resumes exit ss fs')
    (v : Int64) :
    p.Resumes (if kind.leaving.taken v then exit else inside)
      (if kind.goesOn v then (body, fs) else (ss, fs')).1
      (if kind.goesOn v then (body, fs) else (ss, fs')).2 := by
  rw [kind.taken_leaving]
  cases kind.goesOn v
  · exact hexit
  · exact hinside

section

variable {p : Program} (hp : p.Calm) {program : List Stmt} {m : Machine} (hprogram : m.program = p)
  (hrun : m.status = .running) {ss : List Stmt} {fs : List Frame} (store : Store)
include hp hprogram hrun

theorem followed_stop (h : p.Behind m.pc []) :
    ∃ n, Script.Mirrors Event.unplaced (Followed p ⟨[], [], store, .running⟩ n)
      (Config.turn program ⟨[], [], store, .running⟩) ((m.moved store [] m.pc).turns n) := by
  cases h with
  | stop hleads =>
    obtain ⟨n, hn⟩ := hleads.turns hp
    refine ⟨n + 1, ?_⟩
    have hnone : (m.moved store [] p.size).program.code[p.size]? = none := by
      change m.program.code[p.size]? = none
      rw [hprogram]
      exact Array.getElem?_eq_none (Nat.le_refl _)
    have hstop : (m.moved store [] p.size).turn =
        .tell .stopped (.done { m.moved store [] p.size with status := .halted }) := by
      have hrun' : (m.moved store [] p.size).status = .running := hrun
      rw [Machine.turn, if_pos hrun', Machine.step_behind hrun' hnone]
      rfl
    rw [Machine.turns_add, hn m store hprogram hrun, Script.done_bind, Machine.turns_one, hstop]
    refine .tell (e := .stopped) (.done ⟨⟨hprogram, rfl, rfl, fun hgoes => ?_⟩, .inl (Nat.succ_pos n)⟩)
    cases hgoes

theorem followed_rest (h : p.Behind m.pc (.rest ss :: fs)) :
    ∃ n, Script.Mirrors Event.unplaced (Followed p ⟨[], .rest ss :: fs, store, .running⟩ n)
      (Config.turn program ⟨[], .rest ss :: fs, store, .running⟩)
      ((m.moved store [] m.pc).turns n) := by
  cases h with
  | rest hleads hblock hbehind =>
    obtain ⟨n, hn⟩ := hleads.turns hp
    refine ⟨n, ?_⟩
    rw [hn m store hprogram hrun]
    refine .done ⟨matches_moved hprogram hrun ⟨hblock, hbehind⟩, .inr (.inl ?_)⟩
    simp [Config.weight, framesWeight]

theorem followed_again {kind : Loop} {body : List Stmt} (h : p.Behind m.pc (.again kind body :: fs)) :
    ∃ n, Script.Mirrors Event.unplaced
      (Followed p ⟨[], .again kind body :: fs, store, .running⟩ n)
      (Config.turn program ⟨[], .again kind body :: fs, store, .running⟩)
      ((m.moved store [] m.pc).turns n) := by
  cases h with
  | @again _ here _ _ _ hleads hloop hbehind =>
    obtain ⟨hnext, hback⟩ := Program.HasCode.append.1 hloop.next
    obtain ⟨htest, hbranch⟩ := Program.HasCode.append.1 hloop.test
    obtain ⟨n, hn⟩ := hleads.runs hp
    obtain ⟨k, hk⟩ := (Program.Leads.jump hback.head (.here _)).runs hp
    -- to the end of the body, through the code there, back to the test and through it
    have hruns := hn.bind fun _ => ((kind.computes_next hloop.proper _).runs hp hnext).bind fun _ =>
      hk.bind fun _ => (kind.computes_test hloop.proper _).runs hp htest
    refine ⟨_, hruns.doing_branch (c := ⟨[], .again kind body :: fs, store, .running⟩) hp hprogram
      hrun kind.leaving_ne hbranch.head fun v => ?_⟩
    exact resumes_test (hloop.resumes hbehind) hbehind.resumes v

theorem followed_straight {s : Stmt} {is : List Instr} (his : s.straight? = some is)
    (h : p.Resumes m.pc (s :: ss) fs) :
    ∃ n, Script.Mirrors Event.unplaced (Followed p ⟨s :: ss, fs, store, .running⟩ n)
      (Config.turn program ⟨s :: ss, fs, store, .running⟩) ((m.moved store [] m.pc).turns n) := by
  obtain ⟨hs, hss⟩ := h.cons
  have hproper := (hs.fits s s.mem_flat).proper
  have hruns := (Stmt.computes_straight his hproper).runs hp (hs.straight his)
  have hsize : is.length = s.size := Stmt.length_of_straight his
  have hturn : Config.turn program ⟨s :: ss, fs, store, .running⟩ =
      Config.doing ⟨s :: ss, fs, store, .running⟩ s.act fun _ => (ss, fs) := by
    cases s with
    | cond | loop | label | goto => cases his
    | _ => rfl
  rw [hturn]
  refine ⟨_, hruns.doing (k := 0) hprogram hrun (fun _ store' => ⟨_, rfl, ?_⟩) (.inr ?_)⟩
  · exact matches_moved hprogram hrun (hsize ▸ hss)
  · intro _ store'
    simp [Config.weight]

theorem followed_cond {span : Span} {condition : Expr} {yes no : List Stmt}
    (h : p.Resumes m.pc (.cond span condition yes no :: ss) fs) :
    ∃ n, Script.Mirrors Event.unplaced
      (Followed p ⟨.cond span condition yes no :: ss, fs, store, .running⟩ n)
      (Config.turn program ⟨.cond span condition yes no :: ss, fs, store, .running⟩)
      ((m.moved store [] m.pc).turns n) := by
  obtain ⟨hs, hss⟩ := h.cons
  obtain ⟨hcode, hyes, hno⟩ := hs.cond hss
  obtain ⟨htest, hbranch⟩ := Program.HasCode.append.1 hcode
  have hproper : condition.Proper := (hs.fits _ (Stmt.mem_flat _)).proper
  have hruns := (Expr.computes_code hproper).runs hp htest
  refine ⟨_, hruns.doing_branch (c := ⟨.cond span condition yes no :: ss, fs, store, .running⟩) hp
    hprogram hrun Branch.ifFalse_ne hbranch.head fun v => ?_⟩
  by_cases hv : v = 0
  · simp only [Branch.taken, hv]
    exact hno
  · simp only [Branch.taken, hv]
    exact hyes

theorem followed_loop {span : Span} {kind : Loop} {body : List Stmt}
    (h : p.Resumes m.pc (.loop span kind body :: ss) fs) :
    ∃ n, Script.Mirrors Event.unplaced
      (Followed p ⟨.loop span kind body :: ss, fs, store, .running⟩ n)
      (Config.turn program ⟨.loop span kind body :: ss, fs, store, .running⟩)
      ((m.moved store [] m.pc).turns n) := by
  obtain ⟨hs, hss⟩ := h.cons
  obtain ⟨hstart, hloop⟩ := hs.loop
  obtain ⟨htest, hbranch⟩ := Program.HasCode.append.1 hloop.test
  have hruns := ((kind.computes_start hloop.proper _).runs hp hstart).bind fun _ =>
    (kind.computes_test hloop.proper _).runs hp htest
  refine ⟨_, hruns.doing_branch (c := ⟨.loop span kind body :: ss, fs, store, .running⟩) hp hprogram
    hrun kind.leaving_ne hbranch.head fun v => ?_⟩
  refine resumes_test (hs.inside hss) ?_ v
  rw [kind.exit_eq]
  exact hss

omit hp in
theorem followed_label {span : Span} {name : String} (h : p.Resumes m.pc (.label span name :: ss) fs) :
    ∃ n, Script.Mirrors Event.unplaced
      (Followed p ⟨.label span name :: ss, fs, store, .running⟩ n)
      (Config.turn program ⟨.label span name :: ss, fs, store, .running⟩)
      ((m.moved store [] m.pc).turns n) := by
  obtain ⟨-, hss⟩ := h.cons
  refine ⟨0, .done ⟨matches_moved hprogram hrun hss, .inr (.inl ?_)⟩⟩
  simp [Config.weight]

theorem followed_goto {span : Span} {name : String}
    (hs : ∀ s ∈ flatBlock program, s.Proper) (htree : Program.ofTree program = .ok p)
    (h : p.Resumes m.pc (.goto span name :: ss) fs) :
    ∃ n, Script.Mirrors Event.unplaced
      (Followed p ⟨.goto span name :: ss, fs, store, .running⟩ n)
      (Config.turn program ⟨.goto span name :: ss, fs, store, .running⟩)
      ((m.moved store [] m.pc).turns n) := by
  obtain ⟨hgoto, -⟩ := h.cons
  have hname := (hgoto.fits _ (Stmt.mem_flat _)).defined span name rfl
  obtain ⟨todo, fs', hfound, hresumes⟩ := Program.resumes_label hs htree hname
  have hcode : p.code[m.pc]? = some (.branch .always (p.address name)) := hgoto.code.head
  have hturn : Config.turn program ⟨.goto span name :: ss, fs, store, .running⟩ =
      .done ⟨todo, fs', store, .running⟩ := by
    simp only [Config.turn, hfound, if_true]
  have htarget := (hp.targets _ _ _ hcode).le_size
  subst hprogram
  refine ⟨1, ?_⟩
  rw [hturn, Machine.turns_jump hrun htarget hcode]
  exact .done ⟨matches_moved rfl hrun hresumes, .inl Nat.one_pos⟩

end

/-- The machine follows one turn of the tree. -/
theorem Matches.turn {p : Program} {program : List Stmt} {c : Config} {m : Machine} (hp : p.Calm)
    (hs : ∀ s ∈ flatBlock program, s.Proper) (htree : Program.ofTree program = .ok p)
    (h : Matches p c m) (hrun : c.status = .running) :
    ∃ n, Script.Mirrors Event.unplaced (Followed p c n) (c.turn program) (m.turns n) := by
  obtain ⟨todo, frames, store, status⟩ := c
  obtain ⟨hprogram, hstore, hstatus, hrest⟩ := h
  cases hrun
  obtain ⟨hstack, hresumes⟩ := hrest rfl
  have hmoved : m.moved store [] m.pc = m := by
    cases hstore
    exact Machine.moved_eq hstack
  rw [← hmoved]
  cases todo with
  | nil =>
    cases frames with
    | nil => exact followed_stop hp hprogram hstatus store hresumes.behind
    | cons f fs =>
      cases f with
      | rest ss => exact followed_rest hp hprogram hstatus store hresumes.behind
      | again kind body => exact followed_again hp hprogram hstatus store hresumes.behind
  | cons s ss =>
    cases his : s.straight? with
    | some is => exact followed_straight hp hprogram hstatus store his hresumes
    | none =>
      cases s with
      | cond => exact followed_cond hp hprogram hstatus store hresumes
      | loop => exact followed_loop hp hprogram hstatus store hresumes
      | label => exact followed_label hprogram hstatus store hresumes
      | goto => exact followed_goto hp hprogram hstatus store hs htree hresumes
      | _ => cases his

/-! ## Turn after turn -/

namespace Config

variable {program : List Stmt} {c : Config}

theorem turns_add (k l : Nat) (c : Config) :
    c.turns program (k + l) = (c.turns program k).bind (turns program l) := by
  induction k generalizing c with
  | zero => rw [Nat.zero_add]; rfl
  | succ k ih =>
    rw [Nat.succ_add, turns, turns, Script.bind_assoc]
    congr 1
    funext c'
    exact ih c'

theorem turns_one : c.turns program 1 = c.turn program := Script.bind_done _

theorem turns_of_over (h : c.status ≠ .running) (k : Nat) : c.turns program k = .done c := by
  induction k with
  | zero => rfl
  | succ k ih =>
    rw [turns, turn, if_neg h]
    exact ih

end Config

section

variable {σ : Type} {p : Program} {program : List Stmt} {d : Device σ} {c c' c'' : Config}
  {m : Machine} {s : σ} {n n' k k' : Nat}

/-- `k` turns of the tree come to `c'`, if they are answered as `n` steps of the machine are, and
show the same. Then the two match. -/
structure Joins (p : Program) (program : List Stmt) (d : Device σ) (c : Config) (m : Machine) (s : σ)
    (n k : Nat) (c' : Config) : Prop where
  alike : (c.turns program k).Shows ((m.transcript d n s).map (.mapEvent .unplaced)) c'
  isMatch : Matches p c' (m.after d n s).1

theorem Joins.trans (h : Joins p program d c m s n k c')
    (h' : Joins p program d c' (m.after d n s).1 (m.after d n s).2 n' k' c'') :
    Joins p program d c m s (n + n') (k + k') c'' where
  alike := by
    rw [Config.turns_add, Machine.transcript_add, List.map_append]
    exact h.alike.bind h'.alike
  isMatch := by
    rw [Machine.after_add]
    exact h'.isMatch

theorem Matches.stays (h : Matches p c m) (hover : c.status ≠ .running) :
    Joins p program d c m s n k c where
  alike := by
    rw [Config.turns_of_over hover, Machine.transcript_of_over (h.status ▸ hover)]
    exact .done c
  isMatch := by
    rw [Machine.after_of_over (h.status ▸ hover)]
    exact h

variable (hp : p.Calm) (hs : ∀ s ∈ flatBlock program, s.Proper)
  (htree : Program.ofTree program = .ok p)
include hp hs htree

theorem Matches.joins_turn (h : Matches p c m) (hrun : c.status = .running) :
    ∃ n c', Joins p program d c m s n 1 c' ∧ (0 < n ∨ c'.weight < c.weight ∨ c'.status ≠ .running) := by
  obtain ⟨n, hmirrors⟩ := h.turn hp hs htree hrun
  obtain ⟨c', hshows, hfollowed⟩ := hmirrors.shows (m.turns_shows d n s)
  rw [← Config.turns_one] at hshows
  exact ⟨n, c', ⟨hshows, hfollowed.isMatch⟩, hfollowed.progress⟩

/-- However many turns the tree takes, the machine gets there. -/
theorem Matches.joins_turns (h : Matches p c m) (k : Nat) :
    ∃ n c', Joins p program d c m s n k c' := by
  induction k generalizing c m s with
  | zero => exact ⟨0, c, ⟨.done c, h⟩⟩
  | succ k ih =>
    by_cases hrun : c.status = .running
    · obtain ⟨n, c', hjoins, -⟩ := h.joins_turn hp hs htree (d := d) (s := s) hrun
      obtain ⟨n', c'', hjoins'⟩ := ih (s := (m.after d n s).2) hjoins.isMatch
      rw [Nat.add_comm k 1]
      exact ⟨n + n', c'', hjoins.trans hjoins'⟩
    · exact ⟨0, c, h.stays hrun⟩

theorem Matches.joins_step (h : Matches p c m) :
    ∃ n k c', 0 < n ∧ Joins p program d c m s n k c' := by
  -- a turn without a step of the machine makes what is left of the tree lighter
  induction hw : c.weight using Nat.strongRecOn generalizing c m s with
  | ind w ih =>
    by_cases hrun : c.status = .running
    · obtain ⟨n, c', hjoins, hn | hless | hover⟩ := h.joins_turn hp hs htree (d := d) (s := s) hrun
      · exact ⟨n, 1, c', hn, hjoins⟩
      · obtain ⟨n', k, c'', hn', hjoins'⟩ :=
          ih c'.weight (hw ▸ hless) (s := (m.after d n s).2) hjoins.isMatch rfl
        exact ⟨n + n', 1 + k, c'', Nat.add_pos_right n hn', hjoins.trans hjoins'⟩
      · exact ⟨n + 1, 1 + 0, c', Nat.succ_pos n, hjoins.trans (hjoins.isMatch.stays hover)⟩
    · exact ⟨1, 0, c, Nat.one_pos, h.stays hrun⟩

/-- However many steps the machine takes, the tree gets at least there. -/
theorem Matches.joins_steps (h : Matches p c m) (n : Nat) :
    ∃ n' k c', n ≤ n' ∧ Joins p program d c m s n' k c' := by
  induction n with
  | zero => exact ⟨0, 0, c, Nat.le_refl 0, ⟨.done c, h⟩⟩
  | succ n ih =>
    obtain ⟨n', k, c', hle, hjoins⟩ := ih
    obtain ⟨n'', k', c'', hpos, hjoins'⟩ :=
      hjoins.isMatch.joins_step hp hs htree (d := d) (s := (m.after d n' s).2)
    exact ⟨n' + n'', k + k', c'', by omega, hjoins.trans hjoins'⟩

end

/-! ## Compiled programs -/

/-- After `n` steps on a device the machine is where the tree is after `k` turns with the same
answers. Both have made the same calls and told the same events, and they have the same memory, debug
flag and status. -/
def InStep {σ : Type} (d : Device σ) (s : σ) (m : Machine) (program : List Stmt) (c : Config)
    (n k : Nat) : Prop :=
  ∃ c', (c.turns program k).Shows ((m.transcript d n s).map (.mapEvent .unplaced)) c' ∧
    (m.after d n s).1.memory = c'.store.memory ∧ (m.after d n s).1.debug = c'.store.debug ∧
    (m.after d n s).1.status = c'.status

theorem Joins.inStep {σ : Type} {p : Program} {program : List Stmt} {d : Device σ} {c c' : Config}
    {m : Machine} {s : σ} {n k : Nat} (h : Joins p program d c m s n k c') :
    InStep d s m program c n k :=
  ⟨c', h.alike, congrArg Store.memory h.isMatch.store, congrArg Store.debug h.isMatch.store,
    h.isMatch.status⟩

theorem InStep.of_le {σ : Type} {d : Device σ} {s : σ} {m : Machine} {program : List Stmt}
    {c : Config} {n n' k : Nat} (h : InStep d s m program c n' k) (hle : n ≤ n')
    (hover : (m.after d n s).1.status ≠ .running) : InStep d s m program c n k := by
  obtain ⟨l, rfl⟩ := Nat.exists_eq_add_of_le hle
  obtain ⟨c', hshows, hend⟩ := h
  rw [Machine.transcript_add, Machine.transcript_of_over hover, List.append_nil] at hshows
  rw [Machine.after_add, Machine.after_of_over hover] at hend
  exact ⟨c', hshows, hend⟩

/-- A compiled program does on every device what its tree means. The machine gets to every point that
the tree comes to, and comes to such a point again and again as long as it runs. When it is over, it
is where the tree is over. -/
theorem compiled_follows_tree {source : String} {ts : List Lexeme} {ss : List Stmt} {p : Program}
    (hlex : lexemes source = .ok ts) (hparse : parse ts = .ok ss)
    (htree : Program.ofTree ss = .ok p) {σ : Type} (d : Device σ) (m : Machine) (s : σ) :
    let c := Config.start ss m.memory m.debug
    (∀ k, ∃ n, InStep d s (m.load p) ss c n k) ∧
    (∀ n, ∃ n' k, n ≤ n' ∧ InStep d s (m.load p) ss c n' k) ∧
    ∀ n, ((m.load p).after d n s).1.status ≠ .running →
      ∃ k, InStep d s (m.load p) ss c n k := by
  intro c
  have hs := (written_of_parse hlex hparse).proper
  have hp := Program.calm_of_tree hs htree
  have hmatch : Matches p c (m.load p) := {
    program := rfl
    store := rfl
    status := rfl
    rest := fun _ => ⟨rfl, Program.resumes_start hs htree⟩ }
  have hsteps : ∀ n, ∃ n' k, n ≤ n' ∧ InStep d s (m.load p) ss c n' k := by
    intro n
    obtain ⟨n', k, c', hle, hjoins⟩ := hmatch.joins_steps hp hs htree n
    exact ⟨n', k, hle, hjoins.inStep⟩
  refine ⟨fun k => ?_, hsteps, fun n hover => ?_⟩
  · obtain ⟨n, c', hjoins⟩ := hmatch.joins_turns hp hs htree k
    exact ⟨n, hjoins.inStep⟩
  · obtain ⟨n', k, hle, hstep⟩ := hsteps n
    exact ⟨k, hstep.of_le hle hover⟩

theorem compiled_follows_tree_intoLoop :
    ∃ ts ss p, lexemes "Goto B\nFor(A,1,3)\nDisp A\nLbl B\nEnd" = .ok ts ∧ parse ts = .ok ss ∧
      Program.ofTree ss = .ok p ∧ ∀ (d : Device Unit) (n : Nat), ∃ n' k, n ≤ n' ∧
        InStep d () (Machine.fresh.load p) ss (.start ss .blank false) n' k := by
  have hread : (do
      let ts ← lexemes "Goto B\nFor(A,1,3)\nDisp A\nLbl B\nEnd"
      let ss ← parse ts
      Program.ofTree ss).isOk := by cbv
  obtain ⟨p, hread⟩ := exists_of_isOk hread
  obtain ⟨ts, hlex, hread⟩ := bind_eq_ok.1 hread
  obtain ⟨ss, hparse, htree⟩ := bind_eq_ok.1 hread
  refine ⟨ts, ss, p, hlex, hparse, htree, fun d => ?_⟩
  exact (compiled_follows_tree hlex hparse htree d Machine.fresh ()).2.1

end Handheld
