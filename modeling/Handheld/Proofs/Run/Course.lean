import Handheld.Device.Recorder
import Handheld.Proofs.Run.Steps
import Handheld.Shell.Transcript

/-!
# The course of a run

A chronicle leaves nothing out: every call with its answer, records for the log
as well, and the event of every step. The program alone decides what comes next
in it, as soon as it is known how questions about keys, pixels and random numbers
are answered. So devices that answer these alike see the same run.
-/

namespace Handheld

/-! ## Answers that matter -/

/-- What a question about a key, a pixel or a random number is answered. -/
abbrev Reply := Bool ⊕ UInt16

def Call.reply? : (c : Call) → c.Answer → Option Reply
  | .pixel _ _ _, (lit : Bool) => some (.inl lit)
  | .keyPressed _, (pressed : Bool) => some (.inl pressed)
  | .random, (r : UInt16) => some (.inr r)
  | .display _, _ | .draw _ _, _ | .present _, _ | .pause _, _ | .log _, _ => none

def Observation.reply? : Observation → Option Reply
  | .exchange c answer => c.reply? answer
  | .event _ => none

def replies (os : List Observation) : List Reply :=
  os.filterMap Observation.reply?

@[simp] theorem replies_append (os os' : List Observation) :
    replies (os ++ os') = replies os ++ replies os' :=
  List.filterMap_append

/-- The lists do not differ at any place that both of them have. -/
def Agree {α : Type} (l l' : List α) : Prop :=
  ∀ (i : Nat) (a b : α), l[i]? = some a → l'[i]? = some b → a = b

namespace Agree

variable {α : Type} {l l' : List α}

theorem of_eq (h : l = l') : Agree l l' := by
  subst h
  exact fun _ _ _ ha hb => Option.some.inj (ha.symm.trans hb)

theorem of_cons {a b : α} (h : Agree (a :: l) (b :: l')) : a = b ∧ Agree l l' :=
  ⟨h 0 a b rfl rfl, fun i => h (i + 1)⟩

theorem of_append {k k' : List α} (h : Agree (l ++ k) (l' ++ k')) : Agree l l' := by
  intro i a b ha hb
  obtain ⟨hi, -⟩ := List.getElem?_eq_some_iff.1 ha
  obtain ⟨hi', -⟩ := List.getElem?_eq_some_iff.1 hb
  refine h i a b ?_ ?_
  · rw [List.getElem?_append_left hi, ha]
  · rw [List.getElem?_append_left hi', hb]

end Agree

theorem Call.eq_of_agree {c : Call} {answer answer' : c.Answer} {os os' : List Observation}
    (h : Agree (replies (.exchange c answer :: os)) (replies (.exchange c answer' :: os'))) :
    answer = answer' ∧ Agree (replies os) (replies os') := by
  cases c with
  | pixel | keyPressed =>
    obtain ⟨heq, hrest⟩ := h.of_cons
    exact ⟨Sum.inl.inj heq, hrest⟩
  | random =>
    obtain ⟨heq, hrest⟩ := h.of_cons
    exact ⟨Sum.inr.inj heq, hrest⟩
  | display | draw | present | pause | log => exact ⟨rfl, h⟩

theorem Script.Shows.eq_of_agree {α : Type} {t : Script α} {os os' : List Observation} {a a' : α}
    (h : t.Shows os a) (h' : t.Shows os' a') (hagree : Agree (replies os) (replies os')) :
    os = os' ∧ a = a' := by
  induction h generalizing os' with
  | done a =>
    cases h'
    exact ⟨rfl, rfl⟩
  | call _ ih =>
    cases h' with
    | call h' =>
      obtain ⟨rfl, hrest⟩ := Call.eq_of_agree hagree
      obtain ⟨rfl, ha⟩ := ih h' hrest
      exact ⟨rfl, ha⟩
  | tell _ ih =>
    cases h' with
    | tell h' =>
      obtain ⟨rfl, ha⟩ := ih h' hagree
      exact ⟨rfl, ha⟩

/-! ## Steps with all they do -/

variable {σ : Type}

namespace Action

/-- The action as a script that also writes to the log, with its event at the end. -/
def course : Action → Script Machine
  | .done event m => .tell event (.done m)
  | .call c resume => .call c fun answer => (resume answer).course

/-- The calls of an action with their answers, and its event. -/
def chronicle (d : Device σ) : Action → σ → List Observation
  | .done event _, _ => [.event event]
  | .call c resume, s =>
    .exchange c (d.perform c s).1 :: (resume (d.perform c s).1).chronicle d (d.perform c s).2

theorem course_shows (d : Device σ) (a : Action) (s : σ) :
    a.course.Shows (a.chronicle d s) (a.perform d s).2.1 := by
  induction a generalizing s with
  | done event m => exact .tell (.done m)
  | call c resume ih => exact .call (ih _ _)

end Action

namespace Machine

/-- Step after step as a script, with the event of each. -/
def course : Nat → Machine → Script Machine
  | 0, m => .done m
  | n + 1, m => m.step.course.bind (course n)

/-- All that happens between the machine and the device in `n` steps, and the event of each. -/
def chronicle (d : Device σ) : Nat → Machine → σ → List Observation
  | 0, _, _ => []
  | n + 1, m, s =>
    m.step.chronicle d s ++ chronicle d n (m.step.perform d s).2.1 (m.step.perform d s).2.2

theorem course_shows (d : Device σ) (n : Nat) (m : Machine) (s : σ) :
    (m.course n).Shows (m.chronicle d n s) (m.after d n s).1 := by
  induction n generalizing m s with
  | zero => exact .done m
  | succ n ih => exact (m.step.course_shows d s).bind (ih _ _)

theorem chronicle_add (d : Device σ) (n k : Nat) (m : Machine) (s : σ) :
    m.chronicle d (n + k) s =
      m.chronicle d n s ++ (m.after d n s).1.chronicle d k (m.after d n s).2 := by
  induction n generalizing m s with
  | zero => rw [Nat.zero_add]; rfl
  | succ n ih =>
    rw [Nat.succ_add]
    simp only [chronicle, after, ih, List.append_assoc]

/-! ## Questions about keys that there are not -/

variable {m : Machine} {rest : Stack Int64} {code : Int64}

theorem exec_getKey_of_outside (hstack : m.stack = rest.push code) (hcode : code < 0 ∨ 255 < code) :
    m.exec .getKey = push { m with stack := rest } 0 := by
  have hout : ¬ (0 ≤ code ∧ code ≤ 255) := by
    rintro ⟨hlow, hhigh⟩
    rcases hcode with hneg | hbig
    · exact Int64.not_le.2 hneg hlow
    · exact Int64.not_le.2 hbig hhigh
  rw [exec, withTop, hstack, Stack.pop_push]
  exact if_neg hout

theorem push_eq_done (m : Machine) (v : Int64) :
    (∃ e m', m.push v = .done e m') ∧ (m.stack.size + 1 ≤ stackLimit →
      m.push v = .done .running { m with stack := m.stack.push v, pc := m.pc + 1 }) := by
  unfold push
  dsimp only
  split
  · next hover =>
    have hlt : stackLimit < m.stack.size + 1 := of_decide_eq_true hover
    exact ⟨⟨_, _, rfl⟩, fun hroom => absurd hlt (Nat.not_lt.2 hroom)⟩
  · exact ⟨⟨_, _, rfl⟩, fun _ => rfl⟩

end Machine

/-! ## Two devices -/

/-- A run depends on its device by the answers to questions about keys, pixels and random numbers,
and by nothing else. Where two devices have not differed in them, whatever their states are, they
have got the same calls, and the machines have come back with the same events and are the same. A
question about a key that there is not never gets to a device, and is answered with 0. -/
theorem course_follows_replies :
    (∀ {σ σ' : Type} (d : Device σ) (d' : Device σ') (m : Machine) (s : σ) (s' : σ') (n : Nat),
      Agree (replies (m.chronicle d n s)) (replies (m.chronicle d' n s')) →
      ∀ k ≤ n, m.chronicle d k s = m.chronicle d' k s' ∧
        (m.after d k s).1 = (m.after d' k s').1) ∧
    ∀ {σ : Type} (d : Device σ) (m : Machine) (s : σ) (rest : Stack Int64) (code : Int64),
      m.status = .running → m.program.code[m.pc]? = some .getKey → m.stack = rest.push code →
      code < 0 ∨ 255 < code →
      (∀ c answer, .exchange c answer ∈ m.step.chronicle d s → c.isLog) ∧
      (m.stack.size ≤ stackLimit → (m.step.perform d s).1 = .running ∧
        (m.step.perform d s).2.1 = { m with stack := rest.push 0, pc := m.pc + 1 }) := by
  constructor
  · intro σ σ' d d' m s s' n h k hk
    obtain ⟨l, rfl⟩ := Nat.exists_eq_add_of_le hk
    rw [Machine.chronicle_add, Machine.chronicle_add, replies_append, replies_append] at h
    exact (m.course_shows d k s).eq_of_agree (m.course_shows d' k s') h.of_append
  · intro σ d m s rest code hrun hi hstack hcode
    obtain ⟨⟨e, m', hpush⟩, hroom⟩ := Machine.push_eq_done { m with stack := rest } 0
    have hexec := Machine.exec_getKey_of_outside hstack hcode
    rw [Machine.step_eq_exec hrun hi, hexec]
    constructor
    · intro c answer hmem
      rw [hpush] at hmem
      split at hmem
      · simp only [Action.chronicle, List.mem_cons, List.not_mem_nil] at hmem
        rcases hmem with heq | heq | hmem
        · cases heq
          rfl
        · cases heq
        · cases hmem
      · simp [Action.chronicle] at hmem
    · intro hsize
      rw [hstack] at hsize
      rw [hroom hsize]
      split
      · exact ⟨rfl, rfl⟩
      · exact ⟨rfl, rfl⟩

theorem course_follows_replies_key :
    let m := Machine.fresh.load { code := #[.literal 7, .debug, .literal 1, .getKey, .disp] }
    m.chronicle Recorder.device 5 {} = m.chronicle Shell.Transcript.device 5 {} := by
  intro m
  have h : Agree (replies (m.chronicle Recorder.device 5 {}))
      (replies (m.chronicle Shell.Transcript.device 5 {})) := .of_eq (by decide +kernel)
  exact (course_follows_replies.1 Recorder.device Shell.Transcript.device m {} {} 5 h 5
    (Nat.le_refl 5)).1

end Handheld
