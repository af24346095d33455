import Handheld.Proofs.Run.Course
import Handheld.Proofs.Run.Slices
import Handheld.Shell.Respond

/-!
# A host around the machine

The host runs slice after slice, and shows a text where the machine comes back
for one. What it gets to see of the program is what the program does step by
step, and the texts stand where they were asked for.
-/

namespace Handheld

variable {σ : Type}

/-! ## Texts of the host -/

/-- What the host shows when a machine comes back. -/
def Event.lines : Event → List String
  | .help => Shell.helpLines
  | .about => Shell.aboutLines
  | _ => []

/-- What a program ends with, if it does not go on after the event. -/
def Event.verdict? : Event → Option (Option Diagnostic)
  | .running | .help | .about => none
  | .stopped | .exit => some none
  | .interrupted => some (some Cause.interrupted.nowhere)
  | .fault e => some (some e)

theorem Event.lines_of_verdict {e : Event} {verdict : Option Diagnostic}
    (h : e.verdict? = some verdict) : e.lines = [] := by
  cases e with
  | help | about => cases h
  | _ => rfl

def Call.lines : Call → List String
  | .display text => [text]
  | _ => []

/-- The lines of the program, and those of the host. -/
def Observation.lines : Observation → List String
  | .exchange c _ => c.lines
  | .event e => e.lines

namespace Device

def showing (d : Device σ) (lines : List String) (s : σ) : σ :=
  lines.foldl (fun s line => (d.perform (.display line) s).2) s

/-- From `s` to `s'` the device gets the calls in the list and gives the answers that stand there.
At each event it is shown the text of the host. -/
inductive Hosts (d : Device σ) : σ → List Observation → σ → Prop
  | nil {s : σ} : Hosts d s [] s
  | exchange {c : Call} {s s' : σ} {os : List Observation} :
      Hosts d (d.perform c s).2 os s' → Hosts d s (.exchange c (d.perform c s).1 :: os) s'
  | event {e : Event} {s s' : σ} {os : List Observation} :
      Hosts d (d.showing e.lines s) os s' → Hosts d s (.event e :: os) s'

/-- The lines that have been displayed can be told from the state. -/
def Prints (d : Device σ) (out : σ → List String) : Prop :=
  ∀ c s, out (d.perform c s).2 = out s ++ c.lines

variable {d : Device σ} {s s' s'' : σ} {os os' : List Observation}

theorem Hosts.append (h : d.Hosts s os s') (h' : d.Hosts s' os' s'') :
    d.Hosts s (os ++ os') s'' := by
  induction h with
  | nil => exact h'
  | exchange _ ih => exact .exchange (ih h')
  | event _ ih => exact .event (ih h')

theorem Prints.showing {out : σ → List String} (hd : d.Prints out) (lines : List String) (s : σ) :
    out (d.showing lines s) = out s ++ lines := by
  induction lines generalizing s with
  | nil => simp [Device.showing]
  | cons line lines ih =>
    have hrest := ih (d.perform (.display line) s).2
    rw [hd, List.append_assoc] at hrest
    exact hrest

theorem Hosts.eq (h : d.Hosts s os s') (h' : d.Hosts s os s'') : s' = s'' := by
  induction h with
  | nil =>
    cases h'
    rfl
  | exchange _ ih =>
    cases h' with
    | exchange h' => exact ih h'
  | event _ ih =>
    cases h' with
    | event h' => exact ih h'

theorem Hosts.shows_eq {α : Type} {t : Script α} {a a' : α} (h : d.Hosts s os s')
    (h' : d.Hosts s os' s'') (ht : t.Shows os a) (ht' : t.Shows os' a') : os = os' := by
  induction ht generalizing s os' with
  | done a =>
    cases ht'
    rfl
  | call _ ih =>
    cases ht' with
    | call ht' =>
      cases h with
      | exchange h =>
        cases h' with
        | exchange h' => exact congrArg _ (ih h h' ht')
  | tell _ ih =>
    cases ht' with
    | tell ht' =>
      cases h with
      | event h =>
        cases h' with
        | event h' => exact congrArg _ (ih h h' ht')

theorem Hosts.exists_left (h : d.Hosts s (os ++ os') s'') : ∃ s', d.Hosts s os s' := by
  induction os generalizing s with
  | nil => exact ⟨s, .nil⟩
  | cons o os ih =>
    cases h with
    | exchange h =>
      obtain ⟨s', hs'⟩ := ih h
      exact ⟨s', .exchange hs'⟩
    | event h =>
      obtain ⟨s', hs'⟩ := ih h
      exact ⟨s', .event hs'⟩

/-- The lines of the program come out in their order, with the texts of the host between them. -/
theorem Hosts.lines {out : σ → List String} (h : d.Hosts s os s') (hd : d.Prints out) :
    out s' = out s ++ os.flatMap Observation.lines := by
  induction h with
  | nil => simp
  | @exchange c s _ _ _ ih =>
    rw [ih, hd, List.append_assoc]
    rfl
  | event _ ih =>
    rw [ih, hd.showing, List.append_assoc]
    rfl

end Device

theorem Recording.device_prints {γ : Type} [RandomSource γ] :
    (device : Device (Recording γ)).Prints fun r => r.output.toList := by
  rintro c ⟨screen, keypad, answers, chance, output, records, pauses, frames⟩
  cases c with
  | display text => exact Array.toList_push
  | keyPressed code =>
    match answers with
    | none | some [] | some (_ :: _) => exact (List.append_nil _).symm
  | _ => exact (List.append_nil _).symm

/-! ## Steps under a host -/

/-- No event of the list is the end of the program. -/
def GoesOn (os : List Observation) : Prop :=
  ∀ e, .event e ∈ os → e.verdict? = none

theorem goesOn_nil : GoesOn [] :=
  fun _ he => absurd he List.not_mem_nil

theorem GoesOn.append {os os' : List Observation} (h : GoesOn os) (h' : GoesOn os') :
    GoesOn (os ++ os') :=
  fun e he => (List.mem_append.1 he).elim (h e) (h' e)

/-- The program goes on up to the event, which is the last one. -/
def GoesOnTo (os : List Observation) (e : Event) : Prop :=
  match e.verdict? with
  | none => GoesOn os
  | some _ => ∃ before, os = before ++ [.event e] ∧ GoesOn before

theorem GoesOn.appendTo {os os' : List Observation} {e : Event} (h : GoesOn os)
    (h' : GoesOnTo os' e) : GoesOnTo (os ++ os') e := by
  unfold GoesOnTo at *
  split at h'
  · exact h.append h'
  · obtain ⟨before, rfl, hbefore⟩ := h'
    exact ⟨os ++ before, (List.append_assoc ..).symm, h.append hbefore⟩

/-- The program has come to its end, with this verdict. -/
def Ends (os : List Observation) (verdict : Option Diagnostic) : Prop :=
  ∃ before e, os = before ++ [.event e] ∧ GoesOn before ∧ e.verdict? = some verdict

theorem Ends.not_goesOn {os : List Observation} {verdict : Option Diagnostic} (h : Ends os verdict)
    {os' : List Observation} (hinit : os <+: os') : ¬ GoesOn os' := by
  obtain ⟨before, e, rfl, -, he⟩ := h
  intro hgoes
  have hnone := hgoes e (hinit.subset (by simp))
  cases he.symm.trans hnone

theorem Ends.eq_of_isPrefix {os os' : List Observation} {verdict verdict' : Option Diagnostic}
    (h : Ends os verdict) (h' : Ends os' verdict') (hinit : os <+: os') :
    os = os' ∧ verdict = verdict' := by
  have hos : os = os' := by
    obtain ⟨before', e', rfl, hbefore', -⟩ := h'
    rcases List.prefix_concat_iff.1 hinit with heq | hshort
    · exact heq
    · exact absurd hbefore' (h.not_goesOn hshort)
  refine ⟨hos, ?_⟩
  obtain ⟨before, e, rfl, -, he⟩ := h
  obtain ⟨before', e', heq, -, he'⟩ := h'
  obtain ⟨-, heq⟩ := List.append_inj' (hos.trans heq) rfl
  cases heq
  exact Option.some.inj (he.symm.trans he')

/-- In `k` steps, and answered as in the list, the machine shows just the list and becomes `m'`. So
the device answers, with texts of the host shown between. -/
structure Machine.Hosted (d : Device σ) (k : Nat) (m : Machine) (s : σ) (os : List Observation)
    (m' : Machine) (s' : σ) : Prop where
  shows : (m.course k).Shows os m'
  hosts : d.Hosts s os s'

namespace Action

theorem hosts_chronicle (d : Device σ) (a : Action) (s : σ) :
    d.Hosts s (a.chronicle d s) (d.showing (a.perform d s).1.lines (a.perform d s).2.2) := by
  induction a generalizing s with
  | done event m => exact .event .nil
  | call c resume ih => exact .exchange (ih _ _)

theorem chronicle_eq (d : Device σ) (a : Action) (s : σ) :
    ∃ os, a.chronicle d s = os ++ [.event (a.perform d s).1] ∧ ∀ e, .event e ∉ os := by
  induction a generalizing s with
  | done event m => exact ⟨[], rfl, fun _ => List.not_mem_nil⟩
  | call c resume ih =>
    obtain ⟨os, heq, hos⟩ := ih (d.perform c s).1 (d.perform c s).2
    refine ⟨.exchange c (d.perform c s).1 :: os, by rw [chronicle, heq]; rfl, fun e he => ?_⟩
    rcases List.mem_cons.1 he with heq | he
    · cases heq
    · exact hos e he

theorem goesOnTo_chronicle (d : Device σ) (a : Action) (s : σ) :
    GoesOnTo (a.chronicle d s) (a.perform d s).1 := by
  obtain ⟨os, heq, hos⟩ := a.chronicle_eq d s
  have hbefore : GoesOn os := fun e he => absurd he (hos e)
  unfold GoesOnTo
  rw [heq]
  split
  · next hnone =>
    refine hbefore.append fun e he => ?_
    cases List.mem_singleton.1 he
    exact hnone
  · exact ⟨os, rfl, hbefore⟩

end Action

namespace Machine

variable {d : Device σ} {m m' m'' : Machine} {s s' s'' : σ} {os os' : List Observation} {k l : Nat}

theorem course_add (n k : Nat) (m : Machine) :
    m.course (n + k) = (m.course n).bind (course k) := by
  induction n generalizing m with
  | zero => rw [Nat.zero_add]; rfl
  | succ n ih =>
    rw [Nat.succ_add, course, course, Script.bind_assoc]
    congr 1
    funext m'
    exact ih m'

theorem Hosted.append (h : m.Hosted d k s os m' s') (h' : m'.Hosted d l s' os' m'' s'') :
    m.Hosted d (k + l) s (os ++ os') m'' s'' where
  shows := by
    rw [course_add]
    exact h.shows.bind h'.shows
  hosts := h.hosts.append h'.hosts

theorem Hosted.isPrefix (h : m.Hosted d k s os m' s') (h' : m.Hosted d (k + l) s os' m'' s'') :
    os <+: os' := by
  have hshows := h'.shows
  rw [course_add] at hshows
  obtain ⟨os₁, os₂, m₁, rfl, hfirst, -⟩ := hshows.of_bind
  obtain ⟨s₁, hs₁⟩ := h'.hosts.exists_left
  obtain rfl := h.hosts.shows_eq hs₁ h.shows hfirst
  exact List.prefix_append ..

theorem hosted_step (d : Device σ) (m : Machine) (s : σ) :
    let r := m.step.perform d s
    m.Hosted d 1 s (m.step.chronicle d s) r.2.1 (d.showing r.1.lines r.2.2) where
  shows := by
    rw [course]
    exact (Script.bind_done _).symm ▸ m.step.course_shows d s
  hosts := m.step.hosts_chronicle d s

theorem hosted_execute (d : Device σ) (n : Nat) (m : Machine) (s : σ) :
    let r := m.execute d (n + 1) s
    ∃ k os, m.Hosted d (k + 1) s os r.2.1 (d.showing r.1.lines r.2.2) ∧ GoesOnTo os r.1 := by
  dsimp only
  -- all steps but the last one just go on, so only there the host has something to show
  induction n generalizing m s with
  | zero =>
    have hone : m.execute d 1 s = m.step.perform d s := by
      rw [execute_succ]
      split
      · next hfirst =>
        rw [execute, if_pos (proceeds_of_event hfirst).status, ← hfirst]
      · rfl
    rw [hone]
    exact ⟨0, _, hosted_step d m s, m.step.goesOnTo_chronicle d s⟩
  | succ n ih =>
    have hgoes := m.step.goesOnTo_chronicle d s
    have hstep := hosted_step d m s
    dsimp only at hstep
    rw [execute_succ]
    split
    · next hfirst =>
      have hgoes : GoesOn (m.step.chronicle d s) := by rwa [hfirst] at hgoes
      rw [hfirst] at hstep
      obtain ⟨k, os, hos, hto⟩ := ih (m.step.perform d s).2.1 (m.step.perform d s).2.2
      refine ⟨1 + k, _, ?_, hgoes.appendTo hto⟩
      rw [Nat.add_assoc]
      exact hstep.append hos
    · exact ⟨0, _, hstep, hgoes⟩

end Machine

/-! ## The host -/

namespace Shell

/-- What the host does when the machine has come back: it ends, or it shows a text and lets the
machine go on. -/
def afterwards (d : Device σ) (slices : Nat) (r : Event × Machine × σ) : Option Diagnostic × σ :=
  match r.1.verdict? with
  | some verdict => (verdict, r.2.2)
  | none => play d slices r.2.1 (d.showing r.1.lines r.2.2)

theorem play_succ (d : Device σ) (slices : Nat) (m : Machine) (s : σ) :
    play d (slices + 1) m s = afterwards d slices (m.execute d Machine.slice s) := by
  rw [play]
  obtain ⟨e, m', s'⟩ := m.execute d Machine.slice s
  cases e <;> rfl

/-- The host comes to no other result than if it ran the machine to its next event, by slices that
it does not see. -/
theorem play_of_run {d : Device σ} {n : Nat} {m : Machine} {s : σ}
    (h : (m.run d false (.replicate n false) s).1.1 ≠ .running) :
    ∃ j, ∀ slices, play d (j + slices) m s =
      afterwards d slices (m.run d false (.replicate n false) s).1 := by
  induction n generalizing m s with
  | zero => exact absurd rfl h
  | succ n ih =>
    rw [List.replicate_succ, Machine.run_cons] at h ⊢
    split at h
    · next hfirst =>
      obtain ⟨j, hj⟩ := ih h
      refine ⟨j + 1, fun slices => ?_⟩
      rw [if_pos hfirst, ← hj, Nat.add_right_comm, play_succ, afterwards, hfirst]
      rfl
    · next hfirst =>
      refine ⟨1, fun slices => ?_⟩
      rw [if_neg hfirst, Nat.add_comm, play_succ]

/-- How a host that had `slices` slices comes to its verdict. Either the program has ended with it,
or it goes on even after so many instructions, and the host breaks it off. -/
def Concludes (slices k : Nat) (os : List Observation) (verdict : Option Diagnostic) : Prop :=
  Ends os verdict ∨ (slices ≤ k ∧ GoesOn os ∧ verdict = some Cause.interrupted.nowhere)

theorem hosted_play (d : Device σ) (slices : Nat) (m : Machine) (s : σ) :
    ∃ k os m', m.Hosted d k s os m' (play d slices m s).2 ∧
      Concludes slices k os (play d slices m s).1 := by
  induction slices generalizing m s with
  | zero => exact ⟨0, [], m, ⟨.done m, .nil⟩, .inr ⟨Nat.le_refl 0, goesOn_nil, rfl⟩⟩
  | succ slices ih =>
    obtain ⟨n, hn⟩ : ∃ n, Machine.slice = n + 1 := ⟨4999, rfl⟩
    obtain ⟨k, os, hos, hto⟩ := m.hosted_execute d n s
    rw [← hn] at hos hto
    rw [play_succ, afterwards]
    unfold GoesOnTo at hto
    cases hverdict : (m.execute d Machine.slice s).1.verdict? with
    | none =>
      -- there is more to run, perhaps behind a text
      rw [hverdict] at hto
      obtain ⟨l, os', m', hos', hconcludes⟩ := ih _ _
      refine ⟨k + 1 + l, os ++ os', m', hos.append hos', ?_⟩
      rcases hconcludes with ⟨before, e, rfl, hbefore, he⟩ | ⟨hle, hgoes, hv⟩
      · exact .inl ⟨os ++ before, e, (List.append_assoc ..).symm, hto.append hbefore, he⟩
      · exact .inr ⟨by omega, hto.append hgoes, hv⟩
    | some verdict =>
      rw [hverdict] at hto
      obtain ⟨before, rfl, hbefore⟩ := hto
      rw [Event.lines_of_verdict hverdict] at hos
      exact ⟨k + 1, _, _, hos, .inl ⟨before, _, rfl, hbefore, hverdict⟩⟩

theorem play_of_ends {d : Device σ} {k slices : Nat} {m m' : Machine} {s s' : σ}
    {os : List Observation} {verdict : Option Diagnostic} (h : m.Hosted d k s os m' s')
    (hends : Ends os verdict) (hk : k ≤ slices) : play d slices m s = (verdict, s') := by
  obtain ⟨l, os', m'', hos', hconcludes⟩ := hosted_play d slices m s
  -- whichever of the two is longer begins with the other
  have hlonger : k ≤ l → os <+: os' := by
    intro hle
    obtain ⟨j, rfl⟩ := Nat.exists_eq_add_of_le hle
    exact h.isPrefix hos'
  have hshorter : l ≤ k → os' <+: os := by
    intro hle
    obtain ⟨j, rfl⟩ := Nat.exists_eq_add_of_le hle
    exact hos'.isPrefix h
  rcases hconcludes with hends' | ⟨hslices, hgoes, -⟩
  · have hsame : os = os' ∧ verdict = (play d slices m s).1 := by
      rcases Nat.le_total k l with hle | hle
      · exact hends.eq_of_isPrefix hends' (hlonger hle)
      · obtain ⟨hos, hverdict⟩ := hends'.eq_of_isPrefix hends (hshorter hle)
        exact ⟨hos.symm, hverdict.symm⟩
    obtain ⟨rfl, hverdict⟩ := hsame
    exact Prod.ext hverdict.symm (hos'.hosts.eq h.hosts)
  · exact absurd hgoes (hends.not_goesOn (hlonger (Nat.le_trans hk hslices)))

end Shell

/-! ## Slices are not to be seen -/

/-- Parting a run changes nothing about it. `execute` can be parted anywhere, and where it comes
back running it has carried out all its instructions. `run` comes back with the first event that is
not just more to run, if the flag has not been seen before; a flag that is seen leaves everything as
so many whole slices have made it. The host goes on behind `run`, so that its device gets the calls
of the program, instruction after instruction, with each text where it was asked for. -/
theorem slicing_invisible (d : Device σ) (m : Machine) (s : σ) :
    (∀ a b, m.execute d (a + b) s =
      if (m.execute d a s).1 = .running then
        (m.execute d a s).2.1.execute d b (m.execute d a s).2.2
      else m.execute d a s) ∧
    (∀ n, (m.execute d n s).1 = .running → (m.execute d n s).2 = m.after d n s ∧
      ∀ k < n, (m.after d k s).1.Proceeds d (m.after d k s).2) ∧
    (∀ flag raises n,
      (∀ later k r, Machine.seen flag raises = .replicate n false ++ later →
        k < Machine.slice * n → m.ComesTo d k s r → m.run d flag raises s = (r, false)) ∧
      (Machine.seen flag raises = .replicate n false →
        (∀ k < Machine.slice * n, m.eventAt d k s = .running) →
        (m.run d flag raises s).1 = (.running, m.after d (Machine.slice * n) s)) ∧
      ∀ later, Machine.seen flag raises = .replicate n false ++ true :: later →
        (m.execute d (Machine.slice * n) s).1 = .running →
        m.run d flag raises s =
          ((.interrupted, { (m.after d (Machine.slice * n) s).1 with status := .halted },
            (m.after d (Machine.slice * n) s).2), false)) ∧
    (m.status ≠ .running → ∀ flag raised raises,
      m.run d flag (raised :: raises) s = ((.stopped, m, s), false)) ∧
    (∀ n, (m.run d false (.replicate n false) s).1.1 ≠ .running →
      ∃ j, ∀ slices, Shell.play d (j + slices) m s =
        Shell.afterwards d slices (m.run d false (.replicate n false) s).1) ∧
    (∀ slices, ∃ k os m', m.Hosted d k s os m' (Shell.play d slices m s).2 ∧
      Shell.Concludes slices k os (Shell.play d slices m s).1 ∧
      ∀ out, d.Prints out →
        out (Shell.play d slices m s).2 = out s ++ os.flatMap Observation.lines) ∧
    ∀ k os m' s' verdict, m.Hosted d k s os m' s' → Ends os verdict →
      ∀ slices, k ≤ slices → Shell.play d slices m s = (verdict, s') := by
  refine ⟨fun a b => m.execute_add d a b s, ?_, fun flag raises n => ⟨?_, ?_, ?_⟩, ?_, ?_, ?_, ?_⟩
  · intro n hrun
    obtain ⟨hafter, -, hall⟩ := Machine.execute_running hrun
    exact ⟨hafter, hall⟩
  · exact fun later k r hseen hk hr => hr.run hseen hk
  · exact Machine.run_of_proceeds
  · exact fun later => Machine.run_of_seen
  · exact fun hover flag raised raises => Machine.run_of_over hover d flag raised raises s
  · exact fun n => Shell.play_of_run
  · intro slices
    obtain ⟨k, os, m', hos, hconcludes⟩ := Shell.hosted_play d slices m s
    exact ⟨k, os, m', hos, hconcludes, fun out hout => hos.hosts.lines hout⟩
  · exact fun k os m' s' verdict hos hends slices => Shell.play_of_ends hos hends

theorem slicing_invisible_help :
    let d := Recorder.device
    let m := Machine.fresh.load { code := #[.literal 7, .disp, .help] }
    (∃ r, m.ComesTo d 2 {} r ∧ r.1 = .help ∧ m.run d false [false, true] {} = (r, false)) ∧
    m.run d true [false] {} = ((.interrupted, { m with status := .halted }, {}), false) ∧
    ∃ r, Shell.play d 4 m {} = (none, r) ∧ r.output.toList = "7" :: Shell.helpLines := by
  intro d m
  obtain ⟨-, -, hrun, -, -, -, hplay⟩ := slicing_invisible d m {}
  refine ⟨?_, (hrun true [false] 0).2.2 [] rfl rfl, ?_⟩
  · have hhelp : m.ComesTo d 2 {} ((m.after d 2 {}).1.step.perform d (m.after d 2 {}).2) := by
      refine ⟨?_, by decide +kernel, rfl⟩
      decide +kernel
    refine ⟨_, hhelp, by decide +kernel, (hrun false [false, true] 1).1 [true] 2 _ rfl ?_ hhelp⟩
    decide
  · have hos : ∃ r, m.Hosted d 4 {} [.event .running, .exchange (.display "7") (), .event .running,
        .event .help, .event .stopped] { m with pc := 3, status := .halted } r :=
      ⟨_, .tell (.call (.tell (.tell (.tell (.done _))))),
        .event (.exchange (.event (.event (.event .nil))))⟩
    obtain ⟨r, hos⟩ := hos
    have hends : Ends [.event .running, .exchange (.display "7") (), .event .running, .event .help,
        .event .stopped] none :=
      ⟨[.event .running, .exchange (.display "7") (), .event .running, .event .help], .stopped, rfl,
        by simp [GoesOn, Event.verdict?], rfl⟩
    refine ⟨r, hplay 4 _ _ r none hos hends 4 (Nat.le_refl 4), ?_⟩
    have hlines := hos.hosts.lines Recording.device_prints
    simpa [Observation.lines, Call.lines, Event.lines] using hlines

end Handheld
