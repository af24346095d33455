import Handheld.Proofs.Code.Labels
import Handheld.Proofs.Reading.Refusals
import Handheld.Proofs.Run.Blame

/-!
# Reports and their places

What is reported about a text, or about a run of its program, has a line of the
text. There is one exception: a program with too much code is reported without a
place.
-/

namespace Handheld

/-! ## Reports about a tree -/

theorem mem_flatBlock_of_labelsIn {ss : List Stmt} {span : Span} {name : String}
    (h : (span, name) ∈ labelsIn ss) : .label span name ∈ flatBlock ss := by
  obtain ⟨s, hs, heq⟩ := List.mem_filterMap.1 h
  cases s with
  | label =>
    cases heq
    exact hs
  | _ => cases heq

theorem mem_flatBlock_of_gotosIn {ss : List Stmt} {span : Span} {name : String}
    (h : (span, name) ∈ gotosIn ss) : .goto span name ∈ flatBlock ss := by
  obtain ⟨s, hs, heq⟩ := List.mem_filterMap.1 h
  cases s with
  | goto =>
    cases heq
    exact hs
  | _ => cases heq

section

variable {ss : List Stmt} (hs : Written ss)
include hs

/-- A tree whose code does not fit is reported without a place, or else for a label that comes a
second time before the code is too long. -/
theorem ofTree_tooLarge (hlarge : codeLimit < codeLength (blockDraft 0 0 ss)) :
    Program.ofTree ss = .error Cause.programTooLarge.nowhere ∨
      ∃ span name, .label span name ∈ flatBlock ss ∧ ¬ ((labelsIn ss).map Prod.snd).Nodup ∧
        Program.ofTree ss = .error ((Cause.duplicateLabel name).inSpan span) := by
  rcases Assembly.build_cases (closed_draft ss 0 0).lowered with
    ⟨a, -, hfollows⟩ | ⟨front, back, d, e, hsplit, -, hfail, hbuild⟩
  · exact absurd hfollows.room (Nat.not_le.2 hlarge)
  · have htree : Program.ofTree ss = .error e := by
      rw [Program.ofTree_eq hs.proper, hbuild]
      rfl
    unfold Assembly.failure? at hfail
    split at hfail
    · cases hfail
      exact .inl htree
    · cases d with
      | label span name =>
        dsimp only at hfail
        split at hfail
        · next hname =>
          cases hfail
          have hlabels : labelsIn ss = front.filterMap Directive.label? ++ (span, name) ::
              back.filterMap Directive.label? := by
            rw [← labels_draft ss, hsplit, List.filterMap_append]
            rfl
          rw [Assembly.labelNames_eq] at hname
          refine .inr ⟨span, name, ?_, not_nodup_of_repeat hlabels hname, htree⟩
          refine mem_flatBlock_of_labelsIn ?_
          rw [hlabels]
          exact List.mem_append_right _ List.mem_cons_self
        · cases hfail
      | _ => cases hfail

theorem ofTree_error_at {e : Diagnostic} (h : Program.ofTree ss = .error e) :
    (∃ cause, ∃ s ∈ flatBlock ss, e = Cause.inSpan cause s.span) ∨
      (e = Cause.programTooLarge.nowhere ∧ codeLimit < codeLength (blockDraft 0 0 ss)) := by
  rcases Nat.lt_or_ge codeLimit (codeLength (blockDraft 0 0 ss)) with hlarge | hroom
  · rcases ofTree_tooLarge hs hlarge with htree | ⟨span, name, hlabel, -, htree⟩
    · cases h.symm.trans htree
      exact .inr ⟨rfl, hlarge⟩
    · cases h.symm.trans htree
      exact .inl ⟨_, _, hlabel, rfl⟩
  · have houtcome := (outcome_ofTree hs hroom).1
    rw [h] at houtcome
    refine .inl ?_
    cases houtcome with
    | @repeated front back span name hsplit _ _ =>
      refine ⟨.duplicateLabel name, .label span name, mem_flatBlock_of_labelsIn ?_, rfl⟩
      rw [hsplit]
      exact List.mem_append_right _ List.mem_cons_self
    | missing _ hjump _ _ => exact ⟨_, _, mem_flatBlock_of_gotosIn hjump, rfl⟩

end

/-! ## Reports about a text -/

theorem inputEnd_mem {source : String} {ts : List Lexeme} (h : lexemes source = .ok ts) :
    ∃ t ∈ ts, inputEnd ts = t.span := by
  obtain ⟨last, hlast⟩ := find?_eof h
  refine ⟨last, List.mem_of_find?_eq_some hlast, ?_⟩
  rw [inputEnd, hlast]

theorem flatBlock_inLines {source : String} {ts : List Lexeme} {ss : List Stmt}
    (hlex : lexemes source = .ok ts) (hparse : parse ts = .ok ss) :
    ∀ s ∈ flatBlock ss, s.span.InLines (linesAbove source) := by
  intro s hs
  have hlettered : Lettered ts := fun t ht c hc => lexemes_var hlex ht hc
  have hsub := (parse_takes hlettered hparse).1
  obtain ⟨t, ht, hspan⟩ := List.mem_map.1 (hsub.subset (List.mem_map_of_mem hs))
  rw [← hspan]
  exact lexemes_inLines hlex t ht

theorem compile_error_at {source : String} {e : Diagnostic} (h : compile source = .error e) :
    e.At (Span.InLines (linesAbove source)) ∨
      (e = Cause.programTooLarge.nowhere ∧ ∃ ts ss, lexemes source = .ok ts ∧ parse ts = .ok ss ∧
        (lowerBlock 0 ss).Writes 0 (blockDraft 0 0 ss) (blockSymbols ss) ∧
        codeLimit < codeLength (blockDraft 0 0 ss)) := by
  unfold compile at h
  cases hlex : lexemes source with
  | error e' =>
    rw [hlex] at h
    cases h
    exact .inl (lexemes_error_at hlex)
  | ok ts =>
    rw [hlex] at h
    change parse ts >>= Program.ofTree = .error e at h
    have hlines := lexemes_inLines hlex
    cases hparse : parse ts with
    | error e' =>
      rw [hparse] at h
      cases h
      obtain ⟨t, ht, hend⟩ := inputEnd_mem hlex
      exact .inl (parse_error_at hlines (hend ▸ hlines t ht) hparse)
    | ok ss =>
      rw [hparse] at h
      have hwritten := written_of_parse hlex hparse
      rcases ofTree_error_at hwritten h with ⟨cause, s, hs, rfl⟩ | ⟨rfl, hlarge⟩
      · exact .inl (Cause.at_inSpan (flatBlock_inLines hlex hparse s hs) cause)
      · exact .inr ⟨rfl, ts, ss, rfl, hparse, writes_tree.2 ss hwritten.proper 0 0, hlarge⟩

/-- Whatever is wrong with a text is reported with a line of the text and with columns, unless the
text can be read and its code does not fit. Whatever goes wrong in a run of its program is reported
with the address of the instruction and with a line of the text. -/
theorem reports_have_lines (source : String) :
    (∀ e, compile source = .error e →
      (∃ cause span, e = Cause.inSpan cause span ∧ 1 ≤ span.line ∧
        span.line ≤ linesAbove source) ∨
      (e = Cause.programTooLarge.nowhere ∧ ∃ ts ss, lexemes source = .ok ts ∧ parse ts = .ok ss ∧
        (lowerBlock 0 ss).Writes 0 (blockDraft 0 0 ss) (blockSymbols ss) ∧
        codeLimit < codeLength (blockDraft 0 0 ss))) ∧
    ∀ p, compile source = .ok p →
      ∀ {σ : Type} (d : Device σ) (m : Machine) (s : σ) (n : Nat) (e : Diagnostic),
        (m.load p).eventAt d n s = .fault e →
        e.address = some ((m.load p).after d n s).1.pc ∧
          ∃ line, e.line = some line ∧ 1 ≤ line ∧ line ≤ linesAbove source := by
  constructor
  · intro e he
    rcases compile_error_at he with ⟨cause, span, ⟨hone, hle⟩, heq⟩ | hlarge
    · exact .inl ⟨cause, span, heq, hone, hle⟩
    · exact .inr hlarge
  · intro p hp σ d m s n e he
    obtain ⟨ts, hlex, hp⟩ := bind_eq_ok.1 hp
    obtain ⟨ss, hparse, hp⟩ := bind_eq_ok.1 hp
    have hproper := (written_of_parse hlex hparse).proper
    have hcalm := Program.calm_of_tree hproper hp
    have hsteady := Machine.Steady.after hcalm d n (s := s) (Machine.steady_load p m)
    obtain ⟨owner, i, howner, -, heq⟩ := Machine.fault_owner hproper hp hsteady he
    obtain ⟨hone, hle⟩ := flatBlock_inLines hlex hparse owner howner.mem_flat
    rw [heq]
    exact ⟨rfl, owner.span.line, rfl, hone, hle⟩

/-! ## A text with too much code -/

/-- A text of `n` lines that are all the same. -/
def sameLines (line : String) : Nat → String
  | 0 => ""
  | n + 1 => line ++ "\n" ++ sameLines line n

/-- Statements at these places that all do the same. -/
def showings (spans : List Span) : List Stmt := spans.map fun span => .dispGraph span .mono

theorem flatBlock_showings (spans : List Span) : flatBlock (showings spans) = showings spans := by
  induction spans with
  | nil => rfl
  | cons span spans ih => exact congrArg (.dispGraph span .mono :: ·) ih

theorem blockSize_showings (spans : List Span) : blockSize (showings spans) = spans.length := by
  induction spans with
  | nil => rfl
  | cons span spans ih =>
    change 1 + blockSize (showings spans) = spans.length + 1
    rw [ih, Nat.add_comm]

theorem read_sameLines (n : Nat) :
    ∃ ts spans, lexemes (sameLines "DispGraph" n) = .ok ts ∧ parse ts = .ok (showings spans) ∧
      spans.length = n := by
  induction n with
  | zero => exact ⟨[⟨⟨1, 0, 0⟩, .eof⟩], [], by cbv, by cbv, rfl⟩
  | succ n ih =>
    obtain ⟨ts, spans, hlex, hparse, hlength⟩ := ih
    let us : List Lexeme := [⟨⟨1, 0, 9⟩, .word .dispGraph⟩, ⟨⟨1, 9, 9⟩, .eof⟩]
    have hline : lexemes "DispGraph" = .ok us := by cbv
    have hstatement : parse us = .ok (showings [⟨1, 0, 9⟩]) := by cbv
    have hclosed : ¬ CutOff us := by
      rintro ⟨text, htext, -⟩
      cases htext
    obtain ⟨vs, stop, br, hvs, hstop, hne, hbr, hbelow⟩ := lexemes_below hline hclosed
    obtain ⟨last, hlast⟩ := find?_eof hlex
    rw [hvs] at hstatement
    have hall := parse_below (k := linesAbove "DispGraph") hstatement hstop hne hbr hlast
    refine ⟨_, ⟨1, 0, 9⟩ :: spans.map (.down (linesAbove "DispGraph")), ?_, hall.trans ?_, ?_⟩
    · rw [sameLines, hbelow, hlex]
      rfl
    · rw [hparse]
      refine congrArg Except.ok ?_
      simp only [showings, List.map_cons, List.map_nil, List.singleton_append, List.map_map]
      rfl
    · rw [List.length_cons, List.length_map, hlength]

/-- More lines than a program may have instructions are refused, and nothing says where. -/
theorem compile_sameLines_nowhere :
    compile (sameLines "DispGraph" 65536) = .error Cause.programTooLarge.nowhere ∧
      Cause.programTooLarge.nowhere.line = none ∧ Cause.programTooLarge.nowhere.address = none := by
  obtain ⟨ts, spans, hlex, hparse, hlength⟩ := read_sameLines 65536
  have hs := written_of_parse hlex hparse
  have hlarge : codeLimit < codeLength (blockDraft 0 0 (showings spans)) := by
    rw [codeLength_draft.2, blockSize_showings, hlength]
    decide
  have hcompile : compile (sameLines "DispGraph" 65536) = Program.ofTree (showings spans) := by
    rw [compile, hlex]
    change Except.bind (parse ts) _ = _
    rw [hparse]
    rfl
  refine ⟨?_, rfl, rfl⟩
  rcases ofTree_tooLarge hs hlarge with htree | ⟨span, name, hlabel, -, -⟩
  · exact hcompile.trans htree
  · -- there are no labels
    rw [flatBlock_showings] at hlabel
    obtain ⟨_, -, heq⟩ := List.mem_map.1 hlabel
    cases heq

end Handheld
