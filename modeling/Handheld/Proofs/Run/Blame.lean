import Handheld.Device.Recorder
import Handheld.Proofs.Code.Owners
import Handheld.Proofs.Run.Faults
import Handheld.Proofs.Run.Slices

/-!
# Where a compiled program fails

A failure names the instruction that failed and the statement which that
instruction was written for. Jumps have no mark of their own, and they need none:
where they lead there is always something.
-/

namespace Handheld

/-- The instruction at the address `x` of the tree's code, and the statement it is written for. -/
def WrittenFor (ss : List Stmt) (x : Nat) (owner : Stmt) (i : Instr) : Prop :=
  ∃ front back, blockSigned 0 0 ss = front ++ (owner, .emit i) :: back ∧
    codeLength (front.map Prod.snd) = x

theorem WrittenFor.mem_flat {ss : List Stmt} {x : Nat} {owner : Stmt} {i : Instr}
    (h : WrittenFor ss x owner i) : owner ∈ flatBlock ss := by
  obtain ⟨front, back, hsigned, -⟩ := h
  refine mem_flat_of_signed.2 ss 0 0 owner (.emit i) ?_
  rw [hsigned]
  exact List.mem_append_right _ List.mem_cons_self

theorem Program.exists_owner {ss : List Stmt} {p : Program} (hs : ∀ s ∈ flatBlock ss, s.Proper)
    (hp : ofTree ss = .ok p) {x : Nat} {i : Instr} (hi : p.code[x]? = some i)
    (hjump : ∀ target, i ≠ .branch .always target) :
    ∃ owner, WrittenFor ss x owner i ∧ p.spanAt? x = some owner.span := by
  have hlinked := linked_of_tree hs hp
  obtain ⟨d, hd, hinstr⟩ := hlinked.exists_directive hi
  have hplain := plain_directives ss 0 0 d (mem_of_mem_located hd)
  cases d with
  | mark | place | label | reject => cases hinstr
  | branch => exact absurd hplain id
  | goto span name =>
    cases hinstr
    exact absurd rfl (hjump _)
  | emit j =>
    cases hinstr
    obtain ⟨front, back, hsplit, rfl⟩ := mem_located_iff.1 hd
    -- the same place in the signed directives
    have hsigned := map_snd_signed_tree.2 ss 0 0
    rw [hsplit] at hsigned
    obtain ⟨front', rest, hfront', rfl, hrest⟩ := List.map_eq_append_iff.1 hsigned
    obtain ⟨⟨owner, d⟩, back', rfl, hd', -⟩ := List.map_eq_cons_iff.1 hrest
    cases hd'
    have hmark := marked_tree.2 ss 0 0 front' back' owner i hfront' hjump
    rw [hsplit] at hlinked
    rw [Nat.zero_add]
    exact ⟨owner, ⟨front', back', hfront', rfl⟩, (hlinked.spanAt rfl).trans hmark⟩

theorem Written.eq_of_span {ss : List Stmt} (h : Written ss) {s t : Stmt} (hs : s ∈ flatBlock ss)
    (ht : t ∈ flatBlock ss) (hspan : s.span = t.span) : s = t := by
  -- statements begin one behind the other, so no place comes twice
  have hnodup : ((flatBlock ss).map Stmt.span).Nodup := by
    refine h.ordered.imp ?_
    rintro a _ hbefore rfl
    exact Span.Before.irrefl a hbefore
  exact List.inj_on_of_nodup_map hnodup hs ht hspan

namespace Machine

theorem event_jump {p : Program} (hp : p.Calm) {σ : Type} {d : Device σ} {m : Machine} {s : σ}
    (hprogram : m.program = p) (hrun : m.status = .running) {target : Nat}
    (hi : p.code[m.pc]? = some (.branch .always target)) :
    (m.step.perform d s).1 = .running := by
  have hle : target ≤ m.program.size := by
    rw [hprogram]
    exact (hp.targets _ _ _ hi).le_size
  have hexec : m.exec (.branch .always target) = .done .running { m with pc := target } :=
    if_pos hle
  rw [step_eq_exec hrun (hprogram ▸ hi), hexec]
  split
  · rfl
  · rfl

/-- What a failure of a compiled program reports. -/
theorem fault_owner {ss : List Stmt} {p : Program} (hs : ∀ s ∈ flatBlock ss, s.Proper)
    (hp : Program.ofTree ss = .ok p) {σ : Type} {d : Device σ} {m : Machine} {s : σ}
    (hm : m.Steady p) {e : Diagnostic} (he : (m.step.perform d s).1 = .fault e) :
    ∃ owner i, WrittenFor ss m.pc owner i ∧ p.code[m.pc]? = some i ∧
      e = { e.cause.inSpan owner.span with address := some m.pc } := by
  have hcalm := Program.calm_of_tree hs hp
  have hrun : m.status = .running := by
    by_cases hrun : m.status = .running
    · exact hrun
    · rw [step_of_over hrun] at he
      cases he
  cases hi : p.code[m.pc]? with
  | none =>
    rw [step_behind hrun (hm.program ▸ hi)] at he
    cases he
  | some i =>
    have hjump : ∀ target, i ≠ .branch .always target := by
      rintro target rfl
      rw [event_jump hcalm hm.program hrun hi] at he
      cases he
    obtain ⟨owner, howner, hspan⟩ := Program.exists_owner hs hp hi hjump
    obtain ⟨cause, rfl⟩ := ((moves_step hrun).perform d s).located e he
    refine ⟨owner, i, howner, rfl, ?_⟩
    rw [Program.cause_locate, Program.locate, hm.program, hspan]

end Machine

/-- When a compiled program fails, at whatever step of a run, the failure carries the address of the
instruction that failed and the place of the statement which that instruction is written for. The
test of a block, its bounds, and the count behind its body are written for the block statement. No
other statement of the program has that place. What is written for statements is all that the
program is lowered to, with the addresses of its blocks. -/
theorem fault_blames_owner {source : String} {p : Program} (h : compile source = .ok p) :
    ∃ ts ss, lexemes source = .ok ts ∧ parse ts = .ok ss ∧
      (lowerBlock 0 ss).Writes 0 (blockDraft 0 0 ss) (blockSymbols ss) ∧
      (blockSigned 0 0 ss).map Prod.snd =
        fixed (addressIn (blockDraft 0 0 ss)) (blockDraft 0 0 ss) ∧
      ∀ {σ : Type} (d : Device σ) (m : Machine) (s : σ) (n : Nat) (e : Diagnostic),
        (m.load p).eventAt d n s = .fault e →
        ∃ owner ∈ flatBlock ss, ∃ i, WrittenFor ss ((m.load p).after d n s).1.pc owner i ∧
          p.code[((m.load p).after d n s).1.pc]? = some i ∧
          e.address = some ((m.load p).after d n s).1.pc ∧
          e.line = some owner.span.line ∧ e.start = owner.span.start ∧ e.stop = owner.span.stop ∧
          ∀ t ∈ flatBlock ss, t.span = owner.span → t = owner := by
  obtain ⟨ts, hlex, h⟩ := bind_eq_ok.1 h
  obtain ⟨ss, hparse, h⟩ := bind_eq_ok.1 h
  have hwritten := written_of_parse hlex hparse
  refine ⟨ts, ss, hlex, hparse, writes_tree.2 ss hwritten.proper 0 0, ?_, ?_⟩
  · rw [map_snd_signed_tree.2, fixed_draft (Program.placedOnce_of_tree hwritten.proper h)]
  · intro σ d m s n e he
    have hcalm := Program.calm_of_tree hwritten.proper h
    have hsteady := Machine.Steady.after hcalm d n (s := s) (Machine.steady_load p m)
    obtain ⟨owner, i, howner, hi, heq⟩ := Machine.fault_owner hwritten.proper h hsteady he
    refine ⟨owner, howner.mem_flat, i, howner, hi, ?_, ?_, ?_, ?_, fun t ht hspan => ?_⟩
    · rw [heq]
    · rw [heq]
      rfl
    · rw [heq]
      rfl
    · rw [heq]
      rfl
    · exact hwritten.eq_of_span ht howner.mem_flat hspan

/-- In `For({{0}*257},0,1)` the count behind the body fails, once the body has moved what is
counted out of memory. The loop is blamed for it, and not a statement of the body. -/
theorem fault_blames_owner_count :
    ∃ p, compile "For(\x7b\x7b0\x7d*257\x7d,0,1)\nIf 1\n255->\x7b0\x7d\nEnd\nEnd" = .ok p ∧
      ∃ e, (Machine.fresh.load p).eventAt Recorder.device 23 {} = .fault e ∧
        e.address = some 23 ∧ e.line = some 1 ∧ ∃ ss owner, owner ∈ flatBlock ss ∧
          e.line = some owner.span.line ∧ ∀ t ∈ flatBlock ss, t.span = owner.span → t = owner := by
  have hrun : (match compile
        "For(\x7b\x7b0\x7d*257\x7d,0,1)\nIf 1\n255->\x7b0\x7d\nEnd\nEnd" with
      | .ok p => decide ((Machine.fresh.load p).eventAt Recorder.device 23 {} =
          .fault { (Cause.badAddress 65535).inSpan ⟨1, 0, 3⟩ with address := some 23 })
      | .error _ => false) = true := by decide +kernel
  split at hrun
  · next p hp =>
    obtain ⟨ts, ss, -, -, -, -, hblames⟩ := fault_blames_owner hp
    have he := of_decide_eq_true hrun
    obtain ⟨owner, howner, i, -, -, -, hline, -, -, honly⟩ :=
      hblames Recorder.device Machine.fresh {} 23 _ he
    exact ⟨p, hp, _, he, rfl, rfl, ss, owner, howner, hline, honly⟩
  · cases hrun

end Handheld
