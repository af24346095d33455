import Handheld.Proofs.Code.Relocation

/-!
# Whose code it is

Every directive is written for a statement. What stands in a body is written for
the statements there; the test of a block statement, its branches and the code
behind its body are its own. Signed directives keep the statement beside each
directive. In front of an instruction that can fail, the last mark is the one of
the statement that the instruction was written for.
-/

namespace Handheld

/-! ## Signed directives -/

/-- Directives that are all written for one statement. -/
def signedBy (s : Stmt) (ds : List Directive) : List (Stmt × Directive) :=
  ds.map fun d => (s, d)

mutual

/-- The directives of a statement at the address `here`, each with the statement it is written
for. -/
def Stmt.signed (depth here : Nat) : Stmt → List (Stmt × Directive)
  | .cond span condition yes no =>
    let inside := here + condition.code.length + 1
    let behind := inside + blockSize yes
    let own := signedBy (.cond span condition yes no)
    match no with
    | [] =>
      own (.mark span :: emits (condition.code ++ [.branch .ifFalse behind])) ++
        blockSigned depth inside yes
    | no =>
      own (.mark span :: emits (condition.code ++ [.branch .ifFalse (behind + 1)])) ++
        blockSigned depth inside yes ++
        own (emits [.branch .always (behind + 1 + blockSize no)]) ++
        blockSigned depth (behind + 1) no
  | .loop span kind body =>
    let own := signedBy (.loop span kind body)
    own (.mark span :: emits (kind.startCode depth ++ kind.testCode depth ++
        [.branch kind.leaving (kind.exit depth here (blockSize body))])) ++
      blockSigned (kind.depthInside depth) (kind.inside depth here) body ++
      own (kind.returnMark span ++
        emits (kind.nextCode depth ++ [.branch .always (kind.top depth here)]))
  | s => signedBy s (s.directives depth here)

def blockSigned (depth here : Nat) : List Stmt → List (Stmt × Directive)
  | [] => []
  | s :: ss => s.signed depth here ++ blockSigned depth (here + s.size) ss

end

theorem map_snd_signedBy (s : Stmt) (ds : List Directive) :
    (signedBy s ds).map Prod.snd = ds := by
  rw [signedBy, List.map_map]
  exact List.map_id ds

theorem Stmt.signed_of_straight {s : Stmt} {is : List Instr} (h : s.straight? = some is)
    (depth here : Nat) : s.signed depth here = signedBy s (.mark s.span :: emits is) := by
  rw [← Stmt.directives_of_straight h depth here]
  cases s with
  | cond | loop | label | goto => cases h
  | _ => rfl

theorem map_snd_signed_tree :
    (∀ (s : Stmt) depth here, (s.signed depth here).map Prod.snd = s.directives depth here) ∧
    (∀ ss depth here,
      (blockSigned depth here ss).map Prod.snd = blockDirectives depth here ss) := by
  apply tree_induction
  case straight =>
    intro s is his depth here
    rw [Stmt.signed_of_straight his, Stmt.directives_of_straight his, map_snd_signedBy]
  case label =>
    intro span name depth here
    rfl
  case goto =>
    intro span name depth here
    rfl
  case cond =>
    intro span c yes no ihYes ihNo depth here
    cases no with
    | nil =>
      simp only [Stmt.signed, Stmt.directives, List.map_append, map_snd_signedBy, ihYes]
    | cons n no =>
      simp only [Stmt.signed, Stmt.directives, List.map_append, map_snd_signedBy, ihYes, ihNo]
  case loop =>
    intro span kind body ih depth here
    simp only [Stmt.signed, Stmt.directives, List.map_append, map_snd_signedBy, ih,
      List.append_assoc]
  case nil =>
    intro depth here
    rfl
  case cons =>
    intro s ss ihs ihss depth here
    simp only [blockSigned, blockDirectives, List.map_append, ihs, ihss]

theorem mem_signedBy {s t : Stmt} {d : Directive} {ds : List Directive} :
    (t, d) ∈ signedBy s ds ↔ t = s ∧ d ∈ ds := by
  simp only [signedBy, List.mem_map, Prod.mk.injEq]
  constructor
  · rintro ⟨d', hd, rfl, rfl⟩
    exact ⟨rfl, hd⟩
  · rintro ⟨rfl, hd⟩
    exact ⟨d, hd, rfl, rfl⟩

theorem mem_flat_of_signed :
    (∀ (s : Stmt) depth here t d, (t, d) ∈ s.signed depth here → t ∈ s.flat) ∧
    (∀ ss depth here t d, (t, d) ∈ blockSigned depth here ss → t ∈ flatBlock ss) := by
  apply tree_induction
  case straight =>
    intro s is his depth here t d h
    rw [Stmt.signed_of_straight his] at h
    rw [(mem_signedBy.1 h).1]
    exact s.mem_flat
  case label =>
    intro span name depth here t d h
    rw [(mem_signedBy.1 h).1]
    exact Stmt.mem_flat _
  case goto =>
    intro span name depth here t d h
    rw [(mem_signedBy.1 h).1]
    exact Stmt.mem_flat _
  case cond =>
    intro span c yes no ihYes ihNo depth here t d h
    rw [Stmt.flat, List.mem_cons, List.mem_append]
    cases no with
    | nil =>
      simp only [Stmt.signed, List.mem_append, mem_signedBy] at h
      rcases h with ⟨rfl, -⟩ | h
      · exact .inl rfl
      · exact .inr (.inl (ihYes _ _ _ _ h))
    | cons n no =>
      simp only [Stmt.signed, List.mem_append, mem_signedBy] at h
      rcases h with ((⟨rfl, -⟩ | h) | ⟨rfl, -⟩) | h
      · exact .inl rfl
      · exact .inr (.inl (ihYes _ _ _ _ h))
      · exact .inl rfl
      · exact .inr (.inr (ihNo _ _ _ _ h))
  case loop =>
    intro span kind body ih depth here t d h
    simp only [Stmt.signed, List.mem_append, mem_signedBy] at h
    rw [Stmt.flat, List.mem_cons]
    rcases h with (⟨rfl, -⟩ | h) | ⟨rfl, -⟩
    · exact .inl rfl
    · exact .inr (ih _ _ _ _ h)
    · exact .inl rfl
  case nil =>
    intro depth here t d h
    cases h
  case cons =>
    intro s ss ihs ihss depth here t d h
    rw [blockSigned, List.mem_append] at h
    rw [flatBlock, List.mem_append]
    exact h.imp (ihs _ _ _ _) (ihss _ _ _ _)

/-! ## Marks in front of code -/

def Directive.mark? : Directive → Option Span
  | .mark span => some span
  | _ => none

/-- The span of the last mark. -/
def lastMark? (ds : List Directive) : Option Span :=
  (ds.filterMap Directive.mark?).getLast?

theorem lastMark?_append (ds ds' : List Directive) :
    lastMark? (ds ++ ds') = (lastMark? ds').or (lastMark? ds) := by
  rw [lastMark?, List.filterMap_append, List.getLast?_append]
  rfl

/-- In front of each instruction that is not a mere jump, the last mark is the one of the statement
that the instruction is written for. -/
def Marked (ts : List (Stmt × Directive)) : Prop :=
  ∀ front back s i, ts = front ++ (s, .emit i) :: back → (∀ target, i ≠ .branch .always target) →
    lastMark? (front.map Prod.snd) = some s.span

theorem marked_nil : Marked [] := by
  intro front back s i h
  cases front <;> cases h

theorem Marked.append {ts ts' : List (Stmt × Directive)} (h : Marked ts) (h' : Marked ts') :
    Marked (ts ++ ts') := by
  intro front back s i heq hi
  rcases List.append_eq_append_iff.1 heq with ⟨gap, rfl, hts'⟩ | ⟨gap, hts, hback⟩
  · -- the instruction stands in the second part, and so does the mark
    rw [List.map_append, lastMark?_append, h' gap back s i hts' hi]
    rfl
  · cases gap with
    | nil =>
      have hmark := h' [] back s i hback.symm hi
      cases hmark
    | cons t gap =>
      obtain ⟨rfl, -⟩ := List.cons.inj hback
      exact h front gap s i hts hi

theorem marked_own (s : Stmt) (is : List Instr) :
    Marked (signedBy s (.mark s.span :: emits is)) := by
  intro front back t i heq _
  have ht : (t, .emit i) ∈ signedBy s (.mark s.span :: emits is) := by
    rw [heq]
    exact List.mem_append_right _ List.mem_cons_self
  rw [(mem_signedBy.1 ht).1]
  have heq := congrArg (List.map Prod.snd) heq
  rw [map_snd_signedBy, List.map_append] at heq
  cases hfront : front.map Prod.snd with
  | nil =>
    rw [hfront] at heq
    cases heq
  | cons d ds =>
    rw [hfront] at heq
    obtain ⟨rfl, hds⟩ := List.cons.inj heq
    -- no further mark in between
    have hnone : ds.filterMap Directive.mark? = [] := by
      refine List.filterMap_eq_nil_iff.2 fun d hd => ?_
      have hmem : d ∈ emits is := hds ▸ List.mem_append_left _ hd
      obtain ⟨j, -, rfl⟩ := List.mem_map.1 hmem
      rfl
    have hmark : (Directive.mark s.span :: ds).filterMap Directive.mark? = [s.span] :=
      congrArg (s.span :: ·) hnone
    rw [lastMark?, hmark]
    rfl

theorem marked_of_jumps {ts : List (Stmt × Directive)}
    (h : ∀ s i, (s, .emit i) ∈ ts → ∃ target, i = .branch .always target) : Marked ts := by
  rintro front back s i rfl hi
  obtain ⟨target, rfl⟩ := h s i (List.mem_append_right _ List.mem_cons_self)
  exact absurd rfl (hi target)

theorem marked_jump (s : Stmt) (target : Nat) :
    Marked (signedBy s (emits [.branch .always target])) := by
  refine marked_of_jumps fun t i h => ⟨target, ?_⟩
  cases List.mem_singleton.1 (mem_signedBy.1 h).2
  rfl

theorem marked_return (span : Span) (kind : Loop) (body : List Stmt) (depth top : Nat) :
    Marked (signedBy (.loop span kind body)
      (kind.returnMark span ++ emits (kind.nextCode depth ++ [.branch .always top]))) := by
  cases kind with
  | whileTrue c => exact marked_jump _ top
  | repeatUntil c => exact marked_jump _ top
  -- a loop that counts marks its code behind the body once more
  | count target first last => exact marked_own (.loop span (.count target first last) body) _
  | times n => exact marked_own (.loop span (.times n) body) _

theorem marked_tree :
    (∀ (s : Stmt) depth here, Marked (s.signed depth here)) ∧
    (∀ ss depth here, Marked (blockSigned depth here ss)) := by
  apply tree_induction
  case straight =>
    intro s is his depth here
    rw [Stmt.signed_of_straight his]
    exact marked_own s is
  case label =>
    intro span name depth here
    refine marked_of_jumps fun t i h => ?_
    cases List.mem_singleton.1 (mem_signedBy.1 h).2
  case goto =>
    intro span name depth here
    refine marked_of_jumps fun t i h => ?_
    have hmem : .emit i ∈ [Directive.mark span, .goto span name] := (mem_signedBy.1 h).2
    simp at hmem
  case cond =>
    intro span c yes no ihYes ihNo depth here
    cases no with
    | nil =>
      simp only [Stmt.signed]
      exact (marked_own (.cond span c yes []) _).append (ihYes _ _)
    | cons n no =>
      simp only [Stmt.signed]
      refine ((Marked.append ?_ (ihYes _ _)).append (marked_jump _ _)).append (ihNo _ _)
      exact marked_own (.cond span c yes (n :: no)) _
  case loop =>
    intro span kind body ih depth here
    simp only [Stmt.signed]
    refine (Marked.append ?_ (ih _ _)).append (marked_return span kind body depth _)
    exact marked_own (.loop span kind body) _
  case nil =>
    intro depth here
    exact marked_nil
  case cons =>
    intro s ss ihs ihss depth here
    rw [blockSigned]
    exact (ihs _ _).append (ihss _ _)

/-! ## Marks in a program -/

namespace Assembly

theorem map_snd_marksOf (here : Nat) (ds : List Directive) :
    (marksOf here ds).map Prod.snd = ds.filterMap Directive.mark? := by
  induction ds generalizing here with
  | nil => rfl
  | cons d ds ih =>
    cases d with
    | mark span => exact congrArg (span :: ·) (ih _)
    | _ => exact ih _

theorem le_codeLength_of_mem_marksOf {here : Nat} {ds : List Directive} {mark : Nat × Span}
    (h : mark ∈ marksOf here ds) : mark.1 ≤ here + codeLength ds := by
  obtain ⟨⟨x, d⟩, hd, heq⟩ := List.mem_filterMap.1 h
  obtain ⟨front, back, rfl, rfl⟩ := mem_located_iff.1 hd
  cases d with
  | mark span =>
    cases heq
    rw [codeLength_append, ← Nat.add_assoc]
    exact Nat.le_add_right _ _
  | _ => cases heq

end Assembly

/-- The statement found for an instruction is the last one marked in front of it. -/
theorem Program.Linked.spanAt {p : Program} {front back : List Directive} {d : Directive}
    (h : p.Linked (front ++ d :: back)) (hd : codeLength [d] = 1) :
    p.spanAt? (codeLength front) = lastMark? front := by
  have hmarks : p.marks.toList =
      Assembly.marksOf 0 front ++ Assembly.marksOf (codeLength front) (d :: back) := by
    rw [h.marks, Assembly.marksOf_append, Nat.zero_add]
  have hback : ∀ mark ∈ (Assembly.marksOf (codeLength front) (d :: back)).reverse,
      ¬ (decide (mark.1 ≤ codeLength front)) = true := by
    intro mark hmem
    have hmem : mark ∈ Assembly.marksOf (codeLength front) ([d] ++ back) := List.mem_reverse.1 hmem
    rw [Assembly.marksOf_append, hd, List.mem_append] at hmem
    rw [decide_eq_true_iff, Nat.not_le]
    rcases hmem with hmem | hmem
    · -- code is no mark
      cases d with
      | mark span => cases hd
      | _ => cases hmem
    · exact Assembly.le_of_mem_marksOf hmem
  have hfront : (Assembly.marksOf 0 front).reverse.find? (fun mark => mark.1 ≤ codeLength front) =
      (Assembly.marksOf 0 front).reverse.head? := by
    cases hrev : (Assembly.marksOf 0 front).reverse with
    | nil => rfl
    | cons mark marks =>
      have hmem : mark ∈ (Assembly.marksOf 0 front).reverse := hrev ▸ List.mem_cons_self
      have hle := Assembly.le_codeLength_of_mem_marksOf (List.mem_reverse.1 hmem)
      rw [Nat.zero_add] at hle
      simp only [List.find?_cons, hle, decide_true, List.head?_cons]
  rw [spanAt?_eq, hmarks, List.reverse_append, List.find?_append, List.find?_eq_none.2 hback,
    Option.none_or, hfront, List.head?_reverse, ← List.getLast?_map, Assembly.map_snd_marksOf]
  rfl

end Handheld
