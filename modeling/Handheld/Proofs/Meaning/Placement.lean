import Handheld.Proofs.Code.Names
import Handheld.Proofs.Meaning.Instructions

/-!
# Where in the code the rest of a program is

An address of the code stands for what is left to do in the tree: the code of
the next statements begins there, and behind it control gets to the code of the
frames, one after the other. A label stands for what is left to do behind it.
-/

namespace Handheld

namespace Program

def address (p : Program) (name : String) : Nat := (p.label? name).getD 0

/-- The code of some directives stands in the program from the address `x` on. -/
def Holds (p : Program) (x : Nat) (ds : List Directive) : Prop :=
  p.HasCode x (instructions p.address ds)

variable {p : Program} {x : Nat} {ds ds' : List Directive}

theorem holds_append :
    p.Holds x (ds ++ ds') ↔ p.Holds x ds ∧ p.Holds (x + codeLength ds) ds' := by
  unfold Holds
  rw [instructions_append, HasCode.append, length_instructions]

theorem holds_emits {is : List Instr} : p.Holds x (emits is) ↔ p.HasCode x is := by
  unfold Holds
  rw [instructions_emits]

theorem holds_mark {span : Span} : p.Holds x (.mark span :: ds) ↔ p.Holds x ds := .rfl

theorem Linked.holds (h : p.Linked ds) : p.Holds 0 ds := by
  intro k i hi
  rw [Nat.zero_add, ← Array.getElem?_toList, h.code]
  exact hi

/-! ## Blocks and loops in place -/

/-- The statement can be carried out as a part of the program. -/
structure Fits (p : Program) (s : Stmt) : Prop where
  proper : s.Proper
  defined : ∀ span name, s = .goto span name → (p.label? name).isSome

/-- The code of a block begins at the address `x`. -/
structure BlockAt (p : Program) (depth x : Nat) (ss : List Stmt) : Prop where
  code : p.Holds x (blockDirectives depth x ss)
  fits : ∀ s ∈ flatBlock ss, p.Fits s

structure StmtAt (p : Program) (depth x : Nat) (s : Stmt) : Prop where
  code : p.Holds x (s.directives depth x)
  fits : ∀ t ∈ s.flat, p.Fits t

structure LoopAt (p : Program) (depth here : Nat) (kind : Loop) (body : List Stmt) : Prop where
  proper : kind.Proper
  test : p.HasCode (kind.top depth here)
    (kind.testCode depth ++ [.branch kind.leaving (kind.exit depth here (blockSize body))])
  inner : p.BlockAt (kind.depthInside depth) (kind.inside depth here) body
  next : p.HasCode (kind.inside depth here + blockSize body)
    (kind.nextCode depth ++ [.branch .always (kind.top depth here)])

/-- From one address to another there are only jumps. -/
inductive Leads (p : Program) : Nat → Nat → Prop
  | here (x : Nat) : Leads p x x
  | jump {x y z : Nat} : p.code[x]? = some (.branch .always y) → Leads p y z → Leads p x z

/-- The frames are what is left to do at an address. -/
inductive Behind (p : Program) : Nat → List Frame → Prop
  | stop {x : Nat} : p.Leads x p.size → Behind p x []
  | rest {x y : Nat} {ss : List Stmt} {fs : List Frame} : p.Leads x y →
      p.BlockAt (timesDepth fs) y ss → Behind p (y + blockSize ss) fs → Behind p x (.rest ss :: fs)
  | again {x here : Nat} {kind : Loop} {body : List Stmt} {fs : List Frame} :
      p.Leads x (kind.inside (timesDepth fs) here + blockSize body) →
      p.LoopAt (timesDepth fs) here kind body →
      Behind p (kind.exit (timesDepth fs) here (blockSize body)) fs →
      Behind p x (.again kind body :: fs)

/-- Statements and then frames are what is left to do at an address. -/
structure Resumes (p : Program) (x : Nat) (ss : List Stmt) (fs : List Frame) : Prop where
  block : p.BlockAt (timesDepth fs) x ss
  behind : p.Behind (x + blockSize ss) fs

theorem timesDepth_again (kind : Loop) (body : List Stmt) (fs : List Frame) :
    timesDepth (.again kind body :: fs) = kind.depthInside (timesDepth fs) := by
  cases kind <;> rfl

theorem Behind.of_jump {y : Nat} {fs : List Frame} (hx : p.code[x]? = some (.branch .always y))
    (h : p.Behind y fs) : p.Behind x fs := by
  cases h with
  | stop hleads => exact .stop (.jump hx hleads)
  | rest hleads hblock hbehind => exact .rest (.jump hx hleads) hblock hbehind
  | again hleads hloop hbehind => exact .again (.jump hx hleads) hloop hbehind

theorem Behind.of_leads {y : Nat} {fs : List Frame} (hleads : p.Leads x y) (h : p.Behind y fs) :
    p.Behind x fs := by
  induction hleads with
  | here x => exact h
  | jump hx _ ih => exact (ih h).of_jump hx

theorem Resumes.rest {ss : List Stmt} {fs : List Frame} (h : p.Resumes x ss fs) :
    p.Behind x (.rest ss :: fs) :=
  .rest (.here x) h.block h.behind

/-! ## Taking code apart -/

theorem BlockAt.cons {depth : Nat} {s : Stmt} {ss : List Stmt} (h : p.BlockAt depth x (s :: ss)) :
    p.StmtAt depth x s ∧ p.BlockAt depth (x + s.size) ss := by
  obtain ⟨hs, hss⟩ := List.forall_mem_append.1 h.fits
  have hlength := codeLength_tree.1 s depth x
  obtain ⟨hcode, hcode'⟩ := holds_append.1 h.code
  rw [hlength] at hcode'
  exact ⟨⟨hcode, hs⟩, ⟨hcode', hss⟩⟩

theorem Resumes.cons {s : Stmt} {ss : List Stmt} {fs : List Frame} (h : p.Resumes x (s :: ss) fs) :
    p.StmtAt (timesDepth fs) x s ∧ p.Resumes (x + s.size) ss fs := by
  obtain ⟨hs, hss⟩ := h.block.cons
  refine ⟨hs, hss, ?_⟩
  rw [Nat.add_assoc]
  exact h.behind

theorem StmtAt.straight {depth : Nat} {s : Stmt} {is : List Instr} (h : p.StmtAt depth x s)
    (his : s.straight? = some is) : p.HasCode x is := by
  have hcode := h.code
  rw [Stmt.directives_of_straight his, holds_mark, holds_emits] at hcode
  exact hcode

/-- Where the second block of a condition at `x` begins. -/
def elseAddress (x : Nat) (c : Expr) (yes : List Stmt) : List Stmt → Nat
  | [] => x + c.code.length + 1 + blockSize yes
  | _ :: _ => x + c.code.length + 1 + blockSize yes + 1

theorem elseAddress_add (c : Expr) (span : Span) (yes no : List Stmt) :
    elseAddress x c yes no + blockSize no = x + (Stmt.cond span c yes no).size := by
  cases no with
  | nil =>
    simp only [elseAddress, Stmt.size, blockSize]
    omega
  | cons n no =>
    rw [Stmt.size]
    · simp only [elseAddress]
      omega
    · exact List.cons_ne_nil n no

theorem StmtAt.blocks {depth : Nat} {span : Span} {c : Expr} {yes no : List Stmt}
    (h : p.StmtAt depth x (.cond span c yes no)) :
    p.HasCode x (c.code ++ [.branch .ifFalse (elseAddress x c yes no)]) ∧
      p.BlockAt depth (x + c.code.length + 1) yes ∧
      p.BlockAt depth (elseAddress x c yes no) no ∧
      p.Leads (x + c.code.length + 1 + blockSize yes) (elseAddress x c yes no + blockSize no) := by
  obtain ⟨hc, hblocks⟩ := List.forall_mem_cons.1 h.fits
  obtain ⟨hyes, hno⟩ := List.forall_mem_append.1 hblocks
  have hsizeYes := codeLength_tree.2 yes
  have hcode := h.code
  cases no with
  | nil =>
    rw [Stmt.directives, holds_append, holds_mark, holds_emits] at hcode
    simp only [codeLength_mark, codeLength_emits, List.length_append, List.length_singleton,
      ← Nat.add_assoc] at hcode
    refine ⟨hcode.1, ⟨hcode.2, hyes⟩, ⟨?_, hno⟩, .here _⟩
    intro k i hi
    cases hi
  | cons n no =>
    rw [Stmt.directives] at hcode
    · rw [holds_append, holds_append, holds_append, holds_mark, holds_emits, holds_emits] at hcode
      simp only [codeLength_append, codeLength_mark, codeLength_emits, List.length_append,
        List.length_singleton, hsizeYes, ← Nat.add_assoc] at hcode
      obtain ⟨⟨⟨htest, hcodeYes⟩, hjump⟩, hcodeNo⟩ := hcode
      exact ⟨htest, ⟨hcodeYes, hyes⟩, ⟨hcodeNo, hno⟩, .jump hjump.head (.here _)⟩
    · exact List.cons_ne_nil n no

theorem StmtAt.cond {span : Span} {c : Expr} {yes no ss : List Stmt} {fs : List Frame}
    (h : p.StmtAt (timesDepth fs) x (.cond span c yes no))
    (hss : p.Resumes (x + (Stmt.cond span c yes no).size) ss fs) :
    p.HasCode x (c.code ++ [.branch .ifFalse (elseAddress x c yes no)]) ∧
      p.Resumes (x + c.code.length + 1) yes (.rest ss :: fs) ∧
      p.Resumes (elseAddress x c yes no) no (.rest ss :: fs) := by
  obtain ⟨htest, hyes, hno, hleads⟩ := h.blocks
  have hbehind : p.Behind (elseAddress x c yes no + blockSize no) (.rest ss :: fs) := by
    rw [elseAddress_add c span]
    exact hss.rest
  exact ⟨htest, ⟨hyes, hbehind.of_leads hleads⟩, ⟨hno, hbehind⟩⟩

theorem StmtAt.loop {depth : Nat} {span : Span} {kind : Loop} {body : List Stmt}
    (h : p.StmtAt depth x (.loop span kind body)) :
    p.HasCode x (kind.startCode depth) ∧ p.LoopAt depth x kind body := by
  obtain ⟨hk, hbody⟩ := List.forall_mem_cons.1 h.fits
  have hsize := codeLength_tree.2 body
  have hmark : codeLength (kind.returnMark span) = 0 := kind.codeLength_returnMark span
  have hcode := h.code
  rw [Stmt.directives, holds_append, holds_append, holds_append, holds_mark, holds_emits,
    holds_emits, List.append_assoc, HasCode.append] at hcode
  simp only [codeLength_append, codeLength_mark, codeLength_emits, List.length_append,
    List.length_singleton, hsize, hmark, ← Nat.add_assoc, Nat.add_zero] at hcode
  obtain ⟨⟨⟨⟨hstart, htest⟩, hinner⟩, -⟩, hnext⟩ := hcode
  exact ⟨hstart, ⟨hk.proper, htest, ⟨hinner, hbody⟩, hnext⟩⟩

theorem LoopAt.resumes {here : Nat} {kind : Loop} {body : List Stmt} {fs : List Frame}
    (h : p.LoopAt (timesDepth fs) here kind body)
    (hexit : p.Behind (kind.exit (timesDepth fs) here (blockSize body)) fs) :
    p.Resumes (kind.inside (timesDepth fs) here) body (.again kind body :: fs) := by
  refine ⟨?_, .again (.here _) h hexit⟩
  rw [timesDepth_again]
  exact h.inner

theorem StmtAt.inside {span : Span} {kind : Loop} {body ss : List Stmt} {fs : List Frame}
    (h : p.StmtAt (timesDepth fs) x (.loop span kind body))
    (hss : p.Resumes (x + (Stmt.loop span kind body).size) ss fs) :
    p.Resumes (kind.inside (timesDepth fs) x) body (.again kind body :: .rest ss :: fs) := by
  have hexit : p.Behind (kind.exit (timesDepth fs) x (blockSize body)) (.rest ss :: fs) := by
    rw [kind.exit_eq]
    exact hss.rest
  have hloop : p.LoopAt (timesDepth (.rest ss :: fs)) x kind body := h.loop.2
  exact hloop.resumes hexit

/-! ## Places -/

end Program

/-- A statement, the address of its code, and how many loops of the form `For(n)` are around it. -/
structure Placed where
  depth : Nat
  here : Nat
  stmt : Stmt

mutual

/-- The statement at the address `here` and all statements in it, each with its place. -/
def Stmt.placed (depth here : Nat) : Stmt → List Placed
  | .cond span c yes no =>
    ⟨depth, here, .cond span c yes no⟩ :: (placedBlock depth (here + c.code.length + 1) yes ++
      placedBlock depth (Program.elseAddress here c yes no) no)
  | .loop span kind body =>
    ⟨depth, here, .loop span kind body⟩ ::
      placedBlock (kind.depthInside depth) (kind.inside depth here) body
  | s => [⟨depth, here, s⟩]

def placedBlock (depth here : Nat) : List Stmt → List Placed
  | [] => []
  | s :: ss => s.placed depth here ++ placedBlock depth (here + s.size) ss

end

theorem Stmt.placed_of_straight {s : Stmt} {is : List Instr} (h : s.straight? = some is)
    (depth here : Nat) : s.placed depth here = [⟨depth, here, s⟩] := by
  cases s with
  | cond | loop | label | goto => cases h
  | _ => rfl

theorem map_stmt_placed :
    (∀ (s : Stmt) (depth here : Nat), (s.placed depth here).map (·.stmt) = s.flat) ∧
    (∀ (ss : List Stmt) (depth here : Nat),
      (placedBlock depth here ss).map (·.stmt) = flatBlock ss) := by
  apply tree_induction
  case straight =>
    intro s is his depth here
    rw [Stmt.placed_of_straight his, Stmt.flat_of_straight his]
    rfl
  case label | goto =>
    intro span name depth here
    rfl
  case cond =>
    intro span c yes no ihYes ihNo depth here
    rw [Stmt.placed, Stmt.flat, List.map_cons, List.map_append, ihYes, ihNo]
  case loop =>
    intro span kind body ih depth here
    rw [Stmt.placed, Stmt.flat, List.map_cons, ih]
  case nil =>
    intro depth here
    rfl
  case cons =>
    intro s ss ihs ihss depth here
    rw [placedBlock, flatBlock, List.map_append, ihs, ihss]

namespace Program

variable {p : Program} {x : Nat}

/-- The code of a statement begins at its place. -/
theorem stmtAt_of_placed (p : Program) :
    (∀ (s : Stmt) (depth x : Nat), p.StmtAt depth x s →
      ∀ q ∈ s.placed depth x, p.StmtAt q.depth q.here q.stmt) ∧
    (∀ (ss : List Stmt) (depth x : Nat), p.BlockAt depth x ss →
      ∀ q ∈ placedBlock depth x ss, p.StmtAt q.depth q.here q.stmt) := by
  apply tree_induction
  case straight =>
    intro s is his depth x hs q hq
    rw [Stmt.placed_of_straight his, List.mem_singleton] at hq
    exact hq ▸ hs
  case label | goto =>
    intro span name depth x hs q hq
    exact List.mem_singleton.1 hq ▸ hs
  case cond =>
    intro span c yes no ihYes ihNo depth x hs q hq
    obtain ⟨-, hyes, hno, -⟩ := hs.blocks
    rw [Stmt.placed, List.mem_cons, List.mem_append] at hq
    rcases hq with rfl | hq | hq
    · exact hs
    · exact ihYes _ _ hyes q hq
    · exact ihNo _ _ hno q hq
  case loop =>
    intro span kind body ih depth x hs q hq
    rw [Stmt.placed, List.mem_cons] at hq
    rcases hq with rfl | hq
    · exact hs
    · exact ih _ _ hs.loop.2.inner q hq
  case nil =>
    intro depth x _ q hq
    cases hq
  case cons =>
    intro s ss ihs ihss depth x hblock q hq
    obtain ⟨hs, hss⟩ := hblock.cons
    rw [placedBlock, List.mem_append] at hq
    rcases hq with hq | hq
    · exact ihs _ _ hs q hq
    · exact ihss _ _ hss q hq

theorem BlockAt.exists_place {depth : Nat} {ss : List Stmt} {s : Stmt}
    (h : p.BlockAt depth x ss) (hs : s ∈ flatBlock ss) : ∃ depth y, p.StmtAt depth y s := by
  rw [← map_stmt_placed.2 ss depth x, List.mem_map] at hs
  obtain ⟨q, hq, rfl⟩ := hs
  exact ⟨q.depth, q.here, (stmtAt_of_placed p).2 ss depth x h q hq⟩

/-! ## Labels -/

theorem mem_located_cond {depth y : Nat} {d : Directive} {span : Span} {c : Expr}
    {yes no : List Stmt}
    (h : (y, d) ∈ located (x + c.code.length + 1)
        (blockDirectives depth (x + c.code.length + 1) yes) ∨
      (y, d) ∈ located (elseAddress x c yes no)
        (blockDirectives depth (elseAddress x c yes no) no)) :
    (y, d) ∈ located x ((Stmt.cond span c yes no).directives depth x) := by
  have hsize := codeLength_tree.2 yes
  cases no with
  | nil =>
    have h := h.resolve_right nofun
    rw [Stmt.directives, located_append, List.mem_append]
    right
    simpa [← Nat.add_assoc] using h
  | cons n no =>
    rw [Stmt.directives]
    · simp only [located_append, List.mem_append, codeLength_append, codeLength_mark,
        codeLength_emits, List.length_append, List.length_singleton, hsize, ← Nat.add_assoc]
      rcases h with h | h
      · exact .inl (.inl (.inr h))
      · exact .inr h
    · exact List.cons_ne_nil n no

theorem mem_located_loop {depth y : Nat} {d : Directive} {span : Span} {kind : Loop}
    {body : List Stmt}
    (h : (y, d) ∈ located (kind.inside depth x)
      (blockDirectives (kind.depthInside depth) (kind.inside depth x) body)) :
    (y, d) ∈ located x ((Stmt.loop span kind body).directives depth x) := by
  rw [Stmt.directives]
  simp only [located_append, List.mem_append, codeLength_mark, codeLength_emits,
    List.length_append, List.length_singleton, ← Nat.add_assoc]
  exact .inl (.inl (.inr h))

/-- What is left to do behind a label is what the code at its address does. -/
theorem behindLabel_sound (p : Program) (name : String) :
    (∀ (s : Stmt) (ss : List Stmt) (fs : List Frame) (x : Nat) (todo : List Stmt)
      (fs' : List Frame), p.StmtAt (timesDepth fs) x s → p.Resumes (x + s.size) ss fs →
      s.behindLabel? name ss fs = some (todo, fs') →
      ∃ y span, (y, .label span name) ∈ located x (s.directives (timesDepth fs) x) ∧
        p.Resumes y todo fs') ∧
    (∀ (ss : List Stmt) (fs : List Frame) (x : Nat) (todo : List Stmt) (fs' : List Frame),
      p.Resumes x ss fs → behindLabel? name fs ss = some (todo, fs') →
      ∃ y span, (y, .label span name) ∈ located x (blockDirectives (timesDepth fs) x ss) ∧
        p.Resumes y todo fs') := by
  apply tree_induction
  case straight =>
    intro s is his ss fs x todo fs' _ _ hlabel
    cases s with
    | cond | loop | label | goto => cases his
    | _ => cases hlabel
  case label =>
    intro span other ss fs x todo fs' _ hss hlabel
    rw [Stmt.behindLabel?] at hlabel
    split at hlabel
    · next heq =>
      cases hlabel
      subst heq
      exact ⟨x, span, List.mem_cons_self, hss⟩
    · cases hlabel
  case goto =>
    intro span other ss fs x todo fs' _ _ hlabel
    cases hlabel
  case cond =>
    intro span c yes no ihYes ihNo ss fs x todo fs' hs hss hlabel
    obtain ⟨-, hyes, hno⟩ := hs.cond hss
    rw [Stmt.behindLabel?] at hlabel
    rcases Option.or_eq_some_iff.1 hlabel with hlabel | ⟨-, hlabel⟩
    · obtain ⟨y, span', hy, hresumes⟩ := ihYes _ _ _ _ hyes hlabel
      exact ⟨y, span', mem_located_cond (.inl hy), hresumes⟩
    · obtain ⟨y, span', hy, hresumes⟩ := ihNo _ _ _ _ hno hlabel
      exact ⟨y, span', mem_located_cond (.inr hy), hresumes⟩
  case loop =>
    intro span kind body ih ss fs x todo fs' hs hss hlabel
    obtain ⟨y, span', hy, hresumes⟩ := ih _ _ _ _ (hs.inside hss) hlabel
    rw [timesDepth_again] at hy
    exact ⟨y, span', mem_located_loop hy, hresumes⟩
  case nil =>
    intro fs x todo fs' _ hlabel
    cases hlabel
  case cons =>
    intro s ss ihs ihss fs x todo fs' hresumes hlabel
    obtain ⟨hs, hss⟩ := hresumes.cons
    have hlength := codeLength_tree.1 s (timesDepth fs) x
    rw [behindLabel?] at hlabel
    rw [blockDirectives, located_append, hlength]
    rcases Option.or_eq_some_iff.1 hlabel with hlabel | ⟨-, hlabel⟩
    · obtain ⟨y, span, hy, hresumes⟩ := ihs ss fs x todo fs' hs hss hlabel
      exact ⟨y, span, List.mem_append_left _ hy, hresumes⟩
    · obtain ⟨y, span, hy, hresumes⟩ := ihss fs _ todo fs' hss hlabel
      exact ⟨y, span, List.mem_append_right _ hy, hresumes⟩

theorem behindLabel_isSome (name : String) :
    (∀ (s : Stmt) (ss : List Stmt) (fs : List Frame) (span : Span),
      .label span name ∈ s.flat → (s.behindLabel? name ss fs).isSome) ∧
    (∀ (ss : List Stmt) (fs : List Frame) (span : Span),
      .label span name ∈ flatBlock ss → (behindLabel? name fs ss).isSome) := by
  apply tree_induction
  case straight =>
    intro s is his ss fs span hmem
    rw [Stmt.flat_of_straight his, List.mem_singleton] at hmem
    subst hmem
    cases his
  case label =>
    intro span other ss fs span' hmem
    rw [Stmt.flat, List.mem_singleton] at hmem
    cases hmem
    simp [Stmt.behindLabel?]
  case goto =>
    intro span other ss fs span' hmem
    rw [Stmt.flat, List.mem_singleton] at hmem
    cases hmem
  case cond =>
    intro span c yes no ihYes ihNo ss fs span' hmem
    rw [Stmt.behindLabel?, Option.isSome_or, Bool.or_eq_true]
    rcases List.mem_cons.1 hmem with hmem | hmem
    · cases hmem
    · rcases List.mem_append.1 hmem with hmem | hmem
      · exact .inl (ihYes _ span' hmem)
      · exact .inr (ihNo _ span' hmem)
  case loop =>
    intro span kind body ih ss fs span' hmem
    rcases List.mem_cons.1 hmem with hmem | hmem
    · cases hmem
    · exact ih _ span' hmem
  case nil =>
    intro fs span hmem
    cases hmem
  case cons =>
    intro s ss ihs ihss fs span hmem
    rw [behindLabel?, Option.isSome_or, Bool.or_eq_true]
    rcases List.mem_append.1 hmem with hmem | hmem
    · exact .inl (ihs ss fs span hmem)
    · exact .inr (ihss fs span hmem)

/-! ## Whole programs -/

variable {program : List Stmt}

theorem fits_of_tree (hs : ∀ s ∈ flatBlock program, s.Proper)
    (h : ofTree program = .ok p) : ∀ s ∈ flatBlock program, p.Fits s := by
  have hlinked := linked_of_tree hs h
  intro s hmem
  refine ⟨hs s hmem, ?_⟩
  rintro span name rfl
  have hdefined := hlinked.defined span name (goto_mem_blockDirectives.2 hmem)
  obtain ⟨span', hlabel⟩ := Assembly.mem_labelNames.1 hdefined
  obtain ⟨y, hy⟩ := exists_mem_located 0 hlabel
  exact Option.isSome_iff_exists.2 ⟨y, (hlinked.label name y).2 ⟨span', hy⟩⟩

theorem resumes_start (hs : ∀ s ∈ flatBlock program, s.Proper) (h : ofTree program = .ok p) :
    p.Resumes 0 program [] := by
  have hlinked := linked_of_tree hs h
  have hsize : p.size = blockSize program := by
    rw [hlinked.size_eq, codeLength_tree.2 program]
  refine ⟨⟨hlinked.holds, fits_of_tree hs h⟩, .stop ?_⟩
  rw [Nat.zero_add, ← hsize]
  exact .here _

theorem resumes_label (hs : ∀ s ∈ flatBlock program, s.Proper) (h : ofTree program = .ok p)
    {name : String} (hname : (p.label? name).isSome) :
    ∃ todo fs, behindLabel? name [] program = some (todo, fs) ∧
      p.Resumes (p.address name) todo fs := by
  have hlinked := linked_of_tree hs h
  obtain ⟨x, hx⟩ := Option.isSome_iff_exists.1 hname
  obtain ⟨span, hlabel⟩ := (hlinked.label name x).1 hx
  have hmem := label_mem_blockDirectives.1 (mem_of_mem_located hlabel)
  obtain ⟨⟨todo, fs⟩, hfound⟩ :=
    Option.isSome_iff_exists.1 ((behindLabel_isSome name).2 program [] span hmem)
  obtain ⟨y, span', hy, hresumes⟩ :=
    (behindLabel_sound p name).2 program [] 0 todo fs (resumes_start hs h) hfound
  -- The label has one address, so the one that was found is the one that the jump names.
  have haddress : p.address name = y := by
    rw [address, (hlinked.label name y).2 ⟨span', hy⟩, Option.getD_some]
  exact ⟨todo, fs, hfound, haddress ▸ hresumes⟩

end Program

end Handheld
