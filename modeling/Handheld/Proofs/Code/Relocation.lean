import Handheld.Proofs.Code.Depth

/-!
# Code at another address

A tree that stands behind another one gets the code it has alone, further on.
Its branches lead further on by as much, its labels and the places of its
statements are where they were within it. So the program of two trees in a row
contains the programs of both.
-/

namespace Handheld

/-! ## Moving code -/

/-- An instruction in code that has been moved on by `k`. -/
def Instr.shifted (k : Nat) : Instr → Instr
  | .branch kind target => .branch kind (k + target)
  | i => i

def Directive.shifted (k : Nat) : Directive → Directive
  | .emit i => .emit (i.shifted k)
  | d => d

section

variable {k : Nat}

theorem Instr.shifted_zero (i : Instr) : i.shifted 0 = i := by
  cases i with
  | branch kind target => simp [Instr.shifted]
  | _ => rfl

theorem Directive.shifted_zero (d : Directive) : d.shifted 0 = d := by
  cases d with
  | emit i => simp [Directive.shifted, i.shifted_zero]
  | _ => rfl

theorem codeLength_shifted (ds : List Directive) :
    codeLength (ds.map (.shifted k)) = codeLength ds := by
  rw [codeLength, List.countP_map]
  congr 1
  funext d
  cases d <;> rfl

theorem Instr.Straight.shifted_eq {i : Instr} (h : i.Straight) : i.shifted k = i := by
  cases i with
  | branch => exact absurd h id
  | _ => rfl

theorem Onward.map_shifted {is : List Instr} (h : Onward is) :
    (emits is).map (.shifted k) = emits is := by
  rw [emits, List.map_map]
  refine List.map_congr_left fun i hi => ?_
  simp only [Function.comp_apply, Directive.shifted, (h i hi).shifted_eq]

theorem map_shifted_branch (kind : Branch) (target : Nat) :
    (emits [.branch kind target]).map (.shifted k) = emits [.branch kind (k + target)] := rfl

theorem Loop.map_shifted_returnMark (span : Span) (kind : Loop) :
    (kind.returnMark span).map (.shifted k) = kind.returnMark span := by
  cases kind <;> rfl

theorem shifted_tree (k : Nat) :
    (∀ s : Stmt, (∀ x ∈ s.flat, x.Proper) → ∀ depth here,
      s.directives depth (k + here) = (s.directives depth here).map (.shifted k)) ∧
    (∀ ss : List Stmt, (∀ x ∈ flatBlock ss, x.Proper) → ∀ depth here,
      blockDirectives depth (k + here) ss = (blockDirectives depth here ss).map (.shifted k)) := by
  apply tree_induction
  case straight =>
    intro s is his hs depth here
    rw [Stmt.directives_of_straight his, Stmt.directives_of_straight his, List.map_cons]
    rcases Stmt.onward_straight his (hs s s.mem_flat) with rfl | honward
    · rfl
    · rw [honward.map_shifted]
      rfl
  case label =>
    intro span name _ depth here
    rfl
  case goto =>
    intro span name _ depth here
    rfl
  case cond =>
    intro span c yes no ihYes ihNo hs depth here
    obtain ⟨hc, hs⟩ := List.forall_mem_cons.1 hs
    obtain ⟨hyes, hno⟩ := List.forall_mem_append.1 hs
    have hcode : Onward c.code := Expr.onward_code (e := c) hc
    cases no with
    | nil =>
      simp only [Stmt.directives, emits_append, List.map_append, List.map_cons, hcode.map_shifted,
        map_shifted_branch, Nat.add_assoc, ihYes hyes]
      rfl
    | cons n no =>
      simp only [Stmt.directives, emits_append, List.map_append, List.map_cons, hcode.map_shifted,
        map_shifted_branch, Nat.add_assoc, ihYes hyes, ihNo hno]
      rfl
  case loop =>
    intro span kind body ih hs depth here
    obtain ⟨hk, hbody⟩ := List.forall_mem_cons.1 hs
    simp only [Stmt.directives, emits_append, List.map_append, List.map_cons,
      (kind.onward_start hk depth).map_shifted, (kind.onward_test hk depth).map_shifted,
      (kind.onward_next hk depth).map_shifted, map_shifted_branch, Loop.map_shifted_returnMark,
      Loop.exit, Loop.inside, Loop.top, Nat.add_assoc, ih hbody]
    rfl
  case nil =>
    intro _ depth here
    rfl
  case cons =>
    intro s ss ihs ihss hs depth here
    obtain ⟨hs, hss⟩ := List.forall_mem_append.1 hs
    simp only [blockDirectives, List.map_append, Nat.add_assoc, ihs hs, ihss hss]

end

theorem blockDirectives_append (depth here : Nat) (ss ss' : List Stmt) :
    blockDirectives depth here (ss ++ ss') =
      blockDirectives depth here ss ++ blockDirectives depth (here + blockSize ss) ss' := by
  induction ss generalizing here with
  | nil => rfl
  | cons s ss ih =>
    simp only [List.cons_append, blockDirectives, blockSize, ih, List.append_assoc, Nat.add_assoc]

/-! ## Marks -/

namespace Assembly

theorem marksOf_append (here : Nat) (ds ds' : List Directive) :
    marksOf here (ds ++ ds') = marksOf here ds ++ marksOf (here + codeLength ds) ds' := by
  rw [marksOf, located_append, List.filterMap_append]
  rfl

theorem marksOf_shifted (k here : Nat) (ds : List Directive) :
    marksOf (k + here) (ds.map (.shifted k)) =
      (marksOf here ds).map fun mark => (k + mark.1, mark.2) := by
  induction ds generalizing here with
  | nil => rfl
  | cons d ds ih =>
    have hrest := ih (here + codeLength [d])
    rw [← Nat.add_assoc] at hrest
    cases d with
    | mark span => exact congrArg ((k + here, span) :: ·) hrest
    | _ => exact hrest

theorem le_of_mem_marksOf {here : Nat} {ds : List Directive} {mark : Nat × Span}
    (h : mark ∈ marksOf here ds) : here ≤ mark.1 := by
  obtain ⟨⟨x, d⟩, hd, heq⟩ := List.mem_filterMap.1 h
  obtain ⟨front, back, rfl, rfl⟩ := mem_located_iff.1 hd
  cases d with
  | mark span =>
    cases heq
    exact Nat.le_add_right here _
  | _ => cases heq

end Assembly

theorem Stmt.directives_cases (s : Stmt) (depth here : Nat) :
    (∃ span name, s.directives depth here = [.label span name]) ∨
      ∃ ds, s.directives depth here = .mark s.span :: ds := by
  cases s with
  | label span name => exact .inl ⟨span, name, rfl⟩
  | cond span c yes no =>
    cases no with
    | nil => exact .inr ⟨_, rfl⟩
    | cons => exact .inr ⟨_, rfl⟩
  | _ => exact .inr ⟨_, rfl⟩

theorem exists_mark_of_code (ss : List Stmt) (depth here x : Nat)
    (h : 0 < codeLength (blockDirectives depth here ss)) :
    ∃ span, (x, span) ∈ Assembly.marksOf x (blockDirectives depth here ss) := by
  induction ss generalizing here with
  | nil => cases h
  | cons s ss ih =>
    rw [blockDirectives] at h ⊢
    rcases s.directives_cases depth here with ⟨span, name, hlabel⟩ | ⟨ds, hmark⟩
    · rw [hlabel] at h ⊢
      exact ih _ h
    · rw [hmark]
      exact ⟨s.span, List.mem_cons_self⟩

theorem Program.spanAt?_eq (p : Program) (x : Nat) :
    p.spanAt? x = (p.marks.toList.reverse.find? fun mark => mark.1 ≤ x).map Prod.snd := by
  rw [Program.spanAt?, Array.findRev?_eq_find?_reverse, ← Array.find?_toList, Array.toList_reverse]

/-! ## Programs in programs -/

/-- The program `p` stands in `q` from the address `k` on. -/
structure Program.Contains (q : Program) (k : Nat) (p : Program) : Prop where
  size_le : k + p.size ≤ q.size
  code : ∀ x i, p.code[x]? = some i → q.code[k + x]? = some (i.shifted k)
  spanAt : ∀ x < p.size, q.spanAt? (k + x) = p.spanAt? x

theorem instructions_shifted {k : Nat} {address address' : String → Nat} {ds : List Directive}
    (hplain : ∀ d ∈ ds, d.Plain)
    (haddress : ∀ span name, .goto span name ∈ ds → address' name = k + address name) :
    instructions address' (ds.map (.shifted k)) = (instructions address ds).map (.shifted k) := by
  rw [instructions, instructions, List.filterMap_map, List.map_filterMap]
  refine List.filterMap_congr fun d hd => ?_
  cases d with
  | branch | reject | place => exact absurd (hplain _ hd) id
  | goto span name => simp [Directive.shifted, Directive.instr?, Instr.shifted, haddress span name hd]
  | _ => rfl

namespace Program.Linked

variable {p q : Program} {k : Nat} {ds front back : List Directive}
  (hp : p.Linked ds) (hq : q.Linked (front ++ (ds.map (.shifted k) ++ back)))
  (hfront : codeLength front = k)
include hp hq hfront

theorem label_shifted {name : String} {x : Nat} (hx : p.label? name = some x) :
    q.label? name = some (k + x) := by
  obtain ⟨span, hmem⟩ := (hp.label name x).1 hx
  obtain ⟨before, after, rfl, rfl⟩ := mem_located_iff.1 hmem
  refine (hq.label name _).2 ⟨span, mem_located_iff.2 ?_⟩
  refine ⟨front ++ before.map (.shifted k), after.map (.shifted k) ++ back, ?_, ?_⟩
  · simp [Directive.shifted]
  · rw [codeLength_append, codeLength_shifted, hfront]
    omega

theorem size_shifted : q.size = k + (p.size + codeLength back) := by
  rw [hq.size_eq, hp.size_eq, codeLength_append, codeLength_append, codeLength_shifted, hfront]

theorem code_shifted (hplain : ∀ d ∈ ds, d.Plain) {x : Nat} {i : Instr}
    (hi : p.code[x]? = some i) : q.code[k + x]? = some (i.shifted k) := by
  have hmove : instructions (fun name => (q.label? name).getD 0) (ds.map (.shifted k)) =
      (instructions (fun name => (p.label? name).getD 0) ds).map (.shifted k) := by
    refine instructions_shifted hplain fun span name hgoto => ?_
    -- the jump has a label of its own program
    obtain ⟨span', hlabel⟩ := Assembly.mem_labelNames.1 (hp.defined span name hgoto)
    obtain ⟨y, hy⟩ := exists_mem_located 0 hlabel
    have hy := (hp.label name y).2 ⟨span', hy⟩
    rw [hp.label_shifted hq hfront hy, hy]
    rfl
  rw [← Array.getElem?_toList, hp.code] at hi
  have hlt : x < (instructions (fun name => (p.label? name).getD 0) ds).length :=
    (List.getElem?_eq_some_iff.1 hi).1
  rw [← Array.getElem?_toList, hq.code, instructions_append, instructions_append, hmove,
    List.getElem?_append_right (by rw [length_instructions, hfront]; exact Nat.le_add_right k x),
    length_instructions, hfront, Nat.add_sub_cancel_left,
    List.getElem?_append_left (by rwa [List.length_map]), List.getElem?_map, hi]
  rfl

theorem spanAt_shifted {x : Nat} (hx : x < p.size)
    (hmark : ∃ span, (0, span) ∈ Assembly.marksOf 0 ds) : q.spanAt? (k + x) = p.spanAt? x := by
  have hback : ∀ mark ∈ (Assembly.marksOf (k + codeLength ds) back).reverse,
      ¬ (decide (mark.1 ≤ k + x)) = true := by
    intro mark hmem
    have hle := Assembly.le_of_mem_marksOf (List.mem_reverse.1 hmem)
    rw [hp.size_eq] at hx
    rw [decide_eq_true_iff]
    omega
  have hfound : ((Assembly.marksOf 0 ds).reverse.find? fun mark => decide (mark.1 ≤ x)).isSome := by
    obtain ⟨span, hspan⟩ := hmark
    rw [List.find?_isSome]
    exact ⟨_, List.mem_reverse.2 hspan, decide_eq_true (Nat.zero_le x)⟩
  have hmarks : q.marks.toList = Assembly.marksOf 0 front ++
      (((Assembly.marksOf 0 ds).map fun mark => (k + mark.1, mark.2)) ++
        Assembly.marksOf (k + codeLength ds) back) := by
    rw [hq.marks, Assembly.marksOf_append, Assembly.marksOf_append, codeLength_shifted, hfront,
      Nat.zero_add, ← Assembly.marksOf_shifted]
    rfl
  obtain ⟨mark, hmark⟩ := Option.isSome_iff_exists.1 hfound
  rw [spanAt?_eq, spanAt?_eq, hmarks, hp.marks, hmark, List.reverse_append, List.reverse_append,
    List.find?_append, List.find?_append, List.find?_eq_none.2 hback, ← List.map_reverse,
    List.find?_map]
  have hsame : ((fun mark : Nat × Span => decide (mark.1 ≤ k + x)) ∘
      fun mark : Nat × Span => (k + mark.1, mark.2)) =
      fun mark : Nat × Span => decide (mark.1 ≤ x) := by
    funext mark
    simp
  rw [hsame, hmark]
  rfl

theorem contains (hplain : ∀ d ∈ ds, d.Plain)
    (hmark : 0 < codeLength ds → ∃ span, (0, span) ∈ Assembly.marksOf 0 ds) : q.Contains k p where
  size_le := by
    rw [hp.size_shifted hq hfront]
    omega
  code := fun _ _ hi => hp.code_shifted hq hfront hplain hi
  spanAt := by
    intro x hx
    refine hp.spanAt_shifted hq hfront hx (hmark ?_)
    rw [← hp.size_eq]
    exact Nat.zero_lt_of_lt hx

end Program.Linked

/-- The program of two trees in a row contains the programs of both, one behind the other. -/
theorem Program.contains_of_append {ss ss' : List Stmt} {p p' q : Program}
    (hs : ∀ s ∈ flatBlock ss, s.Proper) (hs' : ∀ s ∈ flatBlock ss', s.Proper)
    (hp : ofTree ss = .ok p) (hp' : ofTree ss' = .ok p') (hq : ofTree (ss ++ ss') = .ok q) :
    q.Contains 0 p ∧ q.Contains p.size p' ∧ q.size = p.size + p'.size := by
  have hboth : ∀ s ∈ flatBlock (ss ++ ss'), s.Proper := by
    rw [flatBlock_append]
    exact List.forall_mem_append.2 ⟨hs, hs'⟩
  have hlinked := linked_of_tree hs hp
  have hlinked' := linked_of_tree hs' hp'
  have hsize : p.size = blockSize ss := by
    rw [hlinked.size_eq, codeLength_tree.2 ss]
  have hwhole := linked_of_tree hboth hq
  rw [blockDirectives_append, Nat.zero_add, ← hsize] at hwhole
  have hmoved := (shifted_tree p.size).2 ss' hs' 0 0
  rw [Nat.add_zero] at hmoved
  rw [hmoved] at hwhole
  refine ⟨?_, ?_, ?_⟩
  · have hstay : (blockDirectives 0 0 ss).map (.shifted 0) = blockDirectives 0 0 ss :=
      List.map_id'' Directive.shifted_zero _
    rw [← hstay, ← List.nil_append (List.map _ _ ++ _)] at hwhole
    exact hlinked.contains hwhole rfl (plain_directives ss 0 0) (exists_mark_of_code ss 0 0 0)
  · rw [← List.append_nil ((blockDirectives 0 0 ss').map _)] at hwhole
    exact hlinked'.contains hwhole hlinked.size_eq.symm (plain_directives ss' 0 0)
      (exists_mark_of_code ss' 0 0 0)
  · rw [← List.append_nil ((blockDirectives 0 0 ss').map _)] at hwhole
    exact hlinked'.size_shifted hwhole hlinked.size_eq.symm

end Handheld
