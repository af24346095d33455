import Handheld.Proofs.Code.Depth
import Handheld.Proofs.Code.Names
import Mathlib

/-!
# Labels and the jumps to them

A source text is refused for the first label whose name is taken, or else for
the first jump whose label stands nowhere. Otherwise each label has the address
of what follows it, and each jump leads there. The order in which the linker
looks through its tables has no part in that.
-/

namespace Handheld

/-! ## The first label whose name is taken -/

theorem not_nodup_of_repeat {xs front back : List (Span × String)} {x : Span × String}
    (h : xs = front ++ x :: back) (hx : x.2 ∈ front.map Prod.snd) :
    ¬ (xs.map Prod.snd).Nodup := by
  intro hnodup
  rw [h, List.map_append, List.map_cons] at hnodup
  exact (List.nodup_append.1 hnodup).2.2 _ hx _ List.mem_cons_self rfl

theorem first_repeat_unique {xs front front' back back' : List (Span × String)}
    {x x' : Span × String} (h : xs = front ++ x :: back) (h' : xs = front' ++ x' :: back')
    (hnodup : (front.map Prod.snd).Nodup) (hnodup' : (front'.map Prod.snd).Nodup)
    (hx : x.2 ∈ front.map Prod.snd) (hx' : x'.2 ∈ front'.map Prod.snd) : x = x' := by
  -- Were one of them earlier, it would be a repetition in front of the other.
  rcases List.append_eq_append_iff.1 (h.symm.trans h') with ⟨mid, heq, hback⟩ | ⟨mid, heq, hback⟩
  · cases mid with
    | nil => exact (List.cons.inj hback).1
    | cons y mid =>
      obtain ⟨rfl, -⟩ := List.cons.inj hback
      exact absurd hnodup' (not_nodup_of_repeat heq hx)
  · cases mid with
    | nil => exact (List.cons.inj hback).1.symm
    | cons y mid =>
      obtain ⟨rfl, -⟩ := List.cons.inj hback
      exact absurd hnodup (not_nodup_of_repeat heq hx')

/-! ## The first jump that leads nowhere -/

namespace Assembly

variable {ds : List Directive}

theorem mem_missing {e : Diagnostic} :
    e ∈ missing ds ↔ ∃ span name, (span, name) ∈ ds.filterMap Directive.goto? ∧
      name ∉ labelNames ds ∧ e = (Cause.undefinedLabel name).inSpan span := by
  rw [missing, List.mem_filterMap]
  constructor
  · rintro ⟨d, hd, heq⟩
    cases d with
    | goto span name =>
      rw [missing?] at heq
      split at heq
      · cases heq
      · next hname =>
        cases heq
        exact ⟨span, name, List.mem_filterMap.2 ⟨_, hd, rfl⟩, hname, rfl⟩
    | _ => cases heq
  · rintro ⟨span, name, hjump, hname, rfl⟩
    obtain ⟨d, hd, heq⟩ := List.mem_filterMap.1 hjump
    cases d with
    | goto =>
      cases heq
      exact ⟨_, hd, if_neg hname⟩
    | _ => cases heq

theorem span_of_missing {span : Span} {name : String} {e : Diagnostic}
    (h : missing? ds (.goto span name) = some e) : e.span = span := by
  rw [missing?] at h
  split at h
  · cases h
  · cases h
    rfl

theorem apart_missing
    (h : ((ds.filterMap Directive.goto?).map Prod.fst).Pairwise Span.Before) :
    Apart (missing ds) := by
  have hmissing : missing ds = (ds.filterMap Directive.goto?).filterMap fun jump =>
      missing? ds (.goto jump.1 jump.2) := by
    rw [missing, List.filterMap_filterMap]
    refine List.filterMap_congr fun d _ => ?_
    cases d <;> rfl
  rw [hmissing]
  refine List.Pairwise.filterMap _ ?_ (List.pairwise_map.1 h)
  intro j k hbefore d hd e he
  rw [span_of_missing hd, span_of_missing he]
  exact hbefore

end Assembly

theorem head_missing {ds : List Directive} {first : Diagnostic}
    (happart : Assembly.Apart (Assembly.missing ds))
    (h : (Assembly.missing ds).head? = some first) :
    ∃ span name, (span, name) ∈ ds.filterMap Directive.goto? ∧ name ∉ Assembly.labelNames ds ∧
      first = (Cause.undefinedLabel name).inSpan span ∧
      ∀ jump ∈ ds.filterMap Directive.goto?, jump.2 ∉ Assembly.labelNames ds →
        ¬ jump.1.Before span := by
  obtain ⟨rest, hmissing⟩ : ∃ rest, Assembly.missing ds = first :: rest := by
    cases hlist : Assembly.missing ds with
    | nil =>
      rw [hlist] at h
      cases h
    | cons e rest =>
      rw [hlist] at h
      cases h
      exact ⟨rest, rfl⟩
  have hmem : first ∈ Assembly.missing ds := List.mem_of_mem_head? h
  obtain ⟨span, name, hjump, hname, rfl⟩ := Assembly.mem_missing.1 hmem
  refine ⟨span, name, hjump, hname, rfl, fun jump hjump' hname' hbefore => ?_⟩
  have hmem' := Assembly.mem_missing.2 ⟨jump.1, jump.2, hjump', hname', rfl⟩
  rw [hmissing] at hmem' happart
  rcases List.mem_cons.1 hmem' with heq | hrest
  · have hspan : jump.1 = span := congrArg Diagnostic.span heq
    exact Span.Before.irrefl span (hspan ▸ hbefore)
  · exact ((List.pairwise_cons.1 happart).1 _ hrest).asymm hbefore

theorem gotosIn_ordered {ss : List Stmt} (h : Written ss) :
    ((gotosIn ss).map Prod.fst).Pairwise Span.Before := by
  rw [List.pairwise_map]
  refine List.Pairwise.filterMap _ ?_ (List.pairwise_map.1 h.ordered)
  intro s t hbefore j hj k hk
  cases s with
  | goto span name =>
    cases t with
    | goto span' name' =>
      cases hj
      cases hk
      exact hbefore
    | _ => cases hk
  | _ => cases hj

/-! ## Compiling in any order -/

/-- `Program.ofTree`, with a linker that looks through its tables in the given order. -/
def Program.ofTreeIn (o : LinkOrder) (ss : List Stmt) : Except Diagnostic Program := do
  let ((), a) ← lowerBlock 0 ss {}
  a.linkIn o

def compileIn (o : LinkOrder) (source : String) : Except Diagnostic Program := do
  Program.ofTreeIn o (← parse (← lexemes source))

theorem Program.ofTreeIn_eq (o : LinkOrder) {ss : List Stmt}
    (hs : ∀ s ∈ flatBlock ss, s.Proper) :
    Program.ofTreeIn o ss = Assembly.build (blockDraft 0 0 ss) >>= Assembly.linkIn o := by
  have hwrites := writes_tree.2 ss hs 0 0 {} rfl
  change (lowerBlock 0 ss {} >>= fun x => x.2.linkIn o) = _
  rw [hwrites, Assembly.build]
  cases (blockDraft 0 0 ss).foldlM Assembly.follow {} <;> rfl

theorem build_draft {ss : List Stmt} (hroom : codeLength (blockDraft 0 0 ss) ≤ codeLimit) :
    (∃ a, Assembly.build (blockDraft 0 0 ss) = .ok a ∧ a.Follows (blockDraft 0 0 ss)) ∨
    ∃ front span name back, labelsIn ss = front ++ (span, name) :: back ∧
      (front.map Prod.snd).Nodup ∧ name ∈ front.map Prod.snd ∧
      Assembly.build (blockDraft 0 0 ss) = .error ((Cause.duplicateLabel name).inSpan span) := by
  rcases Assembly.build_cases (closed_draft ss 0 0).lowered with
    h | ⟨front, back, d, e, hsplit, honce, he, hb⟩
  · exact .inl h
  · right
    have hfits : ¬ codeLimit < codeLength (front ++ [d]) := by
      have hle : codeLength (front ++ [d]) ≤ codeLength (front ++ [d] ++ back) := by
        rw [codeLength_append (front ++ [d]) back]
        exact Nat.le_add_right _ _
      rw [List.append_assoc, List.singleton_append, ← hsplit] at hle
      omega
    unfold Assembly.failure? at he
    rw [if_neg hfits] at he
    cases d with
    | label span name =>
      dsimp only at he
      split at he
      · next hname =>
        cases he
        rw [Assembly.labelNames_eq] at honce hname
        refine ⟨front.filterMap Directive.label?, span, name, back.filterMap Directive.label?, ?_,
          honce, hname, hb⟩
        rw [← labels_draft ss, hsplit, List.filterMap_append]
        rfl
      · cases he
    | _ => cases he

/-! ## Outcomes -/

/-- What becomes of a tree that fits. -/
inductive Outcome (ss : List Stmt) : Except Diagnostic Program → Prop
  | repeated {front back : List (Span × String)} {span : Span} {name : String}
      (hsplit : labelsIn ss = front ++ (span, name) :: back)
      (hfront : (front.map Prod.snd).Nodup) (hname : name ∈ front.map Prod.snd) :
      Outcome ss (.error ((Cause.duplicateLabel name).inSpan span))
  | missing {span : Span} {name : String} (honce : ((labelsIn ss).map Prod.snd).Nodup)
      (hjump : (span, name) ∈ gotosIn ss) (hname : name ∉ (labelsIn ss).map Prod.snd)
      (hfirst : ∀ jump ∈ gotosIn ss, jump.2 ∉ (labelsIn ss).map Prod.snd →
        ¬ jump.1.Before span) :
      Outcome ss (.error ((Cause.undefinedLabel name).inSpan span))
  | linked {p : Program} (honce : ((labelsIn ss).map Prod.snd).Nodup)
      (hall : ∀ jump ∈ gotosIn ss, jump.2 ∈ (labelsIn ss).map Prod.snd)
      (hlinked : p.Linked (blockDirectives 0 0 ss)) (hcalm : p.Calm) : Outcome ss (.ok p)

section

variable {ss : List Stmt} (hs : Written ss)
include hs

theorem outcome_link {a : Assembly} (ha : a.Follows (blockDraft 0 0 ss))
    (htree : Program.ofTree ss = a.link) :
    Outcome ss a.link ∧ ∀ o, sameOutcome (a.linkIn o) a.link := by
  have hclosed := closed_draft ss 0 0
  have happart : Assembly.Apart (Assembly.missing (blockDraft 0 0 ss)) := by
    refine Assembly.apart_missing ?_
    rw [gotos_draft]
    exact gotosIn_ordered hs
  have hnames := Assembly.labelNames_draft ss
  have honce : ((labelsIn ss).map Prod.snd).Nodup := hnames ▸ ha.once
  refine ⟨?_, ha.linkIn_same hclosed happart⟩
  have hlink := ha.link_eq hclosed
  rw [Assembly.earliest_of_apart happart] at hlink
  cases hhead : (Assembly.missing (blockDraft 0 0 ss)).head? with
  | some first =>
    obtain ⟨span, name, hjump, hname, rfl, hfirst⟩ := head_missing happart hhead
    rw [gotos_draft] at hjump hfirst
    rw [hnames] at hname hfirst
    rw [hlink, hhead]
    exact .missing honce hjump hname hfirst
  | none =>
    rw [hhead] at hlink
    have hall : ∀ jump ∈ gotosIn ss, jump.2 ∈ (labelsIn ss).map Prod.snd := by
      intro jump hjump
      by_contra hname
      rw [← hnames] at hname
      rw [← gotos_draft] at hjump
      have hmem := Assembly.mem_missing.2 ⟨jump.1, jump.2, hjump, hname, rfl⟩
      rw [List.head?_eq_none_iff.1 hhead] at hmem
      cases hmem
    rw [← htree] at hlink ⊢
    rw [hlink]
    exact .linked honce hall (Program.linked_of_tree hs.proper hlink)
      (Program.calm_of_tree hs.proper hlink)

/-- Every tree that fits has an outcome, and it is the same in whatever order the linker works. -/
theorem outcome_ofTree (hroom : codeLength (blockDraft 0 0 ss) ≤ codeLimit) :
    Outcome ss (Program.ofTree ss) ∧
      ∀ o, sameOutcome (Program.ofTreeIn o ss) (Program.ofTree ss) := by
  have htree := Program.ofTree_eq hs.proper
  have htreeIn := fun o => Program.ofTreeIn_eq o hs.proper
  rcases build_draft hroom with
    ⟨a, hbuild, ha⟩ | ⟨front, span, name, back, hsplit, hfront, hname, hbuild⟩
  · rw [hbuild] at htree
    obtain ⟨houtcome, hsame⟩ := outcome_link hs ha htree
    refine ⟨htree ▸ houtcome, fun o => ?_⟩
    rw [htreeIn, hbuild, htree]
    exact hsame o
  · rw [hbuild] at htree
    rw [htree]
    refine ⟨.repeated hsplit hfront hname, fun o => ?_⟩
    rw [htreeIn, hbuild]
    exact rfl

end

namespace Outcome

variable {ss : List Stmt} {r : Except Diagnostic Program} (h : Outcome ss r)
include h

theorem duplicate_iff :
    (∃ d name, r = .error d ∧ d.cause = .duplicateLabel name) ↔
      ¬ ((labelsIn ss).map Prod.snd).Nodup := by
  cases h with
  | repeated hsplit hfront hname =>
    exact ⟨fun _ => not_nodup_of_repeat hsplit hname, fun _ => ⟨_, _, rfl, rfl⟩⟩
  | missing honce =>
    refine ⟨?_, fun htwice => absurd honce htwice⟩
    rintro ⟨d, other, hd, hcause⟩
    cases hd
    cases hcause
  | linked honce =>
    refine ⟨?_, fun htwice => absurd honce htwice⟩
    rintro ⟨d, other, hd, -⟩
    cases hd

theorem duplicate_at {front back : List (Span × String)} {span : Span} {name : String}
    (hsplit : labelsIn ss = front ++ (span, name) :: back) (hfront : (front.map Prod.snd).Nodup)
    (hname : name ∈ front.map Prod.snd) :
    r = .error ((Cause.duplicateLabel name).inSpan span) := by
  cases h with
  | repeated hsplit' hfront' hname' =>
    cases first_repeat_unique hsplit hsplit' hfront hfront' hname hname'
    rfl
  | missing honce | linked honce => exact absurd honce (not_nodup_of_repeat hsplit hname)

theorem undefined_iff (honce : ((labelsIn ss).map Prod.snd).Nodup) :
    (∃ d name, r = .error d ∧ d.cause = .undefinedLabel name) ↔
      ∃ jump ∈ gotosIn ss, jump.2 ∉ (labelsIn ss).map Prod.snd := by
  cases h with
  | repeated hsplit _ hname => exact absurd honce (not_nodup_of_repeat hsplit hname)
  | missing _ hjump hname => exact ⟨fun _ => ⟨_, hjump, hname⟩, fun _ => ⟨_, _, rfl, rfl⟩⟩
  | linked _ hall =>
    constructor
    · rintro ⟨d, other, hd, -⟩
      cases hd
    · rintro ⟨jump, hjump, hname⟩
      exact absurd (hall jump hjump) hname

theorem undefined_at (hordered : ((gotosIn ss).map Prod.fst).Pairwise Span.Before)
    (honce : ((labelsIn ss).map Prod.snd).Nodup) {front back : List (Span × String)} {span : Span}
    {name : String} (hsplit : gotosIn ss = front ++ (span, name) :: back)
    (hfront : ∀ jump ∈ front, jump.2 ∈ (labelsIn ss).map Prod.snd)
    (hname : name ∉ (labelsIn ss).map Prod.snd) :
    r = .error ((Cause.undefinedLabel name).inSpan span) := by
  have hjump : (span, name) ∈ gotosIn ss := by simp [hsplit]
  cases h with
  | repeated hsplit _ hname => exact absurd honce (not_nodup_of_repeat hsplit hname)
  | missing _ hjump' hname' hfirst =>
    rw [hsplit, List.mem_append, List.mem_cons] at hjump'
    rcases hjump' with hmem | heq | hmem
    · exact absurd (hfront _ hmem) hname'
    · cases heq
      rfl
    · rw [hsplit, List.pairwise_map, List.pairwise_append, List.pairwise_cons] at hordered
      exact absurd (hordered.2.1.1 _ hmem) (hfirst _ hjump hname)
  | linked _ hall => exact absurd (hall _ hjump) hname

theorem linked_of_defined (honce : ((labelsIn ss).map Prod.snd).Nodup)
    (hall : ∀ jump ∈ gotosIn ss, jump.2 ∈ (labelsIn ss).map Prod.snd) :
    ∃ p, r = .ok p ∧ p.Linked (blockDirectives 0 0 ss) ∧ p.Calm := by
  cases h with
  | repeated hsplit _ hname => exact absurd honce (not_nodup_of_repeat hsplit hname)
  | missing _ hjump hname => exact absurd (hall _ hjump) hname
  | linked _ _ hlinked hcalm => exact ⟨_, rfl, hlinked, hcalm⟩

theorem not_linkFailure {d : Diagnostic} (hd : r = .error d) : d.cause ≠ .linkFailure := by
  cases h with
  | repeated | missing =>
    cases hd
    exact fun hcause => by cases hcause
  | linked => cases hd

end Outcome

/-! ## Places in a program -/

theorem mem_located_fixed {ds front back : List Directive} {d d' : Directive}
    (hsplit : ds = front ++ d :: back) {address : Symbol → Nat} (hd : d.fixed? address = some d') :
    (codeLength front, d') ∈ located 0 (fixed address ds) := by
  rw [located_fixed, List.mem_filterMap]
  refine ⟨(codeLength front, d), mem_located_iff.2 ⟨front, back, hsplit, (Nat.zero_add _).symm⟩, ?_⟩
  rw [hd, Option.map_some]

namespace Program.Linked

variable {p : Program} {ds : List Directive} {address : Symbol → Nat}
  (h : p.Linked (fixed address ds))
include h

theorem label_isSome (name : String) : (p.label? name).isSome ↔ name ∈ Assembly.labelNames ds := by
  rw [Option.isSome_iff_exists, ← labelNames_fixed address, Assembly.mem_labelNames]
  constructor
  · rintro ⟨x, hx⟩
    obtain ⟨span, hx⟩ := (h.label name x).1 hx
    exact ⟨span, mem_of_mem_located hx⟩
  · rintro ⟨span, hd⟩
    obtain ⟨x, hx⟩ := exists_mem_located 0 hd
    exact ⟨x, (h.label name x).2 ⟨span, hx⟩⟩

theorem label_at {front back : List Directive} {span : Span} {name : String}
    (hsplit : ds = front ++ .label span name :: back) : p.label? name = some (codeLength front) :=
  (h.label name _).2 ⟨span, mem_located_fixed hsplit rfl⟩

theorem goto_at {front back : List Directive} {span : Span} {name : String}
    (hsplit : ds = front ++ .goto span name :: back) :
    ∃ x, p.label? name = some x ∧ p.code[codeLength front]? = some (.branch .always x) := by
  have hgoto : (codeLength front, .goto span name) ∈ located 0 (fixed address ds) :=
    mem_located_fixed hsplit rfl
  have hdefined := h.defined span name (mem_of_mem_located hgoto)
  rw [labelNames_fixed] at hdefined
  obtain ⟨x, hx⟩ := Option.isSome_iff_exists.1 ((h.label_isSome name).2 hdefined)
  refine ⟨x, hx, ?_⟩
  rw [← Array.getElem?_toList, h.code, getElem?_instructions]
  exact ⟨_, hgoto, by simp only [Directive.instr?, hx, Option.getD_some]⟩

theorem branch_at (hclosed : Closed ds) (hfits : Fits address 0 ds) {front back : List Directive}
    {kind : Branch} {span : Span} {symbol : Symbol}
    (hsplit : ds = front ++ .branch kind span symbol :: back) :
    symbol < 0 ∧ ∃ front' back', ds = front' ++ .place symbol :: back' ∧
      p.code[codeLength front]? = some (.branch kind (codeLength front')) := by
  have hmem : .branch kind span symbol ∈ ds := by
    rw [hsplit]
    exact List.mem_append_right _ List.mem_cons_self
  obtain ⟨front', back', hplace⟩ := List.append_of_mem (hclosed.placed _ _ _ hmem)
  have htarget : address symbol = codeLength front' :=
    hfits _ _ (mem_located_iff.2 ⟨front', back', hplace, (Nat.zero_add _).symm⟩)
  refine ⟨hclosed.lowered _ hmem, front', back', hplace, ?_⟩
  rw [← Array.getElem?_toList, h.code, getElem?_instructions, ← htarget]
  exact ⟨_, mem_located_fixed hsplit rfl, rfl⟩

end Program.Linked

/-- The outcome of compiling a text that can be read and fits. It is lowered to a draft that has its
labels and jumps, and a symbol for each block. In whatever order the linker works, a name taken
twice is reported at the first label that repeats it, or else a missing label at the first jump to
one. If there is neither, labels and jumps are in place, and each branch over a block leads to the
place of its symbol. -/
theorem labels_resolved {source : String} {ts : List Lexeme} {ss : List Stmt}
    (hlex : lexemes source = .ok ts) (hparse : parse ts = .ok ss)
    (hroom : codeLength (blockDraft 0 0 ss) ≤ codeLimit) :
    let names := (labelsIn ss).map Prod.snd
    let draft := blockDraft 0 0 ss
    (lowerBlock 0 ss).Writes 0 draft (blockSymbols ss) ∧
    draft.filterMap Directive.label? = labelsIn ss ∧
    draft.filterMap Directive.goto? = gotosIn ss ∧
    ((gotosIn ss).map Prod.fst).Pairwise Span.Before ∧
    (∀ o, sameOutcome (compileIn o source) (compile source)) ∧
    ((∃ d name, compile source = .error d ∧ d.cause = .duplicateLabel name) ↔ ¬ names.Nodup) ∧
    (∀ front span name back, labelsIn ss = front ++ (span, name) :: back →
      (front.map Prod.snd).Nodup → name ∈ front.map Prod.snd →
      compile source = .error ((Cause.duplicateLabel name).inSpan span)) ∧
    (names.Nodup →
      ((∃ d name, compile source = .error d ∧ d.cause = .undefinedLabel name) ↔
        ∃ jump ∈ gotosIn ss, jump.2 ∉ names) ∧
      (∀ front span name back, gotosIn ss = front ++ (span, name) :: back →
        (∀ jump ∈ front, jump.2 ∈ names) → name ∉ names →
        compile source = .error ((Cause.undefinedLabel name).inSpan span)) ∧
      ((∀ jump ∈ gotosIn ss, jump.2 ∈ names) →
        ∃ p, compile source = .ok p ∧
          (∀ name, (p.label? name).isSome ↔ name ∈ names) ∧
          (∀ (front back : List Directive) (span : Span) (name : String),
            draft = front ++ .label span name :: back → p.label? name = some (codeLength front)) ∧
          (∀ (front back : List Directive) (span : Span) (name : String),
            draft = front ++ .goto span name :: back →
            ∃ x, p.label? name = some x ∧
              p.code[codeLength front]? = some (.branch .always x)) ∧
          (∀ (front back : List Directive) (kind : Branch) (span : Span) (symbol : Symbol),
            draft = front ++ .branch kind span symbol :: back →
            symbol < 0 ∧ ∃ front' back' : List Directive, draft = front' ++ .place symbol :: back' ∧
              p.code[codeLength front]? = some (.branch kind (codeLength front'))) ∧
          ∀ (x : Nat) (kind : Branch) (target : Nat),
            p.code[x]? = some (.branch kind target) → target ≤ p.size)) ∧
    ∀ d, compile source = .error d → d.cause ≠ .linkFailure := by
  intro names draft
  have hs := written_of_parse hlex hparse
  have hcompile : compile source = Program.ofTree ss := by
    rw [compile, hlex]
    change Except.bind (parse ts) _ = _
    rw [hparse]
    rfl
  have hcompileIn : ∀ o, compileIn o source = Program.ofTreeIn o ss := by
    intro o
    rw [compileIn, hlex]
    change Except.bind (parse ts) _ = _
    rw [hparse]
    rfl
  obtain ⟨h, hsame⟩ := outcome_ofTree hs hroom
  refine ⟨writes_tree.2 ss hs.proper 0 0, labels_draft ss, gotos_draft ss, gotosIn_ordered hs,
    fun o => ?_, ?_⟩
  · rw [hcompile, hcompileIn]
    exact hsame o
  rw [hcompile]
  refine ⟨h.duplicate_iff, fun _ _ _ _ => h.duplicate_at,
    fun honce => ⟨h.undefined_iff honce, ?_, ?_⟩, fun d => h.not_linkFailure⟩
  · exact fun _ _ _ _ => h.undefined_at (gotosIn_ordered hs) honce
  · intro hall
    obtain ⟨p, hok, hlinked, hcalm⟩ := h.linked_of_defined honce hall
    have hclosed := closed_draft ss 0 0
    have hplaced : PlacedOnce draft :=
      placedOnce_of_closed hclosed.lowered hclosed.once (Assembly.labelNames_draft ss ▸ honce)
    rw [← fixed_draft hplaced] at hlinked
    refine ⟨p, hok, fun name => ?_, ?_, ?_, ?_, ?_⟩
    · rw [hlinked.label_isSome, Assembly.labelNames_draft]
    · exact fun _ _ _ _ => hlinked.label_at
    · exact fun _ _ _ _ => hlinked.goto_at
    · exact fun _ _ _ _ _ => hlinked.branch_at hclosed (fits_addressIn hplaced)
    · exact fun x kind target hx => (hcalm.targets x kind target hx).le_size

theorem labels_resolved_twoJumps :
    ∃ ts ss, lexemes "While A\nGoto B\nEnd\nLbl A\nGoto C" = .ok ts ∧ parse ts = .ok ss ∧
      codeLength (blockDraft 0 0 ss) ≤ codeLimit ∧
      ∀ o, sameOutcome (compileIn o "While A\nGoto B\nEnd\nLbl A\nGoto C")
        (compile "While A\nGoto B\nEnd\nLbl A\nGoto C") := by
  have hread : (match lexemes "While A\nGoto B\nEnd\nLbl A\nGoto C" with
      | .ok ts =>
        match parse ts with
        | .ok ss => decide (codeLength (blockDraft 0 0 ss) ≤ codeLimit)
        | .error _ => false
      | .error _ => false) = true := by cbv
  split at hread
  · next ts hlex =>
    split at hread
    · next ss hparse =>
      have hroom := of_decide_eq_true hread
      exact ⟨ts, ss, hlex, hparse, hroom, (labels_resolved hlex hparse hroom).2.2.2.2.1⟩
    · cases hread
  · cases hread

end Handheld
