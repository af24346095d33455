import Handheld.Proofs.Code.Assembling
import Handheld.Proofs.Reading.Statements

/-!
# From an assembly to a program

Linking writes the address of its symbol into every branch, or it reports the first
jump in the source whose label stands nowhere. A block's symbol always stands
somewhere, so no other branch is ever reported. The waiting branches and the labels
may be looked through in any order: the program is the same, and so is the report.
-/

namespace Handheld

variable {ds : List Directive} {d : Directive} {name : String} {symbol : Symbol}

/-! ## Orders -/

/-- An order in which the waiting branches and the labels are looked through. -/
structure LinkOrder where
  branches : List Pending → List Pending
  names : List (String × Nat) → List (String × Nat)
  branches_perm : ∀ ps, (branches ps).Perm ps
  names_perm : ∀ ns, (names ns).Perm ns

namespace Assembly

variable {a : Assembly}

/-- Each label with its number, in order. -/
def namesIn (o : LinkOrder) (a : Assembly) : List (String × Nat) :=
  o.names a.labels.toList.zipIdx

def branchesIn (o : LinkOrder) (a : Assembly) : List Pending :=
  o.branches a.pending.toList

def labelNameIn (o : LinkOrder) (a : Assembly) (symbol : Symbol) : String :=
  (((a.namesIn o).find? fun n => (n.2 + 1 : Symbol) = symbol).map Prod.fst).getD ""

def unresolvedIn? (o : LinkOrder) (a : Assembly) (p : Pending) : Option Diagnostic :=
  match a.resolved? p with
  | some _ => none
  | none =>
    let cause : Cause :=
      if a.places.lookup p.symbol = none ∧ 0 < p.symbol then
        .undefinedLabel (a.labelNameIn o p.symbol)
      else .linkFailure
    some (cause.inSpan p.span)

def tableOf (a : Assembly) (names : List (String × Nat)) : List (String × Nat) :=
  names.filterMap fun n => (a.places.lookup (n.2 + 1 : Symbol)).map (n.1, ·)

/-- `link`, with everything looked through in the given order. -/
def linkIn (o : LinkOrder) (a : Assembly) : Except Diagnostic Program :=
  match earliest? ((a.branchesIn o).filterMap (a.unresolvedIn? o)) with
  | some d => .error d
  | none =>
    .ok {
      code := (a.branchesIn o).foldl a.patch a.code
      labels := a.tableOf (a.namesIn o)
      marks := a.marks }

end Assembly

/-! ## Branches with their addresses -/

/-- The instruction that a directive comes to, given the symbols of labels and their addresses. -/
def Directive.linked? (number : String → Symbol) (address : Symbol → Nat) : Directive → Option Instr
  | .emit i => some i
  | .branch kind _ symbol => some (.branch kind (address symbol))
  | .goto _ name => some (.branch .always (address (number name)))
  | .mark _ | .place _ | .label .. | .reject _ => none

theorem length_linked (number : String → Symbol) (address : Symbol → Nat) (ds : List Directive) :
    (ds.filterMap (·.linked? number address)).length = codeLength ds := by
  rw [List.length_filterMap_eq_countP]
  refine List.countP_congr fun d _ => ?_
  cases d <;> exact Iff.rfl

/-- Writes what the branch comes to, if that is known. -/
def overwrite (resolve : Pending → Option Instr) (is : List Instr) (p : Pending) : List Instr :=
  match resolve p with
  | some i => is.set p.address i
  | none => is

theorem foldl_overwrite_append {resolve : Pending → Option Instr} {ps : List Pending}
    (is is' : List Instr) (h : ∀ p ∈ ps, p.address < is.length) :
    ps.foldl (overwrite resolve) (is ++ is') = ps.foldl (overwrite resolve) is ++ is' := by
  induction ps generalizing is with
  | nil => rfl
  | cons p ps ih =>
    obtain ⟨hp, hps⟩ := List.forall_mem_cons.1 h
    have hstep : overwrite resolve (is ++ is') p = overwrite resolve is p ++ is' := by
      unfold overwrite
      cases resolve p with
      | none => rfl
      | some i => exact List.set_append_left _ _ hp
    have hlength : (overwrite resolve is p).length = is.length := by
      unfold overwrite
      cases resolve p with
      | none => rfl
      | some i => exact List.length_set
    rw [List.foldl_cons, List.foldl_cons, hstep]
    exact ih _ fun q hq => hlength ▸ hps q hq

theorem overwrite_last {resolve : Pending → Option Instr} {is : List Instr} {p : Pending}
    (hp : p.address = is.length) (i : Instr) :
    overwrite resolve (is ++ [i]) p = is ++ ((resolve p).or (some i)).toList := by
  unfold overwrite
  cases resolve p with
  | none => rfl
  | some j => simp [hp]

theorem foldl_waiting {number : String → Symbol} {address : Symbol → Nat}
    {resolve : Pending → Option Instr}
    (h : ∀ x d p, (x, d) ∈ located 0 ds → d.pending? number x = some p →
      (resolve p).or (d.instr? fun _ => 0) = d.linked? number address) :
    (waiting number ds).foldl (overwrite resolve) (instructions (fun _ => 0) ds) =
      ds.filterMap (·.linked? number address) := by
  induction ds using List.reverseRecOn with
  | nil => rfl
  | append_singleton ds d ih =>
    have hlength := length_linked number address ds
    have hshort : ∀ p ∈ waiting number ds, p.address < (instructions (fun _ => 0) ds).length := by
      intro p hp
      rw [length_instructions]
      exact lt_of_mem_waiting hp
    have hlast := h (codeLength ds) d
    rw [located_concat, Nat.zero_add] at hlast
    have hwritten := ih fun x d' p hd' => h x d' p (by
      rw [located_concat]
      exact List.mem_append_left _ hd')
    rw [waiting_concat, instructions_append, List.foldl_append, foldl_overwrite_append _ _ hshort,
      hwritten, List.filterMap_append]
    cases d with
    | branch kind span symbol | goto span name =>
      have hresolve := hlast _ (List.mem_append_right _ List.mem_cons_self) rfl
      refine (overwrite_last hlength.symm _).trans ?_
      exact congrArg (_ ++ ·.toList) hresolve
    | _ => rfl

namespace Assembly

variable {a : Assembly}

theorem toList_foldl_patch (ps : List Pending) (code : Array Instr) :
    (ps.foldl a.patch code).toList = ps.foldl (overwrite a.resolved?) code.toList := by
  induction ps generalizing code with
  | nil => rfl
  | cons p ps ih =>
    rw [List.foldl_cons, ih, List.foldl_cons]
    congr 1
    unfold patch overwrite
    cases a.resolved? p with
    | none => rfl
    | some i => exact Array.toList_setIfInBounds ..

theorem patched_eq (a : Assembly) : a.patched = a.pending.toList.foldl a.patch a.code :=
  (Array.foldl_toList ..).symm

namespace Tracks

theorem resolved_eq (h : a.Tracks ds) {x : Nat} {p : Pending} (hd : (x, d) ∈ located 0 ds)
    (hp : d.pending? (numberOf ds) x = some p) :
    a.resolved? p = if Stands ds p.symbol then d.linked? (numberOf ds) (addressIn ds) else none := by
  have hcode (i : Instr) (hi : d.instr? (fun _ => 0) = some i) : a.code[x]? = some i := by
    rw [← Array.getElem?_toList, h.code]
    exact (getElem?_instructions _).2 ⟨d, hd, hi⟩
  unfold resolved?
  rw [h.places]
  by_cases hstands : Stands ds p.symbol
  · rw [if_pos hstands, address?_of_stands hstands]
    cases d with
    | branch | goto =>
      cases hp
      rw [hcode _ rfl]
      rfl
    | _ => cases hp
  · rw [if_neg hstands, address?_of_not_stands hstands]

theorem isSome_resolved (h : a.Tracks ds) {p : Pending} (hp : p ∈ a.pending.toList) :
    (a.resolved? p).isSome ↔ Stands ds p.symbol := by
  rw [h.pending] at hp
  obtain ⟨d, hd, heq⟩ := mem_waiting.1 hp
  rw [h.resolved_eq hd heq]
  split
  · next hstands =>
    refine iff_of_true ?_ hstands
    cases d with
    | branch | goto => rfl
    | _ => cases heq
  · next hstands => exact iff_of_false (by simp) hstands

theorem toList_patched (h : a.Tracks ds) :
    a.patched.toList = ds.filterMap (·.linked? (numberOf ds) (addressIn ds)) := by
  rw [patched_eq, toList_foldl_patch, h.pending, h.code]
  refine foldl_waiting fun x d p hd hp => ?_
  rw [h.resolved_eq hd hp]
  split
  · cases d with
    | branch | goto => rfl
    | _ => cases hp
  · next hstands =>
    -- The placeholder is what stays.
    have hzero : addressIn ds p.symbol = 0 := by
      rw [addressIn, address?_of_not_stands hstands, Option.getD_none]
    cases d with
    | branch kind span symbol =>
      cases hp
      exact congrArg (fun x => some (Instr.branch kind x)) hzero.symm
    | goto span name =>
      cases hp
      exact congrArg (fun x => some (Instr.branch .always x)) hzero.symm
    | _ => cases hp

theorem address_inj (h : a.Tracks ds) {p q : Pending} (hp : p ∈ a.pending.toList)
    (hq : q ∈ a.pending.toList) (heq : p.address = q.address) : p = q := by
  rw [h.pending] at hp hq
  exact List.inj_on_of_nodup_map ((waiting_increasing (numberOf ds) ds).imp Nat.ne_of_lt) hp hq heq

theorem foldl_patch_perm (h : a.Tracks ds) {ps : List Pending} (hps : ps.Perm a.pending.toList) :
    ps.foldl a.patch a.code = a.patched := by
  rw [patched_eq]
  refine hps.foldl_eq' ?_ _
  intro p hp q hq code
  by_cases heq : p.address = q.address
  · rw [h.address_inj (hps.mem_iff.1 hp) (hps.mem_iff.1 hq) heq]
  · unfold patch
    cases a.resolved? p with
    | none => rfl
    | some i =>
      cases a.resolved? q with
      | none => rfl
      | some j => exact Array.setIfInBounds_comm _ _ heq

end Tracks

end Assembly

/-! ## Symbols of blocks -/

def Directive.block? : Directive → Option Symbol
  | .place symbol => some symbol
  | .emit _ | .mark _ | .branch .. | .label .. | .goto .. | .reject _ => none

/-- The symbols of blocks, in the order of their places. -/
def blocksIn (ds : List Directive) : List Symbol := ds.filterMap Directive.block?

theorem mem_blocksIn : symbol ∈ blocksIn ds ↔ .place symbol ∈ ds := by
  rw [blocksIn, List.mem_filterMap]
  constructor
  · rintro ⟨d, hd, heq⟩
    cases d with
    | place s =>
      cases heq
      exact hd
    | _ => cases heq
  · exact fun hd => ⟨_, hd, rfl⟩

/-- No block is placed twice, and each that is branched to is placed. -/
structure Closed (ds : List Directive) : Prop where
  lowered : ∀ d ∈ ds, d.Lowered
  once : (blocksIn ds).Nodup
  placed : ∀ kind span symbol, .branch kind span symbol ∈ ds → .place symbol ∈ ds

theorem placed?_block (hd : d.Lowered) (hneg : symbol < 0) (number : String → Symbol)
    (hpos : ∀ name, 0 < number name) : d.placed? number = some symbol ↔ d = .place symbol := by
  constructor
  · intro heq
    cases d with
    | place s =>
      cases heq
      rfl
    | label span name =>
      cases heq
      exact absurd (hpos name) (Int.lt_asymm hneg)
    | _ => cases heq
  · rintro rfl
    rfl

theorem stands_block (hds : ∀ d ∈ ds, d.Lowered) (hneg : symbol < 0) :
    Stands ds symbol ↔ .place symbol ∈ ds := by
  constructor
  · rintro ⟨d, hd, heq⟩
    exact (placed?_block (hds d hd) hneg _ (numberOf_pos ds)).1 heq ▸ hd
  · exact fun hd => ⟨_, hd, rfl⟩

theorem blocksIn_concat (ds : List Directive) (d : Directive) :
    blocksIn (ds ++ [d]) = blocksIn ds ++ d.block?.toList := by
  rw [blocksIn, List.filterMap_append]
  cases d <;> rfl

theorem placedOnce_of_closed (hlowered : ∀ d ∈ ds, d.Lowered) (hblocks : (blocksIn ds).Nodup)
    (hlabels : (Assembly.labelNames ds).Nodup) : PlacedOnce ds := by
  induction ds using List.reverseRecOn with
  | nil => exact List.nodup_nil
  | append_singleton ds d ih =>
    rw [blocksIn_concat, List.nodup_append] at hblocks
    rw [Assembly.labelNames_concat, List.nodup_append] at hlabels
    have hlowered' := fun d' hd' => hlowered d' (List.mem_append_left _ hd')
    refine placedOnce_concat.2 ⟨ih hlowered' hblocks.1 hlabels.1, fun symbol hsymbol hstands => ?_⟩
    have hd := hlowered d (List.mem_append_right _ List.mem_cons_self)
    cases d with
    | place s =>
      cases hsymbol
      have hmem := mem_blocksIn.2 ((stands_block hlowered' hd).1 hstands)
      exact hblocks.2.2 _ hmem _ List.mem_cons_self rfl
    | label span name =>
      cases hsymbol
      have hmem := (Assembly.stands_numberOf hlowered').1 hstands
      exact hlabels.2.2 _ hmem _ List.mem_cons_self rfl
    | _ => cases hsymbol

theorem address?_numberOf (honce : PlacedOnce ds) (hds : ∀ d ∈ ds, d.Lowered) {x : Nat} :
    address? ds (numberOf ds name) = some x ↔ ∃ span, (x, .label span name) ∈ located 0 ds := by
  rw [address?_eq_some_iff honce]
  constructor
  · rintro ⟨d, hd, heq⟩
    have hd' := mem_of_mem_located hd
    obtain ⟨span, rfl⟩ := (Assembly.placed?_numberOf (hds d hd') hd').1 heq
    exact ⟨span, hd⟩
  · rintro ⟨span, hd⟩
    exact ⟨_, hd, rfl⟩

/-! ## The first of some diagnostics -/

def Diagnostic.span (d : Diagnostic) : Span := ⟨d.line.getD 0, d.start, d.stop⟩

namespace Assembly

theorem earlier_cases (d e : Diagnostic) :
    (earlier d e = e ∧ e.span.Before d.span) ∨ (earlier d e = d ∧ ¬ e.span.Before d.span) := by
  by_cases h : e.span.Before d.span
  · exact .inl ⟨if_pos h, h⟩
  · exact .inr ⟨if_neg h, h⟩

theorem foldl_earlier (es : List Diagnostic) (d : Diagnostic) :
    es.foldl earlier d ∈ d :: es ∧
      ∀ e ∈ d :: es, ¬ e.span.Before (es.foldl earlier d).span := by
  induction es generalizing d with
  | nil =>
    refine ⟨List.mem_cons_self, fun e he => ?_⟩
    rw [List.mem_singleton.1 he]
    exact Span.Before.irrefl _
  | cons x es ih =>
    obtain ⟨hmem, hmin⟩ := ih (earlier d x)
    rw [List.foldl_cons]
    have hfirst := hmin _ List.mem_cons_self
    rcases earlier_cases d x with ⟨heq, hbefore⟩ | ⟨heq, hbefore⟩
    · rw [heq] at hmem hmin hfirst ⊢
      refine ⟨List.mem_cons_of_mem _ hmem, fun e he hlt => ?_⟩
      rcases List.mem_cons.1 he with rfl | he
      · exact hfirst (hbefore.trans hlt)
      · exact hmin e he hlt
    · rw [heq] at hmem hmin hfirst ⊢
      refine ⟨?_, fun e he hlt => ?_⟩
      · rcases List.mem_cons.1 hmem with h | h
        · exact List.mem_cons.2 (.inl h)
        · exact List.mem_cons_of_mem _ (List.mem_cons_of_mem _ h)
      · rcases List.mem_cons.1 he with rfl | he
        · exact hfirst hlt
        · rcases List.mem_cons.1 he with rfl | he
          · -- It would stand before `d` as well, which does not stand before the earliest one.
            refine hbefore ?_
            unfold Span.Before at hlt hfirst ⊢
            omega
          · exact hmin e (List.mem_cons_of_mem _ he) hlt

/-- Two diagnostics stand at different places. -/
def Apart (es : List Diagnostic) : Prop :=
  es.Pairwise fun d e => d.span.Before e.span

theorem earliest_of_apart {es : List Diagnostic} (h : Apart es) : earliest? es = es.head? := by
  cases es with
  | nil => rfl
  | cons d es =>
    obtain ⟨hmem, hmin⟩ := foldl_earlier es d
    rw [earliest?, List.head?_cons]
    rcases List.mem_cons.1 hmem with heq | hmem
    · rw [heq]
    · exact absurd ((List.pairwise_cons.1 h).1 _ hmem) (hmin d List.mem_cons_self)

theorem earliest_perm {es fs : List Diagnostic} (h : Apart es) (hperm : fs.Perm es) :
    earliest? fs = earliest? es := by
  cases es with
  | nil => rw [hperm.eq_nil]
  | cons d es =>
    rw [earliest_of_apart h, List.head?_cons]
    cases fs with
    | nil => exact absurd hperm.symm.eq_nil (List.cons_ne_nil _ _)
    | cons f fs =>
      obtain ⟨hmem, hmin⟩ := foldl_earlier fs f
      have hmem' := hperm.mem_iff.1 hmem
      rw [earliest?]
      rcases List.mem_cons.1 hmem' with heq | hmem'
      · rw [heq]
      · have hd : d ∈ f :: fs := hperm.mem_iff.2 List.mem_cons_self
        exact absurd ((List.pairwise_cons.1 h).1 _ hmem') (hmin d hd)

theorem earliest_eq_none {es : List Diagnostic} : earliest? es = none ↔ es = [] := by
  cases es <;> simp [earliest?]


/-- The report about a directive, if it is a jump to a label that stands nowhere. -/
def missing? (ds : List Directive) : Directive → Option Diagnostic
  | .goto span name =>
    if name ∈ labelNames ds then none else some ((Cause.undefinedLabel name).inSpan span)
  | .emit _ | .mark _ | .place _ | .branch .. | .label .. | .reject _ => none

/-- The reports of all jumps that lead nowhere. -/
def missing (ds : List Directive) : List Diagnostic := ds.filterMap (missing? ds)

theorem missing_eq_nil :
    missing ds = [] ↔ ∀ span name, .goto span name ∈ ds → name ∈ labelNames ds := by
  rw [missing, List.filterMap_eq_nil_iff]
  constructor
  · intro h span name hgoto
    by_contra hname
    have hnone := h _ hgoto
    rw [missing?, if_neg hname] at hnone
    cases hnone
  · intro h d hd
    cases d with
    | goto span name => exact if_pos (h span name hd)
    | _ => rfl

/-! ## Labels -/

variable {a : Assembly}

theorem mem_zipIdx_of_nodup {names : List String} (h : names.Nodup) {i : Nat} :
    (name, i) ∈ names.zipIdx ↔ name ∈ names ∧ i = names.idxOf name := by
  rw [List.mk_mem_zipIdx_iff_getElem?]
  constructor
  · intro hi
    obtain ⟨hlt, rfl⟩ := List.getElem?_eq_some_iff.1 hi
    exact ⟨List.getElem_mem hlt, (h.idxOf_getElem i hlt).symm⟩
  · rintro ⟨hname, rfl⟩
    have hlt := List.idxOf_lt_length_iff.2 hname
    rw [List.getElem?_eq_getElem hlt, List.getElem_idxOf hlt]

namespace Tracks

theorem mem_zipIdx (h : a.Tracks ds) {i : Nat} :
    (name, i) ∈ a.labels.toList.zipIdx ↔
      name ∈ mentioned ds ∧ (i + 1 : Symbol) = numberOf ds name := by
  rw [h.labels, mem_zipIdx_of_nodup (nodup_mentioned ds), numberOf]
  refine and_congr_right fun _ => ⟨fun heq => by rw [heq], fun heq => ?_⟩
  have hcast : (i : Int) + 1 = (mentioned ds).idxOf name + 1 := heq
  omega

theorem labelName_numberOf (h : a.Tracks ds) (hname : name ∈ mentioned ds) :
    a.labelName (numberOf ds name) = name := by
  have hlt := List.idxOf_lt_length_iff.2 hname
  have hsub : (numberOf ds name - 1).toNat = (mentioned ds).idxOf name := by
    have hcast : numberOf ds name = ((mentioned ds).idxOf name : Int) + 1 := rfl
    rw [hcast]
    omega
  rw [labelName, hsub, ← Array.getElem?_toList, h.labels, List.getElem?_eq_getElem hlt,
    List.getElem_idxOf hlt, Option.getD_some]

theorem labelNameIn_numberOf (h : a.Tracks ds) (o : LinkOrder) (hname : name ∈ mentioned ds) :
    a.labelNameIn o (numberOf ds name) = name := by
  have hmem (n : String × Nat) : n ∈ a.namesIn o ↔ n ∈ a.labels.toList.zipIdx :=
    (o.names_perm _).mem_iff
  cases hfind : (a.namesIn o).find? fun n => (n.2 + 1 : Symbol) = numberOf ds name with
  | none =>
    have hnumber : (name, (mentioned ds).idxOf name) ∈ a.namesIn o :=
      (hmem _).2 (h.mem_zipIdx.2 ⟨hname, rfl⟩)
    exact absurd (decide_eq_true rfl) (List.find?_eq_none.1 hfind _ hnumber)
  | some n =>
    obtain ⟨other, i⟩ := n
    obtain ⟨hother, hi⟩ := h.mem_zipIdx.1 ((hmem _).1 (List.mem_of_find?_eq_some hfind))
    have hfound := List.find?_some hfind
    have heq : (i + 1 : Symbol) = numberOf ds name := of_decide_eq_true hfound
    rw [labelNameIn, hfind]
    exact numberOf_inj hother (hi.symm.trans heq)

theorem lookup_tableOf (h : a.Tracks ds) (honce : PlacedOnce ds) (hds : ∀ d ∈ ds, d.Lowered)
    {names : List (String × Nat)} (hnames : names.Perm a.labels.toList.zipIdx) {x : Nat} :
    (a.tableOf names).lookup name = some x ↔ ∃ span, (x, .label span name) ∈ located 0 ds := by
  have hmem (name : String) (x : Nat) : (name, x) ∈ a.tableOf names ↔
      name ∈ mentioned ds ∧ address? ds (numberOf ds name) = some x := by
    rw [tableOf, List.mem_filterMap]
    constructor
    · rintro ⟨⟨other, i⟩, hother, heq⟩
      obtain ⟨hlabel, hi⟩ := h.mem_zipIdx.1 (hnames.mem_iff.1 hother)
      obtain ⟨y, hy, heq⟩ := Option.map_eq_some_iff.1 heq
      cases heq
      exact ⟨hlabel, by rw [← hi, ← h.places, hy]⟩
    · rintro ⟨hname, hx⟩
      refine ⟨(name, _), hnames.mem_iff.2 (h.mem_zipIdx.2 ⟨hname, rfl⟩), ?_⟩
      exact Option.map_eq_some_iff.2 ⟨x, (h.places _).trans hx, rfl⟩
  -- Every entry for the name says the same, so it does not matter which one comes first.
  have hiff : (a.tableOf names).lookup name = some x ↔ (name, x) ∈ a.tableOf names := by
    constructor
    · intro hx
      obtain ⟨front, back, heq, -⟩ := List.lookup_eq_some_iff.1 hx
      rw [heq]
      exact List.mem_append_right _ List.mem_cons_self
    · intro hx
      cases hy : (a.tableOf names).lookup name with
      | none => simpa using List.lookup_eq_none_iff.1 hy _ hx
      | some y =>
        obtain ⟨front, back, heq, -⟩ := List.lookup_eq_some_iff.1 hy
        have hmem' : (name, y) ∈ a.tableOf names := by
          rw [heq]
          exact List.mem_append_right _ List.mem_cons_self
        exact ((hmem name y).1 hmem').2.symm.trans ((hmem name x).1 hx).2
  rw [hiff, hmem, address?_numberOf honce hds]
  refine ⟨And.right, ?_⟩
  rintro ⟨span, hd⟩
  exact ⟨mem_mentioned.2 ⟨_, mem_of_mem_located hd, rfl⟩, span, hd⟩

end Tracks

/-! ## Branches that lead nowhere -/

namespace Follows

variable (h : a.Follows ds) (hclosed : Closed ds)
include h hclosed

theorem placedOnce : PlacedOnce ds := placedOnce_of_closed h.lowered hclosed.once h.once

theorem stands_iff {x : Nat} {p : Pending} (hd : d ∈ ds)
    (hp : d.pending? (numberOf ds) x = some p) :
    Stands ds p.symbol ↔ missing? ds d = none := by
  cases d with
  | branch kind span symbol =>
    cases hp
    exact iff_of_true ((stands_block h.lowered (h.lowered _ hd)).2 (hclosed.placed _ _ _ hd)) rfl
  | goto span name =>
    cases hp
    rw [stands_numberOf h.lowered, missing?]
    split <;> simp [*]
  | _ => cases hp

theorem unresolved_eq {x : Nat} {p : Pending} (hd : (x, d) ∈ located 0 ds)
    (hp : d.pending? (numberOf ds) x = some p) : a.unresolved? p = missing? ds d := by
  have hmem := mem_of_mem_located hd
  have hsome := h.isSome_resolved (p := p) (by
    rw [h.pending]
    exact List.mem_filterMap.2 ⟨_, hd, hp⟩)
  rw [h.stands_iff hclosed hmem hp] at hsome
  unfold unresolved?
  cases hr : a.resolved? p with
  | some i =>
    rw [hr] at hsome
    exact (hsome.1 rfl).symm
  | none =>
    rw [hr] at hsome
    cases d with
    | branch kind span symbol => exact absurd (hsome.2 rfl) (by simp)
    | goto span name =>
      cases hp
      have hname : name ∉ labelNames ds := fun hname => by simp [missing?, hname] at hsome
      have hlookup : a.places.lookup (numberOf ds name) = none := by
        rw [h.places, address?_of_not_stands]
        rwa [stands_numberOf h.lowered]
      rw [missing?, if_neg hname]
      simp only [hlookup, numberOf_pos, and_self, if_true,
        h.labelName_numberOf (mem_mentioned.2 ⟨_, hmem, rfl⟩)]
    | _ => cases hp

theorem unresolvedIn_eq (o : LinkOrder) {p : Pending} (hp : p ∈ a.pending.toList) :
    a.unresolvedIn? o p = a.unresolved? p := by
  have hsome := h.isSome_resolved hp
  rw [h.pending] at hp
  obtain ⟨d, hd, heq⟩ := mem_waiting.1 hp
  have hmem := mem_of_mem_located hd
  unfold unresolvedIn? unresolved?
  cases hr : a.resolved? p with
  | some i => rfl
  | none =>
    rw [hr, h.stands_iff hclosed hmem heq] at hsome
    cases d with
    | branch kind span symbol => exact absurd (hsome.2 rfl) (by simp)
    | goto span name =>
      have hname : name ∈ mentioned ds := mem_mentioned.2 ⟨_, hmem, rfl⟩
      have hsymbol := congrArg Pending.symbol (Option.some.inj heq)
      rw [← hsymbol, h.labelName_numberOf hname, h.labelNameIn_numberOf o hname]
    | _ => cases heq

theorem filterMap_unresolved : a.pending.toList.filterMap a.unresolved? = missing ds := by
  have hsame : ∀ l ∈ located 0 ds,
      (l.2.pending? (numberOf ds) l.1).bind a.unresolved? = missing? ds l.2 := by
    rintro ⟨x, d⟩ hd
    cases hp : d.pending? (numberOf ds) x with
    | some p => exact h.unresolved_eq hclosed hd hp
    | none =>
      cases d with
      | branch | goto => cases hp
      | _ => rfl
  rw [h.pending, waiting, List.filterMap_filterMap, missing, ← filterMap_located (missing? ds) 0 ds]
  exact List.filterMap_congr hsame

theorem filterMap_unresolvedIn (o : LinkOrder) :
    ((a.branchesIn o).filterMap (a.unresolvedIn? o)).Perm (missing ds) := by
  refine ((o.branches_perm _).filterMap _).trans (List.Perm.of_eq ?_)
  rw [← h.filterMap_unresolved hclosed]
  exact List.filterMap_congr fun p hp => h.unresolvedIn_eq hclosed o hp

end Follows

end Assembly

/-! ## Programs -/

/-- The program is what linking makes of directives whose branches have their addresses. -/
structure Program.Linked (p : Program) (ds : List Directive) : Prop where
  room : codeLength ds ≤ codeLimit
  once : (Assembly.labelNames ds).Nodup
  label : ∀ name x, p.label? name = some x ↔ ∃ span, (x, .label span name) ∈ located 0 ds
  defined : ∀ span name, .goto span name ∈ ds → name ∈ Assembly.labelNames ds
  code : p.code.toList = instructions (fun name => (p.label? name).getD 0) ds
  marks : p.marks.toList = Assembly.marksOf 0 ds

theorem Program.Linked.size_eq {p : Program} (h : p.Linked ds) : p.size = codeLength ds := by
  rw [Program.size, ← Array.length_toList, h.code, length_instructions]

/-- The programs differ at most in the order of their labels. -/
structure Program.Agrees (p q : Program) : Prop where
  code : p.code = q.code
  marks : p.marks = q.marks
  label : ∀ name, p.label? name = q.label? name

/-- The same program, or the same report. -/
def sameOutcome : Except Diagnostic Program → Except Diagnostic Program → Prop
  | .ok p, .ok q => p.Agrees q
  | .error d, .error e => d = e
  | _, _ => False

/-! ### Blocks with their addresses -/

/-- What is left of a directive when the addresses of blocks are known. -/
def Directive.fixed? (address : Symbol → Nat) : Directive → Option Directive
  | .place _ => none
  | .branch kind _ symbol => some (.emit (.branch kind (address symbol)))
  | d => some d

def fixed (address : Symbol → Nat) (ds : List Directive) : List Directive :=
  ds.filterMap (·.fixed? address)

section

variable (address : Symbol → Nat)

@[simp] theorem fixed_append (ds ds' : List Directive) :
    fixed address (ds ++ ds') = fixed address ds ++ fixed address ds' := List.filterMap_append

@[simp] theorem fixed_emits (is : List Instr) : fixed address (emits is) = emits is := by
  induction is with
  | nil => rfl
  | cons i is ih => exact congrArg (_ :: ·) ih

theorem mem_fixed {ds : List Directive} (hplain : ∀ address, d.fixed? address = some d)
    (hbranch : ∀ kind target, d ≠ .emit (.branch kind target)) : d ∈ fixed address ds ↔ d ∈ ds := by
  rw [fixed, List.mem_filterMap]
  constructor
  · rintro ⟨d', hd', heq⟩
    cases d' with
    | place => cases heq
    | branch kind span symbol =>
      cases heq
      exact absurd rfl (hbranch kind (address symbol))
    | _ =>
      cases heq
      exact hd'
  · exact fun hd => ⟨d, hd, hplain address⟩

theorem codeLength_fixed (ds : List Directive) : codeLength (fixed address ds) = codeLength ds := by
  unfold codeLength fixed
  rw [List.countP_filterMap]
  refine List.countP_congr fun d _ => ?_
  cases d <;> exact Iff.rfl

theorem located_fixed (here : Nat) (ds : List Directive) :
    located here (fixed address ds) =
      (located here ds).filterMap fun l => (l.2.fixed? address).map (l.1, ·) := by
  induction ds generalizing here with
  | nil => rfl
  | cons d ds ih =>
    cases d with
    | place => exact ih here
    | _ => exact congrArg (_ :: ·) (ih _)

theorem labelNames_fixed (ds : List Directive) :
    Assembly.labelNames (fixed address ds) = Assembly.labelNames ds := by
  unfold Assembly.labelNames fixed
  rw [List.filterMap_filterMap]
  refine List.filterMap_congr fun d _ => ?_
  cases d <;> rfl

theorem marksOf_fixed (here : Nat) (ds : List Directive) :
    Assembly.marksOf here (fixed address ds) = Assembly.marksOf here ds := by
  unfold Assembly.marksOf
  rw [located_fixed, List.filterMap_filterMap]
  refine List.filterMap_congr fun ⟨x, d⟩ _ => ?_
  cases d <;> rfl

theorem instructions_fixed {number : String → Symbol} {target : String → Nat}
    (h : ∀ span name, .goto span name ∈ ds → target name = address (number name)) :
    instructions target (fixed address ds) = ds.filterMap (·.linked? number address) := by
  unfold instructions fixed
  rw [List.filterMap_filterMap]
  refine List.filterMap_congr fun d hd => ?_
  cases d with
  | goto span name => exact congrArg (fun x => some (Instr.branch .always x)) (h span name hd)
  | _ => rfl

theorem label_mem_located_fixed {here x : Nat} {span : Span} :
    (x, .label span name) ∈ located here (fixed address ds) ↔
      (x, .label span name) ∈ located here ds := by
  rw [located_fixed, List.mem_filterMap]
  constructor
  · rintro ⟨⟨y, d⟩, hd, heq⟩
    cases d with
    | label => 
      cases heq
      exact hd
    | _ => cases heq
  · exact fun hd => ⟨_, hd, rfl⟩

end

namespace Assembly.Follows

variable {a : Assembly} (h : a.Follows ds) (hclosed : Closed ds)
include h hclosed

theorem linked (hjumps : ∀ span name, .goto span name ∈ ds → name ∈ labelNames ds) :
    Program.Linked { code := a.patched, labels := a.labelAddresses, marks := a.marks }
      (fixed (addressIn ds) ds) where
  room := by
    rw [codeLength_fixed]
    exact h.room
  once := by
    rw [labelNames_fixed]
    exact h.once
  label name x := by
    simp only [label_mem_located_fixed]
    exact h.lookup_tableOf (h.placedOnce hclosed) h.lowered (.refl _)
  defined span name hgoto := by
    rw [labelNames_fixed]
    exact hjumps span name ((mem_fixed _ (fun _ => rfl) (by simp)).1 hgoto)
  code := by
    refine h.toList_patched.trans (instructions_fixed _ fun span name hgoto => ?_).symm
    -- The table has the address that the symbol of the label has.
    have honce := h.placedOnce hclosed
    rw [addressIn]
    congr 1
    ext x
    exact (h.lookup_tableOf honce h.lowered (.refl _)).trans
      (address?_numberOf honce h.lowered).symm
  marks := by
    rw [marksOf_fixed]
    exact h.marks

theorem link_eq :
    a.link =
      match earliest? (missing ds) with
      | some d => .error d
      | none => .ok { code := a.patched, labels := a.labelAddresses, marks := a.marks } := by
  change (match earliest? (a.pending.toList.filterMap a.unresolved?) with
    | some d => Except.error d
    | none => .ok (Program.mk a.patched a.labelAddresses a.marks)) = _
  rw [h.filterMap_unresolved hclosed]

/-- Whatever order the linker takes, it comes to the same. -/
theorem linkIn_same (happart : Apart (missing ds)) (o : LinkOrder) :
    sameOutcome (a.linkIn o) a.link := by
  rw [h.link_eq hclosed, linkIn, earliest_perm happart (h.filterMap_unresolvedIn hclosed o)]
  cases earliest? (missing ds) with
  | some d => exact rfl
  | none =>
    have honce := h.placedOnce hclosed
    refine ⟨h.foldl_patch_perm (o.branches_perm _), rfl, fun name => ?_⟩
    ext x
    exact (h.lookup_tableOf honce h.lowered (o.names_perm _)).trans
      (h.lookup_tableOf honce h.lowered (.refl _)).symm

end Assembly.Follows

end Handheld
