import Handheld.Proofs.Code.Linking

/-!
# Branches and the places of their symbols

An assembly takes directives in any order and goes on behind those that it
refuses. A symbol can be branched to before it stands anywhere, and it can be
placed again: the last place counts. Linking writes that address into all branches
to the symbol and leaves the other instructions as they are.
-/

namespace Handheld

variable {ds : List Directive} {d : Directive} {name : String} {symbol : Symbol}

/-! ## Branches with their addresses -/

/-- What linking is to make of a directive that leaves an instruction in the code. -/
inductive Patched (ds : List Directive) : Directive → Instr → Prop
  | emit (i : Instr) : Patched ds (.emit i) i
  | branch {kind : Branch} {span : Span} {symbol : Symbol} {x : Nat}
      (hx : address? ds symbol = some x) (hle : x ≤ codeLength ds) :
      Patched ds (.branch kind span symbol) (.branch kind x)
  | goto {span : Span} {name : String} {x : Nat}
      (hx : address? ds (numberOf ds name) = some x) (hle : x ≤ codeLength ds) :
      Patched ds (.goto span name) (.branch .always x)

theorem patched_linked {ds' : List Directive}
    (h : ∀ d ∈ ds', ∀ symbol, d.target? (numberOf ds) = some symbol → Stands ds symbol) :
    List.Forall₂ (Patched ds) (ds'.filter Directive.isCode)
      (ds'.filterMap (·.linked? (numberOf ds) (addressIn ds))) := by
  induction ds' with
  | nil => exact .nil
  | cons d ds' ih =>
    obtain ⟨hd, hds⟩ := List.forall_mem_cons.1 h
    cases d with
    | emit i => exact .cons (.emit i) (ih hds)
    | branch kind span symbol =>
      have hx := address?_of_stands (hd symbol rfl)
      exact .cons (.branch hx (address?_le hx)) (ih hds)
    | goto span name =>
      have hx := address?_of_stands (hd (numberOf ds name) rfl)
      exact .cons (.goto hx (address?_le hx)) (ih hds)
    | mark | place | label | reject => exact ih hds

/-! ## Growing -/

namespace Assembly

variable {a : Assembly}

/-- What an assembly is asked for as it grows. -/
inductive Growth
  /-- A symbol that it has not handed out before. -/
  | symbol
  | follow (d : Directive)

def Growth.directive? : Growth → Option Directive
  | .symbol => none
  | .follow d => some d

def grow (a : Assembly) : Growth → Assembly
  | .symbol => a.freshSymbol.2
  | .follow d => (a.apply d).1

/-- The assembly after all of this, also behind directives that it has refused. -/
def grown (gs : List Growth) : Assembly := gs.foldl grow {}

theorem Tracks.grow (h : a.Tracks ds) (g : Growth) :
    (a.grow g).Tracks (ds ++ g.directive?.toList) := by
  cases g with
  | symbol =>
    rw [Growth.directive?, Option.toList_none, List.append_nil]
    exact ⟨h.code, h.labels, h.pending, h.places, h.marks⟩
  | follow d => exact h.apply d

theorem tracks_grown (gs : List Growth) : (grown gs).Tracks (gs.filterMap Growth.directive?) := by
  induction gs using List.reverseRecOn with
  | nil => exact .nil
  | append_singleton gs g ih =>
    have hlast : [g].filterMap Growth.directive? = g.directive?.toList := by cases g <;> rfl
    rw [grown, List.foldl_concat, List.filterMap_append, hlast]
    exact ih.grow g

/-! ## Linking -/

theorem unresolved?_eq_none {p : Pending} :
    a.unresolved? p = none ↔ (a.resolved? p).isSome := by
  rw [unresolved?]
  split <;> simp [*]

theorem link_eq_ok {p : Program} :
    a.link = .ok p ↔ (∀ q ∈ a.pending.toList, (a.resolved? q).isSome) ∧
      { code := a.patched, labels := a.labelAddresses, marks := a.marks } = p := by
  have hnone : earliest? (a.pending.toList.filterMap a.unresolved?) = none ↔
      ∀ q ∈ a.pending.toList, (a.resolved? q).isSome := by
    simp only [earliest_eq_none, List.filterMap_eq_nil_iff, unresolved?_eq_none]
  rw [← hnone, link]
  split <;> simp [*]

theorem Tracks.resolved_iff (h : a.Tracks ds) :
    (∀ q ∈ a.pending.toList, (a.resolved? q).isSome) ↔
      ∀ symbol, Referenced ds symbol → Stands ds symbol := by
  have hmem (symbol : Symbol) :
      (∃ q ∈ a.pending.toList, q.symbol = symbol) ↔ Referenced ds symbol := by
    rw [h.pending]
    exact exists_mem_waiting
  constructor
  · intro hall symbol hsymbol
    obtain ⟨q, hq, rfl⟩ := (hmem symbol).2 hsymbol
    exact (h.isSome_resolved hq).1 (hall q hq)
  · intro hall q hq
    exact (h.isSome_resolved hq).2 (hall _ ((hmem _).1 ⟨q, hq, rfl⟩))

/-- However an assembly has grown, linking it succeeds if each symbol that is branched to stands
somewhere. Then there is one instruction for each directive that gives one: those that are given as
they are do not change, and a branch keeps its kind and leads to the last place of its symbol. A
label whose symbol stands already is refused, and all symbols stay where they are. -/
theorem link_patches_branches (gs : List Growth) :
    let a := grown gs
    let ds := gs.filterMap Growth.directive?
    ((∃ p, a.link = .ok p) ↔ ∀ symbol, Referenced ds symbol → Stands ds symbol) ∧
    (∀ p, a.link = .ok p →
      p.size = codeLength ds ∧
      List.Forall₂ (Patched ds) (ds.filter Directive.isCode) p.code.toList) ∧
    ∀ span name, Stands ds (numberOf ds name) →
      (a.apply (.label span name)).2 = some ((Cause.duplicateLabel name).inSpan span) ∧
      (a.apply (.label span name)).1.places = a.places := by
  intro a ds
  have h : a.Tracks ds := tracks_grown gs
  refine ⟨?_, fun p hp => ?_, fun span name hstands => ?_⟩
  · simp only [link_eq_ok, exists_and_left, exists_eq', and_true]
    exact h.resolved_iff
  · obtain ⟨hall, rfl⟩ := link_eq_ok.1 hp
    have hcode := h.toList_patched
    refine ⟨?_, ?_⟩
    · rw [Program.size, ← Array.length_toList, hcode, length_linked]
    · rw [hcode]
      exact patched_linked fun d hd symbol hsymbol => h.resolved_iff.1 hall symbol ⟨d, hd, hsymbol⟩
  · rw [apply_label, h.symbolOf_eq, if_pos (h.isSome_lookup.2 hstands)]
    exact ⟨rfl, rfl⟩

/-- A symbol is placed again behind the end, and one of the branches is given with its address. -/
theorem link_patches_branches_again :
    let span : Span := ⟨1, 0, 1⟩
    let gs : List Growth := [.symbol, .follow (.branch .ifFalse span (-1)),
      .follow (.goto span "A"), .follow (.place (-1)), .follow (.emit (.branch .always 7)),
      .follow (.label span "A"), .follow (.emit .exit), .follow (.place (-1))]
    (∃ p, (grown gs).link = .ok p ∧ p.size = 4 ∧
      p.code = #[.branch .ifFalse 4, .branch .always 3, .branch .always 7, .exit]) ∧
    ((grown gs).apply (.label span "A")).2 = some ((Cause.duplicateLabel "A").inSpan span) := by
  intro span gs
  have hstands : Stands (gs.filterMap Growth.directive?)
      (numberOf (gs.filterMap Growth.directive?) "A") := by decide +kernel
  have hcode : (grown gs).patched =
      #[.branch .ifFalse 4, .branch .always 3, .branch .always 7, .exit] := by decide +kernel
  obtain ⟨-, hprogram, hlabel⟩ := link_patches_branches gs
  have hresolved : ∀ q ∈ (grown gs).pending.toList,
      ((grown gs).resolved? q).isSome := by decide +kernel
  have hlink := link_eq_ok.2 ⟨hresolved, rfl⟩
  exact ⟨⟨_, hlink, (hprogram _ hlink).1, hcode⟩, (hlabel span "A" hstands).1⟩

end Assembly

end Handheld
