import Handheld.Proofs.Code.Drafts

/-!
# Labels and jumps of a tree

Lowering writes a directive for each label and each jump of a tree, in the order
of the source, and no others.
-/

namespace Handheld

def Stmt.label? : Stmt → Option (Span × String)
  | .label span name => some (span, name)
  | _ => none

def Stmt.goto? : Stmt → Option (Span × String)
  | .goto span name => some (span, name)
  | _ => none

/-- The labels of a tree, in the order of the source. -/
def labelsIn (ss : List Stmt) : List (Span × String) := (flatBlock ss).filterMap Stmt.label?

def gotosIn (ss : List Stmt) : List (Span × String) := (flatBlock ss).filterMap Stmt.goto?

/-- The statement that a directive stands for, if it is a label or a jump. -/
def Directive.named? : Directive → Option Stmt
  | .label span name => some (.label span name)
  | .goto span name => some (.goto span name)
  | _ => none

def Stmt.named? : Stmt → Option Stmt
  | .label span name => some (.label span name)
  | .goto span name => some (.goto span name)
  | _ => none

theorem named_emits (is : List Instr) : (emits is).filterMap Directive.named? = [] := by
  rw [List.filterMap_eq_nil_iff]
  intro d hd
  obtain ⟨i, -, rfl⟩ := List.mem_map.1 hd
  rfl

theorem named_mark (span : Span) (ds : List Directive) :
    (Directive.mark span :: ds).filterMap Directive.named? = ds.filterMap Directive.named? := rfl

theorem named_tree :
    (∀ (s : Stmt) (depth here : Nat),
      (s.directives depth here).filterMap Directive.named? = s.flat.filterMap Stmt.named?) ∧
    (∀ (ss : List Stmt) (depth here : Nat),
      (blockDirectives depth here ss).filterMap Directive.named? =
        (flatBlock ss).filterMap Stmt.named?) := by
  apply tree_induction
  case straight =>
    intro s is his depth here
    rw [Stmt.directives_of_straight his, Stmt.flat_of_straight his]
    have hnone : s.named? = none := by
      cases s with
      | cond | loop | label | goto => cases his
      | _ => rfl
    rw [named_mark, named_emits, List.filterMap_cons_none hnone, List.filterMap_nil]
  case label =>
    intro span name depth here
    rfl
  case goto =>
    intro span name depth here
    rfl
  case cond =>
    intro span c yes no ihYes ihNo depth here
    rw [Stmt.flat, List.filterMap_cons_none rfl, List.filterMap_append]
    cases no with
    | nil =>
      rw [Stmt.directives, List.filterMap_append, named_mark, named_emits, ihYes]
      simp [flatBlock]
    | cons n no =>
      rw [Stmt.directives]
      · simp only [List.filterMap_append, named_mark, named_emits, ihYes, ihNo, List.nil_append,
          List.append_nil]
      · exact List.cons_ne_nil n no
  case loop =>
    intro span kind body ih depth here
    have hmark : (kind.returnMark span).filterMap Directive.named? = [] := by cases kind <;> rfl
    rw [Stmt.flat, List.filterMap_cons_none rfl, Stmt.directives]
    simp only [List.filterMap_append, named_mark, named_emits, ih, hmark, List.nil_append,
      List.append_nil]
  case nil =>
    intro depth here
    rfl
  case cons =>
    intro s ss ihs ihss depth here
    rw [blockDirectives, flatBlock, List.filterMap_append, List.filterMap_append, ihs, ihss]

def Directive.label? : Directive → Option (Span × String)
  | .label span name => some (span, name)
  | _ => none

def Directive.goto? : Directive → Option (Span × String)
  | .goto span name => some (span, name)
  | _ => none

section

variable {α : Type} {f : Stmt → Option α} {g : Directive → Option α}
  (hf : ∀ s, f s = s.named?.bind f) (hg : ∀ d, g d = d.named?.bind f) (ss : List Stmt)
include hf hg

theorem filterMap_blockDirectives (depth here : Nat) :
    (blockDirectives depth here ss).filterMap g = (flatBlock ss).filterMap f := by
  calc
    (blockDirectives depth here ss).filterMap g
      = ((blockDirectives depth here ss).filterMap Directive.named?).filterMap f := by
        rw [List.filterMap_filterMap]
        exact congrArg (List.filterMap · _) (funext hg)
    _ = ((flatBlock ss).filterMap Stmt.named?).filterMap f := by rw [named_tree.2]
    _ = (flatBlock ss).filterMap f := by
        rw [List.filterMap_filterMap]
        exact congrArg (List.filterMap · _) (funext hf).symm

theorem filterMap_blockDraft (depth : Nat) :
    (blockDraft depth 0 ss).filterMap g = (flatBlock ss).filterMap f := by
  obtain ⟨address, hfixed⟩ := exists_fixed.2 ss depth 0
  rw [← filterMap_blockDirectives hf hg ss depth 0, ← hfixed, fixed, List.filterMap_filterMap]
  refine List.filterMap_congr fun d _ => ?_
  -- Only labels and jumps count, and they have no block symbol.
  cases d <;> simp [hg, Directive.fixed?, Directive.named?]

end

theorem Stmt.label?_eq (s : Stmt) : s.label? = s.named?.bind Stmt.label? := by cases s <;> rfl

theorem Stmt.goto?_eq (s : Stmt) : s.goto? = s.named?.bind Stmt.goto? := by cases s <;> rfl

theorem Directive.label?_eq (d : Directive) : d.label? = d.named?.bind Stmt.label? := by
  cases d <;> rfl

theorem Directive.goto?_eq (d : Directive) : d.goto? = d.named?.bind Stmt.goto? := by
  cases d <;> rfl

theorem labels_draft (ss : List Stmt) :
    (blockDraft 0 0 ss).filterMap Directive.label? = labelsIn ss :=
  filterMap_blockDraft Stmt.label?_eq Directive.label?_eq ss 0

theorem gotos_draft (ss : List Stmt) :
    (blockDraft 0 0 ss).filterMap Directive.goto? = gotosIn ss :=
  filterMap_blockDraft Stmt.goto?_eq Directive.goto?_eq ss 0

theorem labels_blockDirectives (ss : List Stmt) (depth here : Nat) :
    (blockDirectives depth here ss).filterMap Directive.label? = labelsIn ss :=
  filterMap_blockDirectives Stmt.label?_eq Directive.label?_eq ss depth here

theorem gotos_blockDirectives (ss : List Stmt) (depth here : Nat) :
    (blockDirectives depth here ss).filterMap Directive.goto? = gotosIn ss :=
  filterMap_blockDirectives Stmt.goto?_eq Directive.goto?_eq ss depth here

theorem mem_filterMap_iff {α β : Type} {f : α → Option β} {e : α} {b : β}
    (h : ∀ a, f a = some b ↔ a = e) (xs : List α) : b ∈ xs.filterMap f ↔ e ∈ xs := by
  simp only [List.mem_filterMap, h, exists_eq_right]

theorem goto_mem_blockDirectives {ss : List Stmt} {depth here : Nat} {span : Span} {name : String} :
    .goto span name ∈ blockDirectives depth here ss ↔ .goto span name ∈ flatBlock ss := by
  rw [← mem_filterMap_iff (f := Directive.goto?) (b := (span, name)), gotos_blockDirectives, gotosIn,
    mem_filterMap_iff]
  · intro s
    cases s <;> simp [Stmt.goto?]
  · intro d
    cases d <;> simp [Directive.goto?]

theorem label_mem_blockDirectives {ss : List Stmt} {depth here : Nat} {span : Span} {name : String} :
    .label span name ∈ blockDirectives depth here ss ↔ .label span name ∈ flatBlock ss := by
  rw [← mem_filterMap_iff (f := Directive.label?) (b := (span, name)), labels_blockDirectives,
    labelsIn, mem_filterMap_iff]
  · intro s
    cases s <;> simp [Stmt.label?]
  · intro d
    cases d <;> simp [Directive.label?]

namespace Assembly

theorem labelNames_eq (ds : List Directive) :
    labelNames ds = (ds.filterMap Directive.label?).map Prod.snd := by
  rw [labelNames, List.map_filterMap]
  congr 1
  funext d
  cases d <;> rfl

theorem labelNames_draft (ss : List Stmt) :
    labelNames (blockDraft 0 0 ss) = (labelsIn ss).map Prod.snd := by
  rw [labelNames_eq, labels_draft]

end Assembly

end Handheld
