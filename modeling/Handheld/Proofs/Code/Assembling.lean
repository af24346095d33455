import Handheld.Code.Assembly
import Mathlib.Data.List.Induction
import Mathlib.Data.List.Nodup

/-!
# Following directives

An assembly that has been given directives has an instruction for each of those
that give one. It knows where the symbols stand and which branches wait for them.
It stops at the first label whose name is taken, or when there is no room for more
code.
-/

namespace Handheld

/-! ## Code -/

/-- Instructions that are given as they are. -/
def emits (is : List Instr) : List Directive := is.map .emit

@[simp] theorem emits_append (is js : List Instr) : emits (is ++ js) = emits is ++ emits js :=
  List.map_append

@[simp] theorem emits_cons (i : Instr) (is : List Instr) :
    emits (i :: is) = .emit i :: emits is := rfl

@[simp] theorem emits_nil : emits [] = [] := rfl

/-- Does the directive leave an instruction in the code? -/
def Directive.isCode : Directive → Bool
  | .emit _ | .branch .. | .goto .. => true
  | .mark _ | .place _ | .label .. | .reject _ => false

def codeLength (ds : List Directive) : Nat := ds.countP Directive.isCode

@[simp] theorem codeLength_nil : codeLength [] = 0 := rfl

@[simp] theorem codeLength_append (ds ds' : List Directive) :
    codeLength (ds ++ ds') = codeLength ds + codeLength ds' := List.countP_append

@[simp] theorem codeLength_mark (span : Span) (ds : List Directive) :
    codeLength (.mark span :: ds) = codeLength ds := rfl

@[simp] theorem codeLength_emit (i : Instr) (ds : List Directive) :
    codeLength (.emit i :: ds) = codeLength ds + 1 :=
  List.countP_cons_of_pos rfl

@[simp] theorem codeLength_place (symbol : Symbol) (ds : List Directive) :
    codeLength (.place symbol :: ds) = codeLength ds := rfl

@[simp] theorem codeLength_branch (kind : Branch) (span : Span) (symbol : Symbol)
    (ds : List Directive) : codeLength (.branch kind span symbol :: ds) = codeLength ds + 1 :=
  List.countP_cons_of_pos rfl

@[simp] theorem codeLength_label (span : Span) (name : String) (ds : List Directive) :
    codeLength (.label span name :: ds) = codeLength ds := rfl

@[simp] theorem codeLength_goto (span : Span) (name : String) (ds : List Directive) :
    codeLength (.goto span name :: ds) = codeLength ds + 1 :=
  List.countP_cons_of_pos rfl

@[simp] theorem codeLength_emits (is : List Instr) : codeLength (emits is) = is.length := by
  induction is with
  | nil => rfl
  | cons i is ih => rw [emits_cons, codeLength_emit, ih, List.length_cons]

/-! ## Addresses of directives -/

/-- Each directive with its address: the number of instructions in front of it. -/
def located (here : Nat) : List Directive → List (Nat × Directive)
  | [] => []
  | d :: ds => (here, d) :: located (here + codeLength [d]) ds

theorem located_append (here : Nat) (ds ds' : List Directive) :
    located here (ds ++ ds') = located here ds ++ located (here + codeLength ds) ds' := by
  induction ds generalizing here with
  | nil => rfl
  | cons d ds ih =>
    have hlen : codeLength (d :: ds) = codeLength [d] + codeLength ds := codeLength_append [d] ds
    simp only [List.cons_append, located, ih, hlen, Nat.add_assoc]

theorem located_concat (here : Nat) (ds : List Directive) (d : Directive) :
    located here (ds ++ [d]) = located here ds ++ [(here + codeLength ds, d)] := by
  rw [located_append]
  rfl

theorem snd_located (here : Nat) (ds : List Directive) : (located here ds).map Prod.snd = ds := by
  induction ds generalizing here with
  | nil => rfl
  | cons d ds ih => rw [located, List.map_cons, ih]

theorem mem_of_mem_located {here x : Nat} {d : Directive} {ds : List Directive}
    (h : (x, d) ∈ located here ds) : d ∈ ds := by
  rw [← snd_located here ds]
  exact List.mem_map_of_mem h

theorem exists_mem_located (here : Nat) {d : Directive} {ds : List Directive} (h : d ∈ ds) :
    ∃ x, (x, d) ∈ located here ds := by
  rw [← snd_located here ds] at h
  obtain ⟨⟨x, d'⟩, hx, rfl⟩ := List.mem_map.1 h
  exact ⟨x, hx⟩

theorem mem_located_iff {here x : Nat} {d : Directive} {ds : List Directive} :
    (x, d) ∈ located here ds ↔ ∃ pre post, ds = pre ++ d :: post ∧ x = here + codeLength pre := by
  constructor
  · intro h
    induction ds generalizing here with
    | nil => cases h
    | cons d' ds ih =>
      rw [located, List.mem_cons] at h
      rcases h with h | h
      · cases h
        exact ⟨[], ds, rfl, rfl⟩
      · obtain ⟨pre, post, rfl, rfl⟩ := ih h
        refine ⟨d' :: pre, post, rfl, ?_⟩
        have hlen : codeLength (d' :: pre) = codeLength [d'] + codeLength pre :=
          codeLength_append [d'] pre
        rw [hlen, Nat.add_assoc]
  · rintro ⟨pre, post, rfl, rfl⟩
    rw [located_append]
    exact List.mem_append_right _ List.mem_cons_self

theorem filterMap_located {β : Type} (f : Directive → Option β) (here : Nat)
    (ds : List Directive) : (located here ds).filterMap (fun l => f l.2) = ds.filterMap f := by
  conv => rhs; rw [← snd_located here ds, List.filterMap_map]
  rfl

/-! ## Instructions of directives -/

/-- The instruction that a directive leaves in the code, given the addresses of the labels. -/
def Directive.instr? (address : String → Nat) : Directive → Option Instr
  | .emit i => some i
  | .branch kind _ _ => some (.branch kind 0)
  | .goto _ name => some (.branch .always (address name))
  | .mark _ | .place _ | .label .. | .reject _ => none

def instructions (address : String → Nat) (ds : List Directive) : List Instr :=
  ds.filterMap (·.instr? address)

section

variable (address : String → Nat)

@[simp] theorem instructions_append (ds ds' : List Directive) :
    instructions address (ds ++ ds') = instructions address ds ++ instructions address ds' :=
  List.filterMap_append

@[simp] theorem instructions_mark (span : Span) (ds : List Directive) :
    instructions address (.mark span :: ds) = instructions address ds := rfl

@[simp] theorem instructions_emits (is : List Instr) : instructions address (emits is) = is := by
  induction is with
  | nil => rfl
  | cons i is ih => exact congrArg (i :: ·) ih

theorem length_instructions (ds : List Directive) :
    (instructions address ds).length = codeLength ds := by
  rw [instructions, List.length_filterMap_eq_countP]
  refine List.countP_congr fun d _ => ?_
  cases d <;> exact Iff.rfl

theorem getElem?_instructions {ds : List Directive} {x : Nat} {i : Instr} :
    (instructions address ds)[x]? = some i ↔
      ∃ d, (x, d) ∈ located 0 ds ∧ d.instr? address = some i := by
  constructor
  · intro hx
    obtain ⟨hlt, rfl⟩ := List.getElem?_eq_some_iff.1 hx
    have hsplit := (List.take_append_drop x (instructions address ds)).symm
    rw [List.drop_eq_getElem_cons hlt] at hsplit
    obtain ⟨front, rest, rfl, hfront, hrest⟩ := List.filterMap_eq_append_iff.1 hsplit
    obtain ⟨skipped, d, back, rfl, hskipped, hd, -⟩ := List.filterMap_eq_cons_iff.1 hrest
    have hx : x = codeLength (front ++ skipped) := by
      have hnone : instructions address skipped = [] := List.filterMap_eq_nil_iff.2 hskipped
      have hlength : (instructions address front).length = x :=
        (congrArg List.length hfront).trans (List.length_take_of_le (Nat.le_of_lt hlt))
      rw [← length_instructions address, instructions_append, hnone, List.append_nil, hlength]
    refine ⟨d, mem_located_iff.2 ⟨front ++ skipped, back, ?_, ?_⟩, hd⟩
    · rw [List.append_assoc]
    · rw [Nat.zero_add]
      exact hx
  · rintro ⟨d, hd, hi⟩
    obtain ⟨front, back, rfl, rfl⟩ := mem_located_iff.1 hd
    have hcons : instructions address (d :: back) = i :: instructions address back :=
      List.filterMap_cons_some hi
    rw [instructions_append, hcons, Nat.zero_add, ← length_instructions address front,
      List.getElem?_append_right (Nat.le_refl _), Nat.sub_self, List.getElem?_cons_zero]

end

variable {ds : List Directive} {d : Directive} {name : String} {symbol : Symbol}

/-! ## Symbols of labels -/

/-- The label that a directive speaks of. -/
def Directive.name? : Directive → Option String
  | .label _ name | .goto _ name => some name
  | .emit _ | .mark _ | .place _ | .branch .. | .reject _ => none

/-- The labels that the directives speak of, in the order of their first use. -/
def mentioned (ds : List Directive) : List String := (ds.filterMap Directive.name?).eraseDups

/-- The symbol of a label: its number in that order, which is the next number if it is new. -/
def numberOf (ds : List Directive) (name : String) : Symbol := (mentioned ds).idxOf name + 1

theorem mem_mentioned : name ∈ mentioned ds ↔ ∃ d ∈ ds, d.name? = some name := by
  rw [mentioned, List.mem_eraseDups, List.mem_filterMap]

theorem mentioned_concat (ds : List Directive) (d : Directive) :
    mentioned (ds ++ [d]) = mentioned ds ++ d.name?.toList.filter (· ∉ mentioned ds) := by
  rw [mentioned, List.filterMap_append, List.eraseDups_append]
  cases hd : d.name? with
  | none => simp [List.filterMap_cons_none hd, mentioned]
  | some name =>
    rw [List.filterMap_cons_some hd, List.filterMap_nil]
    by_cases hname : name ∈ ds.filterMap Directive.name? <;>
      simp [List.removeAll, List.eraseDups_cons, mentioned, -List.mem_filterMap, hname]

theorem nodup_mentioned (ds : List Directive) : (mentioned ds).Nodup := by
  induction ds using List.reverseRecOn with
  | nil => exact List.nodup_nil
  | append_singleton ds d ih =>
    rw [mentioned_concat]
    refine List.nodup_append.2 ⟨ih, ?_, ?_⟩
    · cases d.name? with
      | none => exact List.nodup_nil
      | some name => exact (List.nodup_singleton name).filter _
    · rintro name hname _ hother rfl
      exact of_decide_eq_true (List.mem_filter.1 hother).2 hname

theorem numberOf_concat (h : name ∈ mentioned (ds ++ [d])) :
    numberOf (ds ++ [d]) name = numberOf ds name := by
  rw [mentioned_concat, List.mem_append] at h
  rw [numberOf, mentioned_concat, List.idxOf_append]
  by_cases hmem : name ∈ mentioned ds
  · rw [if_pos hmem, numberOf]
  · obtain ⟨hname, -⟩ := List.mem_filter.1 (h.resolve_left hmem)
    rw [if_neg hmem, Option.mem_toList.1 hname, numberOf, List.idxOf_eq_length hmem]
    simp [hmem]

theorem numberOf_pos (ds : List Directive) (name : String) : 0 < numberOf ds name := by
  have h : (0 : Int) < ((mentioned ds).idxOf name : Int) + 1 := by omega
  exact h

theorem numberOf_inj {other : String} (h : name ∈ mentioned ds)
    (heq : numberOf ds name = numberOf ds other) : name = other := by
  have hidx : (mentioned ds).idxOf name = (mentioned ds).idxOf other := by
    have hsucc : ((mentioned ds).idxOf name : Int) + 1 = (mentioned ds).idxOf other + 1 := heq
    omega
  have hlt := List.idxOf_lt_length_iff.2 h
  have hother : other ∈ mentioned ds := List.idxOf_lt_length_iff.1 (hidx ▸ hlt)
  have hname := List.getElem_idxOf hlt
  have hget := List.getElem_idxOf (List.idxOf_lt_length_iff.2 hother)
  simp only [hidx] at hname
  exact hname.symm.trans hget

/-! ## Places of symbols -/

/-- The symbol that a directive is to place, given the symbols of the labels. -/
def Directive.placed? (number : String → Symbol) : Directive → Option Symbol
  | .place symbol => some symbol
  | .label _ name => some (number name)
  | .emit _ | .mark _ | .branch .. | .goto .. | .reject _ => none

/-- The symbol stands somewhere. -/
def Stands (ds : List Directive) (symbol : Symbol) : Prop :=
  ∃ d ∈ ds, d.placed? (numberOf ds) = some symbol

instance : Decidable (Stands ds symbol) :=
  inferInstanceAs (Decidable (∃ d ∈ ds, d.placed? (numberOf ds) = some symbol))

/-- Behind other directives this one gives the symbol an address. A label does so only if its symbol
stands nowhere before. -/
def Places (front : List Directive) (d : Directive) (symbol : Symbol) : Prop :=
  d = .place symbol ∨ d.placed? (numberOf front) = some symbol ∧ ¬ Stands front symbol

instance {front : List Directive} : Decidable (Places front d symbol) :=
  inferInstanceAs (Decidable (d = .place symbol ∨ _ ∧ _))

/-- The addresses that a symbol is given by directives behind those in `front`, in their order. -/
def placements (symbol : Symbol) (front : List Directive) : List Directive → List Nat
  | [] => []
  | d :: ds =>
    (if Places front d symbol then [codeLength front] else []) ++
      placements symbol (front ++ [d]) ds

/-- The last of them. -/
def address? (ds : List Directive) (symbol : Symbol) : Option Nat :=
  (placements symbol [] ds).getLast?

/-- The address of a symbol that stands somewhere. -/
def addressIn (ds : List Directive) (symbol : Symbol) : Nat := (address? ds symbol).getD 0

theorem placements_concat (front ds : List Directive) :
    placements symbol front (ds ++ [d]) = placements symbol front ds ++
      if Places (front ++ ds) d symbol then [codeLength (front ++ ds)] else [] := by
  induction ds generalizing front with
  | nil => simp [placements]
  | cons d' ds ih => simp [placements, ih]

theorem address?_concat : address? (ds ++ [d]) symbol =
    if Places ds d symbol then some (codeLength ds) else address? ds symbol := by
  rw [address?, placements_concat, List.nil_append]
  split
  · exact List.getLast?_concat
  · rw [List.append_nil, address?]

theorem placed?_concat {d' : Directive} (hd : d' ∈ ds ++ [d]) :
    d'.placed? (numberOf (ds ++ [d])) = d'.placed? (numberOf ds) := by
  cases d' with
  | label span name => exact congrArg some (numberOf_concat (mem_mentioned.2 ⟨_, hd, rfl⟩))
  | _ => rfl

theorem stands_concat :
    Stands (ds ++ [d]) symbol ↔ Stands ds symbol ∨ d.placed? (numberOf ds) = some symbol := by
  constructor
  · rintro ⟨d', hd', heq⟩
    rw [placed?_concat hd'] at heq
    rcases List.mem_append.1 hd' with hd' | hd'
    · exact .inl ⟨d', hd', heq⟩
    · exact .inr (List.mem_singleton.1 hd' ▸ heq)
  · rintro (⟨d', hd', heq⟩ | heq)
    · have hmem := List.mem_append_left [d] hd'
      exact ⟨d', hmem, (placed?_concat hmem).trans heq⟩
    · have hmem := List.mem_append_right ds (List.mem_singleton_self d)
      exact ⟨d, hmem, (placed?_concat hmem).trans heq⟩

theorem isSome_address? : (address? ds symbol).isSome ↔ Stands ds symbol := by
  induction ds using List.reverseRecOn with
  | nil => simp [address?, placements, Stands]
  | append_singleton ds d ih =>
    rw [address?_concat, stands_concat]
    split
    · next h =>
      refine iff_of_true rfl ?_
      rcases h with rfl | ⟨h, -⟩
      · exact .inr rfl
      · exact .inr h
    · next h =>
      rw [ih]
      refine ⟨.inl, fun hor => hor.elim id fun hplaced => ?_⟩
      by_contra hnot
      exact h (.inr ⟨hplaced, hnot⟩)

theorem address?_of_stands (h : Stands ds symbol) :
    address? ds symbol = some (addressIn ds symbol) := by
  obtain ⟨x, hx⟩ := Option.isSome_iff_exists.1 (isSome_address?.2 h)
  rw [addressIn, hx, Option.getD_some]

theorem address?_of_not_stands (h : ¬ Stands ds symbol) : address? ds symbol = none :=
  Option.not_isSome_iff_eq_none.1 (mt isSome_address?.1 h)

theorem address?_le {x : Nat} (h : address? ds symbol = some x) : x ≤ codeLength ds := by
  induction ds using List.reverseRecOn with
  | nil => cases h
  | append_singleton ds d ih =>
    rw [address?_concat] at h
    rw [codeLength_append]
    split at h
    · cases h
      exact Nat.le_add_right _ _
    · exact Nat.le_trans (ih h) (Nat.le_add_right _ _)

/-- No symbol is placed twice. -/
def PlacedOnce (ds : List Directive) : Prop :=
  (ds.filterMap (·.placed? (numberOf ds))).Nodup

theorem placedOnce_concat :
    PlacedOnce (ds ++ [d]) ↔
      PlacedOnce ds ∧ ∀ symbol, d.placed? (numberOf ds) = some symbol → ¬ Stands ds symbol := by
  have hsame : (ds ++ [d]).filterMap (·.placed? (numberOf (ds ++ [d]))) =
      (ds ++ [d]).filterMap (·.placed? (numberOf ds)) :=
    List.filterMap_congr fun _ hd => placed?_concat hd
  have hstands (symbol : Symbol) :
      symbol ∈ ds.filterMap (·.placed? (numberOf ds)) ↔ Stands ds symbol := List.mem_filterMap
  unfold PlacedOnce
  rw [hsame, List.filterMap_append, List.nodup_append]
  refine and_congr_right fun _ => ?_
  cases hd : d.placed? (numberOf ds) with
  | none => simp [hd]
  | some symbol =>
    simp only [List.filterMap_cons_some hd, List.filterMap_nil, List.nodup_singleton, true_and,
      List.mem_singleton, forall_eq, hstands, Option.some.injEq, forall_eq']
    exact ⟨fun h hstands => h symbol hstands rfl, fun h s hs heq => h (heq ▸ hs)⟩

theorem address?_eq_some_iff (h : PlacedOnce ds) {x : Nat} :
    address? ds symbol = some x ↔
      ∃ d, (x, d) ∈ located 0 ds ∧ d.placed? (numberOf ds) = some symbol := by
  induction ds using List.reverseRecOn with
  | nil => simp [address?, placements, located]
  | append_singleton ds d ih =>
    obtain ⟨hds, hnew⟩ := placedOnce_concat.1 h
    rw [address?_concat, located_concat, Nat.zero_add]
    constructor
    · intro hx
      split at hx
      · next hplaces =>
        cases hx
        have hd : d.placed? (numberOf ds) = some symbol := by
          rcases hplaces with rfl | ⟨hd, -⟩
          · rfl
          · exact hd
        refine ⟨d, List.mem_append_right _ List.mem_cons_self, ?_⟩
        rw [placed?_concat (List.mem_append_right _ List.mem_cons_self), hd]
      · obtain ⟨d', hd', heq⟩ := (ih hds).1 hx
        refine ⟨d', List.mem_append_left _ hd', ?_⟩
        rw [placed?_concat (List.mem_append_left _ (mem_of_mem_located hd')), heq]
    · rintro ⟨d', hd', heq⟩
      rcases List.mem_append.1 hd' with hd' | hd'
      · have hmem := mem_of_mem_located hd'
        rw [placed?_concat (List.mem_append_left _ hmem)] at heq
        rw [if_neg, (ih hds).2 ⟨d', hd', heq⟩]
        rintro (rfl | ⟨hd, -⟩)
        · exact hnew symbol rfl ⟨d', hmem, heq⟩
        · exact hnew symbol hd ⟨d', hmem, heq⟩
      · cases List.mem_singleton.1 hd'
        rw [placed?_concat (List.mem_append_right _ List.mem_cons_self)] at heq
        rw [if_pos (.inr ⟨heq, hnew symbol heq⟩)]

/-! ## Branches that wait -/

/-- The symbol that a directive branches to. -/
def Directive.target? (number : String → Symbol) : Directive → Option Symbol
  | .branch _ _ symbol => some symbol
  | .goto _ name => some (number name)
  | .emit _ | .mark _ | .place _ | .label .. | .reject _ => none

/-- Some directive branches to the symbol. -/
def Referenced (ds : List Directive) (symbol : Symbol) : Prop :=
  ∃ d ∈ ds, d.target? (numberOf ds) = some symbol

def Directive.pending? (number : String → Symbol) (address : Nat) : Directive → Option Pending
  | .branch _ span symbol => some ⟨address, span, symbol⟩
  | .goto span name => some ⟨address, span, number name⟩
  | .emit _ | .mark _ | .place _ | .label .. | .reject _ => none

/-- The branches to symbols, each with its address. -/
def waiting (number : String → Symbol) (ds : List Directive) : List Pending :=
  (located 0 ds).filterMap fun l => l.2.pending? number l.1

theorem mem_waiting {number : String → Symbol} {p : Pending} :
    p ∈ waiting number ds ↔
      ∃ d, (p.address, d) ∈ located 0 ds ∧ d.pending? number p.address = some p := by
  have haddress {x : Nat} {d : Directive} (h : d.pending? number x = some p) : x = p.address := by
    cases d with
    | branch | goto => cases h; rfl
    | _ => cases h
  constructor
  · intro h
    obtain ⟨⟨x, d⟩, hd, heq⟩ := List.mem_filterMap.1 h
    cases haddress heq
    exact ⟨d, hd, heq⟩
  · rintro ⟨d, hd, heq⟩
    exact List.mem_filterMap.2 ⟨_, hd, heq⟩

theorem waiting_concat (number : String → Symbol) (ds : List Directive) (d : Directive) :
    waiting number (ds ++ [d]) =
      waiting number ds ++ (d.pending? number (codeLength ds)).toList := by
  unfold waiting
  rw [located_concat, List.filterMap_append, Nat.zero_add]
  cases d <;> rfl

theorem waiting_numberOf_concat (ds : List Directive) (d : Directive) :
    waiting (numberOf (ds ++ [d])) (ds ++ [d]) =
      waiting (numberOf ds) ds ++ (d.pending? (numberOf ds) (codeLength ds)).toList := by
  rw [← waiting_concat]
  refine List.filterMap_congr fun l hl => ?_
  obtain ⟨x, d'⟩ := l
  cases d' with
  | goto span name =>
    have hnumber : numberOf (ds ++ [d]) name = numberOf ds name :=
      numberOf_concat (mem_mentioned.2 ⟨_, mem_of_mem_located hl, rfl⟩)
    simp only [Directive.pending?, hnumber]
  | _ => rfl

theorem exists_mem_waiting {number : String → Symbol} :
    (∃ p ∈ waiting number ds, p.symbol = symbol) ↔ ∃ d ∈ ds, d.target? number = some symbol := by
  have hsymbol (d : Directive) (x : Nat) :
      (d.pending? number x).map Pending.symbol = d.target? number := by
    cases d <;> rfl
  constructor
  · rintro ⟨p, hp, rfl⟩
    obtain ⟨d, hd, heq⟩ := mem_waiting.1 hp
    refine ⟨d, mem_of_mem_located hd, ?_⟩
    rw [← hsymbol d p.address, heq, Option.map_some]
  · rintro ⟨d, hd, heq⟩
    obtain ⟨x, hx⟩ := exists_mem_located 0 hd
    rw [← hsymbol d x, Option.map_eq_some_iff] at heq
    obtain ⟨p, hp, rfl⟩ := heq
    exact ⟨p, List.mem_filterMap.2 ⟨_, hx, hp⟩, rfl⟩

theorem lt_of_mem_waiting {number : String → Symbol} {p : Pending} (h : p ∈ waiting number ds) :
    p.address < codeLength ds := by
  obtain ⟨d, hd, heq⟩ := mem_waiting.1 h
  obtain ⟨front, back, rfl, hx⟩ := mem_located_iff.1 hd
  rw [hx]
  cases d with
  | branch | goto => simp
  | _ => cases heq

theorem waiting_increasing (number : String → Symbol) (ds : List Directive) :
    ((waiting number ds).map Pending.address).Pairwise (· < ·) := by
  induction ds using List.reverseRecOn with
  | nil => exact .nil
  | append_singleton ds d ih =>
    rw [waiting_concat, List.map_append, List.pairwise_append]
    have hlast : ∀ p ∈ (d.pending? number (codeLength ds)).toList, p.address = codeLength ds := by
      intro p hp
      have hp := Option.mem_toList.1 hp
      cases d with
      | branch | goto => cases hp; rfl
      | _ => cases hp
    refine ⟨ih, ?_, ?_⟩
    · cases d.pending? number (codeLength ds) with
      | none => exact .nil
      | some p => exact List.pairwise_singleton ..
    · intro x hx y hy
      obtain ⟨p, hp, rfl⟩ := List.mem_map.1 hx
      obtain ⟨q, hq, rfl⟩ := List.mem_map.1 hy
      rw [hlast q hq]
      exact lt_of_mem_waiting hp

/-! ## What an assembly knows -/

namespace Assembly

variable {a : Assembly}

/-- The symbol that a label has, or that it would get. -/
def symbolOf (a : Assembly) (name : String) : Symbol :=
  a.labels.toList.idxOf name + 1

def withLabel (a : Assembly) (name : String) : Assembly :=
  { a with labels := if name ∈ a.labels.toList then a.labels else a.labels.push name }

theorem labelSymbol_eq (a : Assembly) (name : String) :
    a.labelSymbol name = (a.symbolOf name, a.withLabel name) := by
  have hidx : a.labels.idxOf? name = a.labels.toList.idxOf? name :=
    List.idxOf?_toArray name a.labels.toList
  unfold labelSymbol symbolOf withLabel
  by_cases hmem : name ∈ a.labels.toList
  · obtain ⟨i, hi⟩ := Option.isSome_iff_exists.1 (List.isSome_idxOf?.2 hmem)
    have hi' : a.labels.toList.idxOf name = i := (List.findIdx?_eq_some_iff_findIdx_eq.1 hi).2
    rw [hidx, hi, if_pos hmem, hi']
  · rw [hidx, List.idxOf?_eq_none_iff.2 hmem, if_neg hmem, List.idxOf_eq_length hmem]
    rfl

theorem toList_withLabel (a : Assembly) (name : String) :
    (a.withLabel name).labels.toList =
      a.labels.toList ++ if name ∈ a.labels.toList then [] else [name] := by
  unfold withLabel
  split <;> simp

def marksOf (here : Nat) (ds : List Directive) : List (Nat × Span) :=
  (located here ds).filterMap fun
    | (address, .mark span) => some (address, span)
    | _ => none

theorem marksOf_concat (ds : List Directive) (d : Directive) :
    marksOf 0 (ds ++ [d]) = marksOf 0 ds ++
      match d with
      | .mark span => [(codeLength ds, span)]
      | _ => [] := by
  unfold marksOf
  rw [located_concat, List.filterMap_append, Nat.zero_add]
  cases d <;> rfl

/-- The assembly has been given the directives, whether it has refused some of them or not. -/
structure Tracks (a : Assembly) (ds : List Directive) : Prop where
  code : a.code.toList = instructions (fun _ => 0) ds
  labels : a.labels.toList = mentioned ds
  pending : a.pending.toList = waiting (numberOf ds) ds
  places : ∀ symbol, a.places.lookup symbol = address? ds symbol
  marks : a.marks.toList = marksOf 0 ds

/-! ### One directive -/

theorem apply_label (a : Assembly) (span : Span) (name : String) :
    a.apply (.label span name) =
      if (a.places.lookup (a.symbolOf name)).isSome then
        (a.withLabel name, some ((Cause.duplicateLabel name).inSpan span))
      else ((a.withLabel name).place (a.symbolOf name), none) := by
  rw [apply, labelSymbol_eq]
  rfl

theorem apply_goto (a : Assembly) (span : Span) (name : String) :
    a.apply (.goto span name) = (a.withLabel name).branch .always span (a.symbolOf name) := by
  rw [apply, labelSymbol_eq]

theorem code_apply (a : Assembly) (d : Directive) :
    (a.apply d).1.code.toList = a.code.toList ++ instructions (fun _ => 0) [d] := by
  cases d with
  | emit | branch => exact Array.toList_push
  | goto span name =>
    rw [apply_goto]
    exact Array.toList_push
  | label span name =>
    rw [apply_label]
    split <;> exact (List.append_nil _).symm
  | mark | place | reject => exact (List.append_nil _).symm

theorem labels_apply (a : Assembly) (d : Directive) :
    (a.apply d).1.labels.toList =
      a.labels.toList ++ d.name?.toList.filter (· ∉ a.labels.toList) := by
  have hnew (name : String) : (a.withLabel name).labels.toList =
      a.labels.toList ++ [name].filter (· ∉ a.labels.toList) := by
    rw [toList_withLabel, List.filter_singleton]
    by_cases hname : name ∈ a.labels.toList <;> simp [hname]
  cases d with
  | label span name =>
    rw [apply_label]
    split <;> exact hnew name
  | goto span name =>
    rw [apply_goto]
    exact hnew name
  | emit | branch | mark | place | reject => exact (List.append_nil _).symm

theorem pending_apply (a : Assembly) (d : Directive) :
    (a.apply d).1.pending.toList = a.pending.toList ++ (d.pending? a.symbolOf a.size).toList := by
  cases d with
  | branch => exact Array.toList_push
  | goto span name =>
    rw [apply_goto]
    exact Array.toList_push
  | label span name =>
    rw [apply_label]
    split <;> exact (List.append_nil _).symm
  | emit | mark | place | reject => exact (List.append_nil _).symm

theorem marks_apply (a : Assembly) (d : Directive) :
    (a.apply d).1.marks.toList = a.marks.toList ++
      match d with
      | .mark span => [(a.size, span)]
      | _ => [] := by
  cases d with
  | mark => exact Array.toList_push
  | goto span name =>
    rw [apply_goto]
    exact (List.append_nil _).symm
  | label span name =>
    rw [apply_label]
    split <;> exact (List.append_nil _).symm
  | emit | branch | place | reject => exact (List.append_nil _).symm

theorem lookup_place (a : Assembly) (s : Symbol) :
    (a.place s).places.lookup symbol =
      if s = symbol then some a.size else a.places.lookup symbol := by
  rw [place, List.lookup_cons]
  by_cases heq : s = symbol
  · rw [if_pos heq, heq, beq_self_eq_true]
  · rw [if_neg heq, beq_false_of_ne (Ne.symm heq)]

theorem places_apply (a : Assembly) (d : Directive) :
    (a.apply d).1.places.lookup symbol =
      if d = .place symbol ∨
          d.placed? a.symbolOf = some symbol ∧ (a.places.lookup symbol).isSome = false then
        some a.size
      else a.places.lookup symbol := by
  cases d with
  | place s =>
    refine (a.lookup_place s).trans (if_congr ⟨fun heq => .inl (congrArg _ heq), ?_⟩ rfl rfl)
    rintro (heq | ⟨heq, -⟩)
    · exact Directive.place.inj heq
    · exact Option.some.inj heq
  | label span name =>
    rw [apply_label]
    split
    · next hsome =>
      refine (if_neg ?_).symm
      rintro (heq | ⟨heq, hnone⟩)
      · cases heq
      · cases heq
        exact Bool.false_ne_true (hnone.symm.trans hsome)
    · next hnone =>
      have hfalse := Bool.eq_false_iff.2 hnone
      refine (lookup_place _ _).trans (if_congr ⟨fun heq => ?_, ?_⟩ rfl rfl)
      · exact .inr ⟨congrArg some heq, heq ▸ hfalse⟩
      · rintro (heq | ⟨heq, -⟩)
        · cases heq
        · exact Option.some.inj heq
  | goto span name =>
    rw [apply_goto]
    refine (if_neg ?_).symm
    rintro (heq | ⟨heq, -⟩) <;> cases heq
  | emit | branch | mark | reject =>
    refine (if_neg ?_).symm
    rintro (heq | ⟨heq, -⟩) <;> cases heq

theorem handedOut_apply (a : Assembly) (d : Directive) :
    (a.apply d).1.handedOut = a.handedOut := by
  cases d with
  | goto span name =>
    rw [apply_goto]
    rfl
  | label span name =>
    rw [apply_label]
    split <;> rfl
  | emit | branch | mark | place | reject => rfl

namespace Tracks

theorem size_eq (h : a.Tracks ds) : a.size = codeLength ds := by
  rw [size, ← Array.length_toList, h.code, length_instructions]

theorem symbolOf_eq (h : a.Tracks ds) : a.symbolOf = numberOf ds := by
  funext name
  rw [symbolOf, h.labels, numberOf]

theorem isSome_lookup (h : a.Tracks ds) : (a.places.lookup symbol).isSome ↔ Stands ds symbol := by
  rw [h.places, isSome_address?]

theorem nil : ({} : Assembly).Tracks [] where
  code := rfl
  labels := rfl
  pending := rfl
  places _ := rfl
  marks := rfl

theorem apply (h : a.Tracks ds) (d : Directive) : (a.apply d).1.Tracks (ds ++ [d]) where
  code := by rw [code_apply, h.code, instructions_append]
  labels := by rw [labels_apply, h.labels, mentioned_concat]
  pending := by
    rw [pending_apply, h.pending, h.symbolOf_eq, h.size_eq, waiting_numberOf_concat]
  places symbol := by
    rw [places_apply, address?_concat, h.symbolOf_eq, h.size_eq, h.places]
    refine if_congr (or_congr_right (and_congr_right fun _ => ?_)) rfl rfl
    rw [Bool.eq_false_iff, ne_eq, isSome_address?]
  marks := by rw [marks_apply, marksOf_concat, h.marks, h.size_eq]

end Tracks

/-! ## Directives that can be followed -/

end Assembly

/-- Symbols that are handed out are negative, so that they are not those of labels. -/
def Directive.Lowered : Directive → Prop
  | .emit _ | .mark _ | .label .. | .goto .. => True
  | .place symbol | .branch _ _ symbol => symbol < 0
  | .reject _ => False

namespace Assembly

variable {a : Assembly}

def labelNames (ds : List Directive) : List String :=
  ds.filterMap fun
    | .label _ name => some name
    | _ => none

theorem labelNames_concat (ds : List Directive) (d : Directive) :
    labelNames (ds ++ [d]) = labelNames ds ++
      match d with
      | .label _ name => [name]
      | _ => [] := by
  unfold labelNames
  rw [List.filterMap_append]
  cases d <;> rfl

theorem mem_labelNames : name ∈ labelNames ds ↔ ∃ span, .label span name ∈ ds := by
  unfold labelNames
  rw [List.mem_filterMap]
  constructor
  · rintro ⟨d, hd, heq⟩
    cases d with
    | label span other =>
      cases heq
      exact ⟨span, hd⟩
    | _ => cases heq
  · rintro ⟨span, hd⟩
    exact ⟨_, hd, rfl⟩

theorem placed?_numberOf (hlowered : d.Lowered) (hd : d ∈ ds) :
    d.placed? (numberOf ds) = some (numberOf ds name) ↔ ∃ span, d = .label span name := by
  constructor
  · intro heq
    cases d with
    | place s =>
      cases heq
      exact absurd (numberOf_pos ds name) (Int.lt_asymm hlowered)
    | label span other =>
      have hother : other ∈ mentioned ds := mem_mentioned.2 ⟨_, hd, rfl⟩
      exact ⟨span, by rw [numberOf_inj hother (Option.some.inj heq)]⟩
    | _ => cases heq
  · rintro ⟨span, rfl⟩
    rfl

theorem stands_numberOf (hds : ∀ d ∈ ds, d.Lowered) :
    Stands ds (numberOf ds name) ↔ name ∈ labelNames ds := by
  rw [mem_labelNames]
  constructor
  · rintro ⟨d, hd, heq⟩
    obtain ⟨span, rfl⟩ := (placed?_numberOf (hds d hd) hd).1 heq
    exact ⟨span, hd⟩
  · rintro ⟨span, hd⟩
    exact ⟨_, hd, rfl⟩

/-- What is wrong with following one more directive. -/
def failure? (ds : List Directive) (d : Directive) : Option Diagnostic :=
  if codeLimit < codeLength (ds ++ [d]) then some Cause.programTooLarge.nowhere
  else
    match d with
    | .label span name =>
      if name ∈ labelNames ds then some ((Cause.duplicateLabel name).inSpan span) else none
    | _ => none

/-- The assembly has followed the directives, and it has refused none. -/
structure Follows (a : Assembly) (ds : List Directive) : Prop extends a.Tracks ds where
  room : codeLength ds ≤ codeLimit
  once : (labelNames ds).Nodup
  lowered : ∀ d ∈ ds, d.Lowered

namespace Follows

theorem nil : ({} : Assembly).Follows [] where
  toTracks := .nil
  room := Nat.zero_le _
  once := List.nodup_nil
  lowered := by simp

theorem overflow_eq (h : a.Follows ds) {d : Directive} (hd : codeLength [d] = 1) (i : Instr) :
    (if codeLimit < (a.code.push i).size then some Cause.programTooLarge.nowhere else none) =
      if codeLimit < codeLength (ds ++ [d]) then some Cause.programTooLarge.nowhere else none := by
  rw [Array.size_push, codeLength_append, hd, ← h.size_eq]
  rfl

theorem failure_eq (h : a.Follows ds) (hd : d.Lowered) : (a.apply d).2 = failure? ds d := by
  cases d with
  | reject => cases hd
  | emit i => exact h.overflow_eq rfl i
  | branch kind span symbol => exact h.overflow_eq rfl _
  | goto span name =>
    rw [apply_goto]
    exact h.overflow_eq rfl _
  | mark | place => simp [failure?, h.room, Assembly.apply]
  | label span name =>
    have hroom : ¬ codeLimit < codeLength (ds ++ [.label span name]) := by
      rw [codeLength_append]
      exact Nat.not_lt.2 h.room
    have hsome : (a.places.lookup (a.symbolOf name)).isSome ↔ name ∈ labelNames ds := by
      rw [h.isSome_lookup, h.symbolOf_eq, stands_numberOf h.lowered]
    rw [failure?, if_neg hroom, apply_label]
    simp only [hsome]
    split <;> rfl

theorem concat (h : a.Follows ds) (hd : d.Lowered) (hnone : failure? ds d = none) :
    (a.apply d).1.Follows (ds ++ [d]) where
  toTracks := h.toTracks.apply d
  room := by
    by_contra hroom
    unfold failure? at hnone
    rw [if_pos (Nat.lt_of_not_le hroom)] at hnone
    cases hnone
  once := by
    rw [labelNames_concat]
    cases d with
    | label span name =>
      have hnew : name ∉ labelNames ds := by
        intro hname
        unfold failure? at hnone
        split at hnone
        · cases hnone
        · dsimp only at hnone
          rw [if_pos hname] at hnone
          cases hnone
      refine List.nodup_append.2 ⟨h.once, List.nodup_singleton name, ?_⟩
      rintro other hother _ hname rfl
      exact hnew (List.mem_singleton.1 hname ▸ hother)
    | _ => simpa using h.once
  lowered := by
    intro d' hd'
    rcases List.mem_append.1 hd' with hd' | hd'
    · exact h.lowered d' hd'
    · rwa [List.mem_singleton.1 hd']

end Follows

/-! ## Following all of them -/

/-- Follows directives up to the first one that fails. -/
def build (ds : List Directive) : Except Diagnostic Assembly := ds.foldlM follow {}

theorem Follows.foldlM {front : List Directive} (h : a.Follows front)
    (hds : ∀ d ∈ ds, d.Lowered) :
    (∃ b : Assembly, ds.foldlM follow a = .ok b ∧ b.Follows (front ++ ds)) ∨
    ∃ (mid back : List Directive) (d : Directive) (e : Diagnostic), ds = mid ++ d :: back ∧
      (labelNames (front ++ mid)).Nodup ∧ failure? (front ++ mid) d = some e ∧
      ds.foldlM follow a = .error e := by
  induction ds generalizing a front with
  | nil => exact .inl ⟨a, rfl, by rwa [List.append_nil]⟩
  | cons d ds ih =>
    obtain ⟨hd, hds⟩ := List.forall_mem_cons.1 hds
    have happly := h.failure_eq hd
    rw [List.foldlM_cons]
    cases hfail : failure? front d with
    | some e =>
      have herror : follow a d = .error e := by
        rw [follow, ← Prod.eta (a.apply d), happly, hfail]
      refine .inr ⟨[], ds, d, e, rfl, ?_, ?_, ?_⟩
      · rw [List.append_nil]
        exact h.once
      · rw [List.append_nil]
        exact hfail
      · rw [herror]
        rfl
    | none =>
      have hok : follow a d = .ok (a.apply d).1 := by
        rw [follow, ← Prod.eta (a.apply d), happly, hfail]
      rw [hok]
      rcases ih (h.concat hd hfail) hds with ⟨b, hb, hb'⟩ | ⟨mid, back, d', e, rfl, honce, he, herror⟩
      · exact .inl ⟨b, hb, by simpa using hb'⟩
      · exact .inr ⟨d :: mid, back, d', e, rfl, by simpa using honce, by simpa using he, herror⟩

theorem build_cases (hds : ∀ d ∈ ds, d.Lowered) :
    (∃ a, build ds = .ok a ∧ a.Follows ds) ∨
    ∃ (front back : List Directive) (d : Directive) (e : Diagnostic),
      ds = front ++ d :: back ∧ (labelNames front).Nodup ∧
      failure? front d = some e ∧ build ds = .error e :=
  Follows.nil.foldlM hds

end Assembly

end Handheld
