import Handheld.Proofs.Code.Depth
import Handheld.Proofs.Meaning.Tree
import Handheld.Proofs.Run.Transcript

/-!
# What code computes

Code without branches computes what an expression or a statement means: it finds
some values on the stack, makes the same calls, leaves the same store, and puts
the result in the place of what it found. `Computes` says so of a list of
instructions, and such lists can be put one behind the other.
-/

namespace Handheld

/-! ## Stacks and stores -/

namespace Stack

variable {α : Type}

/-- A stack with the given values, the top one first. -/
def ofList (items : List α) : Stack α := ⟨items, items.length, rfl⟩

theorem popN_ofList (vs items : List α) :
    (ofList (vs.reverse ++ items)).popN vs.length = (some vs, ofList items) := by
  have hle : vs.length ≤ (ofList (vs.reverse ++ items)).size := by simp [ofList]
  rw [popN, if_pos hle]
  refine Prod.ext ?_ (Stack.ext ?_)
  · simp [ofList]
  · simp [ofList]

end Stack

namespace Machine

def store (m : Machine) : Store := ⟨m.memory, m.debug⟩

/-- The machine with another store, other values on its stack, at another address. -/
def moved (m : Machine) (store : Store) (items : List Int64) (pc : Nat) : Machine :=
  { m with memory := store.memory, debug := store.debug, stack := .ofList items, pc }

end Machine

/-- An event without the place where it happened. -/
def Event.unplaced : Event → Event
  | .fault d => .fault d.cause.nowhere
  | e => e

/-! ## Code in a program -/

/-- The instructions stand in the program from the address `x` on. -/
def Program.HasCode (p : Program) (x : Nat) (is : List Instr) : Prop :=
  ∀ k i, is[k]? = some i → p.code[x + k]? = some i

namespace Program.HasCode

variable {p : Program} {x : Nat} {is js : List Instr}

theorem append : p.HasCode x (is ++ js) ↔ p.HasCode x is ∧ p.HasCode (x + is.length) js := by
  constructor
  · intro h
    refine ⟨fun k i hi => h k i ?_, fun k i hi => ?_⟩
    · rw [List.getElem?_append_left (List.getElem?_eq_some_iff.1 hi).1]
      exact hi
    · rw [Nat.add_assoc]
      refine h _ i ?_
      rw [List.getElem?_append_right (Nat.le_add_right _ _), Nat.add_sub_cancel_left]
      exact hi
  · rintro ⟨h, h'⟩ k i hi
    rcases Nat.lt_or_ge k is.length with hlt | hge
    · rw [List.getElem?_append_left hlt] at hi
      exact h k i hi
    · rw [List.getElem?_append_right hge] at hi
      have hcode := h' _ i hi
      rwa [Nat.add_assoc, Nat.add_sub_cancel' hge] at hcode

theorem head {i : Instr} (h : p.HasCode x (i :: is)) : p.code[x]? = some i := h 0 i rfl

theorem singleton {i : Instr} (h : p.code[x]? = some i) : p.HasCode x [i] := by
  intro k j hj
  cases k with
  | zero =>
    cases hj
    exact h
  | succ k => cases hj

theorem length_le (h : p.HasCode x is) : is.length ≤ p.size := by
  rcases Nat.eq_zero_or_pos is.length with hzero | hpos
  · omega
  · have hlast : is.length - 1 < is.length := by omega
    have hcode := h _ _ (List.getElem?_eq_getElem hlast)
    have hbound : x + (is.length - 1) < p.size := (Array.getElem?_eq_some_iff.1 hcode).1
    omega

end Program.HasCode

/-! ## Computations -/

/-- A stack of `depth` values has room for all that the code puts there. -/
def HasRoom (depth : Nat) (is : List Instr) : Prop :=
  ∀ js, js <+: is → ∀ depth', depthAfter depth js = some depth' → depth' ≤ stackLimit

theorem HasRoom.left {depth : Nat} {is js : List Instr} (h : HasRoom depth (is ++ js)) :
    HasRoom depth is := fun ks hks => h ks (hks.trans (List.prefix_append is js))

theorem HasRoom.right {depth depth' : Nat} {is js : List Instr} (h : HasRoom depth (is ++ js))
    (hdepth : depthAfter depth is = some depth') : HasRoom depth' js := by
  intro ks hks depth'' hdepth'
  refine h (is ++ ks) ((List.prefix_append_right_inj is).2 hks) depth'' ?_
  rw [depthAfter_append, hdepth]
  exact hdepth'

theorem hasRoom_of_length {depth : Nat} {is : List Instr} (h : depth + is.length ≤ stackLimit) :
    HasRoom depth is := by
  intro js hjs depth' hdepth
  have hle := depthAfter_le hdepth
  have hlength := hjs.length_le
  omega

/-- How a machine comes out of some instructions: with the result in its place, or at an end. -/
inductive Lands {α : Type} (m : Machine) (is : List Instr) (below : List Int64)
    (after : α → List Int64) : Except Status α × Store → Machine → Prop
  | going (a : α) (store : Store)
      (hdepth : depthAfter m.stack.size is = some (after a ++ below).length) :
      Lands m is below after (.ok a, store) (m.moved store (after a ++ below) (m.pc + is.length))
  | over {status : Status} {store : Store} {m' : Machine} (hprogram : m'.program = m.program)
      (hstore : m'.store = store) (hstatus : m'.status = status) (hover : status ≠ .running) :
      Lands m is below after (.error status, store) m'

/-- The code does the computation. It takes the values `before` off the stack and puts `after`
there. -/
def Computes {α : Type} (is : List Instr) (before : List Int64) (x : Eval α)
    (after : α → List Int64) : Prop :=
  ∀ (m : Machine) (below : List Int64), m.status = .running → m.program.HasCode m.pc is →
    m.stack = .ofList (before ++ below) → HasRoom m.stack.size is →
    Script.Mirrors Event.unplaced (Lands m is below after) (x m.store) (m.turns is.length)

namespace Computes

variable {α β : Type} {is js : List Instr} {before : List Int64} {x : Eval α} {f : α → Eval β}
  {mid : α → List Int64} {after : β → List Int64}

theorem bind (h : Computes is before x mid) (h' : ∀ a, Computes js (mid a) (f a) after) :
    Computes (is ++ js) before (x >>= f) after := by
  intro m below hrun hcode hstack hroom
  rw [List.length_append, Machine.turns_add]
  obtain ⟨hcode, hcode'⟩ := Program.HasCode.append.1 hcode
  refine (h m below hrun hcode hstack hroom.left).bind ?_
  rintro _ m' (⟨a, store, hdepth⟩ | ⟨hprogram, hstore, hstatus, hover⟩)
  · -- The second part begins where the first one has landed.
    have hmirrors := h' a (m.moved store (mid a ++ below) (m.pc + is.length)) below hrun hcode' rfl
      (hroom.right hdepth)
    refine hmirrors.mono ?_
    rintro _ m'' (⟨b, store', hdepth'⟩ | ⟨hprogram, hstore, hstatus, hover⟩)
    · have hpc : m.pc + is.length + js.length = m.pc + (is ++ js).length := by
        rw [List.length_append, Nat.add_assoc]
      have hlands : Lands m (is ++ js) below after (.ok b, store') _ :=
        .going b store' (by rw [depthAfter_append, hdepth]; exact hdepth')
      rw [← hpc] at hlands
      exact hlands
    · exact .over hprogram hstore hstatus hover
  · -- A machine that is over does nothing more.
    rw [Machine.turns_of_over (hstatus ▸ hover)]
    exact .done (.over hprogram hstore hstatus hover)

theorem map {g : α → β} (h : Computes is before x mid) (hafter : ∀ a, after (g a) = mid a) :
    Computes is before (do return g (← x)) after := by
  intro m below hrun hcode hstack hroom
  have hmirrors := h m below hrun hcode hstack hroom
  rw [← Script.bind_done (m.turns is.length)]
  refine hmirrors.bind ?_
  rintro _ m' (⟨a, store, hdepth⟩ | ⟨hprogram, hstore, hstatus, hover⟩)
  · refine .done ?_
    rw [← hafter] at hdepth ⊢
    exact .going (g a) store hdepth
  · exact .done (.over hprogram hstore hstatus hover)

theorem frame (h : Computes is before x mid) (items : List Int64) :
    Computes is (before ++ items) x (fun a => mid a ++ items) := by
  intro m below hrun hcode hstack hroom
  rw [List.append_assoc] at hstack
  refine (h m (items ++ below) hrun hcode hstack hroom).mono ?_
  rintro _ m' (⟨a, store, hdepth⟩ | ⟨hprogram, hstore, hstatus, hover⟩)
  · rw [← List.append_assoc] at hdepth ⊢
    exact .going a store hdepth
  · exact .over hprogram hstore hstatus hover

theorem nothing (mid : α → List Int64) (a : α) : Computes [] (mid a) (pure a) mid := by
  intro m below hrun hcode hstack hroom
  have hm : m = m.moved m.store (mid a ++ below) (m.pc + 0) := by
    rw [Machine.moved, ← hstack]
    rfl
  refine .done ?_
  conv => rhs; rw [hm]
  exact .going a m.store (by simp [hstack, Stack.ofList])

end Computes

/-! ## Single instructions -/

namespace Machine

variable (m : Machine) (store : Store) (items : List Int64)

theorem moved_eq {m : Machine} {items : List Int64} (h : m.stack = .ofList items) :
    m.moved m.store items m.pc = m := by
  rw [moved, ← h]
  rfl

theorem next_moved :
    (m.moved store items m.pc).next.script = .done (m.moved store items (m.pc + 1)) := rfl

theorem push_moved (v : Int64) (h : items.length + 1 ≤ stackLimit) :
    ((m.moved store items m.pc).push v).script =
      .done (m.moved store (v :: items) (m.pc + 1)) := by
  have hover : (Stack.ofList (v :: items)).overflows = false := decide_eq_false (Nat.not_lt.2 h)
  rw [push]
  change Action.script (if (Stack.ofList (v :: items)).overflows = true then _ else _) = _
  rw [hover]
  rfl

theorem withTop_moved (v : Int64) (k : Machine → Int64 → Action) :
    (m.moved store (v :: items) m.pc).withTop k = k (m.moved store items m.pc) v := rfl

theorem withPair_moved (a b : Int64) (k : Machine → Int64 → Int64 → Action) :
    (m.moved store (b :: a :: items) m.pc).withPair k = k (m.moved store items m.pc) a b := rfl

end Machine

section

variable {α : Type} {before below : List Int64} {x : Eval α} {after : α → List Int64} {i : Instr}
  {m : Machine}

theorem computes_one
    (h : ∀ (m : Machine) (below : List Int64), m.status = .running →
      m.stack.size = (before ++ below).length → HasRoom m.stack.size [i] →
      Script.Mirrors Event.unplaced (Lands m [i] below after) (x m.store)
        ((m.moved m.store (before ++ below) m.pc).exec i).script) :
    Computes [i] before x after := by
  intro m below hrun hcode hstack hroom
  have hsize : m.stack.size = (before ++ below).length := by rw [hstack]; rfl
  rw [List.length_singleton, Machine.turns_one, Machine.turn_eq_exec hrun hcode.head]
  have hmirrors := h m below hrun hsize hroom
  rwa [Machine.moved_eq hstack] at hmirrors

theorem mirrors_fail (cause : Cause) (store : Store) (items : List Int64) :
    Script.Mirrors Event.unplaced (Lands m [i] below after) (Eval.fail cause store)
      ((m.moved store items m.pc).fault cause).script := by
  have hunplaced : Event.unplaced (.fault (m.program.locate m.pc cause)) =
      .fault cause.nowhere :=
    congrArg (fun cause : Cause => Event.fault cause.nowhere) (Program.cause_locate ..)
  change Script.Mirrors _ _ (.tell (.fault cause.nowhere) (.done (Except.error Status.faulted, store)))
    (.tell (.fault (m.program.locate m.pc cause)) (.done _))
  rw [← hunplaced]
  exact .tell (.done (.over rfl rfl rfl (by decide)))

theorem mirrors_push {a : α} {v : Int64} {items : List Int64} (store : Store)
    (hafter : after a ++ below = v :: items)
    (hdepth : depthAfter m.stack.size [i] = some (items.length + 1))
    (hroom : HasRoom m.stack.size [i]) :
    Script.Mirrors Event.unplaced (Lands m [i] below after) (.done (.ok a, store))
      ((m.moved store items m.pc).push v).script := by
  rw [Machine.push_moved m store items v (hroom _ List.prefix_rfl _ hdepth), ← hafter]
  refine .done (.going a store ?_)
  rw [hafter]
  exact hdepth

theorem mirrors_next {a : α} (after : α → List Int64) (store : Store)
    (hdepth : depthAfter m.stack.size [i] = some (after a ++ below).length) :
    Script.Mirrors Event.unplaced (Lands m [i] below after) (.done (.ok a, store))
      (m.moved store (after a ++ below) m.pc).next.script := by
  rw [Machine.next_moved]
  exact .done (.going a store hdepth)

theorem mirrors_withAddress {a : Int64} {width : Width} {store : Store} {items : List Int64}
    {k : (a : Nat) → a + width.bytes ≤ memorySize → Eval α}
    {k' : (a : Nat) → a + width.bytes ≤ memorySize → Action}
    (h : ∀ a ha, Script.Mirrors Event.unplaced (Lands m [i] below after) (k a ha store)
      (k' a ha).script) :
    Script.Mirrors Event.unplaced (Lands m [i] below after) (Eval.withAddress a width k store)
      ((m.moved store items m.pc).withAddress a width k').script := by
  unfold Eval.withAddress Machine.withAddress
  by_cases hthere : 0 ≤ a.toInt ∧ a.toInt.toNat + width.bytes ≤ memorySize
  · rw [dif_pos hthere.symm, dif_pos hthere]
    exact h _ _
  · rw [dif_neg fun hswap => hthere hswap.symm, dif_neg hthere]
    exact mirrors_fail _ store items

end

theorem computes_literal (n : Int64) : Computes [.literal n] [] (pure n) fun v => [v] := by
  refine computes_one fun m below _ hsize hroom => ?_
  exact mirrors_push m.store rfl (by simp [hsize]) hroom

theorem computes_dup (v : Int64) : Computes [.dup] [v] (pure v) fun v => [v, v] := by
  refine computes_one fun m below _ hsize hroom => ?_
  exact mirrors_push m.store rfl (by simp [hsize]) hroom

theorem computes_mask (v : Int64) : Computes [.mask] [v] (pure (wrapped v)) fun v => [v] := by
  refine computes_one fun m below _ hsize hroom => ?_
  simp only [List.cons_append, List.nil_append, List.length_cons] at hsize ⊢
  rw [Machine.exec, Machine.withTop_moved]
  exact mirrors_push m.store rfl (by simp [hsize]) hroom

theorem computes_negate (v : Int64) : Computes [.negate] [v] (pure (-v)) fun v => [v] := by
  refine computes_one fun m below _ hsize hroom => ?_
  simp only [List.cons_append, List.nil_append, List.length_cons] at hsize ⊢
  rw [Machine.exec, Machine.withTop_moved]
  exact mirrors_push m.store rfl (by simp [hsize]) hroom

theorem computes_binary (op : BinaryOp) (a b : Int64) :
    Computes [.binary op] [b, a] (op.value a b) fun v => [v] := by
  refine computes_one fun m below _ hsize hroom => ?_
  simp only [List.cons_append, List.nil_append, List.length_cons] at hsize ⊢
  rw [Machine.exec, Machine.withPair_moved]
  unfold BinaryOp.value
  cases op.eval a b with
  | ok v => exact mirrors_push m.store rfl (by simp [hsize]) hroom
  | error cause => exact mirrors_fail cause m.store below

theorem computes_peek (width : Width) (a : Int64) :
    Computes [.peek width] [a] (Eval.read width a) fun v => [v] := by
  refine computes_one fun m below _ hsize hroom => ?_
  simp only [List.cons_append, List.nil_append, List.length_cons] at hsize ⊢
  rw [Machine.exec, Machine.withTop_moved]
  exact mirrors_withAddress fun a ha => mirrors_push m.store rfl (by simp [hsize]) hroom

theorem computes_poke (width : Width) (a v : Int64) :
    Computes [.poke width] [a, v] (Eval.write width a v) fun _ => [] := by
  refine computes_one fun m below _ hsize hroom => ?_
  simp only [List.cons_append, List.nil_append, List.length_cons] at hsize ⊢
  rw [Machine.exec, Machine.withTop_moved, Machine.withTop_moved]
  exact mirrors_withAddress fun a ha => mirrors_next (fun _ => []) _ (by simp [hsize])

/-! ### Variables -/

theorem Eval.withAddress_ofNat {α : Type} {a : Nat} {width : Width}
    (h : a + width.bytes ≤ memorySize)
    (k : (a : Nat) → a + width.bytes ≤ memorySize → Eval α) :
    Eval.withAddress (Int64.ofNat a) width k = k a h := by
  have hsmall : a < 2 ^ 63 := by
    have hsize : memorySize = 65535 := rfl
    omega
  have hint : (Int64.ofNat a).toInt = a := Int64.toInt_ofNat_of_lt hsmall
  have hnat : (Int64.ofNat a).toInt.toNat = a := by rw [hint, Int.toNat_natCast]
  unfold Eval.withAddress
  rw [dif_pos ⟨hnat.symm ▸ h, hint ▸ Int.natCast_nonneg a⟩]
  congr 1

theorem Eval.read_ofNat {a : Nat} {width : Width} (h : a + width.bytes ≤ memorySize) (s : Store) :
    Eval.read width (Int64.ofNat a) s = .done (.ok (s.memory.read width a h), s) :=
  congrFun (Eval.withAddress_ofNat h _) s

theorem Eval.write_ofNat {a : Nat} {width : Width} (h : a + width.bytes ≤ memorySize) (v : Int64)
    (s : Store) :
    Eval.write width (Int64.ofNat a) v s =
      .done (.ok (), { s with memory := s.memory.write width a v h }) :=
  congrFun (Eval.withAddress_ofNat h _) s

theorem Eval.addressOf_bind {α : Type} {name : Char} {a : Nat} (ha : variableAddress? name = some a)
    (f : Int64 → Eval α) : (Eval.addressOf name >>= f) = f (Int64.ofNat a) := by
  unfold Eval.addressOf
  rw [ha]
  rfl

theorem Machine.withVariable_eq {name : Char} {a : Nat} (ha : variableAddress? name = some a)
    (m : Machine) (k : (a : Nat) → a + 2 ≤ memorySize → Action) :
    m.withVariable name k = k a (variableAddress?_le ha) := by
  unfold Machine.withVariable
  split
  · next heq =>
    cases heq.symm.trans ha
    rfl
  · next heq => cases heq.symm.trans ha

theorem computes_push {name : Char} (h : name.isUpper) :
    Computes [.push name] [] (do Eval.read .word (← Eval.addressOf name)) fun v => [v] := by
  refine computes_one fun m below _ hsize hroom => ?_
  obtain ⟨a, ha⟩ := variableAddress?_isSome h
  rw [Eval.addressOf_bind ha, Eval.read_ofNat (variableAddress?_le ha), Machine.exec,
    Machine.withVariable_eq ha]
  exact mirrors_push m.store rfl (by simp [hsize]) hroom

theorem computes_pop {name : Char} (h : name.isUpper) (v : Int64) :
    Computes [.pop name] [v] (do Eval.write .word (← Eval.addressOf name) v) fun _ => [] := by
  refine computes_one fun m below _ hsize hroom => ?_
  simp only [List.cons_append, List.nil_append, List.length_cons] at hsize ⊢
  obtain ⟨a, ha⟩ := variableAddress?_isSome h
  rw [Eval.addressOf_bind ha, Eval.write_ofNat (variableAddress?_le ha), Machine.exec,
    Machine.withVariable_eq ha, Machine.withTop_moved]
  exact mirrors_next (fun _ => []) _ (by simp [hsize])

/-! ### Calls -/

theorem computes_disp (v : Int64) :
    Computes [.disp] [v] (Eval.call (.display (toString v.toInt))) fun _ => [] := by
  refine computes_one fun m below _ hsize hroom => ?_
  simp only [List.cons_append, List.nil_append, List.length_cons] at hsize ⊢
  rw [Machine.exec, Machine.withTop_moved, Action.script_call rfl]
  exact .call fun answer => mirrors_next (fun _ => []) _ (by simp [hsize])

theorem computes_pause (v : Int64) :
    Computes [.pause] [v] (Eval.call (.pause (pauseMicroseconds v))) fun _ => [] := by
  refine computes_one fun m below _ hsize hroom => ?_
  simp only [List.cons_append, List.nil_append, List.length_cons] at hsize ⊢
  rw [Machine.exec, Machine.withTop_moved, Action.script_call rfl]
  exact .call fun answer => mirrors_next (fun _ => []) _ (by simp [hsize])

theorem computes_dispGraph (shade : Shade) :
    Computes [.dispGraph shade] [] (Eval.call (.present shade)) fun _ => [] := by
  refine computes_one fun m below _ hsize hroom => ?_
  rw [Machine.exec, Action.script_call rfl]
  exact .call fun answer => mirrors_next (fun _ => []) _ (by simp [hsize])

theorem computes_draw {graphic : Graphic} (surface : Surface) {vs : List Int64}
    (h : vs.length = graphic.arity) :
    Computes [.draw graphic surface] vs.reverse
      (match Drawing.ofArguments? graphic vs with
        | some drawing => Eval.call (.draw surface drawing)
        | none => Eval.fail .drawArguments) fun _ => [] := by
  refine computes_one fun m below _ hsize hroom => ?_
  have hsome := Drawing.isSome_ofArguments? graphic vs
  rw [h, beq_self_eq_true] at hsome
  obtain ⟨drawing, hdrawing⟩ := Option.isSome_iff_exists.1 hsome
  have hpop : (m.moved m.store (vs.reverse ++ below) m.pc).stack.popN graphic.arity =
      (some vs, .ofList below) := h ▸ Stack.popN_ofList vs below
  rw [Machine.exec, hpop]
  simp only [hdrawing]
  rw [Action.script_call rfl]
  rw [List.length_append] at hsize
  exact .call fun answer => mirrors_next (fun _ => []) _ (by simp [hsize, h])

theorem computes_getKey (code : Int64) :
    Computes [.getKey] [code] (do
      if 0 ≤ code ∧ code ≤ 255 then
        let pressed : Bool ← Eval.call (.keyPressed code.toUInt64.toUInt8)
        return truth pressed
      else
        return 0) fun v => [v] := by
  refine computes_one fun m below _ hsize hroom => ?_
  simp only [List.cons_append, List.nil_append, List.length_cons] at hsize ⊢
  rw [Machine.exec, Machine.withTop_moved]
  split
  · refine .call (c := .keyPressed code.toUInt64.toUInt8) fun (pressed : Bool) => ?_
    exact mirrors_push m.store rfl (by simp [hsize]) hroom
  · exact mirrors_push m.store rfl (by simp [hsize]) hroom

theorem computes_rand :
    Computes [.rand] [] (do
      let r : UInt16 ← Eval.call .random
      return Int64.ofNat r.toNat) fun v => [v] := by
  refine computes_one fun m below _ hsize hroom => ?_
  rw [Machine.exec]
  refine .call (c := .random) fun (r : UInt16) => ?_
  exact mirrors_push m.store rfl (by simp [hsize]) hroom

theorem computes_pxlTest (surface : Surface) (x y : Int64) :
    Computes [.pxlTest surface] [y, x] (do
      let lit : Bool ← Eval.call (.pixel surface x y)
      return truth lit) fun v => [v] := by
  refine computes_one fun m below _ hsize hroom => ?_
  simp only [List.cons_append, List.nil_append, List.length_cons] at hsize ⊢
  rw [Machine.exec, Machine.withPair_moved]
  refine .call (c := .pixel surface x y) fun (lit : Bool) => ?_
  exact mirrors_push m.store rfl (by simp [hsize]) hroom

/-! ### The host -/

theorem computes_debug (v : Int64) :
    Computes [.debug] [v] (Eval.setDebug (v != 0)) fun _ => [] := by
  refine computes_one fun m below _ hsize hroom => ?_
  simp only [List.cons_append, List.nil_append, List.length_cons] at hsize ⊢
  rw [Machine.exec, Machine.withTop_moved]
  exact mirrors_next (fun _ => []) ⟨m.memory, v != 0⟩ (by simp [hsize])

theorem computes_exit :
    Computes (α := Unit) [.exit] [] (do Eval.tell .exit; Eval.finish .halted) fun _ => [] := by
  refine computes_one fun m below _ hsize hroom => ?_
  exact .tell (e := .exit) (.done (Lands.over rfl rfl rfl (by decide)))

theorem computes_tell {e : Event} {i : Instr} (h : e.unplaced = e ∧ e ≠ .running)
    (hlevel : i.takes = 0 ∧ i.gives = 0)
    (hi : ∀ m : Machine, m.exec i = .done e { m with pc := m.pc + 1 }) :
    Computes [i] [] (Eval.tell e) fun _ => [] := by
  refine computes_one fun m below _ hsize hroom => ?_
  rw [hi, Action.script, if_neg h.2]
  have htell : Eval.tell e m.store = .tell e.unplaced (.done (.ok (), m.store)) := by
    rw [h.1]
    rfl
  rw [htell]
  exact .tell (.done (.going () m.store (by simp only [depthAfter, hlevel, hsize]; rfl)))

/-! ## Expressions -/

theorem Target.computes_keep (target : Target) (v : Int64) :
    Computes target.keepCode [v] (pure (target.kept v)) fun v => [v, v] := by
  have hword : Computes [.mask, .dup] [v] (pure (wrapped v)) fun v => [v, v] :=
    (computes_mask v).bind computes_dup
  cases target with
  | var name => exact hword
  | pointer address width =>
    cases width with
    | word => exact hword
    | byte => exact computes_dup v

theorem Target.computes_keepStore {target : Target}
    (hstore : ∀ v, Computes target.storeCode [v] (target.assign v) fun _ => []) (v : Int64) :
    Computes (target.keepCode ++ target.storeCode) [v]
      (do target.assign (target.kept v); return target.kept v) fun v => [v] := by
  have hkept : ∀ w, Computes target.storeCode [w, w] (do target.assign w; return w) fun v => [v] :=
    fun w => ((hstore w).frame [w]).map fun _ => rfl
  exact (target.computes_keep v).bind hkept

theorem computes_plusOne (v : Int64) :
    Computes [.literal 1, .binary .add] [v] (pure (v + 1)) fun v => [v] :=
  ((computes_literal 1).frame [v]).bind fun n => computes_binary .add v n

theorem computes_minusOne (v : Int64) :
    Computes [.literal 1, .binary .subtract] [v] (pure (v - 1)) fun v => [v] :=
  ((computes_literal 1).frame [v]).bind fun n => computes_binary .subtract v n

mutual

theorem Expr.computes_code {e : Expr} (he : e.Proper) : Computes e.code [] e.value fun v => [v] := by
  cases e with
  | number n => exact computes_literal n
  | var name => exact computes_push he
  | buffer b => exact computes_literal _
  | deref address width =>
    have ih := Expr.computes_code (e := address) he
    exact ih.bind (computes_peek width)
  | addressOf target =>
    cases target with
    | var name =>
      obtain ⟨a, ha⟩ := variableAddress?_isSome he
      have hvalue : (Expr.addressOf (.var name)).value = pure (Int64.ofNat a) := by
        rw [Expr.value, Eval.addressOf, ha]
        rfl
      have hcode : (Expr.addressOf (.var name)).code = [.literal (Int64.ofNat a)] := by
        rw [Expr.code, ha]
        rfl
      rw [hvalue, hcode]
      exact computes_literal _
    | pointer address width => exact Expr.computes_code (e := address) he
  | unary op operand =>
    have ih := Expr.computes_code (e := operand) he
    cases op with
    | negate => exact ih.bind computes_negate
    | square =>
      have hsquare : ∀ v : Int64, Computes [.dup, .binary .multiply] [v] (pure (v * v)) fun v => [v] :=
        fun v => (computes_dup v).bind fun v => computes_binary .multiply v v
      exact ih.bind hsquare
  | binary op lhs rhs =>
    have ihl := Expr.computes_code he.1
    have ihr := Expr.computes_code he.2
    rw [Expr.code, List.append_assoc]
    exact ihl.bind fun a => (ihr.frame [a]).bind fun b => computes_binary op a b
  | assign value target =>
    have ihv := Expr.computes_code he.1
    have iht := Target.computes_store he.2
    rw [Expr.code, List.append_assoc]
    exact ihv.bind (Target.computes_keepStore iht)
  | increment target =>
    have ihl := Target.computes_load (t := target) he
    have ihs := Target.computes_store (t := target) he
    simp only [Expr.code, List.append_assoc]
    exact ihl.bind fun v => (computes_plusOne v).bind (Target.computes_keepStore ihs)
  | decrement target =>
    have ihl := Target.computes_load (t := target) he
    have ihs := Target.computes_store (t := target) he
    simp only [Expr.code, List.append_assoc]
    exact ihl.bind fun v => (computes_minusOne v).bind (Target.computes_keepStore ihs)
  | getKey key =>
    have ih := Expr.computes_code (e := key) he
    exact ih.bind computes_getKey
  | rand => exact computes_rand
  | pxlTest surface x y =>
    have ihx := Expr.computes_code he.1
    have ihy := Expr.computes_code he.2
    rw [Expr.code, List.append_assoc]
    exact ihx.bind fun a => (ihy.frame [a]).bind fun b => computes_pxlTest surface a b

theorem Target.computes_load {t : Target} (ht : t.Proper) :
    Computes t.loadCode [] t.content fun v => [v] := by
  cases t with
  | var name => exact computes_push ht
  | pointer address width =>
    have ih := Expr.computes_code (e := address) ht
    exact ih.bind (computes_peek width)

theorem Target.computes_store {t : Target} (ht : t.Proper) (v : Int64) :
    Computes t.storeCode [v] (t.assign v) fun _ => [] := by
  cases t with
  | var name => exact computes_pop ht v
  | pointer address width =>
    have ih := Expr.computes_code (e := address) ht
    exact (ih.frame [v]).bind fun a => computes_poke width a v

end

/-! ## Statements without blocks -/

theorem Target.computes_plusOne {t : Target} (ht : t.Proper) :
    Computes (t.stepCode .add) [] (do t.assign ((← t.content) + 1)) fun _ => [] := by
  rw [Target.stepCode, List.append_assoc]
  exact (computes_load ht).bind fun v => (Handheld.computes_plusOne v).bind (computes_store ht)

theorem Target.computes_minusOne {t : Target} (ht : t.Proper) :
    Computes (t.stepCode .subtract) [] (do t.assign ((← t.content) - 1)) fun _ => [] := by
  rw [Target.stepCode, List.append_assoc]
  exact (computes_load ht).bind fun v => (Handheld.computes_minusOne v).bind (computes_store ht)

theorem Expr.computes_effect {e : Expr} (heffect : e.isEffect) (he : e.Proper) :
    Computes e.effectCode [] e.effect fun _ => [] := by
  cases e with
  | assign value target => exact (Expr.computes_code he.1).bind (Target.computes_store he.2)
  | increment target => exact Target.computes_plusOne (t := target) he
  | decrement target => exact Target.computes_minusOne (t := target) he
  | _ => simp [Expr.isEffect] at heffect

theorem computes_displayAll {values : List Expr} (hv : ∀ e ∈ values, e.Proper) :
    Computes (values.flatMap fun e => e.code ++ [.disp]) [] (displayAll values) fun _ => [] := by
  induction values with
  | nil => exact Computes.nothing (fun _ => []) ()
  | cons e values ih =>
    obtain ⟨he, hv⟩ := List.forall_mem_cons.1 hv
    rw [List.flatMap_cons, List.append_assoc]
    exact (Expr.computes_code he).bind fun v => (computes_disp v).bind fun _ => ih hv

theorem computes_valuesOf {arguments : List Expr} (ha : ∀ e ∈ arguments, e.Proper) :
    Computes (arguments.flatMap Expr.code) [] (valuesOf arguments) fun vs => vs.1.reverse := by
  induction arguments with
  | nil =>
    let reversed (vs : { vs : List Int64 // vs.length = 0 }) : List Int64 := vs.1.reverse
    exact Computes.nothing reversed ⟨[], rfl⟩
  | cons e arguments ih =>
    obtain ⟨he, ha⟩ := List.forall_mem_cons.1 ha
    refine (Expr.computes_code he).bind fun v => ?_
    exact ((ih ha).frame [v]).map fun vs => List.reverse_cons

theorem Command.computes_code {span : Span} {c : Command} (hc : c.Proper) :
    Computes c.code [] (Stmt.command span c).act fun _ => [] := by
  cases c with
  | exit => exact computes_exit
  | help => exact computes_tell ⟨rfl, by decide⟩ ⟨rfl, rfl⟩ fun _ => rfl
  | about => exact computes_tell ⟨rfl, by decide⟩ ⟨rfl, rfl⟩ fun _ => rfl
  | debug flag => exact (Expr.computes_code (e := flag) hc).bind computes_debug

theorem Stmt.computes_straight {s : Stmt} {is : List Instr} (h : s.straight? = some is)
    (hs : s.Proper) : Computes is [] s.act fun _ => [] := by
  cases s with
  | cond | loop | label | goto => cases h
  | effect span e =>
    cases h
    exact Expr.computes_effect hs.1 hs.2
  | disp span values =>
    cases h
    exact computes_displayAll hs
  | pause span e =>
    cases h
    exact (Expr.computes_code (e := e) hs).bind computes_pause
  | draw span graphic surface arguments =>
    cases h
    refine (computes_valuesOf hs.2).bind fun vs => ?_
    exact computes_draw surface (vs.2.trans hs.1)
  | dispGraph span shade =>
    cases h
    exact computes_dispGraph shade
  | command span c =>
    cases h
    exact Command.computes_code hs

/-! ## Loops -/

namespace Loop

variable {kind : Loop} (hk : kind.Proper) (depth : Nat)
include hk

theorem computes_start : Computes (kind.startCode depth) [] (kind.start depth) fun _ => [] := by
  cases kind with
  | whileTrue c | repeatUntil c => exact Computes.nothing (fun _ => []) ()
  | count target first last => exact (Expr.computes_code hk.2.1).bind (Target.computes_store hk.1)
  | times n =>
    have hstore := Target.computes_store (counter_proper depth)
    exact (computes_literal 0).bind hstore

theorem computes_test : Computes (kind.testCode depth) [] (kind.test depth) fun v => [v] := by
  cases kind with
  | whileTrue c | repeatUntil c => exact Expr.computes_code (e := c) hk
  | count target first last =>
    rw [testCode, List.append_assoc]
    refine (Target.computes_load hk.1).bind fun i => ?_
    exact ((Expr.computes_code hk.2.2).frame [i]).bind fun n => computes_binary .lessEqual i n
  | times n =>
    rw [testCode, List.append_assoc]
    refine (Target.computes_load (counter_proper depth)).bind fun i => ?_
    exact ((Expr.computes_code (e := n) hk).frame [i]).bind fun n => computes_binary .less i n

theorem computes_next : Computes (kind.nextCode depth) [] (kind.next depth) fun _ => [] := by
  cases kind with
  | whileTrue c | repeatUntil c => exact Computes.nothing (fun _ => []) ()
  | count target first last => exact Target.computes_plusOne hk.1
  | times n => exact Target.computes_plusOne (counter_proper depth)

end Loop

end Handheld
