import Handheld.Proofs.Run.Control
import Handheld.Proofs.Run.Regions
import Handheld.Proofs.Run.Session
import Mathlib

/-!
# What a store leaves

An assignment, an increment or a decrement stands as a statement or as a value.
The code has the same two ends in both forms: it gets the value that is to be
stored, and it stores. As a value it keeps a copy in between, and of a word only
as much as memory has room for. So both forms do the same, and the copy of a word
is what memory holds afterwards.
-/

namespace Handheld

/-! ## Values in memory -/

theorem toInt_emod (v : Int64) : v.toInt % 2 ^ 64 = v.toUInt64.toNat := by
  have hint : v.toInt = v.toUInt64.toBitVec.toInt := rfl
  have hnat : v.toUInt64.toNat = v.toUInt64.toBitVec.toNat := rfl
  have hlt := v.toUInt64.toBitVec.isLt
  rw [hint, hnat, BitVec.toInt_eq_toNat_cond]
  split <;> omega

theorem wrapped_wrapped (v : Int64) : wrapped (wrapped v) = wrapped v := by
  have hword : (wrapped v).toUInt64.toUInt16 = v.toUInt64.toUInt16 :=
    (UInt64.toUInt16_ofNat' _).trans UInt16.ofNat_toNat
  exact congrArg (fun w : UInt16 => Int64.ofNat w.toNat) hword

namespace Memory

variable (m : Memory) {width : Width} {a : Nat} (h : a + width.bytes ≤ memorySize)

theorem toInt_read :
    0 ≤ (m.read width a h).toInt ∧ (m.read width a h).toInt < 256 ^ width.bytes := by
  cases width with
  | byte =>
    have hlt := (m.peek a h).toNat_lt
    have hint : (Int64.ofNat (m.peek a h).toNat).toInt = (m.peek a h).toNat :=
      Int64.toInt_ofNat_of_lt (by omega)
    change 0 ≤ (Int64.ofNat (m.peek a h).toNat).toInt ∧ (Int64.ofNat (m.peek a h).toNat).toInt < 256
    omega
  | word =>
    have hlt := (m.peekWord a h).toNat_lt
    have hint : (Int64.ofNat (m.peekWord a h).toNat).toInt = (m.peekWord a h).toNat :=
      Int64.toInt_ofNat_of_lt (by omega)
    change 0 ≤ (Int64.ofNat (m.peekWord a h).toNat).toInt ∧
      (Int64.ofNat (m.peekWord a h).toNat).toInt < 65536
    omega

theorem toInt_read_write (v : Int64) :
    ((m.write width a v h).read width a h).toInt = v.toInt % 256 ^ width.bytes := by
  have hv := toInt_emod v
  cases width with
  | byte =>
    have hpeek : (m.poke a v.toUInt64.toUInt8 h).peek a h = v.toUInt64.toUInt8 :=
      (m.peek_poke a a _ h h).trans (if_pos rfl)
    have hnat : v.toUInt64.toUInt8.toNat = v.toUInt64.toNat % 256 := rfl
    change (Int64.ofNat ((m.poke a v.toUInt64.toUInt8 h).peek a h).toNat).toInt = v.toInt % 256
    rw [hpeek, hnat, Int64.toInt_ofNat_of_lt (by omega)]
    omega
  | word =>
    have hpeek : (m.pokeWord a v.toUInt64.toUInt16 h).peekWord a h = v.toUInt64.toUInt16 :=
      m.peekWord_pokeWord a _ h
    have hnat : v.toUInt64.toUInt16.toNat = v.toUInt64.toNat % 65536 := rfl
    change (Int64.ofNat ((m.pokeWord a v.toUInt64.toUInt16 h).peekWord a h).toNat).toInt =
      v.toInt % 65536
    rw [hpeek, hnat, Int64.toInt_ofNat_of_lt (by omega)]
    omega

theorem read_write_word {a : Nat} (h : a + Width.word.bytes ≤ memorySize) (v : Int64) :
    (m.write .word a v h).read .word a h = wrapped v :=
  congrArg (fun w : UInt16 => Int64.ofNat w.toNat) (m.peekWord_pokeWord a _ h)

end Memory

theorem toInt_wrapped (v : Int64) : (wrapped v).toInt = v.toInt % 65536 := by
  have hv := toInt_emod v
  have hnat : v.toUInt64.toUInt16.toNat = v.toUInt64.toNat % 65536 := rfl
  have hint : (wrapped v).toInt = v.toUInt64.toUInt16.toNat :=
    Int64.toInt_ofNat_of_lt (by omega)
  omega

/-! ## Computations on the store -/

instance : LawfulMonad Eval := by
  refine LawfulMonad.mk' Eval (fun x => ?_) (fun _ _ => rfl) (fun x f g => ?_)
  · funext store
    refine Eq.trans ?_ (Script.bind_done (x store))
    change (x store).bind _ = (x store).bind _
    congr 1
    funext ⟨r, store'⟩
    cases r <;> rfl
  · funext store
    refine (Script.bind_assoc ..).trans ?_
    change (x store).bind _ = (x store).bind _
    congr 1
    funext ⟨r, store'⟩
    cases r <;> rfl

theorem Script.Shows.unique {α : Type} {t : Script α} {os : List Observation} {a b : α}
    (h : t.Shows os a) (h' : t.Shows os b) : a = b := by
  induction h with
  | done a =>
    cases h'
    rfl
  | call _ ih =>
    cases h' with
    | call h' => exact ih h'
  | tell _ ih =>
    cases h' with
    | tell h' => exact ih h'

namespace Eval

variable {α β : Type} {store store' : Store} {os : List Observation}

theorem shows_bind {x : Eval α} {f : α → Eval β} {b : β}
    (h : ((x >>= f) store).Shows os (.ok b, store')) :
    ∃ os₁ os₂ a store₁, os = os₁ ++ os₂ ∧ (x store).Shows os₁ (.ok a, store₁) ∧
      (f a store₁).Shows os₂ (.ok b, store') := by
  obtain ⟨os₁, os₂, ⟨r, store₁⟩, hos, hx, hf⟩ := Script.Shows.of_bind h
  cases r with
  | ok a => exact ⟨os₁, os₂, a, store₁, hos, hx, hf⟩
  | error status => cases hf

theorem shows_pure {a b : α} (h : ((pure a : Eval α) store).Shows os (.ok b, store')) :
    os = [] ∧ b = a ∧ store' = store := by
  cases h
  exact ⟨rfl, rfl, rfl⟩

theorem not_shows_fail {cause : Cause} {b : α} :
    ¬ ((fail cause : Eval α) store).Shows os (.ok b, store') := by
  intro h
  change Script.Shows (.tell _ (.done (Except.error Status.faulted, store))) _ _ at h
  cases h with
  | tell h => cases h

theorem shows_withAddress {a : Int64} {width : Width}
    {k : (a : Nat) → a + width.bytes ≤ memorySize → Eval α} {b : α}
    (h : (withAddress a width k store).Shows os (.ok b, store')) :
    ∃ n hn, a = .ofNat n ∧ (k n hn store).Shows os (.ok b, store') := by
  unfold withAddress at h
  split at h
  · next hthere =>
    refine ⟨a.toInt.toNat, hthere.1, Int64.toInt_inj.1 ?_, h⟩
    rw [Machine.toInt_address hthere.1, Int.toNat_of_nonneg hthere.2]
  · exact absurd h not_shows_fail

theorem shows_read {width : Width} {a v : Int64}
    (h : (read width a store).Shows os (.ok v, store')) :
    ∃ n hn, a = .ofNat n ∧ v = store.memory.read width n hn ∧ store' = store ∧ os = [] := by
  obtain ⟨n, hn, ha, h⟩ := shows_withAddress h
  cases h
  exact ⟨n, hn, ha, rfl, rfl, rfl⟩

theorem shows_write {width : Width} {a v : Int64}
    (h : (write width a v store).Shows os (.ok (), store')) :
    ∃ n hn, a = .ofNat n ∧
      store' = { store with memory := store.memory.write width n v hn } ∧ os = [] := by
  obtain ⟨n, hn, ha, h⟩ := shows_withAddress h
  cases h
  exact ⟨n, hn, ha, rfl, rfl⟩

theorem write_wrapped (a v : Int64) : write .word a (wrapped v) = write .word a v := by
  have hword : (wrapped v).toUInt64.toUInt16 = v.toUInt64.toUInt16 :=
    (UInt64.toUInt16_ofNat' _).trans UInt16.ofNat_toNat
  simp only [write, Memory.write, hword]

end Eval

/-! ## Code on a device -/

/-- What is seen of `n` steps, wherever the code stands. -/
def Machine.shown {σ : Type} (d : Device σ) (n : Nat) (m : Machine) (s : σ) : List Observation :=
  (m.transcript d n s).map (.mapEvent .unplaced)

theorem Machine.shown_add {σ : Type} (d : Device σ) (n k : Nat) (m : Machine) (s : σ) :
    m.shown d (n + k) s = m.shown d n s ++ (m.after d n s).1.shown d k (m.after d n s).2 := by
  rw [shown, transcript_add, List.map_append]
  rfl

/-- The machine is in front of some code that it comes through. -/
structure Machine.Faces {σ : Type} (m : Machine) (is : List Instr) (items : List Int64)
    (d : Device σ) (s : σ) : Prop where
  status : m.status = .running
  code : m.program.HasCode m.pc is
  stack : m.stack = .ofList items
  room : HasRoom m.stack.size is
  running : (m.after d is.length s).1.status = .running

namespace Computes

variable {α : Type} {is js : List Instr} {before below : List Int64} {x : Eval α}
  {mid : α → List Int64} {m : Machine} {σ : Type} {d : Device σ} {s : σ}

theorem lands (h : Computes is before x mid) (hrun : m.status = .running)
    (hcode : m.program.HasCode m.pc is) (hstack : m.stack = .ofList (before ++ below))
    (hroom : HasRoom m.stack.size is) :
    ∃ r, (x m.store).Shows (m.shown d is.length s) r ∧
      Lands m is below mid r (m.after d is.length s).1 :=
  (h m below hrun hcode hstack hroom).shows (m.turns_shows d is.length s)

/-- A machine that comes through the code does the computation on the way, and then it is in front of
what follows. -/
theorem through (h : Computes is before x mid) (hm : m.Faces (is ++ js) (before ++ below) d s) :
    ∃ a store, (x m.store).Shows (m.shown d is.length s) (.ok a, store) ∧
      (m.after d is.length s).1 = m.moved store (mid a ++ below) (m.pc + is.length) ∧
      (m.after d is.length s).1.Faces js (mid a ++ below) d (m.after d is.length s).2 := by
  obtain ⟨hcode, hcode'⟩ := Program.HasCode.append.1 hm.code
  obtain ⟨r, hshows, hlands⟩ := h.lands (d := d) (s := s) hm.status hcode hm.stack hm.room.left
  have hrunning := hm.running
  rw [List.length_append] at hrunning
  have hgo := Machine.running_of_le (Nat.le_add_right _ _) hrunning
  rw [Machine.after_add] at hrunning
  generalize (m.after d is.length s).1 = m' at hlands hgo hrunning ⊢
  rcases hlands with ⟨a, store, hdepth⟩ | ⟨-, -, hstatus, hover⟩
  · exact ⟨a, store, hshows, rfl, hm.status, hcode', rfl, hm.room.right hdepth, hrunning⟩
  · exact absurd (hstatus ▸ hgo) hover

end Computes

/-! ## Places -/

namespace Target

def width : Target → Width
  | .var _ => .word
  | .pointer _ width => width

/-- The address of a target. -/
def place : Target → Eval Int64
  | .var name => Eval.addressOf name
  | .pointer address _ => address.value

/-- The code in front of an access. It puts an address on the stack, but not the one of a variable. -/
def placeCode : Target → List Instr
  | .var _ => []
  | .pointer address _ => address.code

def placed (a : Int64) : Target → List Int64
  | .var _ => []
  | .pointer .. => [a]

def loadInstr : Target → Instr
  | .var name => .push name
  | .pointer _ width => .peek width

def storeInstr : Target → Instr
  | .var name => .pop name
  | .pointer _ width => .poke width

theorem loadCode_eq (t : Target) : t.loadCode = t.placeCode ++ [t.loadInstr] := by
  cases t <;> rfl

theorem storeCode_eq (t : Target) : t.storeCode = t.placeCode ++ [t.storeInstr] := by
  cases t <;> rfl

/-- If the target is a variable, this is its address. -/
def Suits (a : Int64) : Target → Prop
  | .var name => (variableAddress? name).map Int64.ofNat = some a
  | .pointer .. => True

variable {t : Target} {a v : Int64}

theorem Suits.addressOf {name : Char} (ha : (Target.var name).Suits a) :
    Eval.addressOf name = pure a := by
  obtain ⟨n, hname, rfl⟩ := Option.map_eq_some_iff.1 ha
  unfold Eval.addressOf
  rw [hname]
  rfl

theorem suits_of_shows (ht : t.Proper) {store store' : Store} {os : List Observation}
    (h : (t.place store).Shows os (.ok a, store')) : t.Suits a := by
  cases t with
  | var name =>
    obtain ⟨n, hname⟩ := variableAddress?_isSome ht
    have hsuits : (Target.var name).Suits (.ofNat n) := by rw [Suits, hname]; rfl
    rw [place, hsuits.addressOf] at h
    obtain ⟨-, rfl, -⟩ := Eval.shows_pure h
    exact hsuits
  | pointer address width => trivial

theorem computes_place (ht : t.Proper) : Computes t.placeCode [] t.place (t.placed ·) := by
  cases t with
  | var name =>
    obtain ⟨n, hname⟩ := variableAddress?_isSome ht
    have hsuits : (Target.var name).Suits (.ofNat n) := by rw [Suits, hname]; rfl
    rw [place, hsuits.addressOf]
    exact Computes.nothing (fun _ => []) _
  | pointer address width => exact Expr.computes_code (e := address) ht

theorem computes_loadInstr (ht : t.Proper) (ha : t.Suits a) :
    Computes [t.loadInstr] (t.placed a) (Eval.read t.width a) fun v => [v] := by
  cases t with
  | var name =>
    have hpush := computes_push ht
    rw [ha.addressOf, pure_bind] at hpush
    exact hpush
  | pointer address width => exact computes_peek width a

theorem computes_storeInstr (ht : t.Proper) (ha : t.Suits a) (v : Int64) :
    Computes [t.storeInstr] (t.placed a ++ [v]) (Eval.write t.width a v) fun _ => [] := by
  cases t with
  | var name =>
    have hpop := computes_pop ht v
    rw [ha.addressOf, pure_bind] at hpop
    exact hpop
  | pointer address width => exact computes_poke width a v

variable {m : Machine} {items : List Int64}

theorem loadsFrom_eq (ha : t.Suits a) (hcode : m.program.code[m.pc]? = some t.loadInstr)
    (hstack : m.stack = .ofList (t.placed a ++ items)) : m.loadsFrom? = some (a, t.width) := by
  rw [Machine.loadsFrom?, hcode, hstack]
  cases t with
  | var name =>
    obtain ⟨n, hname, rfl⟩ := Option.map_eq_some_iff.1 ha
    simp only [loadInstr, hname]
    rfl
  | pointer address width => rfl

theorem storesTo_eq (ha : t.Suits a) (hcode : m.program.code[m.pc]? = some t.storeInstr)
    (hstack : m.stack = .ofList (t.placed a ++ items)) : m.storesTo? = some (a, t.width) := by
  rw [Machine.storesTo?, hcode, hstack]
  cases t with
  | var name =>
    obtain ⟨n, hname, rfl⟩ := Option.map_eq_some_iff.1 ha
    simp only [storeInstr, hname]
    rfl
  | pointer address width => rfl

variable (ht : t.Proper) {σ : Type} {d : Device σ} {s : σ} {js : List Instr}
include ht

theorem loads (hm : m.Faces (t.loadCode ++ js) items d s) :
    ∃ n hn store,
      (t.place m.store).Shows (m.shown d t.loadCode.length s) (.ok (.ofNat n), store) ∧
      (m.after d t.placeCode.length s).1.loadsFrom? = some (.ofNat n, t.width) ∧
      (m.after d t.placeCode.length s).1.memory = store.memory ∧
      (m.after d t.loadCode.length s).1 =
        m.moved store (store.memory.read t.width n hn :: items) (m.pc + t.loadCode.length) ∧
      (m.after d t.loadCode.length s).1.Faces js (store.memory.read t.width n hn :: items) d
        (m.after d t.loadCode.length s).2 := by
  rw [loadCode_eq, List.append_assoc] at hm
  obtain ⟨a, store, hplace, hat, hm'⟩ := (computes_place ht).through hm
  have ha := suits_of_shows ht hplace
  rw [loadCode_eq, List.length_append, Machine.shown_add, Machine.after_add, ← Nat.add_assoc]
  generalize m.after d t.placeCode.length s = q at hat hm' ⊢
  obtain ⟨c, s'⟩ := q
  obtain rfl : c = _ := hat
  obtain ⟨v, store', hread, hafter, hfaces⟩ := (computes_loadInstr ht ha).through hm'
  obtain ⟨n, hn, rfl, rfl, rfl, hquiet⟩ := Eval.shows_read hread
  rw [hquiet, List.append_nil]
  exact ⟨n, hn, store, hplace, loadsFrom_eq ha hm'.code.head hm'.stack, rfl, hafter, hfaces⟩

theorem stores (hm : m.Faces t.storeCode (v :: items) d s) :
    ∃ n hn store,
      (t.place m.store).Shows (m.shown d t.storeCode.length s) (.ok (.ofNat n), store) ∧
      (m.after d t.placeCode.length s).1.storesTo? = some (.ofNat n, t.width) ∧
      (m.after d t.placeCode.length s).1.memory = store.memory ∧
      (m.after d t.storeCode.length s).1 =
        m.moved { store with memory := store.memory.write t.width n v hn } items
          (m.pc + t.storeCode.length) := by
  rw [storeCode_eq] at hm
  obtain ⟨a, store, hplace, hat, hm'⟩ := ((computes_place ht).frame [v]).through hm
  have ha := suits_of_shows ht hplace
  rw [storeCode_eq, List.length_append, Machine.shown_add, Machine.after_add, ← Nat.add_assoc]
  generalize m.after d t.placeCode.length s = q at hat hm' ⊢
  obtain ⟨c, s'⟩ := q
  obtain rfl : c = _ := hat
  have hstack := hm'.stack.trans (congrArg Stack.ofList (List.append_assoc ..))
  have hlast : Machine.Faces _ ([t.storeInstr] ++ []) _ d s' := hm'
  obtain ⟨_, store', hwrite, hafter, -⟩ := (computes_storeInstr ht ha v).through hlast
  obtain ⟨n, hn, rfl, rfl, hquiet⟩ := Eval.shows_write hwrite
  rw [hquiet, List.append_nil]
  exact ⟨n, hn, store, hplace, storesTo_eq ha hm'.code.head hstack, rfl, hafter⟩

theorem stores_behind {is : List Instr} {u : Int64} {kept : Int64 → List Int64}
    (his : Computes is [u] (pure v) fun v => v :: kept v)
    (hm : m.Faces (is ++ t.storeCode) (u :: items) d s) :
    ∃ n hn store,
      (t.place m.store).Shows (m.shown d (is ++ t.storeCode).length s) (.ok (.ofNat n), store) ∧
      (m.after d (is.length + t.placeCode.length) s).1.storesTo? = some (.ofNat n, t.width) ∧
      (m.after d (is.length + t.placeCode.length) s).1.memory = store.memory ∧
      (m.after d (is ++ t.storeCode).length s).1 =
        m.moved { store with memory := store.memory.write t.width n v hn } (kept v ++ items)
          (m.pc + (is ++ t.storeCode).length) := by
  obtain ⟨w, store, hpure, hat, hm'⟩ := his.through hm
  obtain ⟨hquiet, rfl, rfl⟩ := Eval.shows_pure hpure
  rw [List.length_append, Machine.after_add, Machine.after_add, Machine.shown_add, hquiet,
    List.nil_append, ← Nat.add_assoc]
  generalize m.after d is.length s = q at hat hm' ⊢
  obtain ⟨c, s'⟩ := q
  obtain rfl : c = _ := hat
  exact stores ht hm'

end Target

/-! ## The two forms of a store -/

namespace Target

theorem debug_notMem_keep (t : Target) : .debug ∉ t.keepCode := by
  unfold keepCode
  split <;> simp

theorem kept_of_word {t : Target} (h : t.width = .word) (v : Int64) : t.kept v = wrapped v := by
  cases t with
  | var name => rfl
  | pointer address width =>
    cases h
    rfl

theorem kept_of_byte {t : Target} (h : t.width = .byte) (v : Int64) : t.kept v = v := by
  cases t with
  | var name => cases h
  | pointer address width =>
    cases h
    rfl

theorem assign_kept (t : Target) (v : Int64) : t.assign (t.kept v) = t.assign v := by
  cases t with
  | var name => simp only [kept, assign, Eval.write_wrapped]
  | pointer address width =>
    cases width with
    | word => simp only [kept, assign, Eval.write_wrapped]
    | byte => rfl

end Target

namespace Expr

/-- The target of an assignment, an increment or a decrement. -/
def target? : Expr → Option Target
  | .assign _ t | .increment t | .decrement t => some t
  | _ => none

/-- The value that goes to the target. -/
def supply : Expr → Eval Int64
  | .assign value _ => value.value
  | .increment t => do return (← t.content) + 1
  | .decrement t => do return (← t.content) - 1
  | _ => Eval.fail .noEffect

def supplyCode : Expr → List Instr
  | .assign value _ => value.code
  | .increment t => t.loadCode ++ [.literal 1, .binary .add]
  | .decrement t => t.loadCode ++ [.literal 1, .binary .subtract]
  | _ => []

variable {e : Expr} {t : Target} (htarget : e.target? = some t)
include htarget

theorem isEffect_of_target : e.isEffect := by
  cases e with
  | assign | increment | decrement => rfl
  | _ => cases htarget

theorem effectCode_eq : e.effectCode = e.supplyCode ++ t.storeCode := by
  cases e with
  | assign value target | increment target | decrement target =>
    cases htarget
    rfl
  | _ => cases htarget

theorem code_eq : e.code = e.supplyCode ++ (t.keepCode ++ t.storeCode) := by
  cases e with
  | assign value target | increment target | decrement target =>
    cases htarget
    simp only [code, supplyCode, List.append_assoc]
  | _ => cases htarget

theorem proper_target (he : e.Proper) : t.Proper := by
  cases e with
  | assign value target =>
    cases htarget
    exact he.2
  | increment target | decrement target =>
    cases htarget
    exact he
  | _ => cases htarget

theorem computes_supply (he : e.Proper) : Computes e.supplyCode [] e.supply fun v => [v] := by
  cases e with
  | assign value target => exact Expr.computes_code he.1
  | increment target =>
    exact (Target.computes_load (t := target) he).bind fun v => computes_plusOne v
  | decrement target =>
    exact (Target.computes_load (t := target) he).bind fun v => computes_minusOne v
  | _ => cases htarget

theorem effect_eq : e.effect = e.supply >>= fun u => t.assign u := by
  cases e with
  | assign value target =>
    cases htarget
    rfl
  | increment target | decrement target =>
    cases htarget
    rw [effect, supply, bind_assoc]
    rfl
  | _ => cases htarget

theorem value_eq : e.value = e.supply >>= fun u => do
    t.assign (t.kept u)
    return t.kept u := by
  cases e with
  | assign value target =>
    cases htarget
    rfl
  | increment target | decrement target =>
    cases htarget
    rw [value, supply, bind_assoc]
    rfl
  | _ => cases htarget

theorem effect_eq_value : e.effect = e.value >>= fun _ => pure () := by
  rw [effect_eq htarget, value_eq htarget, bind_assoc]
  simp only [bind_assoc, pure_bind, t.assign_kept, bind_pure_unit]

theorem hasRoom_effect (he : e.Proper) {depth : Nat} (h : HasRoom depth e.code) :
    HasRoom depth e.effectCode := by
  have hsupply (is : List Instr) :
      depthAfter depth (e.supplyCode ++ is) = depthAfter (depth + 1) is := by
    cases e with
    | assign value target => exact Expr.depthAfter_code he.1 depth is
    | increment target | decrement target =>
      have hload := Target.depthAfter_load (t := target) he depth
      simp [supplyCode, hload]
    | _ => cases htarget
  rw [code_eq htarget] at h
  rw [effectCode_eq htarget]
  intro js hjs depth' hdepth
  rcases Nat.le_total js.length e.supplyCode.length with hle | hle
  · exact h.left js (List.prefix_of_prefix_length_le hjs (List.prefix_append _ _) hle) _ hdepth
  · obtain ⟨ks, rfl⟩ := List.prefix_of_prefix_length_le (List.prefix_append _ _) hjs hle
    have hks := (List.prefix_append_right_inj _).1 hjs
    rw [hsupply] at hdepth
    -- The copy that is kept takes one place more.
    have hmore : depthAfter depth (e.supplyCode ++ (t.keepCode ++ ks)) = some (depth' + 1) := by
      rw [hsupply, t.depthAfter_keep]
      exact depthAfter_add 1 hdepth
    have hprefix : e.supplyCode ++ (t.keepCode ++ ks) <+:
        e.supplyCode ++ (t.keepCode ++ t.storeCode) :=
      (List.prefix_append_right_inj _).2 ((List.prefix_append_right_inj _).2 hks)
    exact Nat.le_of_succ_le (h _ hprefix _ hmore)

end Expr

/-! ### Code that leaves the log as it is -/

mutual

theorem Expr.debug_notMem (e : Expr) : .debug ∉ e.code := by
  cases e with
  | number | var | buffer | rand => simp [Expr.code]
  | deref address width => simp [Expr.code, address.debug_notMem]
  | addressOf target =>
    cases target with
    | var name => cases h : variableAddress? name <;> simp [Expr.code, h]
    | pointer address width => exact address.debug_notMem
  | unary op operand => cases op <;> simp [Expr.code, operand.debug_notMem]
  | binary op lhs rhs => simp [Expr.code, lhs.debug_notMem, rhs.debug_notMem]
  | assign value target =>
    simp [Expr.code, value.debug_notMem, target.debug_notMem_keep, target.debug_notMem]
  | increment target | decrement target =>
    simp [Expr.code, target.debug_notMem_keep, target.debug_notMem]
  | getKey key => simp [Expr.code, key.debug_notMem]
  | pxlTest surface x y => simp [Expr.code, x.debug_notMem, y.debug_notMem]

theorem Target.debug_notMem (t : Target) : .debug ∉ t.loadCode ∧ .debug ∉ t.storeCode := by
  cases t with
  | var name => simp [Target.loadCode, Target.storeCode]
  | pointer address width => simp [Target.loadCode, Target.storeCode, address.debug_notMem]

end

namespace Expr

variable {e : Expr} {t : Target} (htarget : e.target? = some t)
include htarget

theorem debug_notMem_effect : .debug ∉ e.effectCode := by
  have hcode := e.debug_notMem
  rw [e.code_eq htarget] at hcode
  rw [e.effectCode_eq htarget]
  simp only [List.mem_append, not_or] at hcode ⊢
  exact ⟨hcode.1, hcode.2.2⟩

theorem onward_effect (he : e.Proper) : Onward e.effectCode := by
  have hcode := e.onward_code he
  rw [e.code_eq htarget] at hcode
  rw [e.effectCode_eq htarget]
  simp only [onward_append] at hcode ⊢
  exact ⟨hcode.1, hcode.2.2⟩

end Expr

/-! ## Statement and value -/

theorem Stack.ofList_items {α : Type} (s : Stack α) : .ofList s.items = s := Stack.ext rfl

/-- In `n` steps of the one machine and `k` of the other the same is seen, and they end as if they
were one. -/
structure Machine.Alike {σ : Type} (d : Device σ) (s : σ) (same : σ → σ → Prop) (a : Machine)
    (n : Nat) (b : Machine) (k : Nat) : Prop where
  shown : a.shown d n s = b.shown d k s
  ends : (a.after d n s).1.EndsAs (b.after d k s).1
  device : same (a.after d n s).2 (b.after d k s).2

/-- The value that a store leaves. A word is the one that memory holds then, and a byte is not cut
off. -/
structure Expr.Leaves {σ : Type} (e : Expr) (t : Target) (d : Device σ) (s : σ) (m : Machine)
    (u v : Int64) (n : Nat) : Prop where
  supplied : (m.after d e.supplyCode.length s).1.stack = m.stack.push u
  left : (m.after d e.code.length s).1.stack = m.stack.push v
  stored : (m.after d (e.code.length - 1) s).1.storesTo? = some (.ofNat n, t.width)
  word : t.width = .word → v = wrapped u ∧ 0 ≤ v.toInt ∧ v.toInt ≤ 65535 ∧
    (m.after d e.code.length s).1.memory.read? .word n = some v
  byte : t.width = .byte → v = u

section

variable {e : Expr} {t : Target} (htarget : e.target? = some t) (he : e.Proper) {m : Machine}
  {σ : Type} {d : Device σ} {s : σ}
include htarget he

theorem Expr.exists_leaves (hrun : m.status = .running) (hcode : m.program.HasCode m.pc e.code)
    (hroom : HasRoom m.stack.size e.code)
    (hgo : (m.after d e.code.length s).1.status = .running) : ∃ u v n, e.Leaves t d s m u v n := by
  have ht := e.proper_target htarget he
  have hm : m.Faces (e.supplyCode ++ (t.keepCode ++ t.storeCode)) m.stack.items d s :=
    e.code_eq htarget ▸ ⟨hrun, hcode, m.stack.ofList_items.symm, hroom, hgo⟩
  have hlast : e.code.length - 1 =
      e.supplyCode.length + (t.keepCode.length + t.placeCode.length) := by
    rw [e.code_eq htarget, t.storeCode_eq]
    simp only [List.length_append, List.length_singleton]
    omega
  have hlength : e.code.length = e.supplyCode.length + (t.keepCode ++ t.storeCode).length := by
    rw [e.code_eq htarget, List.length_append]
  obtain ⟨u, store, -, hat, hm'⟩ := (e.computes_supply htarget he).through hm
  obtain ⟨n, hn, store', -, hstores, -, hafter⟩ := t.stores_behind ht (t.computes_keep u) hm'
  rw [← Machine.after_add, ← hlast] at hstores
  rw [← Machine.after_add, ← hlength, hat] at hafter
  refine ⟨u, t.kept u, n, ?_, ?_, hstores, fun hword => ?_, fun hbyte => ?_⟩
  · rw [hat]
    exact Stack.ext rfl
  · rw [hafter]
    exact Stack.ext rfl
  · have hint := toInt_wrapped u
    rw [Target.kept_of_word hword] at hafter ⊢
    refine ⟨rfl, by omega, by omega, ?_⟩
    rw [hafter]
    change (store'.memory.write t.width n (wrapped u) hn).read? .word n = _
    generalize t.width = width at hn hword
    subst hword
    rw [Memory.read?_of_le _ _ _ hn, Memory.read_write_word, wrapped_wrapped]
  · exact Target.kept_of_byte hbyte u

theorem Expr.stack_effect (hrun : m.status = .running) (hcode : m.program.HasCode m.pc e.effectCode)
    (hroom : HasRoom m.stack.size e.effectCode)
    (hgo : (m.after d e.effectCode.length s).1.status = .running) :
    (m.after d e.effectCode.length s).1.stack = m.stack := by
  have hm : m.Faces (e.effectCode ++ []) ([] ++ m.stack.items) d s := by
    rw [List.append_nil]
    exact ⟨hrun, hcode, m.stack.ofList_items.symm, hroom, hgo⟩
  obtain ⟨_, store, -, hafter, -⟩ :=
    (e.computes_effect (e.isEffect_of_target htarget) he).through hm
  rw [hafter]
  exact m.stack.ofList_items

variable {p q : Program} {x y : Nat} (hrun : m.status = .running) (hp : p.HasCode x e.effectCode)
  (hq : q.HasCode y e.code) (hroom : HasRoom m.stack.size e.code)
include hrun hp hq hroom

/-- If the device does not look at its log, it cannot tell the two forms apart. -/
theorem Expr.ends_alike {same : σ → σ → Prop} (hd : d.Overlooks same) :
    Machine.Alike d s same { m with program := p, pc := x } e.effectCode.length
      { m with program := q, pc := y } e.code.length := by
  let a : Machine := { m with program := p, pc := x }
  let b : Machine := { m with program := q, pc := y }
  have hstack := m.stack.ofList_items.symm
  obtain ⟨r, hshows, hlands⟩ := (e.computes_effect (e.isEffect_of_target htarget) he).lands
    (m := a) (d := d) (s := s) hrun hp hstack (e.hasRoom_effect htarget he hroom)
  obtain ⟨r', hshows', hlands'⟩ := (e.computes_code he).lands (m := b) (d := d) (s := s) hrun hq
    hstack hroom
  -- What the value shows, the statement shows as well.
  have heffect : (e.effect m.store).Shows (b.shown d e.code.length s)
      (r'.1.map fun _ => (), r'.2) := by
    rw [e.effect_eq_value htarget, ← List.append_nil (b.shown d e.code.length s)]
    refine hshows'.bind ?_
    obtain ⟨_ | _, store⟩ := r' <;> exact .done _
  obtain ⟨hshown, hr, hdevice⟩ := Device.Answers.unique hd
    ((a.answers hd e.effectCode.length s).mapEvent .unplaced)
    ((b.answers hd e.code.length s).mapEvent .unplaced) hshows heffect
  refine ⟨hshown, ?_, hdevice⟩
  change (a.after d e.effectCode.length s).1.EndsAs (b.after d e.code.length s).1
  generalize (a.after d e.effectCode.length s).1 = a' at hlands
  generalize (b.after d e.code.length s).1 = b' at hlands'
  rcases hlands' with ⟨v, store, -⟩ | ⟨-, hstore', hstatus', -⟩
  · rcases hlands with ⟨_, _, -⟩ | _
    · cases hr
      exact ⟨rfl, rfl, rfl⟩
    · cases hr
  · rcases hlands with _ | ⟨-, hstore, hstatus, -⟩
    · cases hr
    · cases hr
      have heq := hstore.trans hstore'.symm
      exact ⟨congrArg Store.memory heq, congrArg Store.debug heq, hstatus.trans hstatus'.symm⟩

theorem Expr.ends_alike_unlogged (hdebug : m.debug = false) :
    Machine.Alike d s Eq { m with program := p, pc := x } e.effectCode.length
      { m with program := q, pc := y } e.code.length := by
  let a : Machine := { m with program := p, pc := x }
  let b : Machine := { m with program := q, pc := y }
  have ha (k : Nat) (hk : k < e.effectCode.length) : (a.after d k s).1.debug = false :=
    (Machine.debug_onward rfl hp (e.onward_effect htarget he) rfl (e.debug_notMem_effect htarget)
      (Nat.le_of_lt hk)).trans hdebug
  have hb (k : Nat) (hk : k < e.code.length) : (b.after d k s).1.debug = false :=
    (Machine.debug_onward rfl hq (e.onward_code he) rfl e.debug_notMem (Nat.le_of_lt hk)).trans
      hdebug
  obtain ⟨hafter, htranscript⟩ := Machine.after_deaf ha
  obtain ⟨hafter', htranscript'⟩ := Machine.after_deaf hb
  obtain ⟨hshown, hends, hdevice⟩ :=
    e.ends_alike htarget he hrun hp hq hroom (s := s) d.deaf_overlooks
  rw [hafter, hafter'] at hends hdevice
  unfold Machine.shown at hshown
  rw [htranscript, htranscript'] at hshown
  exact ⟨hshown, hends, hdevice⟩

end

/-- The machine `a` is in front of the store as a statement, and `b` in front of it as a value. -/
structure Expr.Agrees {σ : Type} (e : Expr) (t : Target) (d : Device σ) (s : σ)
    (same : σ → σ → Prop) (a b : Machine) : Prop where
  alike : Machine.Alike d s same a e.effectCode.length b e.code.length
  stack : (a.after d e.effectCode.length s).1.status = .running →
    (a.after d e.effectCode.length s).1.stack = a.stack
  leaves : (b.after d e.code.length s).1.status = .running → ∃ u v n, e.Leaves t d s b u v n

theorem Program.hasCode_self (is : List Instr) : Program.HasCode { code := is.toArray } 0 is := by
  intro k i hi
  rw [Nat.zero_add, List.getElem?_toArray]
  exact hi

/-- An assignment, an increment or a decrement as a statement and as a value, on machines that are
the same but for their programs, with room for the value on the stack. Both forms make the same calls
in the same order and end with the same memory and with success or the same failure, on any device:
records for the log apart, if the log is on. The statement leaves nothing. The value leaves what was
to be stored if that is a byte, and if it is a word, the word that memory now holds. -/
theorem stores_agree {e : Expr} {t : Target} (htarget : e.target? = some t) (he : e.Proper) :
    (e.lowerEffect.Emits e.effectCode ∧ e.lower.Emits e.code) ∧
    ∀ (m : Machine) (p q : Program) (x y : Nat), m.status = .running →
      p.HasCode x e.effectCode → q.HasCode y e.code → HasRoom m.stack.size e.code →
      ∀ {σ : Type} (d : Device σ) (s : σ) (same : σ → σ → Prop),
        (d.Overlooks same ∨ m.debug = false ∧ same = Eq) →
        e.Agrees t d s same { m with program := p, pc := x } { m with program := q, pc := y } := by
  refine ⟨⟨Expr.emits_lowerEffect (e.isEffect_of_target htarget) he, Expr.emits_lower he⟩, ?_⟩
  intro m p q x y hrun hp hq hroom σ d s same hlog
  refine ⟨?_, e.stack_effect htarget he hrun hp (e.hasRoom_effect htarget he hroom),
    e.exists_leaves htarget he hrun hq hroom⟩
  rcases hlog with hd | ⟨hdebug, rfl⟩
  · exact e.ends_alike htarget he hrun hp hq hroom hd
  · exact e.ends_alike_unlogged htarget he hrun hp hq hroom hdebug

theorem stores_agree_nested :
    let t : Target := .pointer (.increment (.pointer (.number 10) .byte)) .word
    let e : Expr := .assign (.number 70000) t
    let a : Machine := { program := { code := e.effectCode.toArray }, status := .running }
    let b : Machine := { program := { code := e.code.toArray }, status := .running }
    e.Agrees t Recorder.device {} Eq a b ∧
      (b.after Recorder.device e.code.length {}).1.stack.items = [4464] := by
  intro t e a b
  have he : e.Proper := ⟨trivial, trivial⟩
  refine ⟨(stores_agree (t := t) rfl he).2 { status := .running } _ _ 0 0 rfl
    (Program.hasCode_self _) (Program.hasCode_self _) (hasRoom_of_length (by decide))
    Recorder.device {} Eq (.inr ⟨rfl, rfl⟩), ?_⟩
  decide +kernel

end Handheld
