import Handheld.Proofs.Meaning.Stores
import Mathlib

/-!
# Increments and their place

An increment loads from its target, adds 1 and stores there. The address of the
target is evaluated for the load, and once more for the store. If that changes
nothing and asks nothing, it comes to the same address both times, and the
increment changes the one place it has read.
-/

namespace Handheld

/-! ## Quiet expressions -/

mutual

/-- Evaluation changes nothing and asks the device for nothing. -/
def Expr.Quiet : Expr → Prop
  | .number _ | .var _ | .buffer _ => True
  | .deref address _ => address.Quiet
  | .addressOf target => target.Quiet
  | .unary _ operand => operand.Quiet
  | .binary _ lhs rhs => lhs.Quiet ∧ rhs.Quiet
  | .assign .. | .increment _ | .decrement _ | .getKey _ | .rand | .pxlTest .. => False

/-- The address of the target does. -/
def Target.Quiet : Target → Prop
  | .var _ => True
  | .pointer address _ => address.Quiet

end

theorem Eval.shows_addressOf {name : Char} {store store' : Store} {os : List Observation}
    {a : Int64} (h : (Eval.addressOf name store).Shows os (.ok a, store')) :
    os = [] ∧ store' = store := by
  unfold Eval.addressOf at h
  cases hname : variableAddress? name with
  | some n =>
    rw [hname] at h
    obtain ⟨hos, -, hstore⟩ := Eval.shows_pure h
    exact ⟨hos, hstore⟩
  | none =>
    rw [hname] at h
    exact absurd h Eval.not_shows_fail

mutual

theorem Expr.quiet_value {e : Expr} (he : e.Quiet) {store store' : Store} {os : List Observation}
    {v : Int64} (h : (e.value store).Shows os (.ok v, store')) : os = [] ∧ store' = store := by
  cases e with
  | number n | buffer b =>
    obtain ⟨hos, -, hstore⟩ := Eval.shows_pure h
    exact ⟨hos, hstore⟩
  | var name =>
    obtain ⟨os₁, os₂, a, store₁, rfl, hplace, hread⟩ := Eval.shows_bind h
    obtain ⟨rfl, rfl⟩ := Eval.shows_addressOf hplace
    obtain ⟨-, -, -, -, hstore, hos⟩ := Eval.shows_read hread
    exact ⟨hos, hstore⟩
  | deref address width =>
    obtain ⟨os₁, os₂, a, store₁, rfl, hplace, hread⟩ := Eval.shows_bind h
    obtain ⟨rfl, rfl⟩ := Expr.quiet_value (e := address) he hplace
    obtain ⟨-, -, -, -, hstore, hos⟩ := Eval.shows_read hread
    exact ⟨hos, hstore⟩
  | addressOf target => exact Target.quiet_place (t := target) he (by cases target <;> exact h)
  | unary op operand =>
    cases op with
    | negate | square =>
      obtain ⟨os₁, os₂, a, store₁, rfl, hoperand, hpure⟩ := Eval.shows_bind h
      obtain ⟨rfl, rfl⟩ := Expr.quiet_value (e := operand) he hoperand
      obtain ⟨hos, -, hstore⟩ := Eval.shows_pure hpure
      exact ⟨hos, hstore⟩
  | binary op lhs rhs =>
    obtain ⟨os₁, os₂, a, store₁, rfl, hlhs, hrest⟩ := Eval.shows_bind h
    obtain ⟨rfl, rfl⟩ := Expr.quiet_value he.1 hlhs
    obtain ⟨os₁, os₂, b, store₂, rfl, hrhs, hop⟩ := Eval.shows_bind hrest
    obtain ⟨rfl, rfl⟩ := Expr.quiet_value he.2 hrhs
    unfold BinaryOp.value at hop
    cases heval : op.eval a b with
    | ok v =>
      rw [heval] at hop
      obtain ⟨hos, -, hstore⟩ := Eval.shows_pure hop
      exact ⟨hos, hstore⟩
    | error cause =>
      rw [heval] at hop
      exact absurd hop Eval.not_shows_fail
  | assign | increment | decrement | getKey | rand | pxlTest => exact absurd he id

theorem Target.quiet_place {t : Target} (ht : t.Quiet) {store store' : Store}
    {os : List Observation} {a : Int64} (h : (t.place store).Shows os (.ok a, store')) :
    os = [] ∧ store' = store := by
  cases t with
  | var name => exact Eval.shows_addressOf h
  | pointer address width => exact Expr.quiet_value (e := address) ht h

end

/-! ## Increments -/

/-- How a machine comes through an increment by `δ` in `n` steps. It evaluates the address of the
target and loads from `a`, where the store is `store`. Then it evaluates the address once more and
stores at `b`, where the store is `store'`. -/
structure Target.Increments {σ : Type} (t : Target) (δ : Int) (d : Device σ) (s : σ) (m : Machine)
    (n a b : Nat) (store store' : Store) : Prop where
  loads : (m.after d t.placeCode.length s).1.loadsFrom? = some (.ofNat a, t.width)
  loading : (m.after d t.placeCode.length s).1.memory = store.memory
  stores : (m.after d (n - 1) s).1.storesTo? = some (.ofNat b, t.width)
  storing : (m.after d (n - 1) s).1.memory = store'.memory
  shown : ∃ os os', m.shown d n s = os ++ os' ∧
    (t.place m.store).Shows os (.ok (.ofNat a), store) ∧
    (t.place store).Shows os' (.ok (.ofNat b), store')
  cell : ∃ old new, store.memory.read? t.width a = some old ∧
    (m.after d n s).1.memory.read? t.width b = some new ∧
    new.toInt = (old.toInt + δ) % 256 ^ t.width.bytes

section

variable {t : Target} (ht : t.Proper) {m : Machine} {items : List Int64} {σ : Type} {d : Device σ}
  {s : σ}
include ht

theorem Target.exists_increments {sum is : List Instr} {δ : Int} {add keep : Int64 → Int64}
    {left : Int64 → List Int64} (hsum : ∀ v, Computes sum [v] (pure (add v)) fun v => [v])
    (hadd : ∀ v : Int64, 0 ≤ v.toInt → v.toInt < 65536 → (add v).toInt = v.toInt + δ)
    (his : ∀ v, Computes is [v] (pure (keep v)) fun v => v :: left v)
    (hkeep : ∀ v, (keep v).toInt % 256 ^ t.width.bytes = v.toInt % 256 ^ t.width.bytes)
    (hm : m.Faces (t.loadCode ++ (sum ++ (is ++ t.storeCode))) items d s) :
    ∃ a b store store',
      t.Increments δ d s m (t.loadCode ++ (sum ++ (is ++ t.storeCode))).length a b store store' := by
  obtain ⟨a, ha, store, hplace, hloads, hloading, hat, hm⟩ := t.loads ht hm
  obtain ⟨u, store₁, hpure, hat', hm⟩ := (hsum _).through hm
  obtain ⟨hquiet, rfl, rfl⟩ := Eval.shows_pure hpure
  obtain ⟨b, hb, store', hplace', hstores, hstoring, hafter⟩ := t.stores_behind ht (his _) hm
  have hlength : (t.loadCode ++ (sum ++ (is ++ t.storeCode))).length =
      t.loadCode.length + (sum.length + (is ++ t.storeCode).length) := by
    rw [List.length_append, List.length_append]
  have hlast : t.loadCode.length + (sum.length + (is ++ t.storeCode).length) - 1 =
      t.loadCode.length + (sum.length + (is.length + t.placeCode.length)) := by
    rw [t.storeCode_eq]
    simp only [List.length_append, List.length_singleton]
    omega
  rw [hlength]
  refine ⟨a, b, store, store', hloads, hloading, ?_, ?_, ?_, ?_⟩
  · rw [hlast, Machine.after_add, Machine.after_add]
    exact hstores
  · rw [hlast, Machine.after_add, Machine.after_add]
    exact hstoring
  · rw [Machine.shown_add, Machine.shown_add, hquiet, List.nil_append]
    refine ⟨_, _, rfl, hplace, ?_⟩
    have hstore := congrArg Machine.store hat
    rw [hat'] at hplace'
    rw [hat']
    exact hstore ▸ hplace'
  · rw [Machine.after_add, Machine.after_add, hafter]
    refine ⟨_, _, Memory.read?_of_le _ _ _ ha, Memory.read?_of_le _ _ _ hb, ?_⟩
    have hold := store.memory.toInt_read ha
    have hwidth : (256 : Int) ^ t.width.bytes ≤ 65536 := by
      cases t.width <;> decide
    refine (Memory.toInt_read_write _ hb _).trans ?_
    rw [hkeep, hadd _ hold.1 (by omega)]

end

theorem toInt_plusOne (v : Int64) (h : 0 ≤ v.toInt) (h' : v.toInt < 65536) :
    (v + 1).toInt = v.toInt + 1 := by
  have hone : (1 : Int64).toInt = 1 := rfl
  rw [Int64.toInt_add, hone]
  exact Int.bmod_eq_of_le (by omega) (by omega)

theorem toInt_minusOne (v : Int64) (h : 0 ≤ v.toInt) (h' : v.toInt < 65536) :
    (v - 1).toInt = v.toInt + -1 := by
  have hone : (1 : Int64).toInt = 1 := rfl
  rw [Int64.toInt_sub, hone]
  exact Int.bmod_eq_of_le (by omega) (by omega)

theorem Target.toInt_kept (t : Target) (v : Int64) :
    (t.kept v).toInt % 256 ^ t.width.bytes = v.toInt % 256 ^ t.width.bytes := by
  cases hwidth : t.width with
  | byte => rw [kept_of_byte hwidth]
  | word =>
    rw [kept_of_word hwidth, toInt_wrapped]
    exact Int.emod_emod _ _

theorem Target.Increments.quiet {t : Target} {δ : Int} {σ : Type} {d : Device σ} {s : σ}
    {m : Machine} {n a b : Nat} {store store' : Store}
    (h : t.Increments δ d s m n a b store store') (ht : t.Quiet) :
    b = a ∧ m.shown d n s = [] ∧ store = m.store ∧ store' = m.store := by
  obtain ⟨os, os', hshown, hplace, hplace'⟩ := h.shown
  obtain ⟨rfl, rfl⟩ := Target.quiet_place ht hplace
  obtain ⟨rfl, rfl⟩ := Target.quiet_place ht hplace'
  refine ⟨?_, hshown, rfl, rfl⟩
  obtain ⟨old, new, hold, hnew, -⟩ := h.cell
  have ha := (Memory.isSome_read? ..).1 (Option.isSome_of_eq_some hold)
  have hb := (Memory.isSome_read? ..).1 (Option.isSome_of_eq_some hnew)
  have heq : Int64.ofNat b = Int64.ofNat a :=
    Except.ok.inj (congrArg Prod.fst (hplace'.unique hplace))
  have hint := congrArg Int64.toInt heq
  rw [Machine.toInt_address ha, Machine.toInt_address hb] at hint
  exact Int.ofNat_inj.1 hint

/-- An increment or a decrement, as a statement or as a value, on a machine that comes through it.
The address of the target is evaluated for the load, and then, with all that this does, once more for
the store, so the store need not go where the load was. The cell that is stored holds the content of
the one that was loaded, plus or minus 1 modulo its width. If the address is quiet, both are one
cell, and nothing else happens. -/
theorem increment_place {t : Target} (ht : t.Proper) {e : Expr} {δ : Int}
    (he : e = .increment t ∧ δ = 1 ∨ e = .decrement t ∧ δ = -1) {is : List Instr}
    (his : is = e.effectCode ∨ is = e.code) {m : Machine} (hrun : m.status = .running)
    (hcode : m.program.HasCode m.pc is) (hroom : m.stack.size ≤ stackLimit) {σ : Type}
    {d : Device σ} {s : σ} (hgo : (m.after d is.length s).1.status = .running) :
    ∃ a b store store', t.Increments δ d s m is.length a b store store' ∧
      (t.Quiet → b = a ∧ m.shown d is.length s = [] ∧ store = m.store ∧ store' = m.store) := by
  have htarget : e.target? = some t := by rcases he with ⟨rfl, -⟩ | ⟨rfl, -⟩ <;> rfl
  have hproper : e.Proper := by rcases he with ⟨rfl, -⟩ | ⟨rfl, -⟩ <;> exact ht
  have honward : Onward is := by
    rcases his with rfl | rfl
    · exact e.onward_effect htarget hproper
    · exact e.onward_code hproper
  obtain ⟨sum, add, hsupply, hsum, hadd⟩ : ∃ (sum : List Instr) (add : Int64 → Int64),
      e.supplyCode = t.loadCode ++ sum ∧ (∀ v, Computes sum [v] (pure (add v)) fun v => [v]) ∧
      ∀ v : Int64, 0 ≤ v.toInt → v.toInt < 65536 → (add v).toInt = v.toInt + δ := by
    rcases he with ⟨rfl, rfl⟩ | ⟨rfl, rfl⟩
    · exact ⟨_, (· + 1), rfl, computes_plusOne, toInt_plusOne⟩
    · exact ⟨_, (· - 1), rfl, computes_minusOne, toInt_minusOne⟩
  obtain ⟨ks, keep, left, hparts, hks, hkeep⟩ :
      ∃ (ks : List Instr) (keep : Int64 → Int64) (left : Int64 → List Int64),
      is = e.supplyCode ++ (ks ++ t.storeCode) ∧
      (∀ v, Computes ks [v] (pure (keep v)) fun v => v :: left v) ∧
      ∀ v : Int64, (keep v).toInt % 256 ^ t.width.bytes = v.toInt % 256 ^ t.width.bytes := by
    rcases his with rfl | rfl
    · exact ⟨[], id, fun _ => [], e.effectCode_eq htarget,
        Computes.nothing (fun v => [v]), fun _ => rfl⟩
    · exact ⟨t.keepCode, (t.kept ·), fun v => [v], e.code_eq htarget, t.computes_keep, t.toInt_kept⟩
  rw [hsupply, List.append_assoc] at hparts
  have hm : m.Faces is m.stack.items d s :=
    ⟨hrun, hcode, m.stack.ofList_items.symm,
      Machine.hasRoom_of_running rfl hcode honward rfl hroom hgo, hgo⟩
  subst hparts
  obtain ⟨a, b, store, store', hincrements⟩ := t.exists_increments ht hsum hadd hks hkeep hm
  exact ⟨a, b, store, store', hincrements, hincrements.quiet⟩

/-- The address reads the word that is to be changed. -/
theorem increment_place_quiet :
    let t : Target := .pointer (.binary .add (.number 10) (.deref (.number 10) .byte)) .word
    let e : Expr := .decrement t
    let m : Machine := { program := { code := e.code.toArray }, status := .running }
    (∃ a store, t.Increments (-1) Recorder.device {} m e.code.length a a store store) ∧
      (m.after Recorder.device e.code.length {}).1.memory.read? .word 10 = some 65535 := by
  intro t e m
  have ht : t.Proper := ⟨trivial, trivial⟩
  have hgo : (m.after Recorder.device e.code.length {}).1.status = .running := by decide +kernel
  obtain ⟨a, b, store, store', hincrements, hquiet⟩ := increment_place ht (.inr ⟨rfl, rfl⟩)
    (.inr rfl) rfl (Program.hasCode_self _) (Nat.zero_le _) hgo
  obtain ⟨rfl, -, rfl, rfl⟩ := hquiet ⟨trivial, trivial⟩
  exact ⟨⟨b, _, hincrements⟩, by decide +kernel⟩

/-- The address of the outer target adds 1 at 10 each time it is evaluated. So the load is from 1 and
the store to 2, and 10 is counted up twice. -/
theorem increment_elsewhere :
    ∃ p, compile "\x7b\x7b10\x7d++\x7d++" = .ok p ∧
      let m := Machine.fresh.load p
      (m.after Recorder.device 7 {}).1.loadsFrom? = some (1, .byte) ∧
      (m.after Recorder.device 17 {}).1.storesTo? = some (2, .byte) ∧
      (m.after Recorder.device 18 {}).1.status = .running ∧
      (m.after Recorder.device 18 {}).1.memory.read? .byte 1 = some 0 ∧
      (m.after Recorder.device 18 {}).1.memory.read? .byte 2 = some 1 ∧
      (m.after Recorder.device 18 {}).1.memory.read? .byte 10 = some 2 := by
  have hrun : (match compile "\x7b\x7b10\x7d++\x7d++" with
      | .ok p =>
        let m := Machine.fresh.load p
        decide ((m.after Recorder.device 7 {}).1.loadsFrom? = some (1, .byte) ∧
          (m.after Recorder.device 17 {}).1.storesTo? = some (2, .byte) ∧
          (m.after Recorder.device 18 {}).1.status = .running ∧
          (m.after Recorder.device 18 {}).1.memory.read? .byte 1 = some 0 ∧
          (m.after Recorder.device 18 {}).1.memory.read? .byte 2 = some 1 ∧
          (m.after Recorder.device 18 {}).1.memory.read? .byte 10 = some 2)
      | .error _ => false) = true := by decide +kernel
  split at hrun
  · next p hp => exact ⟨p, hp, of_decide_eq_true hrun⟩
  · cases hrun

end Handheld
