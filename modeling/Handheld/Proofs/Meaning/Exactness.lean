import Handheld.Proofs.Code.Labels
import Handheld.Proofs.Meaning.Stores
import Handheld.Proofs.Run.Loops
import Mathlib

/-!
# Sums and products are exact

Values wrap around at 64 bits, and a variable keeps 16 bits of what is stored
there. To wrap is to go on with a remainder, and sums, differences and products
do not mind that. So what a variable gets from an expression made of them is the
exact value modulo 65536, however far the values in between are off.
-/

namespace Handheld

theorem isUpper_of_variableAddress? {name : Char} {a : Nat} (h : variableAddress? name = some a) :
    name.isUpper := by
  unfold variableAddress? at h
  split at h
  · assumption
  · cases h

theorem toNat_toUInt16_ofInt (z : Int) :
    ((Int64.ofInt z).toUInt64.toUInt16.toNat : Int) = z % 65536 := by
  have hwrap : (Int64.ofInt z).toInt = z.bmod (2 ^ 64) := Int64.toInt_ofInt
  have hmod : z.bmod (2 ^ 64) % 2 ^ 64 = z % 2 ^ 64 := Int.bmod_emod ..
  have hnat : (Int64.ofInt z).toUInt64.toUInt16.toNat =
      (Int64.ofInt z).toUInt64.toNat % 65536 := rfl
  have hlow := toInt_emod (Int64.ofInt z)
  rw [hwrap, hmod] at hlow
  omega

/-! ## Expressions of sums and products -/

/-- Numbers, variables and addresses, with signs, squares, sums, differences and products. A variable
comes with its address. -/
inductive RingExpr
  | number (n : Int64)
  | var (name : Char) (a : Nat) (h : variableAddress? name = some a)
  | buffer (b : Buffer)
  | address (name : Char) (a : Nat) (h : variableAddress? name = some a)
  | negate (e : RingExpr)
  | square (e : RingExpr)
  | add (lhs rhs : RingExpr)
  | subtract (lhs rhs : RingExpr)
  | multiply (lhs rhs : RingExpr)

namespace RingExpr

def toExpr : RingExpr → Expr
  | number n => .number n
  | var name _ _ => .var name
  | buffer b => .buffer b
  | address name _ _ => .addressOf (.var name)
  | negate e => .unary .negate e.toExpr
  | square e => .unary .square e.toExpr
  | add lhs rhs => .binary .add lhs.toExpr rhs.toExpr
  | subtract lhs rhs => .binary .subtract lhs.toExpr rhs.toExpr
  | multiply lhs rhs => .binary .multiply lhs.toExpr rhs.toExpr

/-- The value among all integers. Variables are words. -/
def exact (m : Memory) : RingExpr → Int
  | number n => n.toInt
  | var _ a h => (m.peekWord a (variableAddress?_le h)).toNat
  | buffer b => b.base
  | address _ a _ => a
  | negate e => -e.exact m
  | square e => e.exact m ^ 2
  | add lhs rhs => lhs.exact m + rhs.exact m
  | subtract lhs rhs => lhs.exact m - rhs.exact m
  | multiply lhs rhs => lhs.exact m * rhs.exact m

theorem proper_toExpr (e : RingExpr) : e.toExpr.Proper := by
  induction e with
  | number | buffer => trivial
  | var name a h | address name a h => exact isUpper_of_variableAddress? h
  | negate e ih | square e ih => exact ih
  | add lhs rhs ihl ihr | subtract lhs rhs ihl ihr | multiply lhs rhs ihl ihr => exact ⟨ihl, ihr⟩

theorem value_toExpr (e : RingExpr) (store : Store) :
    e.toExpr.value store = .done (.ok (.ofInt (e.exact store.memory)), store) := by
  induction e with
  | number n =>
    rw [exact, Int64.ofInt_toInt]
    rfl
  | buffer b => rfl
  | var name a h =>
    change (Eval.addressOf name >>= Eval.read .word) store = _
    rw [Eval.addressOf_bind h, Eval.read_ofNat (variableAddress?_le h)]
    rfl
  | address name a h =>
    change Eval.addressOf name store = _
    unfold Eval.addressOf
    rw [h]
    rfl
  | negate e ih =>
    rw [exact, Int64.ofInt_neg]
    exact Eval.bind_of_done ih
  | square e ih =>
    rw [exact, sq, Int64.ofInt_mul]
    exact Eval.bind_of_done ih
  | add lhs rhs ihl ihr =>
    rw [exact, Int64.ofInt_add]
    exact (Eval.bind_of_done ihl).trans (Eval.bind_of_done ihr)
  | subtract lhs rhs ihl ihr =>
    rw [exact, Int64.ofInt_sub]
    exact (Eval.bind_of_done ihl).trans (Eval.bind_of_done ihr)
  | multiply lhs rhs ihl ihr =>
    rw [exact, Int64.ofInt_mul]
    exact (Eval.bind_of_done ihl).trans (Eval.bind_of_done ihr)

/-! ## Storing them -/

/-- The statement that stores the value in a variable. -/
def store (e : RingExpr) (span : Span) (name : Char) : Stmt :=
  .effect span (.assign e.toExpr (.var name))

variable (e : RingExpr) (span : Span) {name : Char} {a : Nat} (ha : variableAddress? name = some a)
include ha

theorem proper_store : (e.store span name).Proper :=
  ⟨rfl, e.proper_toExpr, isUpper_of_variableAddress? ha⟩

theorem act_store (store : Store) :
    (e.store span name).act store = .done (.ok (), { store with
      memory := store.memory.write .word a (.ofInt (e.exact store.memory))
        (variableAddress?_le ha) }) := by
  change (e.toExpr.value >>= fun v => Target.assign v (.var name)) store = _
  rw [Eval.bind_of_done (e.value_toExpr store)]
  change (Eval.addressOf name >>= fun x => Eval.write .word x _) store = _
  rw [Eval.addressOf_bind ha, Eval.write_ofNat (variableAddress?_le ha)]

theorem exists_program (hsize : (e.store span name).size ≤ codeLimit) :
    ∃ p, Program.ofTree [e.store span name] = .ok p := by
  have hproper : ∀ s ∈ flatBlock [e.store span name], s.Proper := by
    simpa [flatBlock, store, Stmt.flat] using e.proper_store span ha
  have hroom : codeLength (blockDraft 0 0 [e.store span name]) ≤ codeLimit := by
    rw [codeLength_draft.2]
    simpa [blockSize] using hsize
  have hwritten : Written [e.store span name] := ⟨hproper, List.pairwise_singleton _ _⟩
  have hgotos : gotosIn [e.store span name] = [] := rfl
  obtain ⟨p, hp, -⟩ := (outcome_ofTree hwritten hroom).1.linked_of_defined List.nodup_nil
    (by simp [hgotos])
  exact ⟨p, hp⟩

theorem runs_store {p : Program} (hp : p.Calm) {depth : Nat} {m : Machine} (hm : m.Steady p)
    (hrun : m.status = .running) (hat : p.StmtAt depth m.pc (e.store span name)) {σ : Type}
    (d : Device σ) (s : σ) :
    m.shown d (e.store span name).size s = [] ∧
      (m.after d (e.store span name).size s).1 = { m with
        memory := m.memory.pokeWord a (Int64.ofInt (e.exact m.memory)).toUInt64.toUInt16
          (variableAddress?_le ha)
        pc := m.pc + (e.store span name).size } := by
  have hproper := e.proper_store span ha
  have hcode := hat.straight rfl
  have hroom := hp.hasRoom hcode (hm.running hrun).2
  obtain ⟨r, hshows, hlands⟩ := (Stmt.computes_straight rfl hproper).lands (d := d) (s := s) hrun
    (hm.program.symm ▸ hcode) m.stack.ofList_items.symm hroom
  have hlength := Stmt.length_of_straight (s := e.store span name) rfl
  rw [e.act_store span ha] at hshows
  rw [hlength] at hshows hlands
  generalize m.shown d _ s = os at hshows ⊢
  generalize (m.after d _ s).1 = m' at hlands ⊢
  cases hshows
  cases hlands with
  | going =>
    refine ⟨rfl, ?_⟩
    rw [Machine.moved, hlength, List.nil_append, m.stack.ofList_items]
    rfl

end RingExpr

/-- The statement `e->V` for an expression of sums and products, in a compiled program, on any memory
and any device. It never fails and makes no calls, and behind it `V` is the exact value of `e` modulo
65536. Nothing else has changed. -/
theorem ring_store_exact (e : RingExpr) (span : Span) {name : Char} {a : Nat}
    (ha : variableAddress? name = some a) :
    ((e.store span name).size ≤ codeLimit →
      ∃ p, Program.ofTree [e.store span name] = .ok p) ∧
    ∀ (ss : List Stmt) (p : Program), (∀ s ∈ flatBlock ss, s.Proper) →
      Program.ofTree ss = .ok p → e.store span name ∈ flatBlock ss →
      (∃ depth here, p.StmtAt depth here (e.store span name)) ∧
      ∀ depth here, p.StmtAt depth here (e.store span name) →
        ∀ {σ : Type} (d : Device σ) (m₀ : Machine) (s₀ : σ) (n₀ : Nat),
          let (m, s) := (m₀.load p).after d n₀ s₀
          let n := (e.store span name).size
          m.status = .running → m.pc = here →
          (∀ k ≤ n, (m.after d k s).1.status = .running) ∧ m.shown d n s = [] ∧
          ∃ v : UInt16, (v.toNat : Int) = e.exact m.memory % 65536 ∧
            (m.after d n s).1 = { m with
              memory := m.memory.pokeWord a v (variableAddress?_le ha), pc := here + n } := by
  refine ⟨e.exists_program span ha, fun ss p hs htree hmem => ?_⟩
  have hp := Program.calm_of_tree hs htree
  refine ⟨(Program.resumes_start hs htree).block.exists_place hmem, ?_⟩
  intro depth here hat σ d m₀ s₀ n₀
  have hsteady := Machine.Steady.after hp d n₀ (s := s₀) (Machine.steady_load p m₀)
  generalize (m₀.load p).after d n₀ s₀ = q at hsteady ⊢
  obtain ⟨m, s⟩ := q
  rintro hrun rfl
  obtain ⟨hshown, hafter⟩ := e.runs_store span ha hp hsteady hrun hat d s
  refine ⟨fun k hk => Machine.running_of_le hk ?_, hshown, _, toNat_toUInt16_ofInt _, hafter⟩
  rw [hafter]
  exact hrun

theorem ring_store_exact_overflow :
    let e : RingExpr := .add (.var 'A' 35254 rfl) (.subtract
      (.multiply (.address 'A' 35254 rfl) (.buffer .l1)) (.square (.square (.square (.number 65535)))))
    e.exact .blank < -2 ^ 63 ∧
    ∃ p, Program.ofTree [e.store {} 'B'] = .ok p ∧
      ∀ {σ : Type} (d : Device σ) (s : σ), ∃ v : UInt16, v.toNat = 14279 ∧
        ((Machine.fresh.load p).after d (e.store {} 'B').size s).1.memory =
          Memory.blank.pokeWord 35256 v (by decide) := by
  intro e
  have hexact : e.exact .blank = 35254 * 34540 - 65535 ^ 8 := by
    have hblank : Memory.blank.peekWord 35254 (by decide) = 0 := by
      simp [Memory.blank, Memory.peekWord, Memory.peek]
    simp only [e, RingExpr.exact, hblank]
    decide
  have hb : variableAddress? 'B' = some 35256 := rfl
  obtain ⟨hfits, hruns⟩ := ring_store_exact e {} hb
  obtain ⟨p, htree⟩ := hfits (by decide)
  have hproper : ∀ s ∈ flatBlock [e.store {} 'B'], s.Proper := by
    simpa [flatBlock, RingExpr.store, Stmt.flat] using e.proper_store {} hb
  have hat := (Program.resumes_start hproper htree).cons.1
  refine ⟨by rw [hexact]; decide, p, htree, fun d s => ?_⟩
  obtain ⟨-, -, v, hv, hafter⟩ := (hruns _ p hproper htree List.mem_cons_self).2 0 0 hat d .fresh s 0
    rfl rfl
  have hmod : e.exact .blank % 65536 = 14279 := by
    rw [hexact]
    decide
  refine ⟨v, Int.ofNat_inj.1 (hv.trans hmod), ?_⟩
  exact congrArg Machine.memory hafter

end Handheld
