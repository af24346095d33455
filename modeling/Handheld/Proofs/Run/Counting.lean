import Handheld.Proofs.Run.Control
import Handheld.Proofs.Run.Loops
import Mathlib

/-!
# Loops that count

A loop `For(V,a,b)` keeps its count in the word of a variable, and a word has no
room for 65536. Below that bound the loop makes one pass for each number from `a`
to `b`. With 65535 for `b` the count goes on at 0, and the loop is never left.
-/

namespace Handheld

/-! ## The count -/

namespace Memory

theorem valueOf?_of_address (m : Memory) {name : Char} {a : Nat}
    (ha : variableAddress? name = some a) :
    m.valueOf? name = some (m.peekWord a (variableAddress?_le ha)) := by
  rw [valueOf?_eq, ha, Option.bind_some, peekWord?_eq, dif_pos (variableAddress?_le ha)]

theorem valueOf?_write (m : Memory) {name : Char} {a : Nat} (ha : variableAddress? name = some a)
    (v : Int64) : (m.write .word a v (variableAddress?_le ha)).valueOf? name =
      some v.toUInt64.toUInt16 := by
  rw [valueOf?_of_address _ ha]
  exact congrArg some (m.peekWord_pokeWord a _ _)

end Memory

namespace Target

variable {name : Char} (hname : name.isUpper)
include hname

theorem content_var {store : Store} {v : UInt16} (hv : store.memory.valueOf? name = some v) :
    (Target.var name).content store = .done (.ok (.ofNat v.toNat), store) := by
  obtain ⟨x, hx⟩ := variableAddress?_isSome hname
  rw [Memory.valueOf?_of_address _ hx] at hv
  cases Option.some.inj hv
  change (Eval.addressOf name >>= fun y => Eval.read .word y) store = _
  rw [Eval.addressOf_bind hx, Eval.read_ofNat (variableAddress?_le hx)]
  rfl

theorem assign_var (w : Int64) (store : Store) :
    ∃ store', (Target.var name).assign w store = .done (.ok (), store') ∧
      store'.memory.valueOf? name = some w.toUInt64.toUInt16 := by
  obtain ⟨x, hx⟩ := variableAddress?_isSome hname
  have hx' := variableAddress?_le hx
  refine ⟨{ store with memory := store.memory.write .word x w hx' }, ?_, ?_⟩
  · change (Eval.addressOf name >>= fun y => Eval.write .word y w) store = _
    rw [Eval.addressOf_bind hx, Eval.write_ofNat hx']
  · exact store.memory.valueOf?_write hx w

end Target

namespace Loop

/-- The loop `For(V,a,b)` with numbers for its bounds. -/
def counting (name : Char) (a b : Nat) : Loop :=
  .count (.var name) (.number (.ofNat a)) (.number (.ofNat b))

variable {name : Char} (hname : name.isUpper) (a b depth : Nat) (store : Store) {v : UInt16}
include hname

theorem start_counting :
    ∃ store', (counting name a b).start depth store = .done (.ok (), store') ∧
      store'.memory.valueOf? name = some (UInt16.ofNat a) := by
  obtain ⟨store', hassign, hvalue⟩ := Target.assign_var hname (.ofNat a) store
  have hword : (Int64.ofNat a).toUInt64.toUInt16 = UInt16.ofNat a := UInt64.toUInt16_ofNat' a
  exact ⟨store', hassign, hword ▸ hvalue⟩

theorem test_counting (hb : b ≤ 65535) (hv : store.memory.valueOf? name = some v) :
    (counting name a b).test depth store = .done (.ok (truth (v.toNat ≤ b)), store) := by
  have hlt := v.toNat_lt
  have hcount : (Int64.ofNat v.toNat).toInt = v.toNat := Int64.toInt_ofNat_of_lt (by omega)
  have hlast : (Int64.ofNat b).toInt = b := Int64.toInt_ofNat_of_lt (by omega)
  have hle : Int64.ofNat v.toNat ≤ Int64.ofNat b ↔ v.toNat ≤ b := by
    rw [Int64.le_iff_toInt_le, hcount, hlast, Int.ofNat_le]
  refine (Eval.bind_of_done (Target.content_var hname hv)).trans ?_
  change Script.done (Except.ok (truth (Int64.ofNat v.toNat ≤ Int64.ofNat b)), store) = _
  rw [decide_eq_decide.2 hle]

theorem next_counting (hv : store.memory.valueOf? name = some v) :
    ∃ store', (counting name a b).next depth store = .done (.ok (), store') ∧
      store'.memory.valueOf? name = some (v + 1) := by
  obtain ⟨store', hassign, hvalue⟩ := Target.assign_var hname (.ofNat v.toNat + 1) store
  refine ⟨store', ?_, word_plusOne v ▸ hvalue⟩
  exact (Eval.bind_of_done (Target.content_var hname hv)).trans hassign

end Loop

/-! ## Passes -/

namespace Machine

variable {σ : Type}

/-- The machine gets to the address `y` and still runs. There the variable has the value that it has
now. -/
def Finishes (d : Device σ) (y : Nat) (name : Char) (m : Machine) (s : σ) : Prop :=
  ∃ n, (∀ k < n, (m.after d k s).1.pc ≠ y) ∧ (m.after d n s).1.pc = y ∧
    (m.after d n s).1.status = .running ∧ (m.after d n s).1.valueOf? name = m.valueOf? name

/-- Every pass that begins before the loop is left gets to the end of the body, where the variable
has the value that it had at the beginning of the pass. -/
def PassesFinish (d : Device σ) (gate ending exit : Nat) (name : Char) (m : Machine) (s : σ) :
    Prop :=
  ∀ n, (∀ k < n, (m.after d k s).1.pc ≠ exit) →
    ∀ q ∈ m.passes d gate n s, q.1.Finishes d ending name q.2

variable {d : Device σ} {here gate exit : Nat} {m : Machine} {s : σ} {n : Nat}

theorem PassesFinish.after {ending : Nat} {name : Char} {qs : List (Machine × σ)}
    (h : m.PassesFinish d gate ending exit name s) (hround : m.Rounds d here gate exit s n qs) :
    (m.after d n s).1.PassesFinish d gate ending exit name (m.after d n s).2 := by
  intro k hbefore q hq
  have hwithin : ∀ l < n, (m.after d l s).1.pc ≠ exit :=
    fun l hl => Nat.ne_of_lt (hround.within l hl).2
  refine h (n + k) (forall_after_add (·.pc ≠ exit) hwithin hbefore) q ?_
  rw [passes_add]
  exact List.mem_append_right _ hq

/-- The machine runs the program at the address `x` with an empty stack, and `v` is the value of the
variable. -/
abbrev Counts (p : Program) (name : Char) (x : Nat) (v : UInt16) (m : Machine) : Prop :=
  m.Rests p x (·.valueOf? name = some v)

end Machine

/-! ## Pass after pass -/

section

variable {p : Program} (hp : p.Calm) {depth here : Nat} {name : Char} {a b : Nat} {kind : Loop}
  (hkind : kind = .counting name a b) {body : List Stmt} (hloop : p.LoopAt depth here kind body)
  {σ : Type} {d : Device σ} {m : Machine} {s : σ} {v : UInt16}
include hp hkind hloop

theorem count_tested (hb : b ≤ 65535) (hm : m.Counts p name (kind.top depth here) v) :
    ∃ n, (m.after d (n + 1) s).1.Counts p name (if v.toNat ≤ b then kind.inside depth here else
        kind.exit depth here (blockSize body)) v ∧
      m.Rounds d here (kind.gate depth here) (kind.exit depth here (blockSize body)) s (n + 1)
        (if v.toNat ≤ b then [m.after d (n + 1) s] else []) := by
  have hname : name.isUpper := (hkind ▸ hloop.proper).1
  obtain ⟨htest, -⟩ := Program.HasCode.append.1 hloop.test
  have hvalue : kind.test depth m.store = .done (.ok (truth (v.toNat ≤ b)), m.store) :=
    hkind ▸ Loop.test_counting hname a b depth m.store hb hm.value
  have hsteady := hm.steady (hloop.still_top hp)
  have hgate := hsteady.after_computes (d := d) (s := s) hp hm.status
    (kind.computes_test hloop.proper depth) (hm.pc.symm ▸ htest) hm.stack hvalue
  rw [hm.pc] at hgate
  have hgoes : kind.goesOn (truth (v.toNat ≤ b)) = decide (v.toNat ≤ b) := by
    rw [hkind]
    cases decide (v.toNat ≤ b) <;> rfl
  simpa only [hgoes, decide_eq_true_eq] using loop_tested hp hloop hm hgate

variable (hb : b ≤ 65535) (hgoto : ∀ span name, .goto span name ∉ flatBlock body)
include hb hgoto

theorem count_pass (hm : m.Counts p name (kind.top depth here) v) (hle : v.toNat ≤ b)
    (hfinish : m.PassesFinish d (kind.gate depth here) (kind.inside depth here + blockSize body)
      (kind.exit depth here (blockSize body)) name s) :
    ∃ n q, 0 < n ∧ q.1.valueOf? name = some v ∧
      (m.after d n s).1.Counts p name (kind.top depth here) (v + 1) ∧
      m.Rounds d here (kind.gate depth here) (kind.exit depth here (blockSize body)) s n [q] := by
  have hname : name.isUpper := (hkind ▸ hloop.proper).1
  obtain ⟨n, hinside, hround⟩ := count_tested hp hkind hloop (d := d) (s := s) hb hm
  rw [if_pos hle] at hinside hround
  obtain ⟨i, hfirst, hpc, hrun, hvalue⟩ := hfinish (n + 1)
    (fun k hk => Nat.ne_of_lt (hround.within k hk).2) _ (hround.begun ▸ List.mem_singleton_self _)
  obtain ⟨k, hending, hround'⟩ :=
    loop_passed hp hloop (Q := (·.valueOf? name = some v)) hgoto hinside
      ⟨i, hfirst, hpc, hrun, hvalue.trans hinside.value⟩
  rw [← Machine.after_add] at hending
  obtain ⟨l, htop, hround''⟩ := loop_returns hp hloop (d := d) (Q := (·.valueOf? name = some (v + 1)))
    (s := (m.after d (n + 1 + k) s).2) hending
    (hkind ▸ Loop.next_counting hname a b depth _ hending.value)
  rw [← Machine.after_add] at htop
  exact ⟨n + 1 + k + l, _, by omega, hinside.value, htop, (hround.trans hround').trans hround''⟩

variable (hstart : p.HasCode here (kind.startCode depth)) (hm : m.Counts p name here v)
  (hfinish : m.PassesFinish d (kind.gate depth here) (kind.inside depth here + blockSize body)
    (kind.exit depth here (blockSize body)) name s)
include hstart hm hfinish

theorem count_runs (i : Nat) (hle : ∀ j < i, (UInt16.ofNat (a + j)).toNat ≤ b) :
    ∃ n qs, i ≤ n ∧
      qs.map (·.1.valueOf? name) = (List.range i).map (fun j => some (UInt16.ofNat (a + j))) ∧
      (m.after d n s).1.Counts p name (kind.top depth here) (UInt16.ofNat (a + i)) ∧
      m.Rounds d here (kind.gate depth here) (kind.exit depth here (blockSize body)) s n qs := by
  have hname : name.isUpper := (hkind ▸ hloop.proper).1
  obtain ⟨n, htop, hround⟩ := loop_starts hp hloop (d := d) (s := s)
    (Q := (·.valueOf? name = some (.ofNat a))) hstart hm
    (hkind ▸ Loop.start_counting hname a b depth m.store)
  obtain ⟨k, qs, hk, hvalues, htop', hround'⟩ := rounds_of_round
    (P := fun v m => m.valueOf? name = some v) (G := (·.toNat ≤ b))
    (fun hfinish hround => Machine.PassesFinish.after hfinish hround)
    (fun hfinish hm hle => count_pass hp hkind hloop hb hgoto hm hle hfinish)
    (hfinish.after hround) htop i hle
  rw [← Machine.after_add] at htop'
  have hmaps : List.Forall₂ (· = ·) (qs.map (·.1.valueOf? name))
      ((List.range i).map fun j => some (UInt16.ofNat (a + j))) := by
    rw [List.forall₂_map_left_iff, List.forall₂_map_right_iff]
    exact hvalues.flip
  rw [List.forall₂_eq_eq_eq] at hmaps
  exact ⟨n + k, qs, by omega, hmaps, htop', hround.trans hround'⟩

theorem count_leaves (hab : a ≤ b) (hlt : b < 65535) :
    ∃ n qs, qs.map (·.1.valueOf? name) =
        (List.range' a (b - a + 1)).map (fun i => some (UInt16.ofNat i)) ∧
      (m.after d n s).1.Counts p name (kind.exit depth here (blockSize body))
        (UInt16.ofNat (b + 1)) ∧
      m.Rounds d here (kind.gate depth here) (kind.exit depth here (blockSize body)) s n qs := by
  have hnat {i : Nat} (hi : i ≤ b + 1) : (UInt16.ofNat i).toNat = i := by
    refine UInt16.toNat_ofNat_of_lt' ?_
    change i < 65536
    omega
  obtain ⟨n, qs, -, hvalues, htop, hround⟩ := count_runs hp hkind hloop hb hgoto hstart hm hfinish
    (b - a + 1) fun j hj => by
      rw [hnat (by omega)]
      omega
  have hsum : a + (b - a + 1) = b + 1 := by omega
  rw [hsum] at htop
  -- the test that is made behind the last pass
  obtain ⟨k, hexit, hround'⟩ :=
    count_tested hp hkind hloop (s := (m.after d n s).2) hb htop
  have hover : ¬ (UInt16.ofNat (b + 1)).toNat ≤ b := by
    rw [hnat (Nat.le_refl _)]
    omega
  rw [if_neg hover, ← Machine.after_add] at hexit
  rw [if_neg hover] at hround'
  refine ⟨n + (k + 1), qs, ?_, hexit, List.append_nil qs ▸ hround.trans hround'⟩
  rw [hvalues, List.range'_eq_map_range, List.map_map]
  rfl

theorem count_stays (hlast : b = 65535) (i : Nat) :
    ∃ n qs, i ≤ n ∧ (m.after d n s).1.status = .running ∧
      qs.map (·.1.valueOf? name) = (List.range i).map (fun j => some (UInt16.ofNat (a + j))) ∧
      m.Rounds d here (kind.gate depth here) (kind.exit depth here (blockSize body)) s n qs := by
  obtain ⟨n, qs, hn, hvalues, htop, hround⟩ :=
    count_runs hp hkind hloop hb hgoto hstart hm hfinish i fun j _ => by
      have hlt := (UInt16.ofNat (a + j)).toNat_lt
      omega
  exact ⟨n, qs, hn, htop.status, hvalues, hround⟩

end

/-! ## Loops that show their count -/

theorem act_disp {name : Char} (hname : name.isUpper) (span : Span) (store : Store) :
    ∃ text, (Stmt.disp span [.var name]).act store =
      .call (.display text) fun _ => .done (.ok (), store) := by
  obtain ⟨x, hx⟩ := variableAddress?_isSome hname
  have hread : (Expr.var name).value store = _ :=
    Target.content_var hname (store.memory.valueOf?_of_address hx)
  exact ⟨_, Eval.bind_of_done hread⟩

theorem finishes_disp {p : Program} (hp : p.Calm) {depth x : Nat} {span : Span} {name : Char}
    (h : p.BlockAt depth x [.disp span [.var name]]) {σ : Type} {d : Device σ} {m : Machine} {s : σ}
    (hprogram : m.program = p) (hrun : m.status = .running) (hpc : m.pc = x)
    (hstack : m.stack = .ofList []) :
    m.Finishes d (x + blockSize [.disp span [.var name]]) name s := by
  have hdisp := h.cons.1
  have hproper := (hdisp.fits _ (Stmt.mem_flat _)).proper
  have hname : name.isUpper := hproper (.var name) List.mem_cons_self
  obtain ⟨text, hact⟩ := act_disp hname span m.store
  have hcode : p.HasCode x [.push name, .disp] := hdisp.straight rfl
  have hmirrors := (Stmt.computes_straight rfl hproper).runs hp hcode m m.store hprogram hrun
  rw [← hpc, Machine.moved_eq hstack, hact] at hmirrors
  obtain ⟨r, hshows, harrives⟩ := hmirrors.shows (m.turns_shows d 2 s)
  generalize (m.transcript d 2 s).map _ = os at hshows
  have hr : r = (.ok (), m.store) := by
    cases hshows with
    | call hdone =>
      cases hdone
      rfl
  subst hr
  have hafter : (m.after d 2 s).1 = m.moved m.store [] (x + 2) := by
    generalize (m.after d 2 s).1 = m' at harrives
    cases harrives
    rw [hpc]
    rfl
  have hstatus : (m.after d 2 s).1.status = .running := by
    rw [hafter]
    exact hrun
  refine ⟨2, fun k hk => ?_, ?_, hstatus, ?_⟩
  · rw [Machine.pc_onward hprogram hcode (by simp [hname]) hpc (Nat.le_of_lt hk)
      (Machine.running_of_le (Nat.le_of_lt hk) hstatus)]
    change x + k ≠ x + 2
    omega
  · rw [hafter]
    rfl
  · rw [hafter]
    rfl

theorem passesFinish_disp {p : Program} (hp : p.Calm) {depth here : Nat} {kind : Loop} {span : Span}
    {name : Char} (hloop : p.LoopAt depth here kind [.disp span [.var name]]) {σ : Type}
    {d : Device σ} {m : Machine} {s : σ} (hm : m.Steady p) (exit : Nat) :
    m.PassesFinish d (kind.gate depth here)
      (kind.inside depth here + blockSize [.disp span [.var name]]) exit name s := by
  intro n _ q hq
  obtain ⟨⟨k, rfl⟩, hpc, hrun⟩ := Machine.mem_passes hq
  have hsteady := hm.after hp d k (s := s)
  exact finishes_disp hp hloop.inner hsteady.program hrun hpc
    (hsteady.stack_eq hrun (hpc.symm ▸ hloop.still_inside hp))

/-! ## Compiled programs -/

/-- A loop `For(V,a,b)` of a compiled program, without `Goto` in its body, whose passes all get to
the end of the body and leave `V` there as it was. If `b` is less than 65535, there is one pass for
each number from `a` to `b`, in this order, and then the loop is left at its end. If `b` is 65535,
the loop is never left: behind 65535 the count goes on at 0, and no word is above `b`. -/
theorem counts_to_end {source : String} {ts : List Lexeme} {ss : List Stmt} {p : Program}
    (hlex : lexemes source = .ok ts) (hparse : parse ts = .ok ss)
    (htree : Program.ofTree ss = .ok p) {span : Span} {name : Char} {a b : Nat} {body : List Stmt}
    (hmem : .loop span (.counting name a b) body ∈ flatBlock ss)
    (hgoto : ∀ span name, .goto span name ∉ flatBlock body) (hab : a ≤ b) (hb : b ≤ 65535) :
    let kind := Loop.counting name a b
    (∃ depth here, p.StmtAt depth here (.loop span kind body)) ∧
    ∀ depth here, p.StmtAt depth here (.loop span kind body) →
      let gate := kind.gate depth here
      let ending := kind.inside depth here + blockSize body
      let exit := kind.exit depth here (blockSize body)
      ∀ {σ : Type} (d : Device σ) (m₀ : Machine) (s₀ : σ) (n₀ : Nat),
        let (m, s) := (m₀.load p).after d n₀ s₀
        m.status = .running → m.pc = here → m.PassesFinish d gate ending exit name s →
        (b < 65535 → ∃ n, (m.passes d gate n s).map (·.1.valueOf? name) =
            (List.range' a (b - a + 1)).map (fun i => some (UInt16.ofNat i)) ∧
          (∀ k < n, here ≤ (m.after d k s).1.pc ∧ (m.after d k s).1.pc < exit) ∧
          (m.after d n s).1.pc = exit ∧ (m.after d n s).1.status = .running ∧
          (m.after d n s).1.stack.isEmpty) ∧
        (b = 65535 →
          (∀ i, ∃ n, (m.passes d gate n s).map (·.1.valueOf? name) =
            (List.range i).map (fun j => some (UInt16.ofNat (a + j)))) ∧
          ∀ n, here ≤ (m.after d n s).1.pc ∧ (m.after d n s).1.pc < exit ∧
            (m.after d n s).1.status = .running) := by
  intro kind
  have hs := (written_of_parse hlex hparse).proper
  have hp := Program.calm_of_tree hs htree
  refine ⟨(Program.resumes_start hs htree).block.exists_place hmem, ?_⟩
  intro depth here hat gate ending exit σ d m₀ s₀ n₀
  have hsteady := Machine.Steady.after hp d n₀ (s := s₀) (Machine.steady_load p m₀)
  generalize (m₀.load p).after d n₀ s₀ = q at hsteady ⊢
  obtain ⟨m, s⟩ := q
  intro hrun hpc hfinish
  obtain ⟨hstart, hloop⟩ := hat.loop
  obtain ⟨x, hx⟩ := variableAddress?_isSome hloop.proper.1
  have hm : m.Counts p name here _ := {
    program := hsteady.program
    status := hrun
    pc := hpc
    stack := hsteady.stack_eq hrun (hpc.symm ▸ hat.still_loop hp)
    value := m.memory.valueOf?_of_address hx }
  refine ⟨fun hlt => ?_, fun hlast => ⟨fun i => ?_, fun n => ?_⟩⟩
  · obtain ⟨n, qs, hvalues, hexit, hround⟩ :=
      count_leaves hp rfl hloop hb hgoto hstart hm hfinish hab hlt
    exact ⟨n, hround.begun ▸ hvalues, hround.within, hexit.pc, hexit.status, hexit.stack ▸ rfl⟩
  · obtain ⟨n, qs, -, -, hvalues, hround⟩ :=
      count_stays hp rfl hloop hb hgoto hstart hm hfinish hlast i
    exact ⟨n, hround.begun ▸ hvalues⟩
  · obtain ⟨k, qs, hk, hstatus, -, hround⟩ :=
      count_stays hp rfl hloop hb hgoto hstart hm hfinish hlast (n + 1)
    obtain ⟨hle, hlt⟩ := hround.within n hk
    exact ⟨hle, hlt, Machine.running_of_le (Nat.le_of_succ_le hk) hstatus⟩

theorem counts_to_end_bytes :
    ∃ p, compile "For(A,254,256)\nDisp A\nEnd" = .ok p ∧
      ∀ {σ : Type} (d : Device σ) (s : σ), ∃ n,
        ((Machine.fresh.load p).passes d 5 n s).map (·.1.valueOf? 'A') =
          [some 254, some 255, some 256] ∧
        ((Machine.fresh.load p).after d n s).1.pc = 13 := by
  have hread : (lexemes "For(A,254,256)\nDisp A\nEnd" >>= parse) =
      .ok [.loop ⟨1, 0, 3⟩ (.counting 'A' 254 256) [.disp ⟨2, 0, 4⟩ [.var 'A']]] := by cbv
  obtain ⟨ts, hlex, hparse⟩ := bind_eq_ok.1 hread
  obtain ⟨p, htree⟩ := exists_of_isOk (x := Program.ofTree
    [.loop ⟨1, 0, 3⟩ (.counting 'A' 254 256) [.disp ⟨2, 0, 4⟩ [.var 'A']]]) (by cbv)
  have hs := (written_of_parse hlex hparse).proper
  have hp := Program.calm_of_tree hs htree
  have hat := (Program.resumes_start hs htree).cons.1
  refine ⟨p, bind_eq_ok.2 ⟨ts, hlex, bind_eq_ok.2 ⟨_, hparse, htree⟩⟩, fun d s => ?_⟩
  obtain ⟨n, hvalues, -, hpc, -⟩ := ((counts_to_end hlex hparse htree List.mem_cons_self
    (by simp [flatBlock, Stmt.flat]) (by decide) (by decide)).2 0 0 hat d Machine.fresh s 0 rfl rfl
      (passesFinish_disp hp hat.loop.2 (Machine.steady_load p _) _)).1 (by decide)
  exact ⟨n, hvalues, hpc⟩

/-- The last number is shown, and then all the others, without end. -/
theorem counts_without_end :
    ∃ p, compile "For(A,65535,65535)\nDisp A\nEnd\n0->A" = .ok p ∧
      ∀ {σ : Type} (d : Device σ) (s : σ),
        (∀ n, ((Machine.fresh.load p).after d n s).1.status = .running ∧
          ((Machine.fresh.load p).after d n s).1.pc < 13) ∧
        ∀ i, ∃ n, ((Machine.fresh.load p).passes d 5 n s).length = i := by
  have hread : (lexemes "For(A,65535,65535)\nDisp A\nEnd\n0->A" >>= parse) =
      .ok [.loop ⟨1, 0, 3⟩ (.counting 'A' 65535 65535) [.disp ⟨2, 0, 4⟩ [.var 'A']],
        .effect ⟨4, 0, 1⟩ (.assign (.number 0) (.var 'A'))] := by cbv
  obtain ⟨ts, hlex, hparse⟩ := bind_eq_ok.1 hread
  obtain ⟨p, htree⟩ := exists_of_isOk (x := Program.ofTree
    [.loop ⟨1, 0, 3⟩ (.counting 'A' 65535 65535) [.disp ⟨2, 0, 4⟩ [.var 'A']],
      .effect ⟨4, 0, 1⟩ (.assign (.number 0) (.var 'A'))]) (by cbv)
  have hs := (written_of_parse hlex hparse).proper
  have hp := Program.calm_of_tree hs htree
  obtain ⟨hstart, hloop⟩ := (Program.resumes_start hs htree).cons.1.loop
  refine ⟨p, bind_eq_ok.2 ⟨ts, hlex, bind_eq_ok.2 ⟨_, hparse, htree⟩⟩, fun d s => ?_⟩
  obtain ⟨x, hx⟩ := variableAddress?_isSome hloop.proper.1
  have hm : (Machine.fresh.load p).Counts p 'A' 0 _ :=
    ⟨rfl, rfl, rfl, rfl, Memory.valueOf?_of_address _ hx⟩
  have hstays := count_stays hp rfl hloop (Nat.le_refl _) (by simp [flatBlock, Stmt.flat]) hstart hm
    (passesFinish_disp hp hloop (Machine.steady_load p _) _) (d := d) (s := s) rfl
  refine ⟨fun n => ?_, fun i => ?_⟩
  · obtain ⟨k, qs, hk, hstatus, -, hround⟩ := hstays (n + 1)
    exact ⟨Machine.running_of_le (Nat.le_of_succ_le hk) hstatus, (hround.within n hk).2⟩
  · obtain ⟨n, qs, -, -, hvalues, hround⟩ := hstays i
    refine ⟨n, ?_⟩
    have hlength := congrArg List.length hvalues
    rwa [List.length_map, List.length_map, List.length_range, ← hround.begun] at hlength

end Handheld
