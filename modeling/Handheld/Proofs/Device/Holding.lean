import Handheld.Device.Keys
import Mathlib.Data.List.Induction

/-!
# Keys that are held

A keypad is told of keys that are pressed and released. A key is held if its last
press is behind its last release, and behind the last time that all keys were
released. All else that can be said of a keypad follows from that.
-/

namespace Handheld

/-! ## What happens to keys -/

inductive KeyEvent
  | press (name : String)
  | release (name : String)
  | releaseAll
deriving DecidableEq

namespace KeyEvent

/-- The most recent of these events is the one at place `i`. -/
def Latest (e : KeyEvent) (es : List KeyEvent) (i : Nat) : Prop :=
  es[i]? = some e ∧ ∀ j, i < j → es[j]? ≠ some e

/-- The last press of the key is behind its last release and behind the last release of all. -/
def Held (name : String) (es : List KeyEvent) : Prop :=
  ∃ i, (press name).Latest es i ∧ (∀ j, (release name).Latest es j → j < i) ∧
    ∀ j, releaseAll.Latest es j → j < i

/-- Does the event concern this key? -/
def Concerns (name : String) (e : KeyEvent) : Prop :=
  e = press name ∨ e = release name ∨ e = releaseAll

instance (name : String) : DecidablePred (Concerns name) := by
  unfold Concerns
  infer_instance

/-- The event is about a key without a code. -/
def Idle (keys : KeyMap) (e : KeyEvent) : Prop :=
  match e with
  | press name | release name => keys.code? name = none ∨ keys.code? name = some 0
  | releaseAll => False

instance (keys : KeyMap) : DecidablePred (Idle keys) := by
  intro e
  unfold Idle
  cases e <;> infer_instance

variable {name : String} {es : List KeyEvent} {e e' : KeyEvent}

theorem Latest.lt_length {i : Nat} (h : e.Latest es i) : i < es.length :=
  (List.getElem?_eq_some_iff.1 h.1).1

theorem not_latest_nil (i : Nat) : ¬ e.Latest [] i :=
  fun h => Nat.not_lt_zero _ h.lt_length

theorem latest_concat_self {i : Nat} : e.Latest (es ++ [e]) i ↔ i = es.length := by
  constructor
  · intro h
    have hlt := h.lt_length
    rw [List.length_append, List.length_singleton] at hlt
    by_contra hne
    exact h.2 es.length (by omega) List.getElem?_concat_length
  · rintro rfl
    refine ⟨List.getElem?_concat_length, fun j hj => ?_⟩
    rw [List.getElem?_eq_none (by rw [List.length_append, List.length_singleton]; omega)]
    exact nofun

theorem latest_concat_of_ne (h : e' ≠ e) {i : Nat} : e.Latest (es ++ [e']) i ↔ e.Latest es i := by
  have hsame (j : Nat) : (es ++ [e'])[j]? = some e ↔ es[j]? = some e := by
    rw [List.getElem?_append]
    split
    · rfl
    · rename_i hj
      rw [List.getElem?_eq_none (by omega : es.length ≤ j), List.getElem?_singleton]
      split <;> simp [h]
  unfold Latest
  simp only [ne_eq, hsame]

/-! ## One more event -/

theorem not_held_nil : ¬ Held name [] :=
  fun ⟨i, hpress, _⟩ => not_latest_nil i hpress

theorem held_press : Held name (es ++ [press name]) := by
  refine ⟨es.length, latest_concat_self.2 rfl, fun j hj => ?_, fun j hj => ?_⟩
  · exact ((latest_concat_of_ne (by simp)).1 hj).lt_length
  · exact ((latest_concat_of_ne (by simp)).1 hj).lt_length

theorem not_held_release : ¬ Held name (es ++ [release name]) := by
  rintro ⟨i, hpress, hrelease, -⟩
  have hi := ((latest_concat_of_ne (by simp)).1 hpress).lt_length
  have hlast := hrelease es.length (latest_concat_self.2 rfl)
  omega

theorem not_held_releaseAll : ¬ Held name (es ++ [releaseAll]) := by
  rintro ⟨i, hpress, -, hall⟩
  have hi := ((latest_concat_of_ne (by simp)).1 hpress).lt_length
  have hlast := hall es.length (latest_concat_self.2 rfl)
  omega

theorem held_concat_of_not_concerns (h : ¬ e.Concerns name) :
    Held name (es ++ [e]) ↔ Held name es := by
  obtain ⟨hpress, hrelease, hall⟩ : e ≠ press name ∧ e ≠ release name ∧ e ≠ releaseAll := by
    simpa [Concerns] using h
  unfold Held
  simp only [latest_concat_of_ne hpress, latest_concat_of_ne hrelease, latest_concat_of_ne hall]

theorem held_concat :
    Held name (es ++ [e]) ↔ e = press name ∨ Held name es ∧ ¬ e.Concerns name := by
  by_cases hconcerns : e.Concerns name
  · obtain rfl | rfl | rfl := hconcerns
    · simp [held_press]
    · simp [not_held_release, Concerns]
    · simp [not_held_releaseAll, Concerns]
  · have hother : e ≠ press name := fun h => hconcerns (.inl h)
    rw [held_concat_of_not_concerns hconcerns]
    simp [hother, hconcerns]

theorem held_filter {p : KeyEvent → Bool} (h : ∀ e, e.Concerns name → p e) :
    Held name (es.filter p) ↔ Held name es := by
  induction es using List.reverseRecOn with
  | nil => rfl
  | append_singleton es e ih =>
    rw [List.filter_append, held_concat]
    by_cases he : p e
    · rw [List.filter_cons_of_pos he, List.filter_nil, held_concat, ih]
    · have hnot : ¬ e.Concerns name := fun hconcerns => he (h e hconcerns)
      have hother : e ≠ press name := fun heq => hnot (.inl heq)
      rw [List.filter_cons_of_neg he, List.filter_nil, List.append_nil, ih]
      simp [hnot, hother]

theorem held_append {fs : List KeyEvent} (h : ∀ e ∈ fs, ¬ e.Concerns name) :
    Held name (es ++ fs) ↔ Held name es := by
  induction fs using List.reverseRecOn with
  | nil => rw [List.append_nil]
  | append_singleton fs e ih =>
    obtain ⟨hfs, he⟩ := List.forall_mem_append.1 h
    rw [← List.append_assoc, held_concat_of_not_concerns (he e (List.mem_singleton_self e)), ih hfs]

end KeyEvent

/-! ## Keypads -/

namespace Keypad

open KeyEvent

def handle (k : Keypad) : KeyEvent → Keypad
  | .press name => k.press name
  | .release name => k.release name
  | .releaseAll => k.releaseAll

/-- A new keypad after these events. -/
def after (keys : KeyMap) (es : List KeyEvent) : Keypad :=
  es.foldl handle { keys }

variable {keys : KeyMap} {es : List KeyEvent} {name : String}

theorem after_concat (keys : KeyMap) (es : List KeyEvent) (e : KeyEvent) :
    after keys (es ++ [e]) = (after keys es).handle e :=
  List.foldl_append

@[simp] theorem keys_handle (k : Keypad) (e : KeyEvent) : (k.handle e).keys = k.keys := by
  cases e <;> rfl

@[simp] theorem keys_after : (after keys es).keys = keys := by
  induction es using List.reverseRecOn with
  | nil => rfl
  | append_singleton es e ih => rw [after_concat, keys_handle, ih]

theorem mem_held_handle (k : Keypad) (e : KeyEvent) :
    name ∈ (k.handle e).held ↔ e = .press name ∨ name ∈ k.held ∧ ¬ e.Concerns name := by
  cases e with
  | press other =>
    have hinsert : name ∈ (k.handle (.press other)).held ↔ name = other ∨ name ∈ k.held :=
      List.mem_insert_iff
    rw [hinsert]
    grind [Concerns]
  | release other =>
    have hfilter : name ∈ (k.handle (.release other)).held ↔ name ∈ k.held ∧ name ≠ other := by
      simp [handle, release]
    rw [hfilter]
    grind [Concerns]
  | releaseAll => simp [handle, releaseAll, Concerns]

theorem mem_held_after : name ∈ (after keys es).held ↔ Held name es := by
  induction es using List.reverseRecOn with
  | nil => exact iff_of_false List.not_mem_nil not_held_nil
  | append_singleton es e ih =>
    rw [after_concat, mem_held_handle, ih, held_concat]

theorem isPressed_iff {k : Keypad} {code : UInt8} :
    k.isPressed code = true ↔
      ∃ name c, k.keys.code? name = some c ∧ c ≠ 0 ∧ (code = 0 ∨ c = code) ∧ name ∈ k.held := by
  simp only [isPressed, List.any_eq_true, List.mem_filterMap, Bool.and_eq_true, bne_iff_ne,
    Bool.or_eq_true, beq_iff_eq]
  constructor
  · rintro ⟨c, ⟨name, hheld, hcode⟩, hne, hc⟩
    exact ⟨name, c, hcode, hne, hc, hheld⟩
  · rintro ⟨name, c, hcode, hne, hc, hheld⟩
    exact ⟨c, ⟨name, hheld, hcode⟩, hne, hc⟩

theorem isPressed_after {code : UInt8} :
    (after keys es).isPressed code = true ↔
      ∃ name c, keys.code? name = some c ∧ c ≠ 0 ∧ (code = 0 ∨ c = code) ∧ Held name es := by
  simp only [isPressed_iff, keys_after, mem_held_after]

theorem isPressed_zero (k : Keypad) :
    k.isPressed 0 = true ↔ ∃ code : UInt8, code ≠ 0 ∧ k.isPressed code = true := by
  simp only [isPressed_iff, true_or, true_and]
  constructor
  · rintro ⟨name, c, hcode, hne, hheld⟩
    exact ⟨c, hne, name, c, hcode, hne, .inr rfl, hheld⟩
  · rintro ⟨code, -, name, c, hcode, hne, -, hheld⟩
    exact ⟨name, c, hcode, hne, hheld⟩

theorem release_press (k : Keypad) (name : String) :
    (k.press name).release name = k.release name := by
  have hheld : (k.held.insert name).filter (· ≠ name) = k.held.filter (· ≠ name) := by
    by_cases hmem : name ∈ k.held
    · rw [List.insert_of_mem hmem]
    · rw [List.insert_of_not_mem hmem, List.filter_cons_of_neg (by simp)]
  exact congrArg (Keypad.mk k.keys) hheld

theorem release_presses (keys : KeyMap) (es : List KeyEvent) (name : String) (n : Nat) :
    after keys (es ++ List.replicate n (.press name) ++ [.release name]) =
      after keys (es ++ [.release name]) := by
  induction n with
  | zero => rw [List.replicate_zero, List.append_nil]
  | succ n ih =>
    rw [← ih, List.replicate_succ', ← List.append_assoc]
    simp only [after_concat]
    exact release_press _ name

theorem isPressed_without_idle (keys : KeyMap) (es : List KeyEvent) (code : UInt8) :
    (after keys (es.filter (¬ ·.Idle keys))).isPressed code = (after keys es).isPressed code := by
  rw [Bool.eq_iff_iff, isPressed_after, isPressed_after]
  refine exists_congr fun name => exists_congr fun c => and_congr_right fun hcode =>
    and_congr_right fun hne => and_congr_right fun _ => held_filter fun e he => ?_
  obtain rfl | rfl | rfl := he <;> simp [Idle, hcode, hne]

/-! ## The whole -/

/-- A new keypad after any events. A code is pressed if a key with it is held, and code 0 if any key
with a code is. One release is enough after many presses. What happens to a key does not matter to
another one, be it one with the same code. Keys without a code might as well not be touched. -/
theorem keypad_follows_events (keys : KeyMap) (es : List KeyEvent) :
    (∀ code, (after keys es).isPressed code = true ↔
      ∃ name c, keys.code? name = some c ∧ c ≠ 0 ∧ (code = 0 ∨ c = code) ∧ Held name es) ∧
    (∀ name n, after keys (es ++ List.replicate n (.press name) ++ [.release name]) =
      after keys (es ++ [.release name]) ∧ ¬ Held name (es ++ [.release name])) ∧
    (∀ name other code fs, name ≠ other → keys.code? name = some code →
      (∀ e ∈ fs, e = .press other ∨ e = .release other) →
        (Held name (es ++ fs) ↔ Held name es) ∧
        (code ≠ 0 → Held name es → (after keys (es ++ fs)).isPressed code = true)) ∧
    (∀ code, (after keys (es.filter (¬ ·.Idle keys))).isPressed code =
      (after keys es).isPressed code) ∧
    ((after keys es).isPressed 0 = true ↔
      ∃ code : UInt8, code ≠ 0 ∧ (after keys es).isPressed code = true) := by
  refine ⟨fun code => isPressed_after,
    fun name n => ⟨release_presses keys es name n, not_held_release⟩,
    fun name other code fs hother hcode hfs => ?_, isPressed_without_idle keys es, isPressed_zero _⟩
  have hheld : Held name (es ++ fs) ↔ Held name es := by
    refine held_append fun e he => ?_
    obtain rfl | rfl := hfs e he <;> simp [Concerns, hother.symm]
  exact ⟨hheld, fun hne h => isPressed_after.2 ⟨name, code, hcode, hne, .inr rfl, hheld.2 h⟩⟩

theorem keypad_follows_events_delete :
    let keys : KeyMap := ⟨[("K_BACKSPACE", 15), ("K_CAPSLOCK", 0), ("K_DELETE", 15)]⟩
    let es : List KeyEvent := [.press "K_CAPSLOCK", .press "K_BACKSPACE"]
    let fs : List KeyEvent := [.press "K_DELETE", .press "K_DELETE", .release "K_DELETE"]
    (after keys (es ++ fs)).isPressed 15 = true ∧ (after keys (es ++ fs)).isPressed 9 = false ∧
      (after keys (es ++ fs ++ [.release "K_BACKSPACE"])).isPressed 0 = false := by
  intro keys es fs
  obtain ⟨-, -, hother, -⟩ := keypad_follows_events keys es
  obtain ⟨-, hapart⟩ := hother "K_BACKSPACE" "K_DELETE" 15 fs (by decide) rfl (by simp [fs])
  have hheld : Held "K_BACKSPACE" ([.press "K_CAPSLOCK"] ++ [.press "K_BACKSPACE"]) := held_press
  exact ⟨hapart (by decide) hheld, by decide, by decide⟩

end Keypad

end Handheld
