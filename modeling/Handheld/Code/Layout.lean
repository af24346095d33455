import Handheld.Source.Token

/-!
# What lies where in memory

The places are those of the calculator, so that programs written against its
named buffers behave as they do there. Variables and loop counters are words,
low byte first.
-/

namespace Handheld

/-- The number of bytes. Addresses run from 0 to one less. -/
def memorySize : Nat := 65535

/-- The variables `A` to `Z`, two bytes each. -/
def variableBase : Nat := 35254

def variableAddress? (name : Char) : Option Nat :=
  if name.isUpper then some (variableBase + 2 * (name.toNat - 'A'.toNat)) else none

/-- The hidden counter of a `For(n)` loop inside `depth` others. -/
def counterAddress (depth : Nat) : Nat := 2000 + 2 * depth

namespace Buffer

def base : Buffer → Nat
  | .l1 => 34540
  | .l2 => 35386
  | .l3 => 39026
  | .l4 => 33445
  | .l5 => 34056
  | .l6 => 37696

def size : Buffer → Nat
  | .l1 => 714
  | .l2 => 531
  | .l3 => 768
  | .l4 => 256
  | .l5 => 128
  | .l6 => 768

end Buffer

theorem variableAddress?_bounds {name : Char} {a : Nat} (h : variableAddress? name = some a) :
    variableBase ≤ a ∧ a + 2 ≤ variableBase + 52 := by
  simp only [variableAddress?] at h
  split at h
  · next hc =>
    have hz : name.val.toNat ≤ 90 := UInt32.le_iff_toNat_le.1 (of_decide_eq_true hc).2
    have ha : variableBase + 2 * (name.val.toNat - 65) = a := Option.some.inj h
    omega
  · cases h

theorem variableAddress?_le {name : Char} {a : Nat} (h : variableAddress? name = some a) :
    a + 2 ≤ memorySize :=
  Nat.le_trans (variableAddress?_bounds h).2 (by decide)

/-- The buffers are in memory, and they share no byte with each other or with a variable. -/
theorem Buffer.regions_apart (b : Buffer) :
    b.base + b.size ≤ memorySize ∧
      (∀ c : Buffer, c ≠ b → b.base + b.size ≤ c.base ∨ c.base + c.size ≤ b.base) ∧
      ∀ name a, variableAddress? name = some a → b.base + b.size ≤ a ∨ a + 2 ≤ b.base := by
  have hvariables : b.base + b.size ≤ variableBase ∨ variableBase + 52 ≤ b.base := by
    cases b <;> decide
  refine ⟨by cases b <;> decide, fun c => by cases b <;> cases c <;> decide, fun name a ha => ?_⟩
  obtain ⟨hge, hle⟩ := variableAddress?_bounds ha
  omega

end Handheld
