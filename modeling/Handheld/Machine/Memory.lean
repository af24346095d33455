import Handheld.Code.Layout
import Handheld.Tree.Basic

/-!
# Memory

65535 bytes. Reading and writing ask for a proof that the bytes are there, so
whoever has an address checks it first.
-/

namespace Handheld

structure Memory where
  bytes : Vector UInt8 memorySize

namespace Memory

def blank : Memory := ⟨Vector.replicate memorySize 0⟩

instance : Inhabited Memory := ⟨blank⟩

def peek (m : Memory) (a : Nat) (h : a < memorySize) : UInt8 :=
  m.bytes[a]

def poke (m : Memory) (a : Nat) (v : UInt8) (h : a < memorySize) : Memory :=
  ⟨m.bytes.set a v h⟩

/-- Two bytes, the low one first. -/
def peekWord (m : Memory) (a : Nat) (h : a + 2 ≤ memorySize) : UInt16 :=
  UInt16.ofNat ((m.peek a (by omega)).toNat + 256 * (m.peek (a + 1) (by omega)).toNat)

def pokeWord (m : Memory) (a : Nat) (v : UInt16) (h : a + 2 ≤ memorySize) : Memory :=
  (m.poke a (UInt8.ofNat v.toNat) (by omega)).poke (a + 1) (UInt8.ofNat (v.toNat / 256)) (by omega)

theorem peek_poke (m : Memory) (a b : Nat) (v : UInt8) (ha : a < memorySize)
    (hb : b < memorySize) :
    (m.poke a v ha).peek b hb = if a = b then v else m.peek b hb := by
  simp [peek, poke, Vector.getElem_set]

/-- What the stack gets from an address. -/
def read (m : Memory) (width : Width) (a : Nat) (h : a + width.bytes ≤ memorySize) : Int64 :=
  match width, h with
  | .byte, h => Int64.ofNat (m.peek a h).toNat
  | .word, h => Int64.ofNat (m.peekWord a h).toNat

/-- Stores the low bits of a value. -/
def write (m : Memory) (width : Width) (a : Nat) (v : Int64) (h : a + width.bytes ≤ memorySize) :
    Memory :=
  match width, h with
  | .byte, h => m.poke a v.toUInt64.toUInt8 h
  | .word, h => m.pokeWord a v.toUInt64.toUInt16 h

/-- The value of a variable. -/
def valueOf? (m : Memory) (name : Char) : Option UInt16 :=
  match h : variableAddress? name with
  | some a => some (m.peekWord a (variableAddress?_le h))
  | none => none

/-- The longest runs of bytes that are not zero, each with its first address. -/
def runs (m : Memory) : List (Nat × List UInt8) :=
  m.bytes.toList.zipIdx.foldr (fun (v, a) runs =>
    if v = 0 then runs
    else
      match runs with
      | (start, vs) :: rest => if start = a + 1 then (a, v :: vs) :: rest else (a, [v]) :: runs
      | [] => [(a, [v])]) []

def outline : String :=
  s!"Memory \x7b {memorySize} bytes \x7d"

end Memory

end Handheld
