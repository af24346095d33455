/-!
# The stack

A stack holds at most 65535 values. Pushing one more leaves it there and makes
the stack overflow, which its owner has to report.
-/

namespace Handheld

def stackLimit : Nat := 65535

structure Stack (α : Type) where
  /-- The values, the top one first. -/
  items : List α := []
  size : Nat := 0
  size_eq : size = items.length := by rfl

namespace Stack

variable {α : Type}

def isEmpty (s : Stack α) : Bool := s.size == 0

def overflows (s : Stack α) : Bool := stackLimit < s.size

def push (s : Stack α) (a : α) : Stack α :=
  ⟨a :: s.items, s.size + 1, by simp [s.size_eq]⟩

/-- Takes the top value, if there is one. -/
def pop (s : Stack α) : Option α × Stack α :=
  match s.items, s.size_eq with
  | [], _ => (none, s)
  | a :: rest, h => (some a, ⟨rest, s.size - 1, by simp [h]⟩)

/-- Takes the two top values and gives the lower one first. If there is only one, it is lost. -/
def pop2 (s : Stack α) : Option (α × α) × Stack α :=
  match s.pop with
  | (none, s) => (none, s)
  | (some b, s) =>
    match s.pop with
    | (none, s) => (none, s)
    | (some a, s) => (some (a, b), s)

/-- Takes the `n` top values and gives the lowest first. If there are not as many, none is taken. -/
def popN (s : Stack α) (n : Nat) : Option (List α) × Stack α :=
  if n ≤ s.size then
    (some (s.items.take n).reverse,
      ⟨s.items.drop n, s.size - n, by simp [s.size_eq]⟩)
  else
    (none, s)

/-- The values, the top one last. -/
def toList (s : Stack α) : List α := s.items.reverse

@[ext] theorem ext {s t : Stack α} (h : s.items = t.items) : s = t := by
  cases s; cases t; simp_all

@[simp] theorem items_push (s : Stack α) (a : α) : (s.push a).items = a :: s.items := rfl

@[simp] theorem pop_push (s : Stack α) (a : α) : (s.push a).pop = (some a, s) := by
  simp only [pop, push]
  congr 1

@[simp] theorem pop2_push_push (s : Stack α) (a b : α) :
    ((s.push a).push b).pop2 = (some (a, b), s) := by
  simp [pop2]

end Stack

end Handheld
