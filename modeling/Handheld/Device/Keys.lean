import Handheld.Diagnostic
import Handheld.Text.Lines
import Handheld.Text.Space

/-!
# Keys

A key map gives the keys of the host the key codes of the calculator. It is
written as lines of the form `NAME : code`, with comments from `#` on. Code 0
leaves a key unassigned. A keypad is a key map and the keys that are held.
-/

namespace Handheld

/-! ## Key maps -/

structure KeyMap where
  /-- In the order of the names, each name once. -/
  entries : List (String × UInt8) := []
deriving DecidableEq

namespace KeyMap

/-- Puts an entry in its place and drops an older one for the same name. -/
def insertEntry (name : String) (code : UInt8) : List (String × UInt8) → List (String × UInt8)
  | [] => [(name, code)]
  | e :: es =>
    if name < e.1 then (name, code) :: e :: es
    else if name = e.1 then (name, code) :: es
    else e :: insertEntry name code es

def insert (m : KeyMap) (name : String) (code : UInt8) : KeyMap :=
  ⟨insertEntry name code m.entries⟩

def ofList (entries : List (String × UInt8)) : KeyMap :=
  entries.foldl (fun m e => m.insert e.1 e.2) {}

def size (m : KeyMap) : Nat := m.entries.length

def code? (m : KeyMap) (name : String) : Option UInt8 :=
  m.entries.lookup name

theorem lookup_insertEntry (name : String) (code : UInt8) (es : List (String × UInt8))
    (n : String) :
    (insertEntry name code es).lookup n = if n = name then some code else es.lookup n := by
  induction es with
  | nil => grind [insertEntry]
  | cons e es ih => grind [insertEntry]

theorem code?_insert (m : KeyMap) (name : String) (code : UInt8) (n : String) :
    (m.insert name code).code? n = if n = name then some code else m.code? n :=
  lookup_insertEntry name code m.entries n

/-- The keys with a code, in the order of their names. -/
def names (m : KeyMap) (code : UInt8) : List String :=
  (m.entries.filter fun e => e.2 = code).map Prod.fst

/-! ### Reading -/

/-- A decimal number up to 255, which may have a plus sign and zeros in front. -/
def readCode? (cs : List Char) : Option UInt8 :=
  let digits := match cs with
    | '+' :: cs => cs
    | cs => cs
  if digits.isEmpty || !digits.all Char.isDigit then none
  else
    let n := digits.foldl (fun n d => 10 * n + (d.toNat - '0'.toNat)) 0
    if n < 256 then some (UInt8.ofNat n) else none

inductive Row
  | blank
  | entry (name : String) (code : UInt8)
  | malformed

/-- Reads a line. The first colon ends the name. -/
def readRow (line : List Char) : Row :=
  let line := line.takeWhile (· != '#')
  if line.all Text.isSpace then .blank
  else
    let name := Text.trimmed (line.takeWhile (· != ':'))
    match line.dropWhile (· != ':') with
    | [] => .malformed
    | _ :: rest =>
      if name.isEmpty || name.any Text.isSpace then .malformed
      else
        match readCode? (Text.trimmed rest) with
        | some code => .entry (String.ofList name) code
        | none => .malformed

/-- Reads rows from line `n` on and adds them to `m`. -/
def readRows (n : Nat) (m : KeyMap) : List (List Char) → Except Diagnostic KeyMap
  | [] => .ok m
  | line :: lines =>
    match readRow line with
    | .blank => readRows (n + 1) m lines
    | .entry name code => readRows (n + 1) (m.insert name code) lines
    | .malformed => .error (Cause.malformedBinding.inLine n)

/-- A carriage return at the end of a line is left to the trimming. -/
def read (text : String) : Except Diagnostic KeyMap :=
  readRows 1 {} (Text.pieces text)

/-! ### The standard map -/

/-- The arrows, the editing keys, the function keys as the row above the screen, and the digits and
signs. -/
def standard : KeyMap :=
  ofList [
    ("K_DOWN", 1), ("K_LEFT", 2), ("K_RIGHT", 3), ("K_UP", 4),
    ("K_RETURN", 9), ("K_BACKSPACE", 15), ("K_DELETE", 56), ("K_ESCAPE", 55), ("K_SPACE", 54),
    ("K_TAB", 48), ("K_INSERT", 0),
    ("K_F1", 53), ("K_F2", 52), ("K_F3", 51), ("K_F4", 50), ("K_F5", 49),
    ("K_0", 33), ("K_1", 34), ("K_2", 26), ("K_3", 18), ("K_4", 35), ("K_5", 27), ("K_6", 19),
    ("K_7", 36), ("K_8", 28), ("K_9", 20), ("K_PERIOD", 25), ("K_COMMA", 37), ("K_PLUS", 10),
    ("K_MINUS", 11), ("K_ASTERISK", 12), ("K_SLASH", 13), ("K_CARET", 14), ("K_LEFTPAREN", 29),
    ("K_RIGHTPAREN", 21)]

end KeyMap

/-! ## Keypads -/

structure Keypad where
  keys : KeyMap := .standard
  /-- The names of the keys that are held. -/
  held : List String := []

namespace Keypad

def press (k : Keypad) (name : String) : Keypad :=
  { k with held := k.held.insert name }

def release (k : Keypad) (name : String) : Keypad :=
  { k with held := k.held.filter (· ≠ name) }

def releaseAll (k : Keypad) : Keypad :=
  { k with held := [] }

/-- Code 0 asks for any key that has a code. -/
def isPressed (k : Keypad) (code : UInt8) : Bool :=
  (k.held.filterMap k.keys.code?).any fun c => c != 0 && (code == 0 || c == code)

end Keypad

end Handheld
