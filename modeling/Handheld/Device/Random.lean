/-!
# Random numbers from a seed

A source of random words starts from a seed. One is the key stream of ChaCha with
twelve rounds, whose key comes from the seed by a linear congruence with its states
folded to 32 bits.
-/

namespace Handheld

class RandomSource (γ : Type) where
  ofSeed : UInt64 → γ
  /-- The next word. -/
  next : γ → UInt32 × γ

namespace KeyStream

abbrev Block := Vector UInt32 16

def rotateLeft (x : UInt32) (n : UInt32) : UInt32 :=
  (x <<< n) ||| (x >>> (32 - n))

def quarterRound (s : Block) (a b c d : Fin 16) : Block :=
  let s := s.set a (s[a] + s[b])
  let s := s.set d (rotateLeft (s[d] ^^^ s[a]) 16)
  let s := s.set c (s[c] + s[d])
  let s := s.set b (rotateLeft (s[b] ^^^ s[c]) 12)
  let s := s.set a (s[a] + s[b])
  let s := s.set d (rotateLeft (s[d] ^^^ s[a]) 8)
  let s := s.set c (s[c] + s[d])
  s.set b (rotateLeft (s[b] ^^^ s[c]) 7)

/-- Four columns and then four diagonals. -/
def doubleRound (s : Block) : Block :=
  let s := quarterRound s 0 4 8 12
  let s := quarterRound s 1 5 9 13
  let s := quarterRound s 2 6 10 14
  let s := quarterRound s 3 7 11 15
  let s := quarterRound s 0 5 10 15
  let s := quarterRound s 1 6 11 12
  let s := quarterRound s 2 7 8 13
  quarterRound s 3 4 9 14

def doubleRounds : Nat := 6

def constants : Vector UInt32 4 :=
  #v[0x61707865, 0x3320646e, 0x79622d32, 0x6b206574]

/-- A block of the stream: the state after its rounds, added to the state before. -/
def block (key : Vector UInt32 8) (counter : UInt64) : Block :=
  let start : Block :=
    constants ++ key ++ #v[counter.toUInt32, (counter >>> 32).toUInt32, 0, 0]
  let mixed := (List.range doubleRounds).foldl (fun s _ => doubleRound s) start
  Vector.zipWith (· + ·) mixed start

end KeyStream

/-- A key stream and how far it has been used. -/
structure Generator where
  key : Vector UInt32 8
  /-- The number of the next block. -/
  counter : UInt64 := 0
  /-- Words of the block before that are still unused. -/
  unused : List UInt32 := []

namespace Generator

def seedStep (s : UInt64) : UInt64 :=
  s * 6364136223846793005 + 11634580027462260723

/-- 32 bits of a seed state, rotated by its top bits. -/
def fold (s : UInt64) : UInt32 :=
  let x := (((s >>> 18) ^^^ s) >>> 27).toUInt32
  let n := (s >>> 59).toUInt32
  (x >>> n) ||| (x <<< ((32 - n) % 32))

def ofSeed (seed : UInt64) : Generator where
  key := Vector.ofFn fun i => fold (Nat.repeat seedStep (i + 1) seed)

/-- The next word. -/
def next (g : Generator) : UInt32 × Generator :=
  match g.unused with
  | w :: rest => (w, { g with unused := rest })
  | [] =>
    let b := KeyStream.block g.key g.counter
    (b[0], { g with counter := g.counter + 1, unused := b.toList.tail })

end Generator

instance : RandomSource Generator where
  ofSeed := Generator.ofSeed
  next := Generator.next

end Handheld
