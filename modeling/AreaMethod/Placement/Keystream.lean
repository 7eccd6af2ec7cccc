/-
# Seeded random coordinates

A seed of 64 bits is stretched to a key, and the key to an endless stream of
words by the ChaCha block function with eight rounds. Two words make one
coordinate, uniformly drawn from the interval from -10 to 10.

Key definitions: `Keystream.key`, `Keystream.word`, `Keystream.coordinate`.
-/

namespace AreaMethod
namespace Keystream

/-- A block of sixteen words. -/
abbrev Block := Vector UInt32 16

/-- Rotates a word to the left. -/
def rotateLeft (w n : UInt32) : UInt32 := (w <<< n) ||| (w >>> (32 - n))

/-- Mixes four words of a block. -/
def quarterRound (b : Block) (i j k l : Fin 16) : Block :=
  let b := b.set i (b[i] + b[j])
  let b := b.set l (rotateLeft (b[l] ^^^ b[i]) 16)
  let b := b.set k (b[k] + b[l])
  let b := b.set j (rotateLeft (b[j] ^^^ b[k]) 12)
  let b := b.set i (b[i] + b[j])
  let b := b.set l (rotateLeft (b[l] ^^^ b[i]) 8)
  let b := b.set k (b[k] + b[l])
  b.set j (rotateLeft (b[j] ^^^ b[k]) 7)

/-- Mixes all columns, then all diagonals of a block. -/
def doubleRound (b : Block) : Block :=
  let b := quarterRound b 0 4 8 12
  let b := quarterRound b 1 5 9 13
  let b := quarterRound b 2 6 10 14
  let b := quarterRound b 3 7 11 15
  let b := quarterRound b 0 5 10 15
  let b := quarterRound b 1 6 11 12
  let b := quarterRound b 2 7 8 13
  quarterRound b 3 4 9 14

/-- The block of a key before mixing, with the number of the block in it. -/
def initial (key : Vector UInt32 8) (number : UInt64) : Block :=
  #v[0x61707865, 0x3320646e, 0x79622d32, 0x6b206574,
    key[0], key[1], key[2], key[3], key[4], key[5], key[6], key[7],
    number.toUInt32, (number >>> 32).toUInt32, 0, 0]

/-- A block of the stream of a key: four double rounds, added to the block
before mixing. -/
def block (key : Vector UInt32 8) (number : UInt64) : Block :=
  let start := initial key number
  let mixed := doubleRound (doubleRound (doubleRound (doubleRound start)))
  Vector.zipWith (· + ·) start mixed

/-- The next state of the seed. -/
def advance (state : UInt64) : UInt64 := state * 6364136223846793005 + 11634580027462260723

/-- The key word of a state: its upper bits, mixed and rotated. -/
def keyWord (state : UInt64) : UInt32 :=
  let mixed := (((state >>> 18) ^^^ state) >>> 27).toUInt32
  let turn := (state >>> 59).toUInt32
  (mixed >>> turn) ||| (mixed <<< ((32 - turn) % 32))

/-- The state after a number of steps. -/
def stateAfter (seed : UInt64) : Nat → UInt64
  | 0 => seed
  | n + 1 => advance (stateAfter seed n)

/-- The key of a seed. -/
def key (seed : UInt64) : Vector UInt32 8 :=
  Vector.ofFn fun i => keyWord (stateAfter seed (i.val + 1))

/-- A word of the stream of a key. -/
def word (key : Vector UInt32 8) (i : Nat) : UInt32 :=
  (block key (i / 16).toUInt64)[i % 16]

/-- A random number from -10 to 10, made of two words of the stream. -/
def coordinate (key : Vector UInt32 8) (i : Nat) : Float :=
  let bits := (word key (2 * i)).toUInt64 ||| ((word key (2 * i + 1)).toUInt64 <<< 32)
  let unit := Float.ofBits ((bits >>> 12) ||| 0x3ff0000000000000) - 1.0
  unit * Float.ofBits 0x4034000000000001 - 10.0

end Keystream
end AreaMethod
