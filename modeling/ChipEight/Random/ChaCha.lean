/-!
# ChaCha with twelve rounds

The stream cipher that drives the random source. A block is made from sixteen words: four
constants, eight words of key, a block counter of two words (low word first) and two zero
words. Six double rounds mix them, then the words from before are added.

All arithmetic is modulo 2 ^ 32.
-/

namespace ChipEight.ChaCha

abbrev Key := Vector UInt32 8

abbrev Block := Vector UInt32 16

/-- Rotation to the left by `n` bits, for `n` strictly between 0 and 32. -/
def rotateLeft (w n : UInt32) : UInt32 := w <<< n ||| w >>> (32 - n)

/-- Adds word `b` to word `a`, and with the sum changes and rotates word `d`. -/
def mix (s : Block) (a b d : Fin 16) (n : UInt32) : Block :=
  let sum := s[a] + s[b]
  (s.set a sum).set d (rotateLeft (s[d] ^^^ sum) n)

/-- The quarter round on four words. -/
def quarterRound (s : Block) (a b c d : Fin 16) : Block :=
  mix (mix (mix (mix s a b d 16) c d b 12) a b d 8) c d b 7

/-- A round on the columns and a round on the diagonals of the four by four square. -/
def doubleRound (s : Block) : Block :=
  let s := quarterRound s 0 4 8 12
  let s := quarterRound s 1 5 9 13
  let s := quarterRound s 2 6 10 14
  let s := quarterRound s 3 7 11 15
  let s := quarterRound s 0 5 10 15
  let s := quarterRound s 1 6 11 12
  let s := quarterRound s 2 7 8 13
  quarterRound s 3 4 9 14

/-- The words that enter the mixing. -/
def start (key : Key) (counter : UInt64) : Block :=
  #v[0x61707865, 0x3320646E, 0x79622D32, 0x6B206574,
     key[0], key[1], key[2], key[3], key[4], key[5], key[6], key[7],
     counter.toUInt32, (counter >>> 32).toUInt32, 0, 0]

def block (key : Key) (counter : UInt64) : Block :=
  let before := start key counter
  let after := Nat.repeat doubleRound 6 before
  Vector.ofFn fun i => before[i] + after[i]

end ChipEight.ChaCha
