import ChipEight.Random.ChaCha

/-!
# The random source

Random bytes come from a stream that a key determines. The source remembers the key and how
many bytes were drawn, so two sources are equal exactly when they have the same bytes behind
and ahead of them. A byte is the low one of a word of the cipher stream; the other three are
not used.

## Main definitions

- `RandomSource.byte`: the bytes of a key, by position
- `RandomSource.next`: draws the next byte
- `RandomSource.ofSeed`: the source of a 64-bit seed
-/

namespace ChipEight

/-- The key of a stream of random bytes and how many of them were drawn. -/
structure RandomSource where
  key : ChaCha.Key
  drawn : Nat
  deriving DecidableEq

namespace RandomSource

/-- The byte at position `n` of the stream of a key. -/
def byte (key : ChaCha.Key) (n : Nat) : UInt8 :=
  (ChaCha.block key (UInt64.ofNat (n / 16)))[n % 16].toUInt8

def next (r : RandomSource) : UInt8 × RandomSource :=
  (byte r.key r.drawn, { r with drawn := r.drawn + 1 })

/-! ## Seeds -/

/-- Advances the generator that expands a seed into a key. -/
def expand (state : UInt64) : UInt64 := state * 6364136223846793005 + 11634580027462260723

/-- The word that a state of that generator puts out: some of its bits, rotated to the right
by its five highest bits. -/
def expandedWord (state : UInt64) : UInt32 :=
  let bits := (((state >>> 18) ^^^ state) >>> 27).toUInt32
  let rotation := (state >>> 59).toUInt32
  bits >>> rotation ||| bits <<< ((32 - rotation) % 32)

/-- The source of a seed: its key holds the first eight words of the expansion. -/
def ofSeed (seed : UInt64) : RandomSource where
  key := Vector.ofFn fun i : Fin 8 => expandedWord (Nat.repeat expand (i.val + 1) seed)
  drawn := 0

@[simp] theorem next_fst (r : RandomSource) : r.next.1 = byte r.key r.drawn := rfl

@[simp] theorem next_snd (r : RandomSource) :
    r.next.2 = { r with drawn := r.drawn + 1 } := rfl

end RandomSource

end ChipEight
