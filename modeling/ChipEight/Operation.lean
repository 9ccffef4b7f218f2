import ChipEight.Word

/-!
# What the machine can do

The thirty-five operations of the machine, named for their effect. Operations that share
a mechanism share a constructor: the six conditional skips differ only in their condition,
and the nine operations on two registers only in what they compute.

## Main definitions

- `Condition`: what a skip tests
- `Arithmetic`: what an operation on two registers computes
- `Operation`: all operations
-/

namespace ChipEight

/-- What a conditional skip tests: Vx against the immediate byte or against Vy, or the key
that the low nibble of Vx names. -/
inductive Condition where
  | equalsByte
  | differsFromByte
  | equalsRegister
  | differsFromRegister
  | keyDown
  | keyUp
  deriving DecidableEq, Repr

/-- What an operation on two registers computes from Vx and Vy and puts into Vx. -/
inductive Arithmetic where
  | copy
  | or
  | and
  | xor
  | add
  | subtract
  | shiftRight
  | subtractReversed
  | shiftLeft
  deriving DecidableEq, Repr

inductive Operation where
  -- Flow of control. A host routine is code for another processor, which is ignored.
  | jump
  | jumpOffset
  | call
  | ret
  | skip (condition : Condition)
  | hostRoutine
  -- Registers. Adding a byte leaves the flag alone.
  | loadByte
  | addByte
  | arithmetic (function : Arithmetic)
  | random
  -- The index register and the memory it points at.
  | loadIndex
  | addIndex
  | pointGlyph
  | storeDecimal
  | storeRegisters
  | loadRegisters
  -- Screen, keypad and timers.
  | clearScreen
  | draw
  | awaitKey
  | readDelay
  | writeDelay
  | writeSound
  deriving DecidableEq, Repr

end ChipEight
