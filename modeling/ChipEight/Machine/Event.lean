import ChipEight.Instruction

/-!
# Events

What the machine reports while it executes, for a log. The events are data; their wording
and their level are functions of them.
-/

namespace ChipEight

/-- How much a message matters. -/
inductive Level where
  | trace
  | debug
  | warn
  deriving DecidableEq, Repr

def Level.label : Level → String
  | .trace => "TRACE"
  | .debug => "DEBUG"
  | .warn => "WARN"

/-- A line of a log. -/
structure Message where
  level : Level
  text : String
  deriving DecidableEq, Repr

/-- What the machine reports while it executes: each instruction it is about to perform, the
jump that halts it, and the calls of host routines that it ignores. -/
inductive Event where
  | executing (address opcode : Word) (instruction : Instruction)
  | selfJump (target : Word)
  | routineIgnored (routine address : Word)
  deriving DecidableEq, Repr

def Event.message : Event → Message
  | .executing address opcode instruction =>
    ⟨.trace, Hex.padded 4 address.toNat ++ ": " ++ Hex.padded 4 opcode.toNat ++ "  "
      ++ instruction.text⟩
  | .selfJump target =>
    ⟨.debug, "program halted with a jump to itself at 0x" ++ Hex.padded 3 target.toNat⟩
  | .routineIgnored routine address =>
    ⟨.warn, "ignoring machine code routine 0x" ++ Hex.padded 3 routine.toNat
      ++ " at 0x" ++ Hex.padded 3 address.toNat⟩

end ChipEight
