import ChipEight.AddressSpace
import ChipEight.Hex
import ChipEight.Word

/-!
# Faults

What can go wrong when a program is loaded or executed. Each cause is a constructor with
the data that explains it; the wording is kept in one place, `Fault.message`.
-/

namespace ChipEight

/-- Why a program cannot be loaded or an instruction cannot be executed. -/
inductive Fault where
  | programTooLarge (size : Nat)
  -- The address is the first one of the access that is not in memory.
  | outOfBounds (address : Nat)
  -- The depth is that of the full stack.
  | stackOverflow (depth : Nat)
  | stackUnderflow
  -- No pattern accepts the word that was fetched from the address.
  | unknownOpcode (opcode address : Word)
  deriving DecidableEq, Repr

def Fault.message : Fault → String
  | .programTooLarge size =>
    "ROM of " ++ toString size ++ " bytes does not fit in "
      ++ toString AddressSpace.programCapacity ++ " bytes of program memory"
  | .outOfBounds address =>
    "memory access at 0x" ++ Hex.padded 4 address ++ " is out of bounds"
  | .stackOverflow depth => "call stack overflow (" ++ toString depth ++ " return addresses)"
  | .stackUnderflow => "return with an empty call stack"
  | .unknownOpcode opcode address =>
    "unknown opcode 0x" ++ Hex.padded 4 opcode.toNat ++ " at 0x"
      ++ Hex.padded 4 address.toNat

end ChipEight
