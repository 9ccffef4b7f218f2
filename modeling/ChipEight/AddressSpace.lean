/-!
# The address space

Memory holds 4096 bytes. The glyphs of the sixteen digits lie in the lower part, which is
otherwise left to the host; programs start at 0x200 and may fill the rest.
-/

namespace ChipEight.AddressSpace

abbrev size : Nat := 4096

/-- Address of the first byte of a program. -/
abbrev programStart : Nat := 0x200

/-- Bytes that a program may have. -/
abbrev programCapacity : Nat := 3584

/-- A program of full capacity ends with memory. -/
theorem programStart_add_capacity : programStart + programCapacity = size := rfl

end ChipEight.AddressSpace
