import ChipEight.Machine
import ChipEight.Operation

/-!
# Operations on two registers

Nine functions of two bytes, of which five also give a flag. The result goes into Vx first
and the flag into VF after it, so that VF holds the flag even when it is the destination.

Subtraction sets the flag when the first operand is strictly larger: equal operands leave
it clear. Shifts move Vx and ignore Vy; the flag is the bit that falls out.
-/

namespace ChipEight

namespace Arithmetic

/-- What goes into Vx. -/
def result : Arithmetic → (vx vy : UInt8) → UInt8
  | .copy, _, vy => vy
  | .or, vx, vy => vx ||| vy
  | .and, vx, vy => vx &&& vy
  | .xor, vx, vy => vx ^^^ vy
  | .add, vx, vy => vx + vy
  | .subtract, vx, vy => vx - vy
  | .shiftRight, vx, _ => vx >>> 1
  | .subtractReversed, vx, vy => vy - vx
  | .shiftLeft, vx, _ => vx <<< 1

/-- What goes into VF, for the functions that set it. -/
def flag? : Arithmetic → (vx vy : UInt8) → Option Bool
  | .copy, _, _ | .or, _, _ | .and, _, _ | .xor, _, _ => none
  | .add, vx, vy => some (255 < vx.toNat + vy.toNat)
  | .subtract, vx, vy => some (vy < vx)
  | .shiftRight, vx, _ => some (vx.toNat % 2 = 1)
  | .subtractReversed, vx, vy => some (vx < vy)
  | .shiftLeft, vx, _ => some (128 ≤ vx.toNat)

end Arithmetic

/-- Combines Vx and Vy into Vx, then sets VF if the function has a flag. -/
def Machine.combine (m : Machine) (f : Arithmetic) (x y : Nibble) : Machine :=
  let vx := m.register x
  let vy := m.register y
  let m := m.setRegister x (f.result vx vy)
  match f.flag? vx vy with
  | some flag => m.setFlag flag
  | none => m

end ChipEight
