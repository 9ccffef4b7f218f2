/-!
# Numbers on the command line

Numbers are unsigned and written in base ten, or, where an argument allows it, in base
sixteen after `0x` or `0X`. One plus sign may stand before the digits. There has to be a
digit, nothing may follow the digits, and the value must lie below a bound.

Only the digits and letters of ASCII count as digits.

## Main definitions

- `Numeral.digit?`: the value of a digit in a base
- `Numeral.natural?`: digits only
- `Numeral.unsigned?`, `Numeral.decimal?`, `Numeral.decimalOrHex?`: numbers below a bound
-/

namespace ChipEight.Numeral

/-- The value of a digit, if the base has it. Letters count from ten in either case. -/
def digit? (base : Nat) (c : Char) : Option Nat :=
  let value :=
    if '0' ≤ c ∧ c ≤ '9' then some (c.toNat - '0'.toNat)
    else if 'a' ≤ c ∧ c ≤ 'z' then some (c.toNat - 'a'.toNat + 10)
    else if 'A' ≤ c ∧ c ≤ 'Z' then some (c.toNat - 'A'.toNat + 10)
    else none
  value.filter (· < base)

/-- The number that the digits `cs` give when they follow those of `value`. -/
def natural? (base : Nat) (value : Nat) (cs : List Char) : Option Nat :=
  cs.foldlM (fun value c => (digit? base c).map (value * base + ·)) value

/-- A number below `bound`, its digits after at most one plus sign. -/
def unsigned? (base bound : Nat) : List Char → Option Nat
  | '+' :: c :: cs => (natural? base 0 (c :: cs)).filter (· < bound)
  | c :: cs => (natural? base 0 (c :: cs)).filter (· < bound)
  | [] => none

def decimal? (bound : Nat) (text : String) : Option Nat := unsigned? 10 bound text.toList

/-- A number below `bound` in base ten, or in base sixteen after `0x` or `0X`. -/
def decimalOrHex? (bound : Nat) (text : String) : Option Nat :=
  match text.toList with
  | '0' :: 'x' :: cs => unsigned? 16 bound cs
  | '0' :: 'X' :: cs => unsigned? 16 bound cs
  | cs => unsigned? 10 bound cs

end ChipEight.Numeral
