import ChipEight.Word

/-!
# Upper-case hexadecimal text

Addresses, words and bytes are shown in base sixteen with upper-case digits, padded with
zeros on the left to a least width. A number that needs more digits than the least width
is shown in full.

## Main definitions

- `Hex.digit`: the character of one digit
- `Hex.digits`: the low digits of a number, most significant first
- `Hex.padded`: the text of a number with at least a given number of digits
-/

namespace ChipEight.Hex

/-- Upper-case character of the digit `d`. -/
def digit (d : Fin 16) : Char :=
  Char.ofNat (if d.val < 10 then 48 + d.val else 55 + d.val)

/-- The low `width` digits of `n`, most significant first. -/
def digits : (width n : Nat) → List Char
  | 0, _ => []
  | width + 1, n => digits width (n / 16) ++ [digit (Fin.ofNat 16 n)]

/-- How many digits `n` needs; zero needs one. -/
def digitCount (n : Nat) : Nat := Nat.log2 n / 4 + 1

/-- Text of `n` with at least `width` digits. -/
def padded (width n : Nat) : String :=
  String.ofList (digits (max width (digitCount n)) n)

@[simp] theorem length_digits (width n : Nat) : (digits width n).length = width := by
  induction width generalizing n with
  | zero => rfl
  | succ width ih => simp [digits, ih]

end ChipEight.Hex
