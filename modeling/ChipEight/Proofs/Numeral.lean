import Mathlib.Algebra.GroupWithZero.Nat
import ChipEight.CommandLine.Numeral
import ChipEight.Hex

/-!
# Reading numbers

The text of a number is read back as this number, in base sixteen and in base ten. In base sixteen
the least width may be any. There the digits of a number are made from the last one on, and read
from the first one on. What both have in common is that the last digit stands behind the digits of a
sixteenth of the number.

## Main statements

- `Hex.natural?_digits`: so many digits of a number give its remainder
- `Hex.natural?_padded`: the text of a number gives the number
- `Numeral.decimal?_toString`, `Numeral.decimalOrHex?_toString`, `Numeral.decimalOrHex?_padded`: so
  does the text of a number below the bound
-/

namespace ChipEight

/-! ## Base sixteen -/

theorem Numeral.natural?_append (base value : Nat) (cs ds : List Char) :
    natural? base value (cs ++ ds) =
      (natural? base value cs).bind fun higher => natural? base higher ds := by
  simp only [natural?, List.foldlM_append]
  rfl

namespace Hex

theorem digit?_digit : ∀ d : Fin 16, Numeral.digit? 16 (digit d) = some d.val := by decide

/-- What is so of every digit is so of all characters of a number. -/
theorem forall_mem_digits {P : Char → Prop} (h : ∀ d, P (digit d)) (width n : Nat) :
    ∀ c ∈ digits width n, P c := by
  induction width generalizing n with
  | zero => exact List.forall_mem_nil P
  | succ width ih =>
    rw [digits, List.forall_mem_append, List.forall_mem_singleton]
    exact ⟨ih (n / 16), h _⟩

theorem forall_mem_padded {P : Char → Prop} (h : ∀ d, P (digit d)) (width n : Nat) :
    ∀ c ∈ (padded width n).toList, P c := by
  rw [padded, String.toList_ofList]
  exact forall_mem_digits h _ n

theorem padded_ne_empty (width n : Nat) : padded width n ≠ "" := by
  intro h
  have hlength : (padded width n).toList.length = 0 := by rw [h]; rfl
  rw [padded, String.toList_ofList, length_digits] at hlength
  have hcount : digitCount n ≤ max width (digitCount n) := Nat.le_max_right _ _
  rw [hlength] at hcount
  exact absurd hcount (Nat.not_succ_le_zero _)

theorem natural?_digits (width n : Nat) :
    Numeral.natural? 16 0 (digits width n) = some (n % 16 ^ width) := by
  induction width generalizing n with
  | zero => rw [Nat.pow_zero, Nat.mod_one]; rfl
  | succ width ih =>
    have hlast (higher : Nat) : Numeral.natural? 16 higher [digit (Fin.ofNat 16 n)]
        = some (higher * 16 + n % 16) := by
      simp [Numeral.natural?, digit?_digit]
    rw [digits, Numeral.natural?_append, ih, Option.bind_some, hlast, Nat.pow_succ',
      Nat.mod_mul, Nat.add_comm, Nat.mul_comm]

theorem lt_pow_digitCount (n : Nat) : n < 16 ^ digitCount n := by
  calc
    n < 2 ^ (Nat.log2 n + 1) := Nat.lt_log2_self
    _ ≤ 2 ^ (4 * digitCount n) := Nat.pow_le_pow_right Nat.two_pos (by unfold digitCount; omega)
    _ = 16 ^ digitCount n := Nat.pow_mul 2 4 _

/-- The text of a number is read back. -/
theorem natural?_padded (width n : Nat) :
    Numeral.natural? 16 0 (padded width n).toList = some n := by
  have hlt : n < 16 ^ max width (digitCount n) :=
    Nat.lt_of_lt_of_le (lt_pow_digitCount n)
      (Nat.pow_le_pow_right (by decide) (Nat.le_max_right _ _))
  rw [padded, String.toList_ofList, natural?_digits, Nat.mod_eq_of_lt hlt]

end Hex

/-! ## Base ten, and signs and prefixes -/

namespace Numeral

theorem digit?_of_isDigit {c : Char} (h : c.isDigit = true) :
    digit? 10 c = some (c.toNat - '0'.toNat) := by
  have hdigit : '0' ≤ c ∧ c ≤ '9' := by simpa [Char.isDigit, Char.le_def] using h
  have hlt : c.toNat - '0'.toNat < 10 := by
    have hnine : c.toNat ≤ 57 := hdigit.2
    exact Nat.lt_succ_of_le (Nat.sub_le_sub_right hnine 48)
  rw [digit?, if_pos hdigit]
  simp only [Option.filter_some, hlt, decide_true, if_true]

theorem natural?_of_isDigit {cs : List Char} (h : ∀ c ∈ cs, c.isDigit = true) (value : Nat) :
    natural? 10 value cs = some (Nat.ofDigitChars 10 cs value) := by
  induction cs generalizing value with
  | nil => rfl
  | cons c cs ih =>
    obtain ⟨hc, hcs⟩ := List.forall_mem_cons.mp h
    rw [natural?, List.foldlM_cons, digit?_of_isDigit hc, Nat.ofDigitChars_cons, Nat.mul_comm]
    exact ih hcs _

/-- Digits are read as they are, since no sign stands before them. -/
theorem unsigned?_of_natural? {base bound n : Nat} {cs : List Char} (hne : cs ≠ [])
    (hplus : '+' ∉ cs) (hread : natural? base 0 cs = some n) (hlt : n < bound) :
    unsigned? base bound cs = some n := by
  have hunsigned : unsigned? base bound cs = (natural? base 0 cs).filter (· < bound) := by
    unfold unsigned?
    split
    · exact absurd List.mem_cons_self hplus
    · rfl
    · exact absurd rfl hne
  rw [hunsigned, hread]
  simp [hlt]

theorem isDigit_of_mem_toString {n : Nat} : ∀ c ∈ (toString n).toList, c.isDigit = true := by
  intro c hc
  exact Nat.isDigit_of_mem_toDigits (by decide) (by decide) (Nat.toList_repr ▸ hc)

variable {bound n : Nat}

theorem decimal?_toString (h : n < bound) : decimal? bound (toString n) = some n := by
  apply unsigned?_of_natural? ?_ ?_ ?_ h
  · exact fun hnil => Nat.repr_ne_empty (String.toList_eq_nil_iff.mp hnil)
  · exact fun hplus => absurd (isDigit_of_mem_toString _ hplus) (by decide)
  · rw [natural?_of_isDigit isDigit_of_mem_toString]
    exact congrArg some ((congrArg (Nat.ofDigitChars 10 · 0) Nat.toList_repr).trans
      Nat.ofDigitChars_ten_toDigits)

theorem decimalOrHex?_toString (h : n < bound) : decimalOrHex? bound (toString n) = some n := by
  -- The second character is no letter, so the text is not taken for one in base sixteen.
  have hletter (c : Char) (hc : c.isDigit = false) : c ∉ (toString n).toList := by
    intro hmem
    rw [isDigit_of_mem_toString c hmem] at hc
    cases hc
  unfold decimalOrHex?
  split
  · next htext => exact absurd (htext ▸ by simp) (hletter 'x' (by decide))
  · next htext => exact absurd (htext ▸ by simp) (hletter 'X' (by decide))
  · exact decimal?_toString h

theorem decimalOrHex?_padded (width : Nat) (h : n < bound) :
    decimalOrHex? bound ("0x" ++ Hex.padded width n) = some n := by
  have htext : ("0x" ++ Hex.padded width n).toList = '0' :: 'x' :: (Hex.padded width n).toList := by
    rw [String.toList_append]
    rfl
  rw [decimalOrHex?, htext]
  apply unsigned?_of_natural? ?_ ?_ (Hex.natural?_padded width n) h
  · exact fun hnil => Hex.padded_ne_empty width n (String.toList_eq_nil_iff.mp hnil)
  · intro hplus
    exact Hex.forall_mem_padded (P := (· ≠ '+')) (by decide) width n _ hplus rfl

end Numeral

end ChipEight
