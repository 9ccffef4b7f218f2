import Mathlib.Data.Nat.Digits.Defs
import ChipEight.Proofs.Guarded.Screen
import ChipEight.Proofs.Screen.Picture

/-!
# Pixels and the bits of a picture

Each pixel of the screen has a bit of the picture to itself, and all bits of the picture are pixels.
Inverting a pixel therefore shows at its coordinates and at no others, however large these are, and
inverting it again gives back the picture.

The bits stand in the order in which the pixels are seen. The eight bytes of a row, taken for one
number with the first byte as the most significant one, have the leftmost pixel as their highest bit
and the rightmost one as their lowest.

## Main definitions

- `Screen.rowNumber`: a row of the picture as one number

## Main statements

- `Screen.pixel_flip`: what an inversion does at all coordinates
- `Screen.pixel_eq_testBit`: pixels are the bits of rows
- `Screen.eq_iff_pixel`: screens are told by their pixels and the flag
- `Screen.toggle_is_faithful`: all of it for one pixel
-/

namespace ChipEight

/-! ## Bits of several bytes -/

/-- Bits are counted eight to a digit, the least significant digit first. -/
theorem testBit_ofDigits {digits : List Nat} (hdigits : ∀ d ∈ digits, d < 256) {k j d : Nat}
    (hd : digits[k]? = some d) (hj : j < 8) :
    (Nat.ofDigits 256 digits).testBit (8 * k + j) = d.testBit j := by
  -- A bit is one of the first digit, or it is eight places further on than in the other digits.
  induction digits generalizing k with
  | nil => cases hd
  | cons first digits ih =>
    have hfirst : first < 2 ^ 8 := hdigits first List.mem_cons_self
    have hsplit : Nat.ofDigits 256 (first :: digits) = 2 ^ 8 * Nat.ofDigits 256 digits + first := by
      rw [Nat.ofDigits_cons, Nat.add_comm]
      rfl
    rw [hsplit, Nat.testBit_two_pow_mul_add _ hfirst]
    cases k with
    | zero =>
      obtain rfl := Option.some.inj hd
      rw [Nat.mul_zero, Nat.zero_add, if_pos hj]
    | succ k =>
      have hrest : 8 * (k + 1) + j - 8 = 8 * k + j := by omega
      rw [if_neg (by omega), hrest]
      exact ih (fun d hmem => hdigits d (List.mem_cons_of_mem _ hmem)) hd

theorem lt_of_mem_map_toNat (bytes : List UInt8) : ∀ d ∈ bytes.map UInt8.toNat, d < 256 := by
  intro d hd
  obtain ⟨b, -, rfl⟩ := List.mem_map.mp hd
  exact b.toNat_lt

theorem Pixel.eq_iff_coordinates {p q : Pixel} :
    p = q ↔ p.x.val = q.x.val ∧ p.y.val = q.y.val := by
  obtain ⟨px, py⟩ := p
  obtain ⟨qx, qy⟩ := q
  rw [Pixel.mk.injEq, Fin.ext_iff, Fin.ext_iff]

namespace Screen

variable (s : Screen)

/-- The eight bytes of a row of the picture. -/
def row (y : Nat) : List UInt8 := (s.bytes.toList.drop (y * 8)).take 8

/-- A row as one number, its first byte in the highest place. -/
def rowNumber (y : Nat) : Nat := Nat.ofDigits 256 ((s.row y).reverse.map UInt8.toNat)

/-! ## One pixel -/

/-- An inversion shows at the coordinates of its pixel and at no others. -/
theorem pixel_flip (p : Pixel) (x y : Nat) :
    (s.flip p).pixel x y = (s.pixel x y ^^ decide (p.x.val = x ∧ p.y.val = y)) := by
  by_cases h : x < 64 ∧ y < 32
  · let q : Pixel := ⟨⟨x, h.1⟩, ⟨y, h.2⟩⟩
    have hlit := s.lit_flip p q
    rw [← pixel_eq_lit, ← pixel_eq_lit, decide_eq_decide.mpr Pixel.eq_iff_coordinates] at hlit
    exact hlit
  · have hne : ¬(p.x.val = x ∧ p.y.val = y) := by
      rintro ⟨rfl, rfl⟩
      exact h ⟨p.x.isLt, p.y.isLt⟩
    rw [pixel_of_off _ h, pixel_of_off _ h, decide_eq_false hne]
    rfl

theorem flip_flip (p : Pixel) : (s.flip p).flip p = s := by
  apply eq_of_lit
  · intro q
    rw [lit_flip, lit_flip, Bool.xor_assoc, Bool.xor_self, Bool.xor_false]
  · rfl

/-- Two screens are equal if all their pixels and their flags are. -/
theorem eq_iff_pixel {t : Screen} :
    s = t ↔ (∀ x < 64, ∀ y < 32, s.pixel x y = t.pixel x y) ∧ s.dirty = t.dirty := by
  constructor
  · rintro rfl
    exact ⟨fun _ _ _ _ => rfl, rfl⟩
  · rintro ⟨hpixels, hdirty⟩
    refine eq_of_lit (fun p => ?_) hdirty
    rw [← pixel_eq_lit, ← pixel_eq_lit]
    exact hpixels _ p.x.isLt _ p.y.isLt

/-! ## Rows -/

/-- A row has the bytes of its pixels from the left to the right. -/
theorem getElem?_row (p : Pixel) :
    (s.row p.y.val)[p.x.val / 8]? = some (s.bytes.get p.byteIndex) := by
  have hx := p.x.isLt
  rw [row, List.getElem?_take_of_lt (by omega), List.getElem?_drop, Vector.getElem?_toList]
  exact Vector.getElem?_eq_getElem p.byteIndex.isLt

section

variable {y : Nat} (hy : y < 32)

include hy

theorem length_row : (s.row y).length = 8 := by
  rw [row, List.length_take, List.length_drop, Vector.length_toList]
  omega

theorem rowNumber_lt : s.rowNumber y < 2 ^ 64 := by
  have hlt := Nat.ofDigits_lt_base_pow_length (show 1 < 256 by decide)
    (lt_of_mem_map_toNat (s.row y).reverse)
  rw [List.length_map, List.length_reverse, s.length_row hy] at hlt
  exact hlt

/-- A pixel is the bit of its row that stands as far from the highest one as the pixel from the left
edge. -/
theorem pixel_eq_testBit {x : Nat} (hx : x < 64) :
    s.pixel x y = (s.rowNumber y).testBit (63 - x) := by
  let p : Pixel := ⟨⟨x, hx⟩, ⟨y, hy⟩⟩
  have hplace : (s.row y).length - 1 - (7 - x / 8) = x / 8 := by
    rw [s.length_row hy]
    omega
  have hbyte : ((s.row y).reverse.map UInt8.toNat)[7 - x / 8]?
      = some (s.bytes.get p.byteIndex).toNat := by
    rw [List.getElem?_map, List.getElem?_reverse, hplace, s.getElem?_row p, Option.map_some]
    rw [s.length_row hy]
    omega
  have hbit : 63 - x = 8 * (7 - x / 8) + (7 - x % 8) := by omega
  -- The number counts its digits from the right, and the row its bytes from the left.
  rw [rowNumber, hbit, testBit_ofDigits (lt_of_mem_map_toNat _) hbyte (by omega)]
  exact (s.pixel_eq_lit p).trans (bitOf_eq_testBit _ _)

end

/-- **The picture is laid out faithfully.** A pixel of the screen can be inverted, and what it was
before is the answer. It is then the opposite, while at all other coordinates nothing has changed,
and neither has the flag. Inverting it again gives the screen back. Off the screen all is dark. A
row is a number of 64 bits, whose bits from the highest one on are the pixels from the left, and so
two screens are equal if they have the same pixels and the same flag. -/
theorem toggle_is_faithful (s other : Screen) {x y : Nat} (hx : x < 64) (hy : y < 32) :
    let p : Pixel := ⟨⟨x, hx⟩, ⟨y, hy⟩⟩
    s.toggle x y = .ok (s.flip p, s.pixel x y) ∧
      s.flipAll [p] = (s.flip p, s.pixel x y) ∧
      (s.flip p).pixel x y = !s.pixel x y ∧
      (∀ x' y', (x', y') ≠ (x, y) → (s.flip p).pixel x' y' = s.pixel x' y') ∧
      (s.flip p).dirty = s.dirty ∧
      (s.flip p).toggle x y = .ok (s, !s.pixel x y) ∧
      (∀ x' y', ¬(x' < 64 ∧ y' < 32) → s.pixel x' y' = false) ∧
      s.rowNumber y < 2 ^ 64 ∧
      s.pixel x y = (s.rowNumber y).testBit (63 - x) ∧
      ((s == other) = true ↔
        (∀ x' < 64, ∀ y' < 32, s.pixel x' y' = other.pixel x' y') ∧ s.dirty = other.dirty) := by
  intro p
  have hpixel : s.pixel x y = s.lit p := s.pixel_eq_lit p
  have hflipped : (s.flip p).pixel x y = !s.pixel x y := by
    rw [pixel_flip, decide_eq_true ⟨rfl, rfl⟩, Bool.xor_true]
  refine ⟨?_, ?_, hflipped, ?_, s.dirty_flip p, ?_, fun _ _ => s.pixel_of_off,
    s.rowNumber_lt hy, s.pixel_eq_testBit hy hx, ?_⟩
  · rw [hpixel]
    exact s.toggle_pixel p
  · rw [hpixel, flipAll, flipAll, Bool.or_false]
  · intro x' y' hne
    have hother : ¬(p.x.val = x' ∧ p.y.val = y') := by
      rintro ⟨rfl, rfl⟩
      exact hne rfl
    rw [pixel_flip, decide_eq_false hother, Bool.xor_false]
  · have hback := (s.flip p).toggle_pixel p
    rwa [s.flip_flip, ← pixel_eq_lit, hflipped] at hback
  · rw [beq_iff_eq, eq_iff_pixel]

/-- The tenth pixel of the second row is lit. Seventy-four columns into the first row there is no
pixel, though the byte of that one would come next there. -/
theorem toggle_is_faithful_nextRow :
    let p : Pixel := ⟨⟨9, by decide⟩, ⟨1, by decide⟩⟩
    blank.toggle 9 1 = .ok (blank.flip p, false) ∧
      (blank.flip p).pixel 73 0 = false ∧
      ((blank.flip p).rowNumber 1).testBit 54 = true := by
  intro p
  obtain ⟨htoggle, -, hflipped, hothers, -, -, hoff, -⟩ :=
    toggle_is_faithful blank blank (x := 9) (y := 1) (by decide) (by decide)
  obtain ⟨-, -, -, -, -, -, -, -, hbit, -⟩ :=
    toggle_is_faithful (blank.flip p) blank (x := 9) (y := 1) (by decide) (by decide)
  have hdark : blank.pixel 9 1 = false := by decide
  refine ⟨?_, ?_, ?_⟩
  · rw [htoggle, hdark]
  · rw [hothers 73 0 (by decide)]
    exact hoff 73 0 (by decide)
  · rw [hflipped, hdark] at hbit
    exact hbit.symm

end Screen

end ChipEight
