/-!
# The screen

A picture of 64 columns and 32 rows, one bit a pixel. Rows stand top to bottom, eight
pixels to a byte, the leftmost pixel in the most significant bit. Beside the picture the
screen keeps a flag that says whether it may have changed since the host last looked.

## Main definitions

- `Pixel`: the coordinates of a pixel on the screen
- `Screen.lit`, `Screen.flip`: one pixel
- `Screen.pixel`: coordinates of any size, which are dark off the screen
- `Screen.clear`, `Screen.markDirty`, `Screen.acknowledge`: the flag

## Main statements

- `Screen.lit_flip`: an inversion changes the pixel it is meant for and no other
-/

namespace ChipEight

/-- The coordinates of a pixel on the screen: its column from the left and its row from the
top. -/
structure Pixel where
  x : Fin 64
  y : Fin 32
  deriving DecidableEq, Repr

namespace Pixel

/-- The pixel at given coordinates, if it is on the screen. -/
def at? (x y : Nat) : Option Pixel :=
  if h : x < 64 ∧ y < 32 then some ⟨⟨x, h.1⟩, ⟨y, h.2⟩⟩ else none

/-- Which byte of the picture holds the pixel. -/
def byteIndex (p : Pixel) : Fin 256 :=
  ⟨p.y.val * 8 + p.x.val / 8, by have := p.x.isLt; have := p.y.isLt; omega⟩

/-- Which bit of that byte it is, counted from the most significant one. -/
def bitIndex (p : Pixel) : Fin 8 := ⟨p.x.val % 8, Nat.mod_lt _ (by decide)⟩

/-- A pixel is known by its byte and its bit. -/
theorem ext_indices {p q : Pixel} (hbyte : p.byteIndex = q.byteIndex)
    (hbit : p.bitIndex = q.bitIndex) : p = q := by
  obtain ⟨⟨px, hpx⟩, ⟨py, hpy⟩⟩ := p
  obtain ⟨⟨qx, hqx⟩, ⟨qy, hqy⟩⟩ := q
  simp only [byteIndex, bitIndex, Fin.mk.injEq, Pixel.mk.injEq] at *
  omega

end Pixel

/-! ## Bits of a byte -/

/-- The byte whose only set bit is bit `i`, counted from the most significant one. -/
def singleBit (i : Fin 8) : UInt8 := 0x80 >>> UInt8.ofNat i.val

/-- Bit `i` of a byte, counted from the most significant one. -/
def bitOf (b : UInt8) (i : Fin 8) : Bool := b.toBitVec.getMsbD i.val

theorem bitOf_singleBit : ∀ i j : Fin 8, bitOf (singleBit i) j = decide (i = j) := by
  decide

theorem bitOf_xor (a b : UInt8) (i : Fin 8) :
    bitOf (a ^^^ b) i = (bitOf a i ^^ bitOf b i) := by
  simp [bitOf, BitVec.getMsbD_xor]

/-! ## The picture -/

/-- A picture and whether it may have changed since the host last looked. -/
structure Screen where
  bytes : Vector UInt8 256
  dirty : Bool
  deriving DecidableEq

namespace Screen

abbrev width : Nat := 64

abbrev height : Nat := 32

abbrev rowBytes : Nat := width / 8

/-- All pixels dark; the host has not seen that yet. -/
def blank : Screen where
  bytes := Vector.replicate 256 0
  dirty := true

def lit (s : Screen) (p : Pixel) : Bool := bitOf s.bytes[p.byteIndex] p.bitIndex

/-- Whether the pixel at given coordinates is lit; off the screen all is dark. -/
def pixel (s : Screen) (x y : Nat) : Bool :=
  match Pixel.at? x y with
  | some p => s.lit p
  | none => false

def flip (s : Screen) (p : Pixel) : Screen :=
  { s with bytes := s.bytes.set p.byteIndex (s.bytes[p.byteIndex] ^^^ singleBit p.bitIndex) }

def clear (_ : Screen) : Screen := blank

def markDirty (s : Screen) : Screen := { s with dirty := true }

def acknowledge (s : Screen) : Screen := { s with dirty := false }

/-- The bytes of the picture, row by row. -/
def rows (s : Screen) : List (List UInt8) :=
  List.ofFn fun y : Fin 32 => List.ofFn fun c : Fin 8 =>
    have h : y.val * 8 + c.val < 256 := by have := y.isLt; have := c.isLt; omega
    s.bytes[y.val * 8 + c.val]

/-- An inversion changes the pixel it is meant for and no other. -/
theorem lit_flip (s : Screen) (p q : Pixel) :
    (s.flip p).lit q = (s.lit q ^^ decide (p = q)) := by
  simp only [lit, flip, Fin.getElem_fin, Vector.getElem_set]
  by_cases hbyte : p.byteIndex.val = q.byteIndex.val
  · rw [if_pos hbyte]
    simp only [hbyte, bitOf_xor, bitOf_singleBit]
    congr 1
    exact decide_eq_decide.mpr ⟨fun hbit => Pixel.ext_indices (Fin.ext hbyte) hbit,
      fun h => h ▸ rfl⟩
  · rw [if_neg hbyte]
    have hne : p ≠ q := fun h => hbyte (h ▸ rfl)
    simp [hne]

theorem pixel_blank (x y : Nat) : blank.pixel x y = false := by
  rw [pixel]
  split
  · next p _ =>
    rw [lit, show blank.bytes[p.byteIndex] = 0 from Vector.getElem_replicate p.byteIndex.isLt]
    exact BitVec.getMsbD_zero
  · rfl

/-- Off the screen all is dark. -/
theorem pixel_of_off (s : Screen) {x y : Nat} (h : ¬(x < 64 ∧ y < 32)) : s.pixel x y = false := by
  rw [pixel, Pixel.at?, dif_neg h]

theorem pixel_eq_lit (s : Screen) (p : Pixel) : s.pixel p.x.val p.y.val = s.lit p := by
  rw [pixel, Pixel.at?, dif_pos ⟨p.x.isLt, p.y.isLt⟩]

@[simp] theorem dirty_flip (s : Screen) (p : Pixel) : (s.flip p).dirty = s.dirty := rfl

end Screen

end ChipEight
