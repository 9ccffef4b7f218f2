/-!
# Glyphs

The built-in pictures of the sixteen hexadecimal digits. Each is four pixels wide and five
rows high, one byte a row, its pixels in the high bits of the byte.
-/

namespace ChipEight.Glyphs

/-- Address of the glyph of zero. -/
abbrev start : Nat := 0x100

abbrev height : Nat := 5

/-- The rows of all glyphs, from zero to F. -/
def rows : List UInt8 :=
  [ 0xF0, 0x90, 0x90, 0x90, 0xF0,
    0x20, 0x60, 0x20, 0x20, 0x70,
    0xF0, 0x10, 0xF0, 0x80, 0xF0,
    0xF0, 0x10, 0xF0, 0x10, 0xF0,
    0x90, 0x90, 0xF0, 0x10, 0x10,
    0xF0, 0x80, 0xF0, 0x10, 0xF0,
    0xF0, 0x80, 0xF0, 0x90, 0xF0,
    0xF0, 0x10, 0x20, 0x40, 0x40,
    0xF0, 0x90, 0xF0, 0x90, 0xF0,
    0xF0, 0x90, 0xF0, 0x10, 0xF0,
    0xF0, 0x90, 0xF0, 0x90, 0x90,
    0xE0, 0x90, 0xE0, 0x90, 0xE0,
    0xF0, 0x80, 0x80, 0x80, 0xF0,
    0xE0, 0x90, 0x90, 0x90, 0xE0,
    0xF0, 0x80, 0xF0, 0x80, 0xF0,
    0xF0, 0x80, 0xF0, 0x80, 0x80 ]

/-- The first address after the glyphs. -/
def stop : Nat := start + rows.length

def address (digit : Fin 16) : UInt16 := UInt16.ofNat (start + digit.val * height)

theorem length_rows : rows.length = 16 * height := rfl

end ChipEight.Glyphs
