/-!
# Nibbles and words

The machine works on bytes (`UInt8`) and on sixteen-bit words (`Word`). An instruction is
one word, read as four nibbles: the family, then three more that hold registers, fixed
selectors or an immediate. Addresses are words too, of which the low twelve bits reach
all of memory.

## Main definitions

- `Nibble`: a value from 0 to 15, which names a register or a key
- `Nibble.ofByte?`, `Nibble.truncate`: the checked and the truncating conversion
- `Word.ofBytes`: a word from its two bytes, high byte first
- `Word.family`, `Word.second`, `Word.third`, `Word.last`: the four nibbles of a word
-/

namespace ChipEight

/-- Four bits: a register number, a key, or a hexadecimal digit. -/
abbrev Nibble := Fin 16

/-- Numerals stand for nibbles, since there are nibbles at all. The zero is the one that the
numerals of `Fin` refer to. -/
instance instNeZeroSixteen : @NeZero Nat Zero.ofOfNat0 16 := ⟨by decide⟩

/-- Sixteen bits: an instruction or an address. -/
abbrev Word := UInt16

namespace Nibble

/-- The nibble of the same value; bytes above 15 have none. -/
def ofByte? (b : UInt8) : Option Nibble :=
  if h : b.toNat < 16 then some ⟨b.toNat, h⟩ else none

/-- The low four bits of a byte. -/
def truncate (b : UInt8) : Nibble :=
  ⟨b.toNat % 16, Nat.mod_lt _ (by decide)⟩

def toByte (n : Nibble) : UInt8 := UInt8.ofNat n.val

@[simp] theorem toNat_toByte (n : Nibble) : n.toByte.toNat = n.val := by
  have := n.isLt
  simp only [toByte, UInt8.toNat_ofNat']
  omega

theorem ofByte?_toByte (n : Nibble) : ofByte? n.toByte = some n := by
  have := n.isLt
  simp [ofByte?]

end Nibble

namespace Word

/-- The word whose high and low bytes are given. -/
def ofBytes (high low : UInt8) : Word := high.toUInt16 <<< 8 ||| low.toUInt16

def highByte (w : Word) : UInt8 := (w >>> 8).toUInt8

def lowByte (w : Word) : UInt8 := w.toUInt8

/-- The most significant nibble, which selects the family of an instruction. -/
def family (w : Word) : Nibble :=
  ⟨w.toNat / 4096, by have := w.toNat_lt; omega⟩

def second (w : Word) : Nibble := ⟨w.toNat / 256 % 16, Nat.mod_lt _ (by decide)⟩

def third (w : Word) : Nibble := ⟨w.toNat / 16 % 16, Nat.mod_lt _ (by decide)⟩

def last (w : Word) : Nibble := ⟨w.toNat % 16, Nat.mod_lt _ (by decide)⟩

/-- The low twelve bits. -/
def address (w : Word) : Word := w % 4096

/-- The word with the four given nibbles, most significant first. -/
def ofNibbles (a b c d : Nibble) : Word :=
  UInt16.ofNat (a.val * 4096 + b.val * 256 + c.val * 16 + d.val)

theorem toNat_ofNibbles (a b c d : Nibble) :
    (ofNibbles a b c d).toNat = a.val * 4096 + b.val * 256 + c.val * 16 + d.val := by
  have := a.isLt; have := b.isLt; have := c.isLt; have := d.isLt
  simp only [ofNibbles, UInt16.toNat_ofNat']
  omega

/-- A word is put together again from its nibbles. -/
theorem ofNibbles_nibbles (w : Word) : ofNibbles w.family w.second w.third w.last = w := by
  apply UInt16.toNat_inj.mp
  have := w.toNat_lt
  rw [toNat_ofNibbles]
  simp only [family, second, third, last]
  omega

@[simp] theorem family_ofNibbles (a b c d : Nibble) : (ofNibbles a b c d).family = a := by
  apply Fin.ext
  simp only [family, toNat_ofNibbles]
  omega

@[simp] theorem second_ofNibbles (a b c d : Nibble) : (ofNibbles a b c d).second = b := by
  apply Fin.ext
  simp only [second, toNat_ofNibbles]
  omega

@[simp] theorem third_ofNibbles (a b c d : Nibble) : (ofNibbles a b c d).third = c := by
  apply Fin.ext
  simp only [third, toNat_ofNibbles]
  omega

@[simp] theorem last_ofNibbles (a b c d : Nibble) : (ofNibbles a b c d).last = d := by
  apply Fin.ext
  simp only [last, toNat_ofNibbles]
  omega

theorem toNat_address (w : Word) : w.address.toNat = w.toNat % 4096 := by
  simp [address]

theorem address_address (w : Word) : w.address.address = w.address := by
  apply UInt16.toNat_inj.mp
  rw [toNat_address, toNat_address, Nat.mod_mod]

theorem toNat_ofBytes (high low : UInt8) :
    (ofBytes high low).toNat = high.toNat * 256 + low.toNat := by
  have hhigh : high.toNat <<< 8 < 65536 := by
    have := high.toNat_lt
    rw [Nat.shiftLeft_eq]
    omega
  have height : (8 : UInt16).toNat % 16 = 8 := rfl
  rw [ofBytes, UInt16.toNat_or, UInt16.toNat_shiftLeft, UInt8.toNat_toUInt16, UInt8.toNat_toUInt16,
    height, Nat.mod_eq_of_lt hhigh, ← Nat.shiftLeft_add_eq_or_of_lt low.toNat_lt, Nat.shiftLeft_eq]

theorem toNat_highByte (w : Word) : w.highByte.toNat = w.toNat / 256 := by
  have hw := w.toNat_lt
  have height : (8 : UInt16).toNat % 16 = 8 := rfl
  rw [highByte, UInt16.toNat_toUInt8, UInt16.toNat_shiftRight, height, Nat.shiftRight_eq_div_pow]
  omega

theorem toNat_lowByte (w : Word) : w.lowByte.toNat = w.toNat % 256 := UInt16.toNat_toUInt8 w

/-- A word is put together again from its bytes. -/
theorem ofBytes_bytes (w : Word) : ofBytes w.highByte w.lowByte = w := by
  apply UInt16.toNat_inj.mp
  rw [toNat_ofBytes, toNat_highByte, toNat_lowByte]
  omega

theorem highByte_ofBytes (high low : UInt8) : (ofBytes high low).highByte = high := by
  apply UInt8.toNat_inj.mp
  have := low.toNat_lt
  rw [toNat_highByte, toNat_ofBytes]
  omega

theorem lowByte_ofBytes (high low : UInt8) : (ofBytes high low).lowByte = low := by
  apply UInt8.toNat_inj.mp
  have := low.toNat_lt
  rw [toNat_lowByte, toNat_ofBytes]
  omega

end Word

end ChipEight
