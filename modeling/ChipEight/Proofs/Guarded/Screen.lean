import ChipEight.Proofs.Guarded.Domain
import ChipEight.Screen.Sprite

/-!
# Guarded drawing

Pixels by coordinates of any size. A pixel is looked up as a byte of the picture and a mask for one
bit of it. Reading off the screen is allowed, and yields that the pixel is dark; inverting off the
screen is not. Drawing a sprite therefore depends on the rule that moves a sprite to the left edge
before it can stick out on the right, and on counting rows round the screen.

## Main definitions

- `Screen.locate`: the byte and the mask of a pixel
- `Screen.toggle`, `Screen.look`: inverting and reading a pixel
- `Screen.paint`: drawing a sprite, row by row and column by column

## Main statements

- `Screen.look_eq`: reading never leaves its domain, whatever the coordinates
- `Screen.paint_eq`: drawing never leaves its domain, whatever the sprite and its place
-/

namespace ChipEight

open Guarded

/-! ## Bits -/

theorem toBitVec_singleBit : ∀ i : Fin 8, (singleBit i).toBitVec = BitVec.twoPow 8 (7 - i.val) := by
  decide

theorem singleBit_ne_zero : ∀ i : Fin 8, singleBit i ≠ 0 := by
  decide

/-- The mask of a bit picks it out of a byte. -/
theorem and_singleBit (b : UInt8) (i : Fin 8) :
    b &&& singleBit i = if bitOf b i then singleBit i else 0 := by
  have hbit : bitOf b i = b.toBitVec.getLsbD (7 - i.val) := by
    rw [bitOf, BitVec.getMsbD, decide_eq_true i.isLt, Bool.true_and]
  apply UInt8.toBitVec_inj.mp
  rw [UInt8.toBitVec_and, toBitVec_singleBit, BitVec.and_twoPow, ← hbit]
  split
  · exact (toBitVec_singleBit i).symm
  · rfl

theorem and_singleBit_bne_zero (b : UInt8) (i : Fin 8) : (b &&& singleBit i != 0) = bitOf b i := by
  rw [and_singleBit]
  cases bitOf b i with
  | true => exact bne_iff_ne.mpr (singleBit_ne_zero i)
  | false => rfl

namespace Screen

/-! ## Pixels -/

/-- The byte of the picture that holds a pixel, and a mask for its bit, if the pixel is on the
screen. -/
def locate (x y : Nat) : Guarded (Option (Nat × UInt8)) := do
  if x < width ∧ y < height then
    let row ← size (y * rowBytes)
    let byte ← size (row + x / 8)
    let mask ← shiftRight 0x80 (x % 8)
    return some (byte, mask)
  else
    return none

/-- Inverts a pixel, and says whether it was lit. -/
def toggle (s : Screen) (x y : Nat) : Guarded (Screen × Bool) := do
  match ← locate x y with
  | none => violate (.offScreen x y)
  | some (i, mask) =>
    let byte ← index s.bytes i
    let bytes ← update s.bytes i (byte ^^^ mask)
    return ({ s with bytes := bytes }, byte &&& mask != 0)

/-- Whether a pixel is lit. -/
def look (s : Screen) (x y : Nat) : Guarded Bool := do
  match ← locate x y with
  | none => return false
  | some (i, mask) => return (← index s.bytes i) &&& mask != 0

/-! ## Sprites -/

/-- The picture so far, and whether a lit pixel was erased. -/
abbrev Canvas := Screen × Bool

/-- Inverts the pixel under one column of a row of a sprite, if its bit is set. -/
def paintColumn (left y : Nat) (row : UInt8) (canvas : Canvas) (column : Nat) : Guarded Canvas := do
  let mask ← shiftRight 0x80 column
  if row &&& mask != 0 then
    let x ← size (left + column)
    let (screen, erased) ← canvas.1.toggle x y
    return (screen, canvas.2 || erased)
  else
    return canvas

def paintRow (left top : Nat) (canvas : Canvas) (row : UInt8 × Nat) : Guarded Canvas := do
  let y ← size (top + row.2)
  (List.range 8).foldlM (paintColumn left (y % height) row.1) canvas

/-- Draws a sprite at the coordinates asked for, or at the left edge if it would stick out on the
right. -/
def paint (s : Screen) (x y : Nat) (rows : List UInt8) : Guarded Canvas := do
  let right ← size (x + 8)
  let left := if width < right then 0 else x
  let (screen, erased) ← rows.zipIdx.foldlM (paintRow left y) (s, false)
  return (screen.markDirty, erased)

/-! ## Within the domain -/

theorem locate_pixel (p : Pixel) :
    locate p.x.val p.y.val = .ok (some (p.byteIndex.val, singleBit p.bitIndex)) := by
  have hx := p.x.isLt
  have hy := p.y.isLt
  have hbit : p.x.val % 8 < 8 := Nat.mod_lt _ (by decide)
  have hrow : size (p.y.val * rowBytes) = .ok (p.y.val * 8) :=
    show size (p.y.val * 8) = _ from size_of_lt (by omega)
  have hbyte : size (p.y.val * 8 + p.x.val / 8) = .ok p.byteIndex.val := size_of_lt (by omega)
  rw [locate, if_pos ⟨hx, hy⟩, hrow, ok_bind, hbyte, ok_bind, shiftRight_of_lt hbit]
  rfl

theorem locate_of_off {x y : Nat} (h : ¬(x < 64 ∧ y < 32)) : locate x y = .ok none := if_neg h

/-- A pixel of the screen can be inverted. -/
theorem toggle_pixel (s : Screen) (p : Pixel) :
    s.toggle p.x.val p.y.val = .ok (s.flip p, s.lit p) := by
  rw [toggle, locate_pixel, ok_bind]
  simp only [index_of_lt p.byteIndex.isLt, update_of_lt p.byteIndex.isLt, ok_bind,
    and_singleBit_bne_zero]
  rfl

example : Screen.blank.toggle 64 0 = violate (.offScreen 64 0) := rfl

/-- Reading never leaves its domain. Off the screen all is dark. -/
theorem look_eq (s : Screen) (x y : Nat) : s.look x y = .ok (s.pixel x y) := by
  by_cases h : x < 64 ∧ y < 32
  · have hlocate := locate_pixel ⟨⟨x, h.1⟩, ⟨y, h.2⟩⟩
    have hpixel := s.pixel_eq_lit ⟨⟨x, h.1⟩, ⟨y, h.2⟩⟩
    rw [look, hlocate, ok_bind]
    simp only [index_of_lt (Pixel.byteIndex _).isLt, ok_bind, and_singleBit_bne_zero]
    rw [hpixel]
    rfl
  · rw [look, locate_of_off h, s.pixel_of_off h]
    rfl

namespace Canvas

/-- Inverts pixels one after the other. -/
def flipAll (canvas : Canvas) (pixels : List Pixel) : Canvas :=
  ((canvas.1.flipAll pixels).1, canvas.2 || (canvas.1.flipAll pixels).2)

@[simp] theorem flipAll_nil (canvas : Canvas) : flipAll canvas [] = canvas := by
  rw [flipAll, Screen.flipAll, Bool.or_false]

theorem flipAll_cons (canvas : Canvas) (p : Pixel) (pixels : List Pixel) :
    flipAll canvas (p :: pixels)
      = flipAll (canvas.1.flip p, canvas.2 || canvas.1.lit p) pixels := by
  simp only [flipAll, Screen.flipAll, Bool.or_assoc]

theorem flipAll_append (canvas : Canvas) (pixels more : List Pixel) :
    flipAll canvas (pixels ++ more) = flipAll (flipAll canvas pixels) more := by
  simp only [flipAll, Screen.flipAll_append, Bool.or_assoc]

end Canvas

section Sprite

variable (sprite : Sprite)

theorem paintColumn_eq (r : Nat) (row : UInt8) (canvas : Canvas) (c : Fin 8) :
    paintColumn sprite.left.val ((sprite.top + r) % height) row canvas c.val
      = .ok (canvas.flipAll (if bitOf row c then [sprite.cell r c] else [])) := by
  have hmask : shiftRight 0x80 c.val = .ok (singleBit c) := shiftRight_of_lt c.isLt
  have hx : size (sprite.left.val + c.val) = .ok (sprite.cell r c).x.val :=
    size_of_lt (by have hcell := (sprite.cell r c).x.isLt; exact Nat.lt_trans hcell (by decide))
  rw [paintColumn, hmask, ok_bind, and_singleBit_bne_zero]
  cases bitOf row c with
  | true =>
    have htoggle := canvas.1.toggle_pixel (sprite.cell r c)
    rw [if_pos rfl, if_pos rfl, hx, ok_bind, Canvas.flipAll_cons, Canvas.flipAll_nil]
    exact congrArg (· >>= _) htoggle
  | false =>
    rw [if_neg Bool.false_ne_true, if_neg Bool.false_ne_true, Canvas.flipAll_nil]
    rfl

/-- The columns of a row invert the pixels under those of them whose bits are set. -/
theorem foldlM_paintColumn (r : Nat) (row : UInt8) (columns : List (Fin 8)) (canvas : Canvas) :
    (columns.map Fin.val).foldlM
        (paintColumn sprite.left.val ((sprite.top + r) % height) row) canvas
      = .ok (canvas.flipAll ((columns.filter (bitOf row)).map (sprite.cell r))) := by
  induction columns generalizing canvas with
  | nil => exact congrArg Except.ok canvas.flipAll_nil.symm
  | cons c columns ih =>
    rw [List.map_cons, List.foldlM_cons, paintColumn_eq, ok_bind, ih, ← Canvas.flipAll_append,
      List.filter_cons]
    split
    · rfl
    · rfl

theorem paintRow_eq (row : UInt8 × Nat) (h : sprite.top + row.2 < 0x10000000000000000)
    (canvas : Canvas) :
    paintRow sprite.left.val sprite.top canvas row
      = .ok (canvas.flipAll (sprite.rowCells row)) := by
  rw [paintRow, size_of_lt h, ok_bind]
  exact foldlM_paintColumn sprite row.2 row.1 (List.finRange 8) canvas

/-- The rows of a sprite invert the pixels under all set bits. -/
theorem foldlM_paintRow (rows : List (UInt8 × Nat))
    (h : ∀ row ∈ rows, sprite.top + row.2 < 0x10000000000000000) (canvas : Canvas) :
    rows.foldlM (paintRow sprite.left.val sprite.top) canvas
      = .ok (canvas.flipAll (rows.flatMap sprite.rowCells)) := by
  induction rows generalizing canvas with
  | nil => exact congrArg Except.ok canvas.flipAll_nil.symm
  | cons row rows ih =>
    have hrow := h row List.mem_cons_self
    have hrows : ∀ row ∈ rows, sprite.top + row.2 < 0x10000000000000000 :=
      fun row hmem => h row (List.mem_cons_of_mem _ hmem)
    rw [List.foldlM_cons, paintRow_eq sprite row hrow, ok_bind, ih hrows, ← Canvas.flipAll_append,
      List.flatMap_cons]

end Sprite

/-- Drawing never leaves its domain. The coordinates are those that registers can hold, and the rows
those that a digit can count. -/
theorem paint_eq (s : Screen) {x y : Nat} {rows : List UInt8} (hx : x < 256) (hy : y < 256)
    (hrows : rows.length < 16) : s.paint x y rows = .ok (s.draw (Sprite.place x y rows)) := by
  have hleft : (if width < x + 8 then 0 else x) = (Sprite.place x y rows).left.val := by
    change (if 64 < x + 8 then 0 else x) = _
    unfold Sprite.place
    by_cases hright : x < 57
    · rw [if_neg (by omega), dif_pos hright]
    · rw [if_pos (by omega), dif_neg hright]
      rfl
  -- A row counted from the top is not yet taken round the screen, but it is a small number.
  have hcount : ∀ row ∈ rows.zipIdx, y + row.2 < 0x10000000000000000 := by
    intro row hmem
    have hindex := List.snd_lt_of_mem_zipIdx hmem
    omega
  have hfold := foldlM_paintRow (Sprite.place x y rows) rows.zipIdx hcount (s, false)
  rw [paint, size_of_lt (by omega), ok_bind]
  simp only [hleft]
  exact congrArg (· >>= _) hfold

end Screen

end ChipEight
