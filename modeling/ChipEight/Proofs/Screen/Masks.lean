import ChipEight.Proofs.Screen.Picture
import ChipEight.Word

/-!
# Drawing by bytes

There is another way to draw a sprite. A row of it is eight pixels wide, and so it falls on one byte
of the picture or on two that lie side by side. Spread over sixteen bits and moved to the right by as
many columns as the sprite stands beyond the first byte, the row is a mask for each of them. The
masks are XORed into the bytes, and a lit pixel is erased if a mask meets a set bit.

The outcome is the same as that of inverting pixel by pixel. A mask inverts the pixels that it picks
of its byte. The masks of a row pick the pixels under its set bits, and as a sprite does not stick
out on the right, the second byte of a row is in the same row of the screen as the first one.

## Main definitions

- `ByteMask`, `Screen.blend`: a mask for a byte of the picture, and what it does
- `Sprite.spread`, `Sprite.masks`: the masks of a sprite

## Main statements

- `Screen.blend_eq_flipAll`: a mask inverts the pixels that it picks
- `Sprite.mem_rowMasks_iff`: the masks of a row pick the pixels under its set bits
- `Screen.blendAll_masks`: the masks of a sprite do what its pixels do
-/

namespace ChipEight

/-! ## Masks -/

/-- A byte of a row of the screen, counted from the left, and a mask that picks some of its eight
pixels. -/
structure ByteMask where
  y : Fin 32
  column : Fin 8
  mask : UInt8
  deriving DecidableEq, Repr

namespace ByteMask

variable (b : ByteMask)

def byteIndex : Fin 256 :=
  ⟨b.y.val * 8 + b.column.val, by have := b.y.isLt; have := b.column.isLt; omega⟩

/-- The byte is in the row of the screen that the mask names. -/
theorem byteIndex_div : b.byteIndex.val / 8 = b.y.val := by
  have hcolumn := b.column.isLt
  simp only [byteIndex]
  omega

/-- The pixels that the mask picks. -/
def cells : List Pixel :=
  ((List.finRange 8).filter (bitOf b.mask)).map (.ofIndices b.byteIndex)

theorem ofIndices_mem_cells {i : Fin 8} (h : bitOf b.mask i = true) :
    .ofIndices b.byteIndex i ∈ b.cells :=
  List.mem_map_of_mem (List.mem_filter.mpr ⟨List.mem_finRange i, h⟩)

theorem exists_of_mem_cells {p : Pixel} (h : p ∈ b.cells) :
    ∃ i, bitOf b.mask i = true ∧ .ofIndices b.byteIndex i = p := by
  obtain ⟨i, hi, hp⟩ := List.mem_map.mp h
  exact ⟨i, (List.mem_filter.mp hi).2, hp⟩

theorem mem_cells {p : Pixel} :
    p ∈ b.cells ↔ p.byteIndex = b.byteIndex ∧ bitOf b.mask p.bitIndex = true := by
  constructor
  · intro h
    obtain ⟨i, hmask, rfl⟩ := b.exists_of_mem_cells h
    rw [Pixel.byteIndex_ofIndices, Pixel.bitIndex_ofIndices]
    exact ⟨rfl, hmask⟩
  · rintro ⟨hbyte, hmask⟩
    have hp : p = .ofIndices b.byteIndex p.bitIndex :=
      Pixel.ext_indices (by rw [Pixel.byteIndex_ofIndices, hbyte]) (by rw [Pixel.bitIndex_ofIndices])
    rw [hp]
    exact b.ofIndices_mem_cells hmask

theorem nodup_cells : b.cells.Nodup := by
  apply ((List.nodup_finRange 8).filter _).map
  intro i j hij
  have hbit := congrArg Pixel.bitIndex hij
  rwa [Pixel.bitIndex_ofIndices, Pixel.bitIndex_ofIndices] at hbit

theorem byteIndex_eq_iff {p : Pixel} :
    p.byteIndex = b.byteIndex ↔ p.y = b.y ∧ p.x.val / 8 = b.column.val := by
  have hcolumn := b.column.isLt
  have hx := p.x.isLt
  simp only [Pixel.byteIndex, byteIndex, Fin.ext_iff]
  omega

theorem mem_cells_iff_testBit {p : Pixel} :
    p ∈ b.cells ↔ p.y = b.y ∧ p.x.val / 8 = b.column.val ∧
      b.mask.toNat.testBit (7 - p.x.val % 8) = true := by
  rw [mem_cells, byteIndex_eq_iff, bitOf_eq_testBit, and_assoc]
  rfl

end ByteMask

/-! ## Inverting under masks -/

theorem bitOf_and (a b : UInt8) (i : Fin 8) : bitOf (a &&& b) i = (bitOf a i && bitOf b i) := by
  simp only [bitOf, UInt8.toBitVec_and, BitVec.getMsbD_and]

/-- A mask meets a set bit of a byte. -/
theorem and_ne_zero_iff {a b : UInt8} :
    (a &&& b != 0) = true ↔ ∃ i, bitOf a i = true ∧ bitOf b i = true := by
  rw [bne_iff_ne, byte_ne_zero_iff]
  simp only [bitOf_and, Bool.and_eq_true]

namespace Screen

variable (s : Screen)

/-- XORs a mask into its byte, and says whether it met a set bit. -/
def blend (b : ByteMask) : Screen × Bool :=
  let old := s.bytes[b.byteIndex]
  ({ s with bytes := s.bytes.set b.byteIndex (old ^^^ b.mask) }, old &&& b.mask != 0)

/-- XORs several masks one after the other, and says whether one of them met a set bit. -/
def blendAll (s : Screen) : List ByteMask → Screen × Bool
  | [] => (s, false)
  | b :: masks =>
    let blended := s.blend b
    let rest := blended.1.blendAll masks
    (rest.1, blended.2 || rest.2)

theorem lit_blend (b : ByteMask) (p : Pixel) :
    (s.blend b).1.lit p =
      (s.lit p ^^ decide (p.byteIndex = b.byteIndex ∧ bitOf b.mask p.bitIndex = true)) := by
  simp only [lit, blend, Fin.getElem_fin, Vector.getElem_set]
  by_cases hbyte : p.byteIndex = b.byteIndex
  · simp only [hbyte, if_true, bitOf_xor, true_and, Bool.decide_eq_true]
  · have hne : ¬b.byteIndex.val = p.byteIndex.val := fun h => hbyte (Fin.ext h.symm)
    simp only [hbyte, hne, if_false, false_and, decide_false, Bool.xor_false]

/-- A mask inverts the pixels that it picks. -/
theorem blend_eq_flipAll (b : ByteMask) : s.blend b = s.flipAll b.cells := by
  apply Prod.ext
  · apply eq_of_lit
    · intro p
      rw [lit_blend, s.lit_flipAll_of_nodup b.nodup_cells, decide_eq_decide.mpr b.mem_cells]
    · exact (s.dirty_flipAll b.cells).symm
  · rw [Bool.eq_iff_iff, s.erases_flipAll_iff b.nodup_cells]
    refine and_ne_zero_iff.trans ?_
    -- A bit that byte and mask have in common, and a pixel that is picked and lit.
    constructor
    · rintro ⟨i, hlit, hmask⟩
      refine ⟨.ofIndices b.byteIndex i, b.ofIndices_mem_cells hmask, ?_⟩
      rw [lit_ofIndices]
      exact hlit
    · rintro ⟨p, hp, hlit⟩
      obtain ⟨i, hmask, rfl⟩ := b.exists_of_mem_cells hp
      rw [lit_ofIndices] at hlit
      exact ⟨i, hlit, hmask⟩

theorem blendAll_eq_flipAll (masks : List ByteMask) :
    s.blendAll masks = s.flipAll (masks.flatMap ByteMask.cells) := by
  induction masks generalizing s with
  | nil => rfl
  | cons b masks ih => rw [blendAll, ih, blend_eq_flipAll, List.flatMap_cons, flipAll_append]

theorem flipAll_flatMap_congr {α : Type} {f g : α → List Pixel}
    (h : ∀ (s : Screen) a, s.flipAll (f a) = s.flipAll (g a)) (list : List α) :
    s.flipAll (list.flatMap f) = s.flipAll (list.flatMap g) := by
  induction list generalizing s with
  | nil => rfl
  | cons a list ih =>
    rw [List.flatMap_cons, List.flatMap_cons, flipAll_append, flipAll_append, h, ih]

end Screen

/-! ## The masks of a sprite -/

theorem lt_eight_of_testBit {b : UInt8} {i : Nat} (h : b.toNat.testBit i = true) : i < 8 := by
  have hle : 2 ^ i ≤ b.toNat := Nat.ge_two_pow_of_testBit h
  have hlt : b.toNat < 2 ^ 8 := b.toNat_lt
  exact (Nat.pow_lt_pow_iff_right (by decide)).mp (Nat.lt_of_le_of_lt hle hlt)

namespace Sprite

variable (sprite : Sprite)

/-- A row of the sprite as it falls on two bytes side by side, the left one in the high byte. -/
def spread (row : UInt8) : Word := (row.toUInt16 * 256) >>> UInt16.ofNat (sprite.left.val % 8)

/-- The masks of a row of the sprite. If the sprite stands at the start of a byte there is one. -/
def rowMasks (row : UInt8 × Nat) : List ByteMask :=
  let y : Fin 32 := ⟨(sprite.top + row.2) % 32, Nat.mod_lt _ (by decide)⟩
  let first : Fin 8 := ⟨sprite.left.val / 8, by have := sprite.left.isLt; omega⟩
  if h : sprite.left.val % 8 = 0 then [⟨y, first, (sprite.spread row.1).highByte⟩]
  else
    let second : Fin 8 := ⟨sprite.left.val / 8 + 1, by have := sprite.left.isLt; omega⟩
    [⟨y, first, (sprite.spread row.1).highByte⟩, ⟨y, second, (sprite.spread row.1).lowByte⟩]

/-- The masks of the sprite, row by row. -/
def masks : List ByteMask := sprite.rows.zipIdx.flatMap sprite.rowMasks

variable {sprite}

theorem toNat_spread (row : UInt8) :
    (sprite.spread row).toNat = (row.toNat * 256) >>> (sprite.left.val % 8) := by
  have hrow := row.toNat_lt
  have hshift : sprite.left.val % 8 < 8 := Nat.mod_lt _ (by decide)
  have hamount : (UInt16.ofNat (sprite.left.val % 8)).toNat % 16 = sprite.left.val % 8 := by
    rw [UInt16.toNat_ofNat']
    omega
  have hwide : (row.toUInt16 * 256).toNat = row.toNat * 256 := by
    rw [UInt16.toNat_mul, UInt8.toNat_toUInt16]
    change row.toNat * 256 % 65536 = _
    omega
  rw [spread, UInt16.toNat_shiftRight, hamount, hwide]

/-- Which bit of the row a bit of its spread is. -/
theorem testBit_spread (row : UInt8) (j : Nat) :
    (sprite.spread row).toNat.testBit j = true ↔
      8 ≤ sprite.left.val % 8 + j ∧ row.toNat.testBit (sprite.left.val % 8 + j - 8) = true := by
  rw [toNat_spread, Nat.testBit_shiftRight, show 256 = 2 ^ 8 from rfl, Nat.testBit_mul_two_pow,
    Bool.and_eq_true, decide_eq_true_iff]

theorem testBit_highByte_spread (row : UInt8) (j : Nat) :
    (sprite.spread row).highByte.toNat.testBit j = true ↔
      row.toNat.testBit (sprite.left.val % 8 + j) = true := by
  rw [Word.toNat_highByte, show 256 = 2 ^ 8 from rfl, Nat.testBit_div_two_pow, testBit_spread]
  rw [← Nat.add_assoc, Nat.add_sub_cancel]
  exact and_iff_right (Nat.le_add_left _ _)

theorem testBit_lowByte_spread (row : UInt8) {j : Nat} (hj : j < 8) :
    (sprite.spread row).lowByte.toNat.testBit j = true ↔
      8 ≤ sprite.left.val % 8 + j ∧ row.toNat.testBit (sprite.left.val % 8 + j - 8) = true := by
  rw [Word.toNat_lowByte, show 256 = 2 ^ 8 from rfl, Nat.testBit_mod_two_pow, decide_eq_true hj,
    Bool.true_and, testBit_spread]

/-- A pixel of the screen is picked by the first mask of a row, or by the second one if there is a
second one. -/
theorem exists_rowMasks_iff {row : UInt8 × Nat} {p : Pixel} :
    (∃ b ∈ sprite.rowMasks row, p ∈ b.cells) ↔
      (sprite.top + row.2) % 32 = p.y.val ∧
        (p.x.val / 8 = sprite.left.val / 8 ∧
            (sprite.spread row.1).highByte.toNat.testBit (7 - p.x.val % 8) = true ∨
          sprite.left.val % 8 ≠ 0 ∧ p.x.val / 8 = sprite.left.val / 8 + 1 ∧
            (sprite.spread row.1).lowByte.toNat.testBit (7 - p.x.val % 8) = true) := by
  have hy : p.y = ⟨(sprite.top + row.2) % 32, Nat.mod_lt _ (by decide)⟩ ↔
      (sprite.top + row.2) % 32 = p.y.val := by
    rw [Fin.ext_iff]
    exact eq_comm
  by_cases hshift : sprite.left.val % 8 = 0
  · rw [rowMasks, dif_pos hshift]
    simp only [List.mem_singleton, exists_eq_left, ByteMask.mem_cells_iff_testBit, hy, hshift, ne_eq,
      not_true, false_and, or_false]
  · rw [rowMasks, dif_neg hshift]
    simp only [List.mem_cons, List.not_mem_nil, or_false, exists_eq_or_imp, exists_eq_left,
      ByteMask.mem_cells_iff_testBit, hy, ne_eq, hshift, not_false_iff, true_and, and_or_left]

/-- The masks of a row pick the pixels under its set bits. -/
theorem mem_rowMasks_iff {row : UInt8 × Nat} {p : Pixel} :
    (∃ b ∈ sprite.rowMasks row, p ∈ b.cells) ↔ p ∈ sprite.rowCells row := by
  have hbit : 7 - p.x.val % 8 < 8 := by omega
  rw [exists_rowMasks_iff, mem_rowCells, testBit_highByte_spread, testBit_lowByte_spread _ hbit]
  constructor
  · rintro ⟨hheight, ⟨hbyte, hset⟩ | ⟨-, hbyte, hlow, hset⟩⟩
    · -- A bit of the row has a place below eight, so the pixel is not left of the sprite.
      have hplace := lt_eight_of_testBit hset
      refine ⟨by omega, by omega, hheight, ?_⟩
      rwa [show 7 - (p.x.val - sprite.left.val) = sprite.left.val % 8 + (7 - p.x.val % 8) by omega]
    · refine ⟨by omega, by omega, hheight, ?_⟩
      rwa [show 7 - (p.x.val - sprite.left.val) = sprite.left.val % 8 + (7 - p.x.val % 8) - 8 by
        omega]
  · rintro ⟨hleft, hright, hheight, hset⟩
    refine ⟨hheight, ?_⟩
    by_cases hbyte : p.x.val / 8 = sprite.left.val / 8
    · refine .inl ⟨hbyte, ?_⟩
      rwa [show sprite.left.val % 8 + (7 - p.x.val % 8) = 7 - (p.x.val - sprite.left.val) by omega]
    · -- The sprite is eight columns wide, so the pixel is in the next byte and beyond its start.
      refine .inr ⟨by omega, by omega, by omega, ?_⟩
      rwa [show sprite.left.val % 8 + (7 - p.x.val % 8) - 8 = 7 - (p.x.val - sprite.left.val) by
        omega]

theorem nodup_flatMap_rowMasks (row : UInt8 × Nat) :
    ((sprite.rowMasks row).flatMap ByteMask.cells).Nodup := by
  refine List.nodup_flatMap.mpr ⟨fun b _ => b.nodup_cells, ?_⟩
  unfold rowMasks
  split
  · exact List.pairwise_singleton _ _
  · -- The two bytes of a row are different ones.
    refine List.pairwise_pair.mpr fun p hfirst hsecond => ?_
    have hfirst := (ByteMask.mem_cells_iff_testBit _).mp hfirst
    have hsecond := (ByteMask.mem_cells_iff_testBit _).mp hsecond
    have hcolumns : sprite.left.val / 8 = sprite.left.val / 8 + 1 :=
      hfirst.2.1.symm.trans hsecond.2.1
    omega

/-- All masks of a row go into one row of the screen. -/
theorem y_of_mem_rowMasks {row : UInt8 × Nat} {b : ByteMask} (h : b ∈ sprite.rowMasks row) :
    b.y.val = (sprite.top + row.2) % 32 := by
  unfold rowMasks at h
  split at h
  · obtain rfl := List.mem_singleton.mp h
    rfl
  · rcases List.mem_pair.mp h with rfl | rfl
    · rfl
    · rfl

theorem mem_masks_iff {p : Pixel} : (∃ b ∈ sprite.masks, p ∈ b.cells) ↔ sprite.Covers p := by
  rw [← mem_cells]
  simp only [masks, cells, List.mem_flatMap, ← mem_rowMasks_iff]
  constructor
  · rintro ⟨b, ⟨row, hrow, hb⟩, hp⟩
    exact ⟨row, hrow, b, hb, hp⟩
  · rintro ⟨row, hrow, b, hb, hp⟩
    exact ⟨b, ⟨row, hrow, hb⟩, hp⟩

end Sprite

/-! ## Drawing by masks -/

namespace Screen

variable (s : Screen) (sprite : Sprite)

theorem blendAll_rowMasks (row : UInt8 × Nat) :
    s.blendAll (sprite.rowMasks row) = s.flipAll (sprite.rowCells row) := by
  rw [blendAll_eq_flipAll]
  apply s.flipAll_eq_of_nodup (sprite.nodup_flatMap_rowMasks row) (sprite.nodup_rowCells row)
  intro p
  rw [List.mem_flatMap]
  exact Sprite.mem_rowMasks_iff

/-- The masks of a sprite do what its pixels do. Row by row both go through the same pictures, so
this is also so of a sprite that has more rows than the screen. -/
theorem blendAll_masks : s.blendAll sprite.masks = s.flipAll sprite.cells := by
  rw [blendAll_eq_flipAll, Sprite.masks, List.flatMap_assoc, Sprite.cells]
  apply s.flipAll_flatMap_congr
  intro s row
  rw [← blendAll_eq_flipAll, s.blendAll_rowMasks]

/-- A mask meets a set bit in its turn if one did so before the drawing. -/
theorem erases_blendAll_iff {sprite : Sprite} (h : sprite.rows.length ≤ 32) :
    (s.blendAll sprite.masks).2 = true ↔
      ∃ b ∈ sprite.masks, s.bytes[b.byteIndex] &&& b.mask ≠ 0 := by
  rw [blendAll_masks]
  refine (s.erases_draw_iff h).trans ?_
  have hmask (b : ByteMask) : s.bytes[b.byteIndex] &&& b.mask ≠ 0 ↔
      ∃ p ∈ b.cells, s.lit p = true := by
    rw [← s.erases_flipAll_iff b.nodup_cells, ← blend_eq_flipAll]
    exact bne_iff_ne.symm
  simp only [hmask, ← Sprite.mem_masks_iff]
  constructor
  · rintro ⟨p, ⟨b, hb, hp⟩, hlit⟩
    exact ⟨b, hb, p, hp, hlit⟩
  · rintro ⟨b, hb, p, hp, hlit⟩
    exact ⟨p, ⟨b, hb, hp⟩, hlit⟩

end Screen

end ChipEight
