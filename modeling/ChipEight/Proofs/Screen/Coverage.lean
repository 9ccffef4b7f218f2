import Mathlib.Data.List.Nodup
import ChipEight.Screen.Sprite

/-!
# What a sprite covers

Drawing inverts one pixel after the other. A pixel that is met an odd number of times comes out
inverted, and one that is met an even number of times comes out as it was, so the order does not
matter. Whether a lit pixel was erased is asked of each pixel in its turn, and there the order
would matter if a pixel were met twice.

A sprite meets no pixel twice. Its columns are eight different ones, since it is moved to the left
edge before it sticks out on the right, and its rows are different ones as long as there are not
more of them than the screen has. So drawing inverts just the pixels that the sprite covers, and a
lit pixel is erased exactly if the sprite covers one.

## Main definitions

- `Sprite.Covers`: the pixels under the set bits of a sprite, by their coordinates

## Main statements

- `Screen.lit_flipAll`: inverting several pixels, whatever they are
- `Sprite.mem_cells`, `Sprite.nodup_cells`: a sprite meets the pixels that it covers, each once
- `Screen.lit_draw`, `Screen.erases_draw_iff`: drawing a sprite
-/

namespace ChipEight

/-! ## Inverting several pixels -/

/-- One more changes the parity. -/
theorem decide_odd_succ (n : Nat) : decide ((n + 1) % 2 = 1) = !decide (n % 2 = 1) := by
  rw [← decide_not, decide_eq_decide]
  omega

namespace Screen

variable (s : Screen) (pixels : List Pixel)

/-- A pixel comes out inverted if it is met an odd number of times. -/
theorem lit_flipAll (p : Pixel) :
    (s.flipAll pixels).1.lit p = (s.lit p ^^ decide (pixels.count p % 2 = 1)) := by
  induction pixels generalizing s with
  | nil => simp [flipAll]
  | cons q pixels ih =>
    rw [flipAll, ih, lit_flip, Bool.xor_assoc]
    -- Meeting another pixel does not change the parity.
    congr 1
    by_cases hq : q = p
    · subst hq
      rw [List.count_cons_self, decide_odd_succ, decide_eq_true rfl, Bool.true_xor]
    · rw [List.count_cons_of_ne hq, decide_eq_false hq, Bool.false_xor]

variable {pixels}

theorem lit_flipAll_of_nodup (h : pixels.Nodup) (p : Pixel) :
    (s.flipAll pixels).1.lit p = (s.lit p ^^ decide (p ∈ pixels)) := by
  rw [lit_flipAll, List.Nodup.count h]
  by_cases hp : p ∈ pixels
  · simp [hp]
  · simp [hp]

/-- If no pixel is met twice, each is in its turn as it was at the start. -/
theorem erases_flipAll_iff (h : pixels.Nodup) :
    (s.flipAll pixels).2 = true ↔ ∃ p ∈ pixels, s.lit p = true := by
  induction pixels generalizing s with
  | nil => simp [flipAll]
  | cons q pixels ih =>
    obtain ⟨hq, hrest⟩ := List.nodup_cons.mp h
    -- The pixels that are still to come have not been inverted yet.
    have hsame : ∀ p ∈ pixels, (s.flip q).lit p = s.lit p := by
      intro p hp
      have hne : q ≠ p := fun heq => hq (heq ▸ hp)
      rw [lit_flip, decide_eq_false hne, Bool.xor_false]
    rw [flipAll, Bool.or_eq_true, ih (s.flip q) hrest, List.exists_mem_cons_iff]
    refine or_congr_right (exists_congr fun p => and_congr_right fun hp => ?_)
    rw [hsame p hp]

end Screen

/-! ## The pixels of a sprite -/

theorem bitOf_eq_testBit (b : UInt8) (i : Fin 8) : bitOf b i = b.toNat.testBit (7 - i.val) := by
  rw [bitOf, BitVec.getMsbD, decide_eq_true i.isLt, Bool.true_and]
  rfl

namespace Sprite

variable (sprite : Sprite)

/-- Where a sprite is placed from left to right. -/
theorem left_place (x y : Nat) (rows : List UInt8) :
    (place x y rows).left.val = if x ≤ 56 then x else 0 := by
  change (if h : x < 57 then (⟨x, h⟩ : Fin 57) else 0).val = _
  by_cases h : x < 57
  · rw [dif_pos h, if_pos (Nat.le_of_lt_succ h)]
  · rw [dif_neg h, if_neg (by omega)]
    rfl

/-- The pixel lies under a set bit of the sprite. -/
def Covers (p : Pixel) : Prop :=
  sprite.left.val ≤ p.x.val ∧ p.x.val < sprite.left.val + 8 ∧
    ∃ row ∈ sprite.rows.zipIdx, (sprite.top + row.2) % 32 = p.y.val ∧
      row.1.toNat.testBit (7 - (p.x.val - sprite.left.val)) = true

instance (p : Pixel) : Decidable (sprite.Covers p) :=
  inferInstanceAs (Decidable (_ ∧ _ ∧ ∃ row ∈ sprite.rows.zipIdx, _))

theorem mem_rowCells {row : UInt8 × Nat} {p : Pixel} :
    p ∈ sprite.rowCells row ↔
      sprite.left.val ≤ p.x.val ∧ p.x.val < sprite.left.val + 8 ∧
        (sprite.top + row.2) % 32 = p.y.val ∧
          row.1.toNat.testBit (7 - (p.x.val - sprite.left.val)) = true := by
  rw [rowCells, List.mem_map]
  constructor
  · rintro ⟨c, hc, rfl⟩
    have hbit := (List.mem_filter.mp hc).2
    have hcolumn : sprite.left.val + c.val - sprite.left.val = c.val :=
      Nat.add_sub_cancel_left _ _
    refine ⟨Nat.le_add_right _ _, Nat.add_lt_add_left c.isLt _, rfl, ?_⟩
    rw [bitOf_eq_testBit] at hbit
    simp only [cell, hcolumn]
    exact hbit
  · rintro ⟨hleft, hright, hrow, hbit⟩
    let c : Fin 8 := ⟨p.x.val - sprite.left.val, by omega⟩
    refine ⟨c, List.mem_filter.mpr ⟨List.mem_finRange c, ?_⟩, ?_⟩
    · rw [bitOf_eq_testBit]
      exact hbit
    · obtain ⟨⟨px, hpx⟩, ⟨py, hpy⟩⟩ := p
      simp only [cell, Pixel.mk.injEq, Fin.mk.injEq]
      exact ⟨Nat.add_sub_cancel' hleft, hrow⟩

/-- Drawing a sprite meets the pixels that it covers. -/
theorem mem_cells {p : Pixel} : p ∈ sprite.cells ↔ sprite.Covers p := by
  simp only [cells, Covers, List.mem_flatMap, mem_rowCells]
  constructor
  · rintro ⟨row, hrow, hleft, hright, hcovers⟩
    exact ⟨hleft, hright, row, hrow, hcovers⟩
  · rintro ⟨hleft, hright, row, hrow, hcovers⟩
    exact ⟨row, hrow, hleft, hright, hcovers⟩

theorem nodup_rowCells (row : UInt8 × Nat) : (sprite.rowCells row).Nodup := by
  apply ((List.nodup_finRange 8).filter _).map
  intro c d hcd
  have hx : sprite.left.val + c.val = sprite.left.val + d.val :=
    congrArg (fun p : Pixel => p.x.val) hcd
  exact Fin.ext (Nat.add_left_cancel hx)

/-- It meets each of them once, as there are not more rows than the screen has. -/
theorem nodup_cells (h : sprite.rows.length ≤ 32) : sprite.cells.Nodup := by
  refine List.nodup_flatMap.mpr ⟨fun row _ => sprite.nodup_rowCells row, ?_⟩
  have hplaces : sprite.rows.zipIdx.Pairwise fun row row' => row.2 < row'.2 := by
    rw [← List.pairwise_map, List.zipIdx_map_snd]
    exact List.pairwise_lt_range'
  -- Rows at different places of the sprite are at different heights of the screen.
  refine hplaces.imp_of_mem fun {row row'} _ hrow' hlt p hp hp' => ?_
  have hbound : row'.2 < sprite.rows.length := List.snd_lt_of_mem_zipIdx hrow'
  obtain ⟨-, -, hheight, -⟩ := sprite.mem_rowCells.mp hp
  obtain ⟨-, -, hheight', -⟩ := sprite.mem_rowCells.mp hp'
  omega

end Sprite

/-! ## Drawing -/

namespace Screen

variable (s : Screen) {sprite : Sprite}

/-- What is lit is on the screen. -/
theorem pixel_eq_true_iff {x y : Nat} :
    s.pixel x y = true ↔ ∃ p : Pixel, p.x.val = x ∧ p.y.val = y ∧ s.lit p = true := by
  constructor
  · intro h
    by_cases hon : x < 64 ∧ y < 32
    · let p : Pixel := ⟨⟨x, hon.1⟩, ⟨y, hon.2⟩⟩
      exact ⟨p, rfl, rfl, (s.pixel_eq_lit p).symm.trans h⟩
    · rw [s.pixel_of_off hon] at h
      cases h
  · rintro ⟨p, rfl, rfl, hlit⟩
    exact (s.pixel_eq_lit p).trans hlit

/-- Drawing inverts just the pixels that the sprite covers. -/
theorem lit_draw (h : sprite.rows.length ≤ 32) (p : Pixel) :
    (s.draw sprite).1.lit p = (s.lit p ^^ decide (sprite.Covers p)) := by
  have hflipped := s.lit_flipAll_of_nodup (sprite.nodup_cells h) p
  rw [decide_eq_decide.mpr sprite.mem_cells] at hflipped
  exact hflipped

theorem lit_draw_ne_iff (h : sprite.rows.length ≤ 32) (p : Pixel) :
    (s.draw sprite).1.lit p ≠ s.lit p ↔ sprite.Covers p := by
  rw [s.lit_draw h]
  by_cases hp : sprite.Covers p
  · simp [hp]
  · simp [hp]

theorem pixel_draw_ne_iff (h : sprite.rows.length ≤ 32) (p : Pixel) :
    (s.draw sprite).1.pixel p.x.val p.y.val ≠ s.pixel p.x.val p.y.val ↔ sprite.Covers p := by
  rw [pixel_eq_lit, pixel_eq_lit, s.lit_draw_ne_iff h]

/-- A lit pixel is erased if the sprite covers one. -/
theorem erases_draw_iff (h : sprite.rows.length ≤ 32) :
    (s.draw sprite).2 = true ↔ ∃ p, sprite.Covers p ∧ s.lit p = true := by
  have hflipped := s.erases_flipAll_iff (sprite.nodup_cells h)
  simp only [sprite.mem_cells] at hflipped
  exact hflipped

/-- In other words, some pixel is lit before and dark after the whole drawing. -/
theorem erases_draw_iff_pixel (h : sprite.rows.length ≤ 32) :
    (s.draw sprite).2 = true ↔
      ∃ x y, s.pixel x y = true ∧ (s.draw sprite).1.pixel x y = false := by
  rw [s.erases_draw_iff h]
  constructor
  · rintro ⟨p, hcovers, hlit⟩
    refine ⟨p.x.val, p.y.val, (s.pixel_eq_lit p).trans hlit, ?_⟩
    rw [pixel_eq_lit, s.lit_draw h, hlit, decide_eq_true hcovers]
    rfl
  · rintro ⟨x, y, hbefore, hafter⟩
    obtain ⟨p, rfl, rfl, hlit⟩ := s.pixel_eq_true_iff.mp hbefore
    refine ⟨p, (s.lit_draw_ne_iff h p).mp ?_, hlit⟩
    rw [pixel_eq_lit] at hafter
    rw [hafter, hlit]
    exact Bool.false_ne_true

end Screen

end ChipEight
