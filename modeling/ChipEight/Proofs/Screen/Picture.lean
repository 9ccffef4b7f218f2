import ChipEight.Proofs.Screen.Coverage

/-!
# Pictures and their pixels

The bytes of a picture hold its pixels and nothing else, so two screens with the same pixels have
the same bytes. What is known of the pixels that drawing inverts is therefore known of the bytes.

A sprite inverts the pixels that it covers, each once. If several sprites are drawn one after the
other, a pixel comes out inverted if an odd number of them cover it, and their order does not matter
to the picture. To draw a sprite twice is to draw nothing. Whether pixels are erased does depend on
the order: the second time it is those that were dark before the first time.

## Main definitions

- `Drawing`, `Drawing.Covers`: what an instruction draws, and the pixels under its set bits
- `Screen.drawAll`: the screen after several drawings

## Main statements

- `Screen.bytes_eq_of_lit`: a picture is known by its pixels
- `Screen.lit_drawAll`, `Screen.bytes_drawAll_of_perm`: several drawings, in any order
- `Screen.bytes_draw_again`, `Screen.erases_draw_again_iff`: a sprite that is drawn again
-/

namespace ChipEight

/-! ## Bytes and pixels -/

/-- The pixel at a bit of a byte of the picture. -/
def Pixel.ofIndices (byte : Fin 256) (bit : Fin 8) : Pixel where
  x := ⟨byte.val % 8 * 8 + bit.val, by have := bit.isLt; omega⟩
  y := ⟨byte.val / 8, by have := byte.isLt; omega⟩

theorem Pixel.byteIndex_ofIndices (byte : Fin 256) (bit : Fin 8) :
    (ofIndices byte bit).byteIndex = byte := by
  have hbit := bit.isLt
  apply Fin.ext
  simp only [ofIndices, byteIndex]
  omega

theorem Pixel.bitIndex_ofIndices (byte : Fin 256) (bit : Fin 8) :
    (ofIndices byte bit).bitIndex = bit := by
  have hbit := bit.isLt
  apply Fin.ext
  simp only [ofIndices, bitIndex]
  omega

theorem byte_eq_of_bitOf {a b : UInt8} (h : ∀ i, bitOf a i = bitOf b i) : a = b := by
  apply UInt8.toBitVec_inj.mp
  apply BitVec.eq_of_getMsbD_eq
  exact fun i hi => h ⟨i, hi⟩

theorem byte_ne_zero_iff {b : UInt8} : b ≠ 0 ↔ ∃ i, bitOf b i = true := by
  have hzero : ∀ i, bitOf 0 i = false := by decide
  constructor
  · intro hne
    by_contra hnone
    apply hne
    apply byte_eq_of_bitOf
    intro i
    rw [hzero]
    exact Bool.eq_false_iff.mpr fun hi => hnone ⟨i, hi⟩
  · rintro ⟨i, hi⟩ rfl
    rw [hzero] at hi
    cases hi

/-! ## Drawings -/

/-- What an instruction draws: rows of eight pixels, and the coordinates that are asked for. -/
structure Drawing where
  x : UInt8
  y : UInt8
  rows : List UInt8
  -- The height is a digit.
  length_rows_lt : rows.length < 16
  deriving DecidableEq

namespace Drawing

variable (d : Drawing)

/-- The sprite at its place. -/
def sprite : Sprite := .place d.x.toNat d.y.toNat d.rows

theorem length_rows_le : d.sprite.rows.length ≤ 32 :=
  Nat.le_of_lt (Nat.lt_trans d.length_rows_lt (by decide))

/-- The pixel lies under a set bit. All eight columns stand at the left edge if they do not fit
where they are asked for, and rows go on at the top. -/
def Covers (p : Pixel) : Prop :=
  let left := if d.x.toNat ≤ 56 then d.x.toNat else 0
  left ≤ p.x.val ∧ p.x.val < left + 8 ∧
    ∃ row ∈ d.rows.zipIdx, (d.y.toNat + row.2) % 32 = p.y.val ∧
      row.1.toNat.testBit (7 - (p.x.val - left)) = true

instance (p : Pixel) : Decidable (d.Covers p) :=
  inferInstanceAs (Decidable (_ ∧ _ ∧ ∃ row ∈ d.rows.zipIdx, _))

theorem covers_sprite_iff {p : Pixel} : d.sprite.Covers p ↔ d.Covers p := by
  rw [Sprite.Covers, sprite, Sprite.left_place]
  rfl

end Drawing

/-! ## What a picture is known by -/

namespace Screen

variable {s t : Screen}

theorem lit_congr (h : s.bytes = t.bytes) (p : Pixel) : s.lit p = t.lit p := by
  simp only [lit, h]

theorem lit_ofIndices (s : Screen) (byte : Fin 256) (bit : Fin 8) :
    s.lit (.ofIndices byte bit) = bitOf s.bytes[byte] bit := by
  simp only [lit, Pixel.byteIndex_ofIndices, Pixel.bitIndex_ofIndices]

/-- A picture is known by its pixels. -/
theorem bytes_eq_of_lit (h : ∀ p, s.lit p = t.lit p) : s.bytes = t.bytes := by
  apply Vector.ext
  intro i hi
  apply byte_eq_of_bitOf
  intro bit
  have hlit := h (.ofIndices ⟨i, hi⟩ bit)
  rwa [lit_ofIndices, lit_ofIndices] at hlit

theorem eq_of_lit (h : ∀ p, s.lit p = t.lit p) (hdirty : s.dirty = t.dirty) : s = t := by
  have hbytes := bytes_eq_of_lit h
  obtain ⟨_, _⟩ := s
  obtain ⟨_, _⟩ := t
  obtain rfl : _ = _ := hbytes
  obtain rfl : _ = _ := hdirty
  rfl

/-- If no pixel is met twice, the order in which they are met does not matter at all. -/
theorem flipAll_eq_of_nodup (s : Screen) {pixels others : List Pixel} (hpixels : pixels.Nodup)
    (hothers : others.Nodup) (hmem : ∀ p, p ∈ pixels ↔ p ∈ others) :
    s.flipAll pixels = s.flipAll others := by
  apply Prod.ext
  · -- No pixel comes up twice in either list, so each is inverted if it is there.
    apply eq_of_lit
    · intro p
      rw [s.lit_flipAll_of_nodup hpixels, s.lit_flipAll_of_nodup hothers,
        decide_eq_decide.mpr (hmem p)]
    · rw [dirty_flipAll, dirty_flipAll]
  · rw [Bool.eq_iff_iff, s.erases_flipAll_iff hpixels, s.erases_flipAll_iff hothers]
    simp only [hmem]

theorem flipAll_of_bytes_eq (h : s.bytes = t.bytes) (pixels : List Pixel) :
    (s.flipAll pixels).1.bytes = (t.flipAll pixels).1.bytes ∧
      (s.flipAll pixels).2 = (t.flipAll pixels).2 := by
  induction pixels generalizing s t with
  | nil => exact ⟨h, rfl⟩
  | cons p pixels ih =>
    have hflip : (s.flip p).bytes = (t.flip p).bytes := by simp only [flip, h]
    obtain ⟨hbytes, herased⟩ := ih hflip
    exact ⟨hbytes, by simp only [flipAll, lit_congr h, herased]⟩

/-- Drawing sets the flag, whatever it was. -/
theorem draw_of_bytes_eq (h : s.bytes = t.bytes) (sprite : Sprite) :
    s.draw sprite = t.draw sprite := by
  obtain ⟨hbytes, herased⟩ := flipAll_of_bytes_eq h sprite.cells
  simp only [draw, markDirty, hbytes, herased]

/-! ## Several drawings -/

/-- The screen after several drawings, the first of the list first. -/
def drawAll (s : Screen) (drawings : List Drawing) : Screen :=
  drawings.foldl (fun s d => (s.draw d.sprite).1) s

theorem drawAll_cons (s : Screen) (d : Drawing) (drawings : List Drawing) :
    s.drawAll (d :: drawings) = (s.draw d.sprite).1.drawAll drawings := rfl

theorem drawAll_append (s : Screen) (drawings more : List Drawing) :
    s.drawAll (drawings ++ more) = (s.drawAll drawings).drawAll more := List.foldl_append

theorem bytes_drawAll_congr (h : s.bytes = t.bytes) (drawings : List Drawing) :
    (s.drawAll drawings).bytes = (t.drawAll drawings).bytes := by
  -- The first drawing sets the flag, and from then on the screens are the same.
  cases drawings with
  | nil => exact h
  | cons d drawings => rw [drawAll_cons, drawAll_cons, draw_of_bytes_eq h]

/-- A pixel comes out inverted if an odd number of the drawings cover it. -/
theorem lit_drawAll (s : Screen) (drawings : List Drawing) (p : Pixel) :
    (s.drawAll drawings).lit p =
      (s.lit p ^^ decide (drawings.countP (fun d => d.Covers p) % 2 = 1)) := by
  -- The rest is drawn on another screen, so the induction is for all screens.
  induction drawings generalizing s with
  | nil => simp [drawAll]
  | cons d drawings ih =>
    rw [drawAll_cons, ih, s.lit_draw d.length_rows_le, Bool.xor_assoc,
      decide_eq_decide.mpr d.covers_sprite_iff]
    congr 1
    by_cases hp : d.Covers p
    · rw [List.countP_cons, if_pos (decide_eq_true hp), decide_odd_succ, decide_eq_true hp,
        Bool.true_xor]
    · rw [List.countP_cons, decide_eq_false hp, if_neg Bool.false_ne_true, Nat.add_zero,
        Bool.false_xor]

/-- The order of the drawings does not matter to the picture. -/
theorem bytes_drawAll_of_perm {drawings others : List Drawing} (h : drawings.Perm others) :
    (s.drawAll drawings).bytes = (s.drawAll others).bytes := by
  apply bytes_eq_of_lit
  intro p
  rw [lit_drawAll, lit_drawAll, h.countP_eq]

/-! ## The same sprite again -/

section Again

variable {sprite : Sprite} (h : sprite.rows.length ≤ 32) (ht : t.bytes = (s.draw sprite).1.bytes)

include h ht

/-- A sprite that is drawn again takes back what it did. -/
theorem bytes_draw_again : (t.draw sprite).1.bytes = s.bytes := by
  apply bytes_eq_of_lit
  intro p
  rw [t.lit_draw h, lit_congr ht, s.lit_draw h, Bool.xor_assoc, Bool.xor_self, Bool.xor_false]

/-- What it erases the second time is what was dark before the first time. -/
theorem erases_draw_again_iff :
    (t.draw sprite).2 = true ↔ ∃ p, sprite.Covers p ∧ s.lit p = false := by
  rw [t.erases_draw_iff h]
  refine exists_congr fun p => and_congr_right fun hcovers => ?_
  rw [lit_congr ht, s.lit_draw h, decide_eq_true hcovers, Bool.xor_true, Bool.not_eq_true']

end Again

end Screen

end ChipEight
