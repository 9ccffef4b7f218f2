import ChipEight.Proofs.Machine.Drawing
import ChipEight.Proofs.Screen.Masks

/-!
# Drawing instructions, byte by byte

An instruction that draws goes through the pixels of its sprite one by one. It could as well go
through the bytes of the picture and XOR one or two masks for each row of the sprite: the bytes and
the flag come out the same, whatever the picture was before. The flag is asked of each pixel in one
way and of each mask in the other, and in both ways of all of them together.

## Main statements

- `Machine.draw_by_bytes`: a step that draws, as the masks of its sprite
-/

namespace ChipEight.Machine

variable {m : Machine} {i : Instruction}

/-- **Drawing by pixels is drawing by bytes.** A step that draws leaves the bytes of the picture and
the flag as the masks of the sprite do, one after the other. The flag is set exactly if a mask meets
a set bit of its byte before the drawing. The masks of a row all go into the row of the screen that
the row of the sprite falls on, so the second one never runs over into the next row. -/
theorem draw_by_bytes (hrun : m.halted = false) (hi : m.instruction? = some i)
    (hdraw : i.operation = .draw) (hfits : m.index.toNat + i.digit.val ≤ 4096) :
    let vx := (m.register i.x).toNat
    let vy := (m.register i.y).toNat
    let sprite := Sprite.place vx vy (m.memory.bytesAt m.index.toNat i.digit.val)
    let blended := m.screen.blendAll sprite.masks
    let after := m.step.machine
    m.step.verdict = .ok .continued ∧
      sprite.left.val = (if vx ≤ 56 then vx else 0) ∧
      after.screen.bytes = blended.1.bytes ∧
      after.register 0xF = (if blended.2 then 1 else 0) ∧
      (blended.2 = true ↔ ∃ b ∈ sprite.masks, m.screen.bytes[b.byteIndex] &&& b.mask ≠ 0) ∧
      ∀ row ∈ sprite.rows.zipIdx, ∀ b ∈ sprite.rowMasks row,
        b.byteIndex.val / 8 = (vy + row.2) % 32 := by
  intro vx vy sprite blended after
  obtain ⟨hverdict, hafter⟩ := step_of_draw hrun hi hdraw hfits
  have hblended : blended = m.screen.flipAll sprite.cells := m.screen.blendAll_masks sprite
  refine ⟨hverdict, left_spriteOf m i, ?_, ?_, ?_, ?_⟩
  · rw [hblended]
    exact congrArg (fun n : Machine => n.screen.bytes) hafter
  · rw [hblended, show after = _ from hafter]
    exact register_setFlag _ _
  · exact m.screen.erases_blendAll_iff (m.length_rows_spriteOf_le i)
  · intro row _ b hb
    rw [b.byteIndex_div, Sprite.y_of_mem_rowMasks hb]
    rfl

/-- A machine that is to draw the glyph of 0 twice, in columns 6 to 9 and across the lower edge. A
pixel in column 9 is lit, where the second row of the glyph has a set bit. -/
def astride : Machine :=
  { ((fresh (.image #[0xD0, 0x15, 0xD0, 0x15]) (.ofSeed 0)).setRegister 0 6).setRegister 1 30 with
    index := 0x100
    screen := Screen.blank.flip ⟨⟨9, by decide⟩, ⟨31, by decide⟩⟩ }

/-- The instruction that it performs. -/
def drawGlyph : Instruction := { x := 0, y := 1, immediate := 5, operation := .draw }

theorem instruction?_astride : astride.instruction? = some drawGlyph := by
  have hword : astride.memory.word astride.pc.toNat = .ok (.ofBytes 0xD0 0x15) :=
    Memory.word_image (i := 0) (by decide) (by decide)
  exact instruction?_of_decode hword (by decide)

theorem byteAt_astride {r : Nat} (hr : r < 80) :
    astride.memory.byteAt (astride.index.toNat + r) = Glyphs.rows.getD r 0 :=
  Memory.byteAt_image #[0xD0, 0x15, 0xD0, 0x15] hr

/-- The second row of the glyph falls on two bytes, and there the second mask meets the pixel. -/
theorem draw_by_bytes_astride :
    astride.step.verdict = .ok .continued ∧ astride.step.machine.register 0xF = 1 := by
  have hfits : astride.index.toNat + drawGlyph.digit.val ≤ 4096 := by decide
  obtain ⟨hverdict, -, -, hflag, hmeets, -⟩ :=
    draw_by_bytes rfl instruction?_astride rfl hfits
  have hrow : (0x90, 1) ∈ (astride.memory.bytesAt astride.index.toNat 5).zipIdx :=
    Memory.mem_zipIdx_bytesAt.mpr ⟨by decide, (byteAt_astride (r := 1) (by decide)).symm⟩
  have hset := hmeets.mpr ⟨⟨31, 1, 0x40⟩, List.mem_flatMap.mpr ⟨(0x90, 1), hrow, by decide⟩,
    by decide⟩
  rw [hset] at hflag
  exact ⟨hverdict, hflag⟩

end ChipEight.Machine
