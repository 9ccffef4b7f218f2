import ChipEight.Proofs.Machine.ByteDrawing

/-!
# Drawing a sprite and taking it back

Programs move a picture about by drawing it a second time where it stands, which takes it away, and
then drawing it somewhere else. Whatever else was on the screen is there again after the second
time, provided that nothing was drawn in between and that the instruction finds the same sprite.

The two flags together tell what the sprite met. The first time it erases what was lit under it, and
the second time what was dark before the first time. Each set bit of a sprite meets one or the
other, so a sprite that is not empty sets at least one of the flags. The second flag is not always
set: a sprite that only erased is drawn anew the second time.

## Main definitions

- `Machine.FallsOn`: whether a set bit of the sprite falls on a pixel that is lit, or on one that is
  dark

## Main statements

- `Machine.draw_twice`: the picture and the flags when a sprite is drawn twice
-/

namespace ChipEight.Machine

/-- A set bit of the sprite that an instruction draws falls on a pixel that is lit, or on one that
is dark. -/
def FallsOn (m : Machine) (i : Instruction) (lit : Bool) : Prop :=
  let left := if (m.register i.x).toNat ≤ 56 then (m.register i.x).toNat else 0
  ∃ r < i.digit.val, ∃ c < 8,
    (m.memory.byteAt (m.index.toNat + r)).toNat.testBit (7 - c) = true ∧
      m.screen.pixel (left + c) (((m.register i.y).toNat + r) % 32) = lit

section FallsOn

variable {m : Machine} {i : Instruction}

theorem fallsOn_iff {lit : Bool} :
    m.FallsOn i lit ↔ ∃ p, (m.spriteOf i).Covers p ∧ m.screen.lit p = lit := by
  rw [FallsOn, ← left_spriteOf]
  have hleft := (m.spriteOf i).left.isLt
  simp only [covers_spriteOf_iff, ← left_spriteOf]
  -- A row and a column of the sprite on one side, and on the other the pixel that they fall on.
  constructor
  · rintro ⟨r, hr, c, hc, hbit, hpixel⟩
    let p : Pixel := ⟨⟨(m.spriteOf i).left.val + c, by omega⟩,
      ⟨((m.register i.y).toNat + r) % 32, Nat.mod_lt _ (by decide)⟩⟩
    refine ⟨p, ⟨Nat.le_add_right _ _, Nat.add_lt_add_left hc _, r, hr, rfl, ?_⟩, ?_⟩
    · rw [show p.x.val - (m.spriteOf i).left.val = c from Nat.add_sub_cancel_left _ _]
      exact hbit
    · rw [← m.screen.pixel_eq_lit]
      exact hpixel
  · rintro ⟨p, ⟨hlow, hhigh, r, hr, hrow, hbit⟩, hlit⟩
    refine ⟨r, hr, p.x.val - (m.spriteOf i).left.val, by omega, hbit, ?_⟩
    rw [Nat.add_sub_cancel' hlow, hrow, m.screen.pixel_eq_lit]
    exact hlit

/-- A set bit of the sprite meets a pixel that is lit or one that is dark. -/
theorem exists_fallsOn {r : Nat} (hr : r < i.digit.val)
    (hbyte : m.memory.byteAt (m.index.toNat + r) ≠ 0) : ∃ lit, m.FallsOn i lit := by
  obtain ⟨c, hc⟩ := byte_ne_zero_iff.mp hbyte
  rw [bitOf_eq_testBit] at hc
  exact ⟨_, r, hr, c.val, c.isLt, hc, rfl⟩

theorem not_fallsOn_of_zero (hbytes : ∀ r < i.digit.val, m.memory.byteAt (m.index.toNat + r) = 0)
    (lit : Bool) : ¬m.FallsOn i lit := by
  rintro ⟨r, hr, c, -, hbit, -⟩
  rw [hbytes r hr, show (0 : UInt8).toNat = 0 from rfl, Nat.zero_testBit] at hbit
  cases hbit

end FallsOn

/-! ## The flags -/

/-- The flag after a step that draws, given what the drawing erases. -/
theorem flag_of_draw {m : Machine} {i : Instruction} {P : Prop} (hrun : m.halted = false)
    (hi : m.instruction? = some i) (hdraw : i.operation = .draw)
    (hfits : m.index.toNat + i.digit.val ≤ 4096)
    (herases : (m.screen.draw (m.spriteOf i)).2 = true ↔ P) :
    m.step.machine.register 0xF = 1 ∧ P ∨ m.step.machine.register 0xF = 0 ∧ ¬P := by
  rw [(step_of_draw hrun hi hdraw hfits).2, ← herases, register_setFlag]
  cases (m.screen.draw (m.spriteOf i)).2 with
  | true => exact .inl ⟨rfl, rfl⟩
  | false => exact .inr ⟨rfl, Bool.false_ne_true⟩

/-- An instruction draws the same sprite where it finds the same coordinates and rows. -/
theorem spriteOf_congr {m n : Machine} {i : Instruction} (hvx : n.register i.x = m.register i.x)
    (hvy : n.register i.y = m.register i.y)
    (hrows : ∀ r < i.digit.val, n.memory.byteAt (n.index.toNat + r)
      = m.memory.byteAt (m.index.toNat + r)) :
    n.spriteOf i = m.spriteOf i := by
  have hbytes : n.memory.bytesAt n.index.toNat i.digit.val
      = m.memory.bytesAt m.index.toNat i.digit.val :=
    List.map_congr_left fun r hr => hrows r (List.mem_range.mp hr)
  rw [spriteOf, spriteOf, hvx, hvy, hbytes]

/-- **A sprite that is drawn twice is taken back.** Let a step draw a sprite, and let a later step
perform the same instruction while the index register, the two coordinates, the rows of the sprite
and the picture are as the first step left them. Then the picture is the one before the first step.
The first step sets the flag exactly if the sprite met a lit pixel, and the second one exactly if
it met a pixel that was dark before the first step. So one of the flags is set unless the sprite is
empty, and then none is. -/
theorem draw_twice {m n : Machine} {i : Instruction} (hdraw : i.operation = .draw)
    (hx : i.x ≠ 0xF) (hy : i.y ≠ 0xF) (hfits : m.index.toNat + i.digit.val ≤ 4096)
    (hrun : m.halted = false) (hi : m.instruction? = some i)
    (hrunAgain : n.halted = false) (hiAgain : n.instruction? = some i)
    (hindex : n.index = m.step.machine.index)
    (hvx : n.register i.x = m.step.machine.register i.x)
    (hvy : n.register i.y = m.step.machine.register i.y)
    (hrows : ∀ r < i.digit.val, n.memory.byteAt (n.index.toNat + r)
      = m.step.machine.memory.byteAt (m.step.machine.index.toNat + r))
    (hpicture : n.screen.bytes = m.step.machine.screen.bytes) :
    let first := m.step.machine.register 0xF
    let second := n.step.machine.register 0xF
    m.step.verdict = .ok .continued ∧ n.step.verdict = .ok .continued ∧
      n.step.machine.screen.bytes = m.screen.bytes ∧
      (first = 1 ∧ m.FallsOn i true ∨ first = 0 ∧ ¬m.FallsOn i true) ∧
      (second = 1 ∧ m.FallsOn i false ∨ second = 0 ∧ ¬m.FallsOn i false) ∧
      ((∃ r < i.digit.val, m.memory.byteAt (m.index.toNat + r) ≠ 0) → first = 1 ∨ second = 1) ∧
      ((∀ r < i.digit.val, m.memory.byteAt (m.index.toNat + r) = 0) →
        first = 0 ∧ second = 0) := by
  intro first second
  obtain ⟨hverdict, hafter⟩ := step_of_draw hrun hi hdraw hfits
  have hlength := m.length_rows_spriteOf_le i
  -- The first step leaves everything alone that the second one reads, but for the picture.
  obtain ⟨-, hmemory, hkept, hregisters⟩ := kept_of_draw hrun hi hdraw hfits
  rw [hkept] at hindex hrows
  rw [hmemory] at hrows
  rw [hregisters i.x hx] at hvx
  rw [hregisters i.y hy] at hvy
  rw [hafter] at hpicture
  have hsprite : n.spriteOf i = m.spriteOf i := spriteOf_congr hvx hvy hrows
  have hfitsAgain : n.index.toNat + i.digit.val ≤ 4096 := by rwa [hindex]
  obtain ⟨hverdictAgain, hafterAgain⟩ := step_of_draw hrunAgain hiAgain hdraw hfitsAgain
  have hfirst : first = 1 ∧ m.FallsOn i true ∨ first = 0 ∧ ¬m.FallsOn i true :=
    flag_of_draw hrun hi hdraw hfits ((m.screen.erases_draw_iff hlength).trans fallsOn_iff.symm)
  have hsecond : second = 1 ∧ m.FallsOn i false ∨ second = 0 ∧ ¬m.FallsOn i false := by
    apply flag_of_draw hrunAgain hiAgain hdraw hfitsAgain
    rw [hsprite]
    exact (Screen.erases_draw_again_iff hlength hpicture).trans fallsOn_iff.symm
  refine ⟨hverdict, hverdictAgain, ?_, hfirst, hsecond, ?_, ?_⟩
  · rw [hafterAgain, hsprite]
    exact Screen.bytes_draw_again hlength hpicture
  · -- A set bit falls on a pixel, and the flag of the one or the other step tells what that was.
    rintro ⟨r, hr, hbyte⟩
    obtain ⟨lit, hfalls⟩ := exists_fallsOn hr hbyte
    cases lit with
    | true => exact .inl (hfirst.resolve_right fun h => h.2 hfalls).1
    | false => exact .inr (hsecond.resolve_right fun h => h.2 hfalls).1
  · intro hbytes
    exact ⟨(hfirst.resolve_left fun h => not_fallsOn_of_zero hbytes true h.2).1,
      (hsecond.resolve_left fun h => not_fallsOn_of_zero hbytes false h.2).1⟩

theorem instruction?_step_astride : astride.step.machine.instruction? = some drawGlyph := by
  rw [(step_of_draw rfl instruction?_astride rfl (by decide)).2]
  have hword : (Memory.image #[0xD0, 0x15, 0xD0, 0x15]).word 0x202 = .ok (.ofBytes 0xD0 0x15) :=
    Memory.word_image (i := 2) (by decide) (by decide)
  exact instruction?_of_decode hword (by decide)

/-- The first glyph meets the lit pixel and dark ones. So both flags are set, and in the end the
pixel is lit again. -/
theorem draw_twice_astride :
    astride.step.machine.step.machine.screen.bytes = astride.screen.bytes ∧
      astride.step.machine.register 0xF = 1 ∧ astride.step.machine.step.machine.register 0xF = 1 := by
  have hrunAgain : astride.step.machine.halted = false :=
    (kept_of_draw rfl instruction?_astride rfl (by decide)).1
  obtain ⟨-, -, hpicture, hfirst, hsecond, -⟩ :=
    draw_twice (i := drawGlyph) rfl (by decide) (by decide) (by decide) rfl instruction?_astride
      hrunAgain instruction?_step_astride rfl rfl rfl (fun _ _ => rfl) rfl
  have hlit : astride.FallsOn drawGlyph true :=
    ⟨1, by decide, 3, by decide, by rw [byteAt_astride (by decide)]; decide, by decide⟩
  have hdark : astride.FallsOn drawGlyph false :=
    ⟨0, by decide, 0, by decide, by rw [byteAt_astride (by decide)]; decide, by decide⟩
  exact ⟨hpicture, (hfirst.resolve_right fun h => h.2 hlit).1,
    (hsecond.resolve_right fun h => h.2 hdark).1⟩

end ChipEight.Machine
