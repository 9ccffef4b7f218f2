import ChipEight.Proofs.Guarded.Screen
import ChipEight.Proofs.Machine.Checks
import ChipEight.Proofs.Machine.Loading
import ChipEight.Proofs.Screen.Coverage

/-!
# Drawing

An instruction that draws finds its sprite in memory, where the index register points, and the
place of it in two registers. All of this is read before anything is written, so it does not matter
if the flag goes into a register that held a coordinate, or if the sprite is a part of the program.

## Main definitions

- `Memory.bytesAt`: a block of memory

## Main statements

- `Machine.step_of_draw`: a step that draws, as a whole
- `Machine.draw_is_exact`: which pixels change, and what else does
-/

namespace ChipEight

namespace Memory

/-- The bytes of a block. -/
def bytesAt (m : Memory) (start len : Nat) : List UInt8 :=
  (List.range len).map fun r => m.byteAt (start + r)

theorem read_eq_bytesAt (m : Memory) {start len : Nat} (h : start + len ≤ 4096) :
    m.read start len = .ok (m.bytesAt start len) := by
  rw [read, dif_pos h]
  congr 1
  apply List.ext_getElem
  · simp [bytesAt]
  · intro r hr hr'
    have hlen : r < len := by simpa using hr
    have hin : start + r < 4096 := by omega
    simp [bytesAt, byteAt, Vector.getElem?_eq_getElem hin]

/-- The rows of a sprite, each with its place. -/
theorem mem_zipIdx_bytesAt {m : Memory} {start len : Nat} {row : UInt8 × Nat} :
    row ∈ (m.bytesAt start len).zipIdx ↔ row.2 < len ∧ row.1 = m.byteAt (start + row.2) := by
  obtain ⟨byte, r⟩ := row
  rw [List.mk_mem_zipIdx_iff_getElem?, bytesAt, List.getElem?_map]
  by_cases hr : r < len
  · simp [hr, eq_comm]
  · simp [hr]

/-- The glyphs stand below every program. -/
theorem byteAt_image (program : Array UInt8) {r : Nat} (hr : r < 80) :
    (image program).byteAt (0x100 + r) = Glyphs.rows.getD r 0 := by
  have hin : 0x100 + r < 4096 := by omega
  have hglyph : 0x100 ≤ 0x100 + r ∧ 0x100 + r ≤ 0x14F := by omega
  rw [byteAt, image, Vector.getElem?_ofFn, dif_pos hin, Option.getD_some, if_pos hglyph,
    Nat.add_sub_cancel_left]

theorem length_bytesAt (m : Memory) (start len : Nat) : (m.bytesAt start len).length = len := by
  rw [bytesAt, List.length_map, List.length_range]

end Memory

namespace Machine

variable {m : Machine} {i : Instruction}

/-- The sprite that an instruction draws, if its rows are in memory. -/
def spriteOf (m : Machine) (i : Instruction) : Sprite :=
  .place (m.register i.x).toNat (m.register i.y).toNat
    (m.memory.bytesAt m.index.toNat i.digit.val)

theorem length_rows_spriteOf (m : Machine) (i : Instruction) :
    (m.spriteOf i).rows.length = i.digit.val := Memory.length_bytesAt _ _ _

theorem length_rows_spriteOf_le (m : Machine) (i : Instruction) :
    (m.spriteOf i).rows.length ≤ 32 := by
  have hdigit := i.digit.isLt
  rw [length_rows_spriteOf]
  omega

/-- A step that draws. -/
theorem step_of_draw (hrun : m.halted = false) (hi : m.instruction? = some i)
    (hdraw : i.operation = .draw) (hfits : m.index.toNat + i.digit.val ≤ 4096) :
    m.step.verdict = .ok .continued ∧
      m.step.machine =
        ({ m with screen := (m.screen.draw (m.spriteOf i)).1 }.setFlag
          (m.screen.draw (m.spriteOf i)).2).advance := by
  obtain ⟨opcode, hword, hdecode⟩ := exists_decode_of_instruction? hi
  rw [step_of_decode hrun hword hdecode]
  simp only [perform, hdraw, drawSprite, m.memory.read_eq_bytesAt hfits]
  exact ⟨rfl, rfl⟩

/-- What such a step leaves alone. -/
theorem kept_of_draw (hrun : m.halted = false) (hi : m.instruction? = some i)
    (hdraw : i.operation = .draw) (hfits : m.index.toNat + i.digit.val ≤ 4096) :
    m.step.machine.halted = false ∧ m.step.machine.memory = m.memory ∧
      m.step.machine.index = m.index ∧
      ∀ r : Nibble, r ≠ 0xF → m.step.machine.register r = m.register r := by
  rw [(step_of_draw hrun hi hdraw hfits).2]
  exact ⟨hrun, rfl, rfl, fun r hr => register_setRegister_of_ne _ _ hr⟩

/-- Where a sprite is placed. -/
theorem left_spriteOf (m : Machine) (i : Instruction) :
    (m.spriteOf i).left.val
      = if (m.register i.x).toNat ≤ 56 then (m.register i.x).toNat else 0 :=
  Sprite.left_place _ _ _

/-- Which pixels the sprite covers, in numbers. -/
theorem covers_spriteOf_iff (p : Pixel) :
    (m.spriteOf i).Covers p ↔
      let left := if (m.register i.x).toNat ≤ 56 then (m.register i.x).toNat else 0
      left ≤ p.x.val ∧ p.x.val < left + 8 ∧
        ∃ r < i.digit.val, ((m.register i.y).toNat + r) % 32 = p.y.val ∧
          (m.memory.byteAt (m.index.toNat + r)).toNat.testBit (7 - (p.x.val - left)) = true := by
  rw [Sprite.Covers, left_spriteOf]
  refine and_congr_right fun _ => and_congr_right fun _ => ?_
  change (∃ row ∈ (m.memory.bytesAt m.index.toNat i.digit.val).zipIdx, _) ↔ _
  constructor
  · rintro ⟨⟨byte, r⟩, hrow, hheight, hbit⟩
    obtain ⟨hr, hbyte⟩ := Memory.mem_zipIdx_bytesAt.mp hrow
    exact ⟨r, hr, hheight, hbyte ▸ hbit⟩
  · rintro ⟨r, hr, hheight, hbit⟩
    exact ⟨⟨_, r⟩, Memory.mem_zipIdx_bytesAt.mpr ⟨hr, rfl⟩, hheight, hbit⟩

theorem register_setFlag (m : Machine) (flag : Bool) :
    (m.setFlag flag).advance.register 0xF = if flag then 1 else 0 := register_setRegister m 0xF _

theorem flag_eq_one (flag : Bool) : ((if flag then 1 else 0 : UInt8) == 1) = flag := by
  cases flag with
  | true => rfl
  | false => rfl

/-- With the coordinates of two registers and the height of a digit, painting stays in its
domain. -/
theorem paint_eq_draw (m : Machine) (i : Instruction) :
    m.screen.paint (m.register i.x).toNat (m.register i.y).toNat
        (m.memory.bytesAt m.index.toNat i.digit.val) = .ok (m.screen.draw (m.spriteOf i)) := by
  refine m.screen.paint_eq (m.register i.x).toNat_lt (m.register i.y).toNat_lt ?_
  rw [Memory.length_bytesAt]
  exact i.digit.isLt

/-- **Drawing is exact to the pixel.** A pixel changes exactly if the sprite, moved to the left edge
if it does not fit and wrapped around at the bottom, has a set bit over it. The flag says whether
one was erased, the screen counts as changed, and nothing else is different but that the machine is
behind the instruction. All of it goes by the registers before the step, also if the flag goes into
one of them. -/
theorem draw_is_exact (hrun : m.halted = false) (hi : m.instruction? = some i)
    (hdraw : i.operation = .draw) (hfits : m.index.toNat + i.digit.val ≤ 4096) :
    let vx := (m.register i.x).toNat
    let vy := (m.register i.y).toNat
    let left := if vx ≤ 56 then vx else 0
    let after := m.step.machine
    m.step.verdict = .ok .continued ∧
      -- The pixels under the set bits change, and no others.
      (∀ x y, x < 64 → y < 32 →
        (after.screen.pixel x y ≠ m.screen.pixel x y ↔
          left ≤ x ∧ x < left + 8 ∧
            ∃ r < i.digit.val, (vy + r) % 32 = y ∧
              (m.memory.byteAt (m.index.toNat + r)).toNat.testBit (7 - (x - left)) = true)) ∧
      -- The flag says whether a pixel was erased.
      (after.register 0xF = 1 ∧
          (∃ x y, m.screen.pixel x y = true ∧ after.screen.pixel x y = false) ∨
        after.register 0xF = 0 ∧
          ¬∃ x y, m.screen.pixel x y = true ∧ after.screen.pixel x y = false) ∧
      after.screen.dirty = true ∧ after.pc.toNat = m.pc.toNat + 2 ∧
      after = { (m.setRegister 0xF (after.register 0xF)).advance with screen := after.screen } ∧
      -- No pixel off the screen is inverted on the way.
      m.screen.paint vx vy (m.memory.bytesAt m.index.toNat i.digit.val)
        = .ok (after.screen, after.register 0xF == 1) := by
  intro vx vy left after
  obtain ⟨hverdict, hafter⟩ := step_of_draw hrun hi hdraw hfits
  have hrows : (m.spriteOf i).rows.length ≤ 32 := m.length_rows_spriteOf_le i
  have hscreen : after.screen = (m.screen.draw (m.spriteOf i)).1 := congrArg screen hafter
  have hnext : after.pc = m.pc + 2 := congrArg pc hafter
  have hflag : after.register 0xF = if (m.screen.draw (m.spriteOf i)).2 then 1 else 0 := by
    rw [show after = _ from hafter]
    exact register_setFlag _ _
  obtain ⟨opcode, hword, -⟩ := exists_decode_of_instruction? hi
  have hpc : (m.pc + 2).toNat = m.pc.toNat + 2 := toNat_pc_add_two (pc_le_of_word hword)
  -- From here on only the screen before and the sprite before are left.
  rw [hflag, hscreen, hnext]
  refine ⟨hverdict, fun x y hx hy => ?_, ?_, rfl, hpc, hafter, ?_⟩
  · exact (m.screen.pixel_draw_ne_iff hrows ⟨⟨x, hx⟩, ⟨y, hy⟩⟩).trans (covers_spriteOf_iff _)
  · rw [← m.screen.erases_draw_iff_pixel hrows]
    cases (m.screen.draw (m.spriteOf i)).2 with
    | true => exact .inl ⟨rfl, rfl⟩
    | false => exact .inr ⟨rfl, Bool.false_ne_true⟩
  · rw [paint_eq_draw, flag_eq_one]

/-- A machine that is to draw the glyph of 0 at the lower right corner. The glyph is moved to the
left edge, where a pixel is lit, and goes on at the top. The flag goes into the register that says
where the top is. -/
def atCorner : Machine :=
  { fresh (.image #[0xD0, 0xF5]) (.ofSeed 0) with
    index := 0x100
    registers := (Vector.replicate 16 63).set 0xF 31
    screen := Screen.blank.flip ⟨0, 31⟩ }

theorem instruction?_atCorner :
    atCorner.instruction? = some { x := 0, y := 0xF, immediate := 5, operation := .draw } := by
  have hword : atCorner.memory.word atCorner.pc.toNat = .ok (.ofBytes 0xD0 0xF5) :=
    Memory.word_image (i := 0) (by decide) (by decide)
  exact instruction?_of_decode hword (by decide)

theorem byteAt_atCorner : atCorner.memory.byteAt (atCorner.index.toNat + 0) = 0xF0 :=
  Memory.byteAt_image #[0xD0, 0xF5] (by decide)

theorem draw_is_exact_atCorner :
    atCorner.step.verdict = .ok .continued ∧
      atCorner.screen.pixel 0 31 = true ∧ atCorner.step.machine.screen.pixel 0 31 = false ∧
      atCorner.step.machine.register 0xF = 1 := by
  have hfits : atCorner.index.toNat + 5 ≤ 4096 := by decide
  obtain ⟨hverdict, hpixels, hflag, -⟩ := draw_is_exact rfl instruction?_atCorner rfl hfits
  have hbefore : atCorner.screen.pixel 0 31 = true := by decide
  -- The first row of the glyph has its leftmost pixel set.
  have hchanges := (hpixels 0 31 (by decide) (by decide)).mpr ⟨by decide, by decide, 0, by decide,
    by decide, by rw [byteAt_atCorner]; decide⟩
  have hafter : atCorner.step.machine.screen.pixel 0 31 = false := by
    rw [hbefore] at hchanges
    exact Bool.eq_false_iff.mpr hchanges
  refine ⟨hverdict, hbefore, hafter, ?_⟩
  rcases hflag with ⟨hset, -⟩ | ⟨-, hnone⟩
  · exact hset
  · exact absurd ⟨0, 31, hbefore, hafter⟩ hnone

end Machine

end ChipEight
