import ChipEight.Proofs.Machine.Action

/-!
# Loading

A program that fits is always accepted, and nothing of what the machine was before stays but the
random source. The machine is then a fresh one whose memory holds the glyphs and the program, so a
host cannot tell from anything that it does later what was done with the machine earlier. A program
that does not fit is refused, and the machine stays as it is.

## Main definitions

- `Memory.image`: memory that holds the glyphs and a program
- `Machine.Answer`, `Machine.answers`: what a host is told by the things it does

## Main statements

- `Machine.load_forgets`: what loading leaves, and what it leaves behind
-/

namespace ChipEight

/-! ## Memory behind a load -/

/-- The glyphs from 0x100 on, a program from 0x200 on, and zero elsewhere. -/
def Memory.image (program : Array UInt8) : Memory where
  bytes := Vector.ofFn fun a : Fin 4096 =>
    if 0x100 ≤ a.val ∧ a.val ≤ 0x14F then Glyphs.rows.getD (a.val - 0x100) 0
    else if 0x200 ≤ a.val then program.getD (a.val - 0x200) 0
    else 0

theorem Memory.load_eq_image (program : Array UInt8)
    (h : program.toList.length ≤ AddressSpace.programCapacity) :
    load program.toList h = image program := by
  refine congrArg Memory.mk (Vector.ext fun a ha => ?_)
  change (load program.toList h).bytes[a] = (image program).bytes[a]
  have hglyphs : Glyphs.rows.length = 80 := rfl
  have hzero : zero.bytes[a] = 0 := Vector.getElem_replicate ha
  simp only [load, withGlyphs, image, getElem_put, Vector.getElem_ofFn, hglyphs, hzero,
    Array.length_toList, Array.getElem_toList, List.getD_eq_getElem?_getD,
    Array.getD_eq_getD_getElem?]
  -- The program was written last, over the glyphs, which were written over zeros.
  by_cases hprogram : 0x200 ≤ a ∧ a - 0x200 < program.size
  · rw [dif_pos hprogram, if_neg (by omega), if_pos hprogram.1,
      Array.getElem?_eq_getElem hprogram.2, Option.getD_some]
  · rw [dif_neg hprogram]
    by_cases hrows : 0x100 ≤ a ∧ a - 0x100 < 80
    · rw [dif_pos hrows, if_pos (by omega), List.getElem?_eq_getElem hrows.2, Option.getD_some]
      rfl
    · rw [dif_neg hrows, if_neg (by omega)]
      split
      · -- Behind the program the image is past its end.
        rw [Array.getElem?_eq_none (by omega), Option.getD_none]
      · rfl

/-- A program stands in its image from where programs start. -/
theorem Memory.word_image {program : Array UInt8} (h : program.size ≤ 3584) {i : Nat}
    (hi : i + 1 < program.size) :
    (image program).word (0x200 + i) = .ok (.ofBytes program[i] program[i + 1]) := by
  rw [← load_eq_image program h]
  exact word_load program.toList h hi

namespace Machine

/-! ## What a host is told -/

/-- What a host is told by an action. -/
inductive Answer where
  | loaded (verdict : Except Fault Unit)
  | stepped (verdict : Except Fault Progress) (events : List Event)
  | acknowledged (dirty : Bool)
  | done

def answer (m : Machine) : Action → Answer
  | .load program => .loaded (m.load program).verdict
  | .step => .stepped m.step.verdict m.step.events
  | .setKey _ _ => .done
  | .tick => .done
  | .acknowledgeScreen => .acknowledged m.screen.dirty

/-- What a host is told by several actions, the first of the list first. -/
def answers (m : Machine) : (actions : List Action) → List Answer
  | [] => []
  | a :: actions => m.answer a :: (m.act a).answers actions

/-! ## Loads -/

theorem reset_eq (m : Machine) : m.reset = powerOn m.random := rfl

theorem load_of_le (m : Machine) {program : Array UInt8} (h : program.size ≤ 3584) :
    m.load program = ⟨.ok (), fresh (.image program) m.random⟩ := by
  rw [load, dif_pos h, Memory.load_eq_image, reset_eq]
  rfl

theorem load_of_lt (m : Machine) {program : Array UInt8} (h : 3584 < program.size) :
    m.load program = ⟨.error (.programTooLarge program.size), m⟩ := by
  rw [load, dif_neg (Nat.not_le.mpr h)]

theorem act_load_of_le (m : Machine) {program : Array UInt8} (h : program.size ≤ 3584) :
    m.act (.load program) = fresh (.image program) m.random := by
  rw [act, load_of_le m h]

theorem act_load_of_lt (m : Machine) {program : Array UInt8} (h : 3584 < program.size) :
    m.act (.load program) = m := by
  rw [act, load_of_lt m h]

/-- What every fresh machine has, a load keeps. -/
theorem act_load_keeps {P : Machine → Prop} (hfresh : ∀ memory random, P (fresh memory random))
    {m : Machine} (hm : P m) (program : Array UInt8) : P (m.act (.load program)) := by
  rcases Nat.lt_or_ge 3584 program.size with hlarge | hfits
  · rw [act_load_of_lt m hlarge]
    exact hm
  · rw [act_load_of_le m hfits]
    exact hfresh _ _

/-- **Loading forgets everything but the random source.** A program that fits is accepted, and
leaves a fresh machine with the same random source, the glyphs and the program in its memory. From
then on a host is told what that fresh machine would tell, and two machines with the same random
source cannot be told apart. A program that does not fit is refused and changes nothing. -/
theorem load_forgets (m : Machine) (program : Array UInt8) :
    (program.size ≤ 3584 →
      m.load program = ⟨.ok (), fresh (.image program) m.random⟩ ∧
      (∀ n : Machine, n.random = m.random → n.load program = m.load program) ∧
      ∀ later : List Action,
        (m.act (.load program)).answers later
          = (fresh (.image program) m.random).answers later ∧
        (m.act (.load program)).acts later = (fresh (.image program) m.random).acts later) ∧
    (3584 < program.size →
      m.load program = ⟨.error (.programTooLarge program.size), m⟩ ∧
        m.act (.load program) = m) := by
  constructor
  · intro hfits
    refine ⟨load_of_le m hfits, ?_, ?_⟩
    · intro n hrandom
      rw [load_of_le n hfits, load_of_le m hfits, hrandom]
    · intro later
      rw [act_load_of_le m hfits]
      exact ⟨rfl, rfl⟩
  · intro hlarge
    exact ⟨load_of_lt m hlarge, act_load_of_lt m hlarge⟩

/-- A machine on which a key is held down. -/
def keyHeld : Machine := (powerOn (.ofSeed 0)).setKey 7 true

theorem load_forgets_keyHeld :
    keyHeld.load #[0x00, 0xE0] = ⟨.ok (), fresh (.image #[0x00, 0xE0]) (.ofSeed 0)⟩ ∧
      keyHeld.load (Array.replicate 3585 0) = ⟨.error (.programTooLarge 3585), keyHeld⟩ ∧
      keyHeld.act (.load (Array.replicate 3585 0)) = keyHeld := by
  have hsize : (Array.replicate 3585 (0 : UInt8)).size = 3585 := Array.size_replicate
  obtain ⟨hloads, -, -⟩ := (load_forgets keyHeld #[0x00, 0xE0]).1 (by decide)
  obtain ⟨hrefuses, hsame⟩ :=
    (load_forgets keyHeld (Array.replicate 3585 0)).2 (by rw [hsize]; decide)
  rw [hsize] at hrefuses
  exact ⟨hloads, hrefuses, hsame⟩

end Machine

end ChipEight
