import Mathlib.Logic.Function.Basic
import ChipEight.Proofs.Machine.Effect
import ChipEight.Proofs.Machine.Loading

/-!
# Arithmetic in plain numbers

What the operations on two registers do is said here on numbers from 0 to 255: what goes into Vx,
and for five of them what goes into VF. Both are computed from the registers as they were. The
result is written first and the flag after it, so that nothing needs to be said about registers that
coincide: the later write wins where both go into VF, and a source that is overwritten was read
before.

As long as the destination is not VF, the flag is what the byte in Vx has lost: the carry of a sum,
or the bit that a shift moves out.

## Main definitions

- `Arithmetic.selector`: the last nibble of the words of a function
- `Arithmetic.number`, `Arithmetic.carry?`: what goes into Vx and into VF
- `Arithmetic.assign`: the two writes, one after the other

## Main statements

- `Instruction.decode_arithmetic`: the words of the family 8
- `Machine.numbers_combine`: two registers are combined as the writes say
- `Machine.arithmetic_in_numbers`: a step that performs such an operation
-/

namespace ChipEight

namespace Arithmetic

/-! ## The two writes -/

/-- The last nibble of the words of a function. -/
def selector : Arithmetic → Nibble
  | .copy => 0x0
  | .or => 0x1
  | .and => 0x2
  | .xor => 0x3
  | .add => 0x4
  | .subtract => 0x5
  | .shiftRight => 0x6
  | .subtractReversed => 0x7
  | .shiftLeft => 0xE

/-- What goes into Vx. Before a difference is taken 256 is added, which does not show in the
remainder. -/
def number : Arithmetic → (vx vy : Nat) → Nat
  | .copy, _, vy => vy
  | .or, vx, vy => vx ||| vy
  | .and, vx, vy => vx &&& vy
  | .xor, vx, vy => vx ^^^ vy
  | .add, vx, vy => (vx + vy) % 256
  | .subtract, vx, vy => (256 + vx - vy) % 256
  | .shiftRight, vx, _ => vx / 2
  | .subtractReversed, vx, vy => (256 + vy - vx) % 256
  | .shiftLeft, vx, _ => 2 * vx % 256

/-- What goes into VF, for the functions that set it. -/
def carry? : Arithmetic → (vx vy : Nat) → Option Nat
  | .copy, _, _ | .or, _, _ | .and, _, _ | .xor, _, _ => none
  | .add, vx, vy => some (if vx + vy > 255 then 1 else 0)
  | .subtract, vx, vy => some (if vx > vy then 1 else 0)
  | .shiftRight, vx, _ => some (if vx % 2 = 1 then 1 else 0)
  | .subtractReversed, vx, vy => some (if vy > vx then 1 else 0)
  | .shiftLeft, vx, _ => some (if vx ≥ 128 then 1 else 0)

/-- The registers `v` after the function has combined Vx and Vy: first the result goes into Vx, and
then the flag into VF. -/
def assign (f : Arithmetic) (v : Nibble → Nat) (x y : Nibble) : Nibble → Nat :=
  let combined := Function.update v x (f.number (v x) (v y))
  match f.carry? (v x) (v y) with
  | some carry => Function.update combined 0xF carry
  | none => combined

theorem toNat_result (f : Arithmetic) (vx vy : UInt8) :
    (f.result vx vy).toNat = f.number vx.toNat vy.toNat := by
  have hx := vx.toNat_lt
  have hy := vy.toNat_lt
  cases f with
  | copy => rfl
  | or => exact UInt8.toNat_or vx vy
  | and => exact UInt8.toNat_and vx vy
  | xor => exact UInt8.toNat_xor vx vy
  | add => exact UInt8.toNat_add vx vy
  | subtract =>
    simp only [result, number, UInt8.toNat_sub]
    omega
  | subtractReversed =>
    simp only [result, number, UInt8.toNat_sub]
    omega
  | shiftRight =>
    simp only [result, number, UInt8.toNat_shiftRight]
    exact Nat.shiftRight_eq_div_pow vx.toNat 1
  | shiftLeft =>
    simp only [result, number, UInt8.toNat_shiftLeft]
    rw [show (1 : UInt8).toNat % 8 = 1 from rfl, Nat.shiftLeft_eq]
    omega

theorem carry?_eq (f : Arithmetic) (vx vy : UInt8) :
    f.carry? vx.toNat vy.toNat = (f.flag? vx vy).map fun flag => if flag then 1 else 0 := by
  cases f with
  | copy | or | and | xor => rfl
  | _ => simp [carry?, flag?, UInt8.lt_iff_toNat_lt]

variable {f : Arithmetic} {v : Nibble → Nat} {x y : Nibble}

/-- A function without a flag writes Vx alone. -/
theorem assign_of_none (h : f.carry? (v x) (v y) = none) :
    f.assign v x y = Function.update v x (f.number (v x) (v y)) := by
  rw [assign, h]

theorem assign_of_some {carry : Nat} (h : f.carry? (v x) (v y) = some carry) :
    f.assign v x y
      = Function.update (Function.update v x (f.number (v x) (v y))) 0xF carry := by
  rw [assign, h]

/-- No register is written but Vx and VF. -/
theorem assign_of_ne {r : Nibble} (hx : r ≠ x) (hflag : r ≠ 0xF) : f.assign v x y r = v r := by
  cases hcarry : f.carry? (v x) (v y) with
  | none => rw [assign_of_none hcarry, Function.update_of_ne hx]
  | some carry =>
    rw [assign_of_some hcarry, Function.update_of_ne hflag, Function.update_of_ne hx]

/-- The result remains in Vx if that is not VF. -/
theorem assign_dest (hx : x ≠ 0xF) : f.assign v x y x = f.number (v x) (v y) := by
  cases hcarry : f.carry? (v x) (v y) with
  | none => rw [assign_of_none hcarry, Function.update_self]
  | some carry =>
    rw [assign_of_some hcarry, Function.update_of_ne hx, Function.update_self]

/-- The flag is what remains in VF. -/
theorem assign_flag {carry : Nat} (h : f.carry? (v x) (v y) = some carry) :
    f.assign v x y 0xF = carry := by
  rw [assign_of_some h, Function.update_self]

/-! ## What a byte has lost -/

section Lost

variable {vx vy carry : Nat}

theorem carry_add (hx : vx < 256) (hy : vy < 256) (h : add.carry? vx vy = some carry) :
    256 * carry + add.number vx vy = vx + vy := by
  obtain rfl := Option.some.inj h
  simp only [number]
  split
  · omega
  · omega

theorem carry_shiftLeft (hx : vx < 256) (h : shiftLeft.carry? vx vy = some carry) :
    256 * carry + shiftLeft.number vx vy = 2 * vx := by
  obtain rfl := Option.some.inj h
  simp only [number]
  split
  · omega
  · omega

theorem carry_shiftRight (h : shiftRight.carry? vx vy = some carry) :
    2 * shiftRight.number vx vy + carry = vx := by
  obtain rfl := Option.some.inj h
  simp only [number]
  split
  · omega
  · omega

end Lost

end Arithmetic

/-! ## The words of the family 8 -/

theorem Instruction.decode_arithmetic (f : Arithmetic) (x y : Nibble) :
    decode (.ofNibbles 0x8 x y f.selector)
      = some { x := x, y := y, operation := .arithmetic f } := by
  -- The words of the family differ in the last nibble, and no other family accepts them.
  have hfind : instructionSet.find? (fun op => op.pattern.accepts (.ofNibbles 0x8 x y f.selector))
      = some (.arithmetic f) := by
    cases f
    all_goals
      simp [instructionSet, Pattern.accepts, Operation.pattern, Layout.accepts,
        Arithmetic.selector]
  rw [decode, hfind, Option.map_some]
  cases f
  all_goals simp [Operation.layout, Operation.pattern, Layout.operands]

namespace Machine

/-! ## Steps -/

/-- The registers as plain numbers. -/
def numbers (m : Machine) (r : Nibble) : Nat := (m.register r).toNat

theorem numbers_setRegister (m : Machine) (r : Nibble) (value : UInt8) :
    (m.setRegister r value).numbers = Function.update m.numbers r value.toNat := by
  funext q
  by_cases hq : q = r
  · subst hq
    rw [Function.update_self]
    exact congrArg UInt8.toNat (register_setRegister m q value)
  · rw [Function.update_of_ne hq]
    exact congrArg UInt8.toNat (register_setRegister_of_ne m value hq)

/-- Two registers are combined as the writes say. -/
theorem numbers_combine (m : Machine) (f : Arithmetic) (x y : Nibble) :
    (m.combine f x y).numbers = f.assign m.numbers x y := by
  have hcarry : f.carry? (m.numbers x) (m.numbers y) = _ :=
    f.carry?_eq (m.register x) (m.register y)
  have hcombined : (m.setRegister x (f.result (m.register x) (m.register y))).numbers
      = Function.update m.numbers x (f.number (m.numbers x) (m.numbers y)) := by
    rw [numbers_setRegister, f.toNat_result]
    rfl
  -- The machine computes result and flag before it writes either.
  rw [Arithmetic.assign, hcarry]
  cases hflag : f.flag? (m.register x) (m.register y) with
  | none =>
    simp only [combine, hflag]
    exact hcombined
  | some flag =>
    simp only [combine, hflag, Option.map_some, setFlag, numbers_setRegister, hcombined]
    cases flag with
    | true => rfl
    | false => rfl

/-- **Arithmetic and flags.** A word of the family 8 that stands for a function is performed as the
writes of this function say, whichever registers coincide. The result goes into Vx, and the flag, if
there is one, into VF, where it remains. No other register changes. If the destination is not VF,
result and flag together tell the sum, or the byte that was shifted. -/
theorem arithmetic_in_numbers {m : Machine} {f : Arithmetic} {x y : Nibble}
    (hrun : m.halted = false)
    (hword : m.memory.word m.pc.toNat = .ok (.ofNibbles 0x8 x y f.selector)) :
    let vx := m.numbers x
    let vy := m.numbers y
    let after := m.step.machine.numbers
    m.step.verdict = .ok .continued ∧ after = f.assign m.numbers x y ∧
      (∀ r, r ≠ x → r ≠ 0xF → after r = m.numbers r) ∧
      (f.carry? vx vy = none →
        after x = f.number vx vy ∧ (x ≠ 0xF → after 0xF = m.numbers 0xF)) ∧
      (∀ carry, f.carry? vx vy = some carry →
        after 0xF = carry ∧ (x ≠ 0xF → after x = f.number vx vy)) ∧
      (x ≠ 0xF →
        (f = .add → 256 * after 0xF + after x = vx + vy) ∧
        (f = .shiftLeft → 256 * after 0xF + after x = 2 * vx) ∧
        (f = .shiftRight → 2 * after x + after 0xF = vx)) := by
  intro vx vy after
  have hstep := step_of_decode hrun hword (Instruction.decode_arithmetic f x y)
  have hafter : after = f.assign m.numbers x y := by
    rw [← numbers_combine]
    exact congrArg (fun s : Step => s.machine.numbers) hstep
  have hverdict : m.step.verdict = .ok .continued := by
    rw [hstep]
    rfl
  have hvx : vx < 256 := (m.register x).toNat_lt
  have hvy : vy < 256 := (m.register y).toNat_lt
  rw [hafter]
  refine ⟨hverdict, rfl, fun r hx hflag => Arithmetic.assign_of_ne hx hflag, ?_, ?_, ?_⟩
  · intro hnone
    rw [Arithmetic.assign_of_none hnone]
    exact ⟨Function.update_self .., fun hx => Function.update_of_ne hx.symm ..⟩
  · exact fun carry hcarry => ⟨Arithmetic.assign_flag hcarry, Arithmetic.assign_dest⟩
  · intro hx
    rw [Arithmetic.assign_dest hx]
    refine ⟨?_, ?_, ?_⟩
    · rintro rfl
      rw [Arithmetic.assign_flag (f := .add) rfl]
      exact Arithmetic.carry_add hvx hvy rfl
    · rintro rfl
      rw [Arithmetic.assign_flag (f := .shiftLeft) rfl]
      exact Arithmetic.carry_shiftLeft hvx rfl
    · rintro rfl
      rw [Arithmetic.assign_flag (f := .shiftRight) rfl]
      exact Arithmetic.carry_shiftRight rfl

/-- A machine that is to add VF to itself. -/
def doublingFlag : Machine := (fresh (.image #[0x8F, 0xF4]) (.ofSeed 0)).setRegister 0xF 0x80

/-- The sum is 0 with a carry, and the carry is what remains. -/
theorem arithmetic_in_numbers_doublingFlag :
    doublingFlag.halted = false ∧
      doublingFlag.memory.word doublingFlag.pc.toNat
        = .ok (.ofNibbles 0x8 0xF 0xF Arithmetic.add.selector) ∧
      doublingFlag.step.verdict = .ok .continued ∧ doublingFlag.step.machine.numbers 0xF = 1 := by
  have hword : doublingFlag.memory.word doublingFlag.pc.toNat
      = .ok (.ofNibbles 0x8 0xF 0xF Arithmetic.add.selector) := by
    rw [show Word.ofNibbles 0x8 0xF 0xF Arithmetic.add.selector = .ofBytes 0x8F 0xF4 by decide]
    exact Memory.word_image (i := 0) (by decide) (by decide)
  have hcarry : Arithmetic.add.carry? (doublingFlag.numbers 0xF) (doublingFlag.numbers 0xF)
      = some 1 := by decide
  obtain ⟨hverdict, -, -, -, hflag, -⟩ := arithmetic_in_numbers (x := 0xF) (y := 0xF) rfl hword
  exact ⟨rfl, hword, hverdict, (hflag 1 hcarry).1⟩

end Machine

end ChipEight
