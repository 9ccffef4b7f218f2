import ChipEight.Instruction
import ChipEight.Proofs.Guarded.Domain

/-!
# Guarded decoding

Instructions whose registers are bytes. A word is cut into nibbles by masks and shifts, each of
which gives a byte; that these bytes are nibbles is looked at where one of them becomes the number
of a register.

## Main definitions

- `PlainInstruction`: an operation with its operands
- `PlainInstruction.decode`: the instruction that a word stands for
- `Instruction.plain`: the plain form of an instruction

## Main statements

- `PlainInstruction.decode_eq`: decoding never leaves its domain, and yields the plain form of the
  instruction
-/

namespace ChipEight

open Guarded

/-! ## Nibbles as bytes -/

namespace Nibble

theorem toByte_inj {a b : Nibble} : a.toByte = b.toByte ↔ a = b := by
  constructor
  · intro h
    apply Fin.ext
    rw [← toNat_toByte a, h, toNat_toByte]
  · rintro rfl
    rfl

@[simp] theorem toByte_zero : toByte 0 = 0 := rfl

theorem toByte_le (n : Nibble) : n.toByte ≤ 0x0F := by
  rw [UInt8.le_iff_toNat_le, toNat_toByte]
  exact Nat.le_of_lt_succ n.isLt

theorem toByte_truncate (b : UInt8) : (truncate b).toByte = b &&& 0x0F := by
  apply UInt8.toNat_inj.mp
  rw [toNat_toByte, UInt8.toNat_and]
  exact (Nat.and_two_pow_sub_one_eq_mod b.toNat 4).symm

end Nibble

theorem Guarded.nibble_toByte (n : Nibble) : nibble n.toByte = .ok n.toByte :=
  nibble_of_le n.toByte_le

/-! ## Words and masks -/

namespace Word

variable (w : Word)

theorem and_twelve : w &&& 0x0FFF = w.address := by
  apply UInt16.toNat_inj.mp
  rw [toNat_address, UInt16.toNat_and]
  exact Nat.and_two_pow_sub_one_eq_mod w.toNat 12

theorem and_eight : w &&& 0x00FF = w % 256 := by
  apply UInt16.toNat_inj.mp
  rw [UInt16.toNat_and, UInt16.toNat_mod]
  exact Nat.and_two_pow_sub_one_eq_mod w.toNat 8

theorem and_four : w &&& 0x000F = w % 16 := by
  apply UInt16.toNat_inj.mp
  rw [UInt16.toNat_and, UInt16.toNat_mod]
  exact Nat.and_two_pow_sub_one_eq_mod w.toNat 4

theorem toUInt8_and_four : (w &&& 0x000F).toUInt8 = w.last.toByte := by
  rw [and_four]
  apply UInt8.toNat_inj.mp
  rw [Nibble.toNat_toByte, UInt16.toNat_toUInt8, UInt16.toNat_mod]
  exact Nat.mod_eq_of_lt (Nat.lt_trans (Nat.mod_lt _ (by decide)) (by decide))

/-- A mask for four bits that stand at some place, and a shift by that place. -/
theorem toUInt8_mask_shift (mask place : Word) {k : Nat} {n : Nibble}
    (hplace : place.toNat % 16 = k) (hmask : mask.toNat >>> k = 15)
    (hn : w.toNat >>> k % 16 = n.val) : ((w &&& mask) >>> place).toUInt8 = n.toByte := by
  have hand : w.toNat >>> k &&& 15 = n.val := by
    rw [← hn]
    exact Nat.and_two_pow_sub_one_eq_mod _ 4
  apply UInt8.toNat_inj.mp
  rw [UInt16.toNat_toUInt8, UInt16.toNat_shiftRight, hplace, UInt16.toNat_and,
    Nat.shiftRight_and_distrib, hmask, hand, Nibble.toNat_toByte]
  exact Nat.mod_eq_of_lt (Nat.lt_trans n.isLt (by decide))

/-- The four nibbles, most significant first. -/
def nibbleBytes : List UInt8 :=
  [((w &&& 0xF000) >>> 12).toUInt8, ((w &&& 0x0F00) >>> 8).toUInt8,
    ((w &&& 0x00F0) >>> 4).toUInt8, (w &&& 0x000F).toUInt8]

theorem nibbleBytes_eq :
    w.nibbleBytes = [w.family.toByte, w.second.toByte, w.third.toByte, w.last.toByte] := by
  have hfamily : w.toNat >>> 12 % 16 = w.family.val := by
    have hw := w.toNat_lt
    rw [Nat.shiftRight_eq_div_pow]
    exact Nat.mod_eq_of_lt (by omega)
  have hsecond : w.toNat >>> 8 % 16 = w.second.val := by
    rw [Nat.shiftRight_eq_div_pow]
    rfl
  have hthird : w.toNat >>> 4 % 16 = w.third.val := by
    rw [Nat.shiftRight_eq_div_pow]
    rfl
  rw [nibbleBytes, w.toUInt8_mask_shift 0xF000 12 rfl rfl hfamily,
    w.toUInt8_mask_shift 0x0F00 8 rfl rfl hsecond, w.toUInt8_mask_shift 0x00F0 4 rfl rfl hthird,
    toUInt8_and_four]

end Word

/-! ## Decoding -/

/-- An operation with its operands, where registers are bytes. -/
structure PlainInstruction where
  operation : Operation
  x : UInt8 := 0
  y : UInt8 := 0
  immediate : Word := 0
  deriving DecidableEq, Repr

/-- Whether a field can take a nibble that is a byte. -/
def Field.admits : Field → UInt8 → Bool
  | .fixed value, b => value.toByte == b
  | _, _ => true

theorem Field.admits_toByte (f : Field) (n : Nibble) : f.admits n.toByte = f.accepts n := by
  cases f with
  | fixed value => exact decide_eq_decide.mpr Nibble.toByte_inj
  | _ => rfl

namespace PlainInstruction

def address (i : PlainInstruction) : Word := i.immediate &&& 0x0FFF

def byte (i : PlainInstruction) : UInt8 := i.immediate.toUInt8

def digit (i : PlainInstruction) : UInt8 := (i.immediate &&& 0x000F).toUInt8

/-- Reads the operand of a field from a word and its nibble there. -/
def read (w : Word) (i : PlainInstruction) : Field × UInt8 → Guarded PlainInstruction
  | (.fixed _, _) => return i
  | (.x, b) => return { i with x := ← nibble b }
  | (.y, b) => return { i with y := ← nibble b }
  | (.address, _) => return { i with immediate := w &&& 0x0FFF }
  | (.byte, _) => return { i with immediate := w &&& 0x00FF }
  | (.digit, _) => return { i with immediate := w &&& 0x000F }

/-- The instruction that a word stands for, if some pattern accepts it. -/
def decode (w : Word) : Guarded (Option PlainInstruction) := do
  let family ← item w.nibbleBytes 0
  let rest ← slice w.nibbleBytes 1 4
  let accepting := instructionSet.find? fun op =>
    op.pattern.family.toByte == family && (op.layout.fields.zip rest).all fun p => p.1.admits p.2
  match accepting with
  | none => return none
  | some op => return some (← (op.layout.fields.zip rest).foldlM (read w) { operation := op })

/-! ### Texts -/

def label? (i : PlainInstruction) : Option Word :=
  match i.operation with
  | .jump | .call | .jumpOffset | .loadIndex => some i.address
  | _ => none

def registerName (r : UInt8) : String := "V" ++ Hex.padded 1 r.toNat

def operandsText (i : PlainInstruction) : String :=
  match i.operation.layout with
  | .fixed _ _ _ => ""
  | .address =>
    match i.label? with
    | some target => " " ++ Instruction.labelName target
    | none => " 0x" ++ Hex.padded 4 i.immediate.toNat
  | .registerByte => " " ++ registerName i.x ++ " 0x" ++ Hex.padded 2 i.immediate.toNat
  | .registers _ => " " ++ registerName i.x ++ " " ++ registerName i.y
  | .registersDigit =>
    " " ++ registerName i.x ++ " " ++ registerName i.y ++ " 0x" ++ Hex.padded 2 i.immediate.toNat
  | .register _ _ => " " ++ registerName i.x

def text (i : PlainInstruction) : String := i.operation.mnemonic ++ i.operandsText

end PlainInstruction

/-! ## The plain form -/

def Instruction.plain (i : Instruction) : PlainInstruction where
  operation := i.operation
  x := i.x.toByte
  y := i.y.toByte
  immediate := i.immediate

namespace PlainInstruction

@[simp] theorem operation_plain (i : Instruction) : i.plain.operation = i.operation := rfl

@[simp] theorem x_plain (i : Instruction) : i.plain.x = i.x.toByte := rfl

@[simp] theorem y_plain (i : Instruction) : i.plain.y = i.y.toByte := rfl

@[simp] theorem immediate_plain (i : Instruction) : i.plain.immediate = i.immediate := rfl

@[simp] theorem address_plain (i : Instruction) : i.plain.address = i.address :=
  i.immediate.and_twelve

@[simp] theorem byte_plain (i : Instruction) : i.plain.byte = i.byte := rfl

@[simp] theorem digit_plain (i : Instruction) : i.plain.digit = i.digit.toByte :=
  i.immediate.toUInt8_and_four

@[simp] theorem label?_plain (i : Instruction) : i.plain.label? = i.label? := by
  simp only [label?, Instruction.label?, address_plain]
  rfl

theorem registerName_toByte (r : Nibble) : registerName r.toByte = Instruction.registerName r := by
  rw [registerName, Nibble.toNat_toByte, Instruction.registerName]

theorem operandsText_plain (i : Instruction) : i.plain.operandsText = i.operandsText := by
  unfold operandsText Instruction.operandsText
  rw [operation_plain]
  cases i.operation.layout with
  | fixed => rfl
  | address =>
    cases hlabel : i.label? with
    | none => simp only [label?_plain, hlabel, immediate_plain]
    | some target => simp only [label?_plain, hlabel]
  | registerByte => simp only [x_plain, immediate_plain, registerName_toByte]
  | registers => simp only [x_plain, y_plain, registerName_toByte]
  | registersDigit => simp only [x_plain, y_plain, immediate_plain, registerName_toByte]
  | register => simp only [x_plain, registerName_toByte]

theorem text_plain (i : Instruction) : i.plain.text = i.text := by
  rw [text, operandsText_plain]
  rfl

/-- The operands of a layout are read field by field. -/
theorem foldlM_read (op : Operation) (l : Layout) (w : Word) :
    (l.fields.zip [w.second.toByte, w.third.toByte, w.last.toByte]).foldlM (read w)
        { operation := op }
      = .ok (Instruction.plain { toOperands := l.operands w, operation := op }) := by
  cases l <;>
    simp [Layout.fields, Layout.operands, read, nibble_toByte, Instruction.plain, Word.and_twelve,
      Word.and_eight, Word.and_four]

theorem accepts_eq (op : Operation) (w : Word) :
    (op.pattern.family.toByte == w.family.toByte &&
      (op.layout.fields.zip [w.second.toByte, w.third.toByte, w.last.toByte]).all
        fun p => p.1.admits p.2) = op.pattern.accepts w := by
  have hfamily : (op.pattern.family.toByte == w.family.toByte) = (op.pattern.family == w.family) :=
    (Field.fixed op.pattern.family).admits_toByte w.family
  have hbytes : [w.second.toByte, w.third.toByte, w.last.toByte]
      = [w.second, w.third, w.last].map Nibble.toByte := rfl
  rw [Pattern.accepts, Layout.accepts_eq_fields, hfamily, hbytes, List.zip_map_right, List.all_map]
  refine congrArg (_ && List.all _ ·) (funext fun p => ?_)
  exact p.1.admits_toByte p.2

/-- Decoding never leaves its domain. It yields the plain form of the instruction that the word
stands for. -/
theorem decode_eq (w : Word) : decode w = .ok ((Instruction.decode w).map Instruction.plain) := by
  have hitem : item w.nibbleBytes 0 = .ok w.family.toByte := by
    rw [w.nibbleBytes_eq]
    rfl
  have hslice : slice w.nibbleBytes 1 4
      = .ok [w.second.toByte, w.third.toByte, w.last.toByte] := by
    rw [w.nibbleBytes_eq]
    rfl
  simp only [decode, hitem, hslice, ok_bind, accepts_eq]
  rw [Instruction.decode]
  cases instructionSet.find? fun op => op.pattern.accepts w with
  | none => rfl
  | some op => simp [foldlM_read]

end PlainInstruction

end ChipEight
