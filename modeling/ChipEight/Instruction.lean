import ChipEight.Hex
import ChipEight.Operation.Pattern

/-!
# Instructions

An instruction is an operation with its operands. A word is decoded by the first pattern
of the instruction set that accepts it; operands that the pattern does not name are zero.
Encoding goes the other way.

The text of an instruction is its mnemonic followed by its operands, one blank before
each: registers as `V3`, immediates as `0x05`, addresses as `0x0123`. The address of an
operation that refers to a place in the program is written as a label, `off_0204`.

## Main definitions

- `Operands`, `Instruction`: the data
- `Instruction.decode`, `Instruction.encode`: words to instructions and back
- `Instruction.label?`: the place that an instruction refers to
- `Instruction.text`: the listing form
-/

namespace ChipEight

/-- The operands of an instruction: two registers and one immediate, which is an address, a
byte or a digit. -/
structure Operands where
  x : Nibble := 0
  y : Nibble := 0
  immediate : Word := 0
  deriving DecidableEq, Repr

namespace Operands

def address (o : Operands) : Word := o.immediate.address

def byte (o : Operands) : UInt8 := o.immediate.lowByte

def digit (o : Operands) : Nibble := o.immediate.last

end Operands

namespace Layout

/-- The operands that a layout reads from a word. -/
def operands : Layout → Word → Operands
  | .fixed _ _ _, _ => {}
  | .address, w => { immediate := w.address }
  | .registerByte, w => { x := w.second, immediate := w % 256 }
  | .registers _, w => { x := w.second, y := w.third }
  | .registersDigit, w => { x := w.second, y := w.third, immediate := w % 16 }
  | .register _ _, w => { x := w.second }

/-- The word of a family that holds the given operands; operands that the layout does not
name are left out. -/
def word (family : Nibble) : Layout → Operands → Word
  | .fixed b c d, _ => .ofNibbles family b c d
  | .address, o => .ofNibbles family o.immediate.second o.immediate.third o.immediate.last
  | .registerByte, o => .ofNibbles family o.x o.immediate.third o.immediate.last
  | .registers d, o => .ofNibbles family o.x o.y d
  | .registersDigit, o => .ofNibbles family o.x o.y o.immediate.last
  | .register c d, o => .ofNibbles family o.x c d

end Layout

/-- An operation with its operands. -/
structure Instruction extends Operands where
  operation : Operation
  deriving DecidableEq, Repr

namespace Instruction

/-- The instruction that a word stands for, if some pattern accepts it. -/
def decode (w : Word) : Option Instruction :=
  (instructionSet.find? fun op => op.pattern.accepts w).map fun op =>
    { toOperands := op.layout.operands w, operation := op }

def encode (i : Instruction) : Word :=
  i.operation.layout.word i.operation.pattern.family i.toOperands

/-- The address that an instruction refers to, for the operations whose address is shown
as a label. -/
def label? (i : Instruction) : Option Word :=
  match i.operation with
  | .jump | .call | .jumpOffset | .loadIndex => some i.address
  | _ => none

def labelName (address : Word) : String := "off_" ++ Hex.padded 4 address.toNat

def registerName (r : Nibble) : String := "V" ++ Hex.padded 1 r.val

/-- The operands as they stand in a listing, each after a blank. -/
def operandsText (i : Instruction) : String :=
  match i.operation.layout with
  | .fixed _ _ _ => ""
  | .address =>
    match i.label? with
    | some target => " " ++ labelName target
    | none => " 0x" ++ Hex.padded 4 i.immediate.toNat
  | .registerByte => " " ++ registerName i.x ++ " 0x" ++ Hex.padded 2 i.immediate.toNat
  | .registers _ => " " ++ registerName i.x ++ " " ++ registerName i.y
  | .registersDigit =>
    " " ++ registerName i.x ++ " " ++ registerName i.y
      ++ " 0x" ++ Hex.padded 2 i.immediate.toNat
  | .register _ _ => " " ++ registerName i.x

def text (i : Instruction) : String := i.operation.mnemonic ++ i.operandsText

/-- A decoded instruction is the one of a pattern that accepts the word. -/
theorem accepts_of_decode {w : Word} {i : Instruction} (h : decode w = some i) :
    i.operation.pattern.accepts w = true ∧
      i.toOperands = i.operation.layout.operands w := by
  obtain ⟨op, hop, rfl⟩ := Option.map_eq_some_iff.mp h
  exact ⟨by simpa using List.find?_some hop, rfl⟩

end Instruction

end ChipEight
