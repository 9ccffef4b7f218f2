import ChipEight.Operation

/-!
# The instruction set

Each operation has one pattern: a mnemonic for listings, the family nibble its words
start with, and a layout for the other three nibbles. A layout fixes some nibbles and
gives the rest to registers or to one immediate operand.

The patterns overlap in one place only: the words of `hostRoutine` include those of
`clearScreen` and `ret`. `instructionSet` therefore lists the latter first, and the first
pattern that accepts a word wins.

## Main definitions

- `Layout`: how the low three nibbles are used
- `Field`: one nibble of a layout, as shown in a table of the instruction set
- `Pattern`, `Operation.pattern`: the pattern of each operation
- `instructionSet`: all operations in matching order
-/

namespace ChipEight

/-- One of the low three nibbles of a pattern: fixed, the name of a register, or a part of
an immediate operand. -/
inductive Field where
  | fixed (value : Nibble)
  | x
  | y
  | address
  | byte
  | digit
  deriving DecidableEq, Repr

/-- Whether a field can take a nibble. -/
def Field.accepts : Field → Nibble → Bool
  | .fixed value, n => value == n
  | _, _ => true

/-- How an instruction uses its low three nibbles. The constructors name the operands and
take the values of the nibbles that hold none. -/
inductive Layout where
  | fixed (second third last : Nibble)
  | address
  | registerByte
  | registers (last : Nibble)
  | registersDigit
  | register (third last : Nibble)
  deriving DecidableEq, Repr

namespace Layout

/-- The three fields of a layout, most significant first. -/
def fields : Layout → List Field
  | .fixed b c d => [.fixed b, .fixed c, .fixed d]
  | .address => [.address, .address, .address]
  | .registerByte => [.x, .byte, .byte]
  | .registers d => [.x, .y, .fixed d]
  | .registersDigit => [.x, .y, .digit]
  | .register c d => [.x, .fixed c, .fixed d]

/-- Whether the low three nibbles of a word have the fixed values of the layout. -/
def accepts : Layout → Word → Bool
  | .fixed b c d, w => w.second == b && w.third == c && w.last == d
  | .address, _ => true
  | .registerByte, _ => true
  | .registers d, w => w.last == d
  | .registersDigit, _ => true
  | .register c d, w => w.third == c && w.last == d

/-- A layout accepts a word exactly when each of its fields accepts its nibble. -/
theorem accepts_eq_fields (l : Layout) (w : Word) :
    l.accepts w =
      (l.fields.zip [w.second, w.third, w.last]).all fun p => p.1.accepts p.2 := by
  cases l <;> simp [accepts, fields, Field.accepts, BEq.comm, Bool.and_assoc]

end Layout

/-- How an operation is written: its name in listings, the most significant nibble of its
words, and the use of the other three. -/
structure Pattern where
  mnemonic : String
  family : Nibble
  layout : Layout
  deriving DecidableEq, Repr

/-- Whether a word is an instance of the pattern. -/
def Pattern.accepts (p : Pattern) (w : Word) : Bool :=
  p.family == w.family && p.layout.accepts w

namespace Operation

def pattern : Operation → Pattern
  | .clearScreen => ⟨"CLS", 0x0, .fixed 0x0 0xE 0x0⟩
  | .ret => ⟨"RET", 0x0, .fixed 0x0 0xE 0xE⟩
  | .hostRoutine => ⟨"SYS", 0x0, .address⟩
  | .jump => ⟨"JMP", 0x1, .address⟩
  | .call => ⟨"CALL", 0x2, .address⟩
  | .skip .equalsByte => ⟨"SEI", 0x3, .registerByte⟩
  | .skip .differsFromByte => ⟨"SNEI", 0x4, .registerByte⟩
  | .skip .equalsRegister => ⟨"SER", 0x5, .registers 0x0⟩
  | .loadByte => ⟨"LDI", 0x6, .registerByte⟩
  | .addByte => ⟨"ADDI", 0x7, .registerByte⟩
  | .arithmetic .copy => ⟨"LD", 0x8, .registers 0x0⟩
  | .arithmetic .or => ⟨"OR", 0x8, .registers 0x1⟩
  | .arithmetic .and => ⟨"AND", 0x8, .registers 0x2⟩
  | .arithmetic .xor => ⟨"XOR", 0x8, .registers 0x3⟩
  | .arithmetic .add => ⟨"ADD", 0x8, .registers 0x4⟩
  | .arithmetic .subtract => ⟨"SUB", 0x8, .registers 0x5⟩
  | .arithmetic .shiftRight => ⟨"SHR", 0x8, .registers 0x6⟩
  | .arithmetic .subtractReversed => ⟨"SUBN", 0x8, .registers 0x7⟩
  | .arithmetic .shiftLeft => ⟨"SHL", 0x8, .registers 0xE⟩
  | .skip .differsFromRegister => ⟨"SNER", 0x9, .registers 0x0⟩
  | .loadIndex => ⟨"LII", 0xA, .address⟩
  | .jumpOffset => ⟨"JMP0", 0xB, .address⟩
  | .random => ⟨"RND", 0xC, .registerByte⟩
  | .draw => ⟨"DRW", 0xD, .registersDigit⟩
  | .skip .keyDown => ⟨"SKP", 0xE, .register 0x9 0xE⟩
  | .skip .keyUp => ⟨"SKNP", 0xE, .register 0xA 0x1⟩
  | .readDelay => ⟨"SDT", 0xF, .register 0x0 0x7⟩
  | .awaitKey => ⟨"IN", 0xF, .register 0x0 0xA⟩
  | .writeDelay => ⟨"LDT", 0xF, .register 0x1 0x5⟩
  | .writeSound => ⟨"LST", 0xF, .register 0x1 0x8⟩
  | .addIndex => ⟨"ADDII", 0xF, .register 0x1 0xE⟩
  | .pointGlyph => ⟨"LIFNT", 0xF, .register 0x2 0x9⟩
  | .storeDecimal => ⟨"STBCD", 0xF, .register 0x3 0x3⟩
  | .storeRegisters => ⟨"STREG", 0xF, .register 0x5 0x5⟩
  | .loadRegisters => ⟨"LDREG", 0xF, .register 0x6 0x5⟩

def mnemonic (op : Operation) : String := op.pattern.mnemonic

def layout (op : Operation) : Layout := op.pattern.layout

end Operation

/-- All operations in matching order: where two patterns accept a word, the earlier one is
meant. -/
def instructionSet : List Operation :=
  [ .clearScreen, .ret, .hostRoutine, .jump, .call,
    .skip .equalsByte, .skip .differsFromByte, .skip .equalsRegister,
    .loadByte, .addByte,
    .arithmetic .copy, .arithmetic .or, .arithmetic .and, .arithmetic .xor,
    .arithmetic .add, .arithmetic .subtract, .arithmetic .shiftRight,
    .arithmetic .subtractReversed, .arithmetic .shiftLeft,
    .skip .differsFromRegister, .loadIndex, .jumpOffset, .random, .draw,
    .skip .keyDown, .skip .keyUp,
    .readDelay, .awaitKey, .writeDelay, .writeSound, .addIndex, .pointGlyph,
    .storeDecimal, .storeRegisters, .loadRegisters ]

theorem mem_instructionSet (op : Operation) : op ∈ instructionSet := by
  cases op with
  | skip c => cases c <;> decide
  | arithmetic f => cases f <;> decide
  | _ => decide

end ChipEight
