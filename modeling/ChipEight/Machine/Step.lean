import ChipEight.Machine.Arithmetic
import ChipEight.Machine.Event

/-!
# One step

The machine fetches the word at the program counter, decodes it and performs the
instruction. Each operation sets the program counter itself: most go on behind the
instruction, a skip may leave one out, jumps, calls and returns go elsewhere, and a key wait
stays where it is.

An operation that can fail checks before it changes anything. A step yields the machine in
every case, so that what a failing step does to it can be observed.

## Main definitions

- `Progress`: how a successful step leaves the machine
- `Step`: the verdict, the machine and the events of a step
- `Machine.perform`: one instruction
- `Machine.step`: fetch, decode and perform
-/

namespace ChipEight

/-- How a successful step leaves the machine: able to go on, blocked until a key is pressed
and released, or halted. -/
inductive Progress where
  | continued
  | waiting
  | halted
  deriving DecidableEq, Repr

/-- What one step yields: whether it succeeded, the machine after it, and what was reported
on the way. -/
structure Step where
  verdict : Except Fault Progress
  machine : Machine
  events : List Event

namespace Step

def proceed (m : Machine) : Step := ⟨.ok .continued, m, []⟩

def fail (m : Machine) (fault : Fault) : Step := ⟨.error fault, m, []⟩

end Step

namespace Machine

/-- Whether the condition of a skip holds. -/
def holds (m : Machine) (condition : Condition) (o : Operands) : Bool :=
  match condition with
  | .equalsByte => m.register o.x == o.byte
  | .differsFromByte => m.register o.x != o.byte
  | .equalsRegister => m.register o.x == m.register o.y
  | .differsFromRegister => m.register o.x != m.register o.y
  | .keyDown => m.keypad.isDown (Nibble.truncate (m.register o.x))
  | .keyUp => !m.keypad.isDown (Nibble.truncate (m.register o.x))

/-- The decimal digits of a byte, hundreds first. -/
def decimalDigits (b : UInt8) : List UInt8 := [b / 100, b / 10 % 10, b % 10]

/-- Draws the sprite that the index register points at. -/
def drawSprite (m : Machine) (o : Operands) : Step :=
  match m.memory.read m.index.toNat o.digit.val with
  | .error fault => .fail m fault
  | .ok rows =>
    -- The coordinates are read before the flag is written, which may go into one of them.
    let sprite := Sprite.place (m.register o.x).toNat (m.register o.y).toNat rows
    let drawn := m.screen.draw sprite
    .proceed ({ m with screen := drawn.1 }.setFlag drawn.2).advance

/-- Waits until a key goes down and up again. The first step that finds a key down
remembers the lowest one; a later step that finds this key up puts it into Vx. -/
def awaitKey (m : Machine) (x : Nibble) : Step :=
  match m.pendingKey with
  | none => ⟨.ok .waiting, { m with pendingKey := m.firstKeyDown? }, []⟩
  | some key =>
    if m.keypad.isDown key then ⟨.ok .waiting, m, []⟩
    else .proceed (({ m with pendingKey := none }.setRegister x key.toByte).advance)

/-- Writes a block where the index register points. -/
def storeBlock (m : Machine) (block : List UInt8) : Step :=
  match m.memory.write m.index.toNat block with
  | .error fault => .fail m fault
  | .ok memory => .proceed { m with memory := memory }.advance

/-- Loads V0 to Vx from where the index register points. -/
def loadBlock (m : Machine) (x : Nibble) : Step :=
  match m.memory.read m.index.toNat (x.val + 1) with
  | .error fault => .fail m fault
  | .ok block =>
    .proceed { m with
      registers := Vector.ofFn fun r => block[r.val]?.getD (m.register r) }.advance

def perform (m : Machine) (i : Instruction) : Step :=
  match i.operation with
  -- Flow of control
  | .jump =>
    if m.pc = i.address then
      ⟨.ok .halted, { m with halted := true }, [.selfJump i.address]⟩
    else
      .proceed { m with pc := i.address }
  | .jumpOffset => .proceed { m with pc := i.address + (m.register 0).toUInt16 }
  | .call =>
    match m.stack.push (m.pc + 2) with
    | .error fault => .fail m fault
    | .ok stack => .proceed { m with stack := stack, pc := i.address }
  | .ret =>
    match m.stack.pop with
    | .error fault => .fail m fault
    | .ok (address, stack) => .proceed { m with stack := stack, pc := address }
  | .skip condition => .proceed (m.skipIf (m.holds condition i.toOperands))
  | .hostRoutine => ⟨.ok .continued, m.advance, [.routineIgnored i.address m.pc]⟩
  -- Registers
  | .loadByte => .proceed (m.setRegister i.x i.byte).advance
  | .addByte => .proceed (m.setRegister i.x (m.register i.x + i.byte)).advance
  | .arithmetic f => .proceed (m.combine f i.x i.y).advance
  | .random =>
    -- A byte is drawn even if nothing of it passes the mask.
    let drawn := m.random.next
    .proceed ({ m with random := drawn.2 }.setRegister i.x (drawn.1 &&& i.byte)).advance
  -- The index register and the memory it points at
  | .loadIndex => .proceed { m with index := i.address }.advance
  | .addIndex => .proceed { m with index := m.index + (m.register i.x).toUInt16 }.advance
  | .pointGlyph =>
    .proceed { m with index := Glyphs.address (Nibble.truncate (m.register i.x)) }.advance
  | .storeDecimal => m.storeBlock (decimalDigits (m.register i.x))
  | .storeRegisters => m.storeBlock (m.registers.toList.take (i.x.val + 1))
  | .loadRegisters => m.loadBlock i.x
  -- Screen, keypad and timers
  | .clearScreen => .proceed { m with screen := m.screen.clear }.advance
  | .draw => m.drawSprite i.toOperands
  | .awaitKey => m.awaitKey i.x
  | .readDelay => .proceed (m.setRegister i.x m.delay).advance
  | .writeDelay => .proceed { m with delay := m.register i.x }.advance
  | .writeSound => .proceed { m with sound := m.register i.x }.advance

/-- Fetches, decodes and performs the instruction at the program counter. A halted machine
stays as it is. -/
def step (m : Machine) : Step :=
  if m.halted then
    ⟨.ok .halted, m, []⟩
  else
    match m.memory.word m.pc.toNat with
    | .error fault => .fail m fault
    | .ok opcode =>
      match Instruction.decode opcode with
      | none => .fail m (.unknownOpcode opcode m.pc)
      | some i =>
        let report := Event.executing m.pc opcode i
        let done := m.perform i
        { done with events := report :: done.events }

/-- A machine that runs and has an instruction before it performs it, and reports that. -/
theorem step_of_decode {m : Machine} {opcode : Word} {i : Instruction}
    (hrun : m.halted = false) (hword : m.memory.word m.pc.toNat = .ok opcode)
    (hdecode : Instruction.decode opcode = some i) :
    m.step = { m.perform i with events := .executing m.pc opcode i :: (m.perform i).events } := by
  simp only [step, hrun, hword, hdecode, Bool.false_eq_true, if_false]

end Machine

end ChipEight
