import ChipEight.CallStack
import ChipEight.Memory
import ChipEight.Random.Source
import ChipEight.Screen.Sprite

/-!
# The machine

The whole state of the machine, how it is switched on and loaded, and what its host does to
it between instructions: pressing keys, letting the timers run down, and looking at the
screen. Executing instructions is the matter of the modules below this one.

## Main definitions

- `Machine`: the state
- `Keypad.isDown`, `Machine.register`: one key and one register of it
- `Machine.powerOn`, `Machine.reset`: a fresh machine, and one that is put back to that
- `Load`, `Machine.load`: loading a program, and what it yields
- `Machine.setKey`, `Machine.tick`, `Machine.acknowledgeScreen`: what the host does
-/

namespace ChipEight

/-- Which keys are down. -/
abbrev Keypad := Vector Bool 16

def Keypad.isDown (keys : Keypad) (key : Nibble) : Bool := keys[key]

structure Machine where
  memory : Memory
  screen : Screen
  -- Address of the next instruction.
  pc : Word
  index : Word
  -- VF also takes the flags of arithmetic and drawing.
  registers : Vector UInt8 16
  stack : CallStack
  delay : UInt8
  sound : UInt8
  -- Set when the program jumps onto itself.
  halted : Bool
  -- The key that a waiting instruction has seen going down.
  pendingKey : Option Nibble
  keypad : Keypad
  random : RandomSource
  deriving DecidableEq

/-- What loading a program yields: whether the program was accepted, and the machine after it. -/
structure Load where
  verdict : Except Fault Unit
  machine : Machine

namespace Machine

/-! ## Switching on and loading -/

/-- A machine with given memory and random source, and all else as after switching on. -/
def fresh (memory : Memory) (random : RandomSource) : Machine where
  memory := memory
  screen := .blank
  pc := UInt16.ofNat AddressSpace.programStart
  index := 0
  registers := Vector.replicate 16 0
  stack := .empty
  delay := 0
  sound := 0
  halted := false
  pendingKey := none
  keypad := Vector.replicate 16 false
  random := random

def powerOn (random : RandomSource) : Machine := fresh .withGlyphs random

/-- Puts everything but the random source back to what it is after switching on. -/
def reset (m : Machine) : Machine :=
  { m with
    memory := .withGlyphs
    screen := .blank
    pc := UInt16.ofNat AddressSpace.programStart
    index := 0
    registers := Vector.replicate 16 0
    stack := .empty
    delay := 0
    sound := 0
    halted := false
    pendingKey := none
    keypad := Vector.replicate 16 false }

/-- Resets the machine and puts a program into memory. A program that is too large is refused
before anything is touched. -/
def load (m : Machine) (program : Array UInt8) : Load :=
  if h : program.size ≤ AddressSpace.programCapacity then
    ⟨.ok (), { m.reset with memory := .load program.toList h }⟩
  else
    ⟨.error (.programTooLarge program.size), m⟩

/-! ## What the host does -/

def setKey (m : Machine) (key : Nibble) (down : Bool) : Machine :=
  { m with keypad := m.keypad.set key down }

/-- One period of the timers: both count down and rest at zero. -/
def tick (m : Machine) : Machine :=
  { m with
    delay := if m.delay = 0 then 0 else m.delay - 1
    sound := if m.sound = 0 then 0 else m.sound - 1 }

/-- Whether the sound timer asks for a tone. -/
def beeping (m : Machine) : Bool := m.sound != 0

/-- The host has looked at the screen. -/
def acknowledgeScreen (m : Machine) : Machine := { m with screen := m.screen.acknowledge }

/-! ## Parts of an instruction's effect -/

def register (m : Machine) (r : Nibble) : UInt8 := m.registers[r]

def setRegister (m : Machine) (r : Nibble) (value : UInt8) : Machine :=
  { m with registers := m.registers.set r value }

/-- Puts one into VF if the flag holds and zero otherwise. -/
def setFlag (m : Machine) (flag : Bool) : Machine := m.setRegister 0xF (if flag then 1 else 0)

/-- Goes on behind the current instruction. -/
def advance (m : Machine) : Machine := { m with pc := m.pc + 2 }

/-- Goes on behind the current instruction, leaving out the next one if `condition` holds. -/
def skipIf (m : Machine) (condition : Bool) : Machine :=
  { m with pc := m.pc + if condition then 4 else 2 }

/-- The lowest key that is down. -/
def firstKeyDown? (m : Machine) : Option Nibble :=
  (List.finRange 16).find? fun key => m.keypad.isDown key

end Machine

end ChipEight
