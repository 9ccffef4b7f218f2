import ChipEight.Machine.Step
import ChipEight.Proofs.Guarded.Instruction
import ChipEight.Proofs.Guarded.Screen
import ChipEight.Proofs.Guarded.Storage
import ChipEight.Proofs.Machine.Failure

/-!
# The guarded machine

The machine once more, with plain numbers in place of the types that leave no wrong values:
registers and keys are named by bytes, the depth of the call stack is any number, and blocks of
memory are cut out by where they start and stop. All operations on these are guarded.

An instruction leaves the program counter where two more bytes lead to the right place, since each
step that performs an instruction adds two bytes in the end.

## Main definitions

- `PlainMachine`: the state
- `PlainMachine.execute`, `PlainMachine.step`: one instruction and one step
- `Machine.plain`: the plain form of a machine

## Main statements

- `PlainMachine.perform_plain`: an instruction never leaves its domain, and does to the plain form
  what it does to the machine
- `PlainMachine.step_plain`: the same for a step
-/

namespace ChipEight

open Guarded

/-- The state of the machine, in which keys are bytes and the call stack has any depth. -/
structure PlainMachine where
  memory : Memory
  screen : Screen
  pc : Word
  index : Word
  registers : Vector UInt8 16
  stack : PlainStack
  delay : UInt8
  sound : UInt8
  halted : Bool
  pendingKey : Option UInt8
  keypad : Keypad
  random : RandomSource
  deriving DecidableEq

namespace PlainMachine

variable (m : PlainMachine)

/-! ## Parts of an instruction's effect -/

def register (r : UInt8) : Guarded UInt8 := Guarded.index m.registers r.toNat

def setRegister (r value : UInt8) : Guarded PlainMachine :=
  return { m with registers := ← update m.registers r.toNat value }

def setFlag (flag : Bool) : Guarded PlainMachine := m.setRegister 0x0F (if flag then 1 else 0)

def keyDown (key : UInt8) : Guarded Bool := Guarded.index m.keypad key.toNat

/-- Goes where two more bytes lead to the target. -/
def goTo (target : Word) : PlainMachine := { m with pc := target - 2 }

/-- Leaves out the next instruction. -/
def leaveOut : PlainMachine := { m with pc := m.pc + 2 }

def proceed : Guarded (Progress × PlainMachine) := .ok (.continued, m)

def holds (condition : Condition) (i : PlainInstruction) : Guarded Bool := do
  let vx ← m.register i.x
  match condition with
  | .equalsByte => return vx == i.byte
  | .differsFromByte => return vx != i.byte
  | .equalsRegister => return vx == (← m.register i.y)
  | .differsFromRegister => return vx != (← m.register i.y)
  | .keyDown => m.keyDown (vx &&& 0x0F)
  | .keyUp => return !(← m.keyDown (vx &&& 0x0F))

def combine (f : Arithmetic) (x y : UInt8) : Guarded PlainMachine := do
  let vx ← m.register x
  let vy ← m.register y
  let m ← m.setRegister x (f.result vx vy)
  match f.flag? vx vy with
  | some flag => m.setFlag flag
  | none => return m

def drawSprite (i : PlainInstruction) : Guarded PlainMachine := do
  let (start, stop) ← Memory.range m.index.toNat i.digit.toNat
  let vx ← m.register i.x
  let vy ← m.register i.y
  let rows ← slice m.memory.bytes.toList start stop
  let (screen, erased) ← m.screen.paint vx.toNat vy.toNat rows
  ({ m with screen := screen }).setFlag erased

/-- The first of several keys that is down. -/
def firstDown? : (keys : List UInt8) → Guarded (Option UInt8)
  | [] => return none
  | b :: keys => do
    let key ← nibble b
    if ← m.keyDown key then return some key else firstDown? keys

def awaitKey (x : UInt8) : Guarded (Progress × PlainMachine) := do
  match m.pendingKey with
  | none =>
    let first ← m.firstDown? ((List.range 16).map UInt8.ofNat)
    return (.waiting, { m with pendingKey := first }.goTo m.pc)
  | some key =>
    if ← m.keyDown key then
      return (.waiting, m.goTo m.pc)
    else
      ({ m with pendingKey := none }).setRegister x key >>= proceed

def pointGlyph (x : UInt8) : Guarded PlainMachine := do
  let vx ← m.register x
  let offset ← size ((vx &&& 0x0F).toNat * Glyphs.height)
  let glyph ← size (Glyphs.start + offset)
  return { m with index := ← word glyph }

/-- Writes a block of `len` bytes, which is made when its place is known to be in memory. -/
def storeBlock (len : Nat) (block : Guarded (List UInt8)) : Guarded PlainMachine := do
  let (start, stop) ← Memory.range m.index.toNat len
  let bytes ← overwrite m.memory.bytes start stop (← block)
  return { m with memory := { bytes := bytes } }

def loadBlock (x : UInt8) : Guarded PlainMachine := do
  let count ← size (x.toNat + 1)
  let (start, stop) ← Memory.range m.index.toNat count
  let block ← slice m.memory.bytes.toList start stop
  return { m with registers := ← overwrite m.registers 0 count block }

/-! ## Steps -/

def execute (i : PlainInstruction) : Guarded (Progress × PlainMachine) := do
  match i.operation with
  -- Flow of control
  | .jump =>
    if m.pc = i.address then
      return (.halted, { m with halted := true }.goTo i.address)
    else
      (m.goTo i.address).proceed
  | .jumpOffset =>
    let v0 ← m.register 0
    (m.goTo (i.address + v0.toUInt16)).proceed
  | .call =>
    let stack ← m.stack.push (m.pc + 2)
    ({ m with stack := stack }.goTo i.address).proceed
  | .ret =>
    let (address, stack) ← m.stack.pop
    ({ m with stack := stack }.goTo address).proceed
  | .skip condition => if ← m.holds condition i then m.leaveOut.proceed else m.proceed
  | .hostRoutine => m.proceed
  -- Registers
  | .loadByte => m.setRegister i.x i.byte >>= proceed
  | .addByte => m.setRegister i.x ((← m.register i.x) + i.byte) >>= proceed
  | .arithmetic f => m.combine f i.x i.y >>= proceed
  | .random =>
    let drawn := m.random.next
    ({ m with random := drawn.2 }).setRegister i.x (drawn.1 &&& i.byte) >>= proceed
  -- The index register and the memory it points at
  | .loadIndex => ({ m with index := i.address }).proceed
  | .addIndex => ({ m with index := m.index + (← m.register i.x).toUInt16 }).proceed
  | .pointGlyph => m.pointGlyph i.x >>= proceed
  | .storeDecimal =>
    let vx ← m.register i.x
    m.storeBlock 3 (return Machine.decimalDigits vx) >>= proceed
  | .storeRegisters =>
    let count ← size (i.x.toNat + 1)
    m.storeBlock count (slice m.registers.toList 0 count) >>= proceed
  | .loadRegisters => m.loadBlock i.x >>= proceed
  -- Screen, keypad and timers
  | .clearScreen => ({ m with screen := m.screen.clear }).proceed
  | .draw => m.drawSprite i >>= proceed
  | .awaitKey => m.awaitKey i.x
  | .readDelay => m.setRegister i.x m.delay >>= proceed
  | .writeDelay => ({ m with delay := ← m.register i.x }).proceed
  | .writeSound => ({ m with sound := ← m.register i.x }).proceed

/-- Goes on by two bytes. -/
def goOn : Progress × PlainMachine → Guarded (Progress × PlainMachine)
  | (progress, m) => .ok (progress, { m with pc := m.pc + 2 })

def perform (i : PlainInstruction) : Guarded (Progress × PlainMachine) := m.execute i >>= goOn

def fetch : Guarded Word := do
  let (start, stop) ← Memory.range m.pc.toNat 2
  let bytes ← slice m.memory.bytes.toList start stop
  return .ofBytes (← item bytes 0) (← item bytes 1)

/-- Fetches, decodes and performs the instruction at the program counter. -/
def cycle : Guarded (Progress × PlainMachine) := do
  let opcode ← m.fetch
  match ← PlainInstruction.decode opcode with
  | none => fail (.unknownOpcode opcode m.pc)
  | some i => m.perform i

/-- What a step answers, and the machine after it. An instruction that fails has not changed
anything yet. -/
def step : Guarded (Except Fault Progress × PlainMachine) := do
  if m.halted then
    return (.ok .halted, m)
  else
    match ← m.cycle.attempt with
    | .ok (progress, n) => return (.ok progress, n)
    | .error fault => return (.error fault, m)

end PlainMachine

/-! ## The plain form -/

def Machine.plain (m : Machine) : PlainMachine where
  memory := m.memory
  screen := m.screen
  pc := m.pc
  index := m.index
  registers := m.registers
  stack := m.stack.plain
  delay := m.delay
  sound := m.sound
  halted := m.halted
  pendingKey := m.pendingKey.map Nibble.toByte
  keypad := m.keypad
  random := m.random

/-- What a step yields, in plain form. There is no machine if it fails. -/
def Step.plain (s : Step) : Except Fault (Progress × PlainMachine) :=
  s.verdict.map fun progress => (progress, s.machine.plain)

namespace PlainMachine

section Parts

variable (m : Machine)

@[simp] theorem memory_plain : m.plain.memory = m.memory := rfl

@[simp] theorem screen_plain : m.plain.screen = m.screen := rfl

@[simp] theorem pc_plain : m.plain.pc = m.pc := rfl

@[simp] theorem index_plain : m.plain.index = m.index := rfl

@[simp] theorem registers_plain : m.plain.registers = m.registers := rfl

@[simp] theorem stack_plain : m.plain.stack = m.stack.plain := rfl

@[simp] theorem pendingKey_plain : m.plain.pendingKey = m.pendingKey.map Nibble.toByte := rfl

@[simp] theorem register_plain (r : Nibble) : m.plain.register r.toByte = .ok (m.register r) := by
  rw [register, Nibble.toNat_toByte]
  exact index_of_lt r.isLt

@[simp] theorem setRegister_plain (r : Nibble) (value : UInt8) :
    m.plain.setRegister r.toByte value = .ok (m.setRegister r value).plain := by
  rw [setRegister, Nibble.toNat_toByte, update_of_lt r.isLt]
  rfl

@[simp] theorem setFlag_plain (flag : Bool) : m.plain.setFlag flag = .ok (m.setFlag flag).plain :=
  setRegister_plain m 0xF _

@[simp] theorem keyDown_plain (key : Nibble) :
    m.plain.keyDown key.toByte = .ok (m.keypad.isDown key) := by
  rw [keyDown, Nibble.toNat_toByte]
  exact index_of_lt key.isLt

theorem holds_plain (condition : Condition) (i : Instruction) :
    m.plain.holds condition i.plain = .ok (m.holds condition i.toOperands) := by
  cases condition <;>
    simp [holds, Machine.holds, ← Nibble.toByte_truncate]

theorem combine_plain (f : Arithmetic) (x y : Nibble) :
    m.plain.combine f x.toByte y.toByte = .ok (m.combine f x y).plain := by
  simp only [combine, Machine.combine, register_plain, setRegister_plain, ok_bind]
  cases f.flag? (m.register x) (m.register y) with
  | some flag => exact setFlag_plain _ flag
  | none => rfl

theorem pointGlyph_plain (x : Nibble) :
    m.plain.pointGlyph x.toByte
      = .ok { m with index := Glyphs.address (Nibble.truncate (m.register x)) }.plain := by
  simp only [pointGlyph, register_plain, ok_bind, ← Nibble.toByte_truncate, Nibble.toNat_toByte]
  have hdigit := (Nibble.truncate (m.register x)).isLt
  generalize Nibble.truncate (m.register x) = digit at hdigit
  have hoffset : size (digit.val * Glyphs.height) = .ok (digit.val * 5) :=
    show size (digit.val * 5) = _ from size_of_lt (by omega)
  have hglyph : size (Glyphs.start + digit.val * 5) = .ok (0x100 + digit.val * 5) :=
    show size (0x100 + digit.val * 5) = _ from size_of_lt (by omega)
  rw [hoffset, ok_bind, hglyph, ok_bind, word_of_lt (by omega)]
  rfl

/-! ### Going on -/

theorem goTo_goOn (progress : Progress) (target : Word) :
    goOn (progress, m.plain.goTo target) = .ok (progress, { m with pc := target }.plain) := by
  simp only [goOn, goTo, UInt16.sub_add_cancel]
  rfl

theorem proceed_goOn {result : Guarded PlainMachine} {n : Machine} (h : result = .ok n.plain) :
    result >>= proceed >>= goOn = .ok (.continued, { n with pc := n.pc + 2 }.plain) := by
  rw [h]
  rfl

theorem storeBlock_plain {block : List UInt8} {len : Nat} (hlength : block.length = len)
    (hlen : len ≤ 16) :
    m.plain.storeBlock len (.ok block) >>= proceed >>= goOn
      = ofFault (m.storeBlock block).plain := by
  subst hlength
  have hindex := m.index.toNat_lt
  by_cases h : m.index.toNat + block.length ≤ 4096
  · simp only [storeBlock, index_plain, Memory.range_of_le h, ok_bind, memory_plain,
      m.memory.overwrite_range h, Machine.storeBlock, Memory.write, dif_pos h]
    rfl
  · simp only [storeBlock, index_plain, Memory.range_of_lt (Nat.not_le.mp h) (by omega), fail_bind,
      Machine.storeBlock, Memory.write, dif_neg h]
    rfl

theorem loadBlock_plain (x : Nibble) :
    m.plain.loadBlock x.toByte >>= proceed >>= goOn = ofFault (m.loadBlock x).plain := by
  have hindex := m.index.toNat_lt
  have hx := x.isLt
  have hcount : size (x.val + 1) = .ok (x.val + 1) := size_of_lt (by omega)
  by_cases h : m.index.toNat + (x.val + 1) ≤ 4096
  · obtain ⟨block, hread, hlength, hslice⟩ := m.memory.read_of_le h
    have hwrite : overwrite m.registers 0 (x.val + 1) block = .ok _ :=
      overwrite_of_length (by omega) (by omega)
    simp only [loadBlock, Nibble.toNat_toByte, hcount, ok_bind, index_plain, Memory.range_of_le h,
      memory_plain, hslice, registers_plain, hwrite, Machine.loadBlock, hread, Nat.zero_le, if_true,
      Nat.sub_zero]
    rfl
  · have hlarge := Nat.not_le.mp h
    simp only [loadBlock, Nibble.toNat_toByte, hcount, ok_bind, index_plain,
      Memory.range_of_lt hlarge (by omega), fail_bind, Machine.loadBlock,
      m.memory.read_of_lt hlarge]
    rfl

theorem drawSprite_plain (i : Instruction) :
    m.plain.drawSprite i.plain >>= proceed >>= goOn
      = ofFault (m.drawSprite i.toOperands).plain := by
  have hindex := m.index.toNat_lt
  have hdigit := i.digit.isLt
  by_cases h : m.index.toNat + i.digit.val ≤ 4096
  · obtain ⟨rows, hread, hlength, hslice⟩ := m.memory.read_of_le h
    have hrows : rows.length < 16 := by omega
    have hpaint := m.screen.paint_eq (m.register i.x).toNat_lt (m.register i.y).toNat_lt hrows
    simp only [drawSprite, PlainInstruction.digit_plain, PlainInstruction.x_plain,
      PlainInstruction.y_plain, Nibble.toNat_toByte, index_plain, Memory.range_of_le h, ok_bind,
      register_plain, memory_plain, hslice, screen_plain, hpaint, Machine.drawSprite, hread]
    generalize m.screen.draw (.place (m.register i.x).toNat (m.register i.y).toNat rows) = drawn
    exact proceed_goOn (setFlag_plain { m with screen := drawn.1 } drawn.2)
  · have hlarge := Nat.not_le.mp h
    simp only [drawSprite, PlainInstruction.digit_plain, Nibble.toNat_toByte, index_plain,
      Memory.range_of_lt hlarge (by omega), fail_bind, Machine.drawSprite,
      m.memory.read_of_lt hlarge]
    rfl

theorem firstDown?_plain (keys : List Nibble) :
    m.plain.firstDown? (keys.map Nibble.toByte)
      = .ok ((keys.find? fun key => m.keypad.isDown key).map Nibble.toByte) := by
  induction keys with
  | nil => rfl
  | cons key keys ih =>
    simp only [List.map_cons, firstDown?, nibble_toByte, ok_bind, keyDown_plain, List.find?_cons]
    cases m.keypad.isDown key with
    | true => rfl
    | false => exact ih

theorem awaitKey_plain (x : Nibble) :
    m.plain.awaitKey x.toByte >>= goOn = ofFault (m.awaitKey x).plain := by
  unfold awaitKey Machine.awaitKey
  cases hkey : m.pendingKey with
  | none =>
    have hkeys : (List.range 16).map UInt8.ofNat = (List.finRange 16).map Nibble.toByte := rfl
    simp only [pendingKey_plain, hkey, Option.map_none, hkeys, firstDown?_plain, ok_bind,
      pure_eq_ok]
    exact goTo_goOn { m with pendingKey := m.firstKeyDown? } .waiting m.pc
  | some key =>
    simp only [pendingKey_plain, hkey, Option.map_some, keyDown_plain, ok_bind]
    cases m.keypad.isDown key with
    | true => exact goTo_goOn m .waiting m.pc
    | false =>
      exact proceed_goOn (setRegister_plain { m with pendingKey := none } x key.toByte)

/-- An instruction never leaves its domain. It yields the plain form of what the instruction does to
the machine. -/
theorem perform_plain (i : Instruction) :
    m.plain.perform i.plain = ofFault (m.perform i).plain := by
  obtain ⟨o, op⟩ := i
  have haddress : PlainInstruction.address (Instruction.plain ⟨o, op⟩) = o.address :=
    PlainInstruction.address_plain _
  simp only [perform, execute, PlainInstruction.operation_plain]
  -- What only reads and writes single registers is left to the last case.
  cases op with
  | jump =>
    simp only [haddress, pc_plain, Machine.perform]
    by_cases hself : m.pc = o.address
    · rw [if_pos hself, if_pos hself, ← hself]
      exact goTo_goOn { m with halted := true } .halted m.pc
    · rw [if_neg hself, if_neg hself]
      exact goTo_goOn m .continued o.address
  | jumpOffset =>
    have hv0 : m.plain.register 0 = .ok (m.register 0) := register_plain m 0
    simp only [haddress, hv0, ok_bind]
    exact goTo_goOn m .continued _
  | call =>
    simp only [haddress, pc_plain, stack_plain, PlainStack.push_plain, Machine.perform]
    cases m.stack.push (m.pc + 2) with
    | error fault => rfl
    | ok stack => exact goTo_goOn { m with stack := stack } .continued o.address
  | ret =>
    simp only [stack_plain, PlainStack.pop_plain, Machine.perform]
    cases m.stack.pop with
    | error fault => rfl
    | ok popped => exact goTo_goOn { m with stack := popped.2 } .continued popped.1
  | skip condition =>
    simp only [holds_plain, ok_bind, Machine.perform, Machine.skipIf]
    cases m.holds condition o with
    | true =>
      -- Leaving out an instruction and going on are two bytes each.
      have hpc : m.pc + 2 + 2 = m.pc + 4 := UInt16.add_assoc m.pc 2 2
      change Except.ok (Progress.continued, { m.plain with pc := m.pc + 2 + 2 }) = _
      rw [hpc]
      rfl
    | false => rfl
  | arithmetic f => exact proceed_goOn (combine_plain m f o.x o.y)
  | random =>
    exact proceed_goOn (setRegister_plain { m with random := m.random.next.2 } o.x _)
  | pointGlyph => exact proceed_goOn (pointGlyph_plain m o.x)
  | storeDecimal =>
    simp only [PlainInstruction.x_plain, register_plain, ok_bind]
    exact storeBlock_plain m rfl (by decide)
  | storeRegisters =>
    -- One more than the number of a register is still not more than there are registers.
    have hx := o.x.isLt
    have hcount : size (o.x.val + 1) = .ok (o.x.val + 1) := size_of_lt (by omega)
    have hregisters : m.registers.toList.length = 16 := Vector.length_toList
    have hlength : (m.registers.toList.take (o.x.val + 1)).length = o.x.val + 1 := by
      rw [List.length_take, hregisters]
      omega
    have hslice : slice m.registers.toList 0 (o.x.val + 1)
        = .ok (m.registers.toList.take (o.x.val + 1)) := slice_of_le (by omega) (by omega)
    simp only [PlainInstruction.x_plain, Nibble.toNat_toByte, hcount, ok_bind, registers_plain,
      hslice]
    exact storeBlock_plain m hlength o.x.isLt
  | loadRegisters => exact loadBlock_plain m o.x
  | draw => exact drawSprite_plain m _
  | awaitKey => exact awaitKey_plain m o.x
  | hostRoutine => rfl
  | clearScreen => rfl
  | _ =>
    simp only [haddress, PlainInstruction.x_plain, PlainInstruction.byte_plain, register_plain,
      setRegister_plain, ok_bind]
    rfl

theorem fetch_plain : m.plain.fetch = ofFault (m.memory.word m.pc.toNat) := by
  have hpc := m.pc.toNat_lt
  by_cases h : m.pc.toNat + 2 ≤ 4096
  · obtain ⟨bytes, hread, -, hslice⟩ := m.memory.read_of_le h
    obtain rfl : List.ofFn _ = bytes := Except.ok.inj ((dif_pos h).symm.trans hread)
    simp only [fetch, pc_plain, Memory.range_of_le h, ok_bind, memory_plain, hslice, Memory.word,
      dif_pos h]
    rfl
  · have hlarge := Nat.not_le.mp h
    simp only [fetch, pc_plain, Memory.range_of_lt hlarge (by omega), fail_bind, Memory.word,
      dif_neg h]
    rfl

theorem cycle_plain (hrun : m.halted = false) : m.plain.cycle = ofFault m.step.plain := by
  unfold cycle Machine.step
  rw [fetch_plain, hrun]
  cases m.memory.word m.pc.toNat with
  | error fault => rfl
  | ok opcode =>
    simp only [ofFault, ok_bind, PlainInstruction.decode_eq]
    cases Instruction.decode opcode with
    | none => rfl
    | some i => exact perform_plain m i

/-- A step never leaves its domain. It answers what the step of the machine answers, and leaves the
plain form of the machine that it leaves. -/
theorem step_plain : m.plain.step = .ok (m.step.verdict, m.step.machine.plain) := by
  unfold step
  cases hhalted : m.halted with
  | true =>
    have hplain : m.plain.halted = true := hhalted
    have hstep : m.step = ⟨.ok .halted, m, []⟩ := if_pos hhalted
    rw [if_pos hplain, hstep]
    rfl
  | false =>
    have hplain : ¬m.plain.halted = true := Bool.eq_false_iff.mp hhalted
    rw [if_neg hplain, cycle_plain m hhalted, attempt_ofFault, ok_bind, Step.plain]
    cases hverdict : m.step.verdict with
    | error fault =>
      rw [Machine.step_machine_of_error hverdict]
      rfl
    | ok progress => rfl

end Parts

end PlainMachine

end ChipEight
