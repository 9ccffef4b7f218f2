import Mathlib.Order.Bounds.Defs
import ChipEight.Proofs.Machine.Effect

/-!
# The checks of a step

What a step can fail for is written down here once more as a list: the checks that are made, in the
order in which they are made, each with the fault of failing it. A check looks at numbers alone, at
the word before the machine and at how many addresses are on the call stack. The step of a running
machine fails exactly if one of them fails, and its fault is that of the first one that does. So an
instruction that is not named by any check cannot fail.

An access to memory needs a block of addresses, and fails as a whole if the block sticks out. The
fault names the lowest address of the block that is not in memory. An empty block has no such
address. It sticks out if it starts behind the end of memory, and then the fault names its start.

## Main definitions

- `Block`: the addresses that an access needs
- `Check`, `Check.first?`: what can fail, and the fault of the first check that does
- `Machine.checks`: the checks of a step
- `Machine.blocks`: the blocks of memory that a step needs

## Main statements

- `Block.isLeast_outside`: the address that is named when a block sticks out
- `Machine.first?_checks`: the first check that fails decides what the step fails with
- `Machine.step_fails_at_first_check`: when a step fails, with what, and at which address
-/

namespace ChipEight

/-! ## Blocks -/

/-- Addresses in a row. -/
structure Block where
  start : Nat
  length : Nat

namespace Block

variable (b : Block)

/-- The addresses of the block that are not in memory. -/
def outside : Set Nat := {a | b.start ≤ a ∧ a < b.start + b.length ∧ 4096 ≤ a}

def sticksOut : Bool := 4096 < b.start + b.length

def fault : Fault := .outOfBounds (max b.start 4096)

theorem sticksOut_eq_false_iff : b.sticksOut = false ↔ b.start + b.length ≤ 4096 := by
  rw [sticksOut, decide_eq_false_iff_not, Nat.not_lt]

/-- The fault of a block that sticks out names its lowest address outside, if it has addresses. -/
theorem isLeast_outside {b : Block} (hout : b.sticksOut = true) (hlength : 0 < b.length) :
    IsLeast b.outside (max b.start 4096) := by
  have hend : 4096 < b.start + b.length := of_decide_eq_true hout
  refine ⟨⟨Nat.le_max_left _ _, ?_, Nat.le_max_right _ _⟩, ?_⟩
  · exact Nat.max_lt.mpr ⟨Nat.lt_add_of_pos_right hlength, hend⟩
  · rintro a ⟨hstart, -, hmemory⟩
    exact Nat.max_le.mpr ⟨hstart, hmemory⟩

/-- It names the start of an empty block. -/
theorem start_of_empty {b : Block} (hout : b.sticksOut = true) (hlength : b.length = 0) :
    max b.start 4096 = b.start ∧ 4096 < b.start := by
  have hend : 4096 < b.start + b.length := of_decide_eq_true hout
  rw [hlength] at hend
  exact ⟨Nat.max_eq_left (Nat.le_of_lt hend), hend⟩

end Block

theorem Memory.fault?_eq (start len : Nat) :
    fault? start len = if (Block.mk start len).sticksOut then some (Block.mk start len).fault
      else none := by
  by_cases h : start + len ≤ 4096
  · rw [fault?, if_pos h, (Block.sticksOut_eq_false_iff _).mpr h]
    rfl
  · rw [fault?, if_neg h, Block.sticksOut, decide_eq_true (Nat.lt_of_not_le h)]
    rfl

/-! ## Checks -/

/-- Something that is checked: whether it fails, and the fault of failing it. -/
structure Check where
  fails : Bool
  fault : Fault

namespace Check

/-- Whether a block of memory is there. -/
def block (b : Block) : Check := ⟨b.sticksOut, b.fault⟩

/-- A check that is made only if a condition holds. -/
def onlyIf (condition : Bool) (c : Check) : Check := { c with fails := condition && c.fails }

/-- The fault of the first check that fails. -/
def first? (checks : List Check) : Option Fault := (checks.find? fails).map fault

@[simp] theorem first?_nil : first? [] = none := rfl

theorem first?_cons (c : Check) (checks : List Check) :
    first? (c :: checks) = if c.fails then some c.fault else first? checks := by
  cases hfails : c.fails with
  | true => simp [first?, hfails]
  | false => simp [first?, hfails]

end Check

/-- A byte of memory. Behind the end of memory there is none, which counts as zero. -/
def Memory.byteAt (m : Memory) (a : Nat) : UInt8 := m.bytes[a]?.getD 0

theorem Memory.word_of_le (m : Memory) {start : Nat} (h : start + 2 ≤ 4096) :
    m.word start = .ok (.ofBytes (m.byteAt start) (m.byteAt (start + 1))) := by
  have hlow : start < 4096 := by omega
  have hhigh : start + 1 < 4096 := by omega
  rw [word, dif_pos h, byteAt, byteAt, Vector.getElem?_eq_getElem hlow,
    Vector.getElem?_eq_getElem hhigh]
  rfl

theorem Memory.word_of_lt (m : Memory) {start : Nat} (h : ¬start + 2 ≤ 4096) :
    m.word start = .error (outside start) := dif_neg h

namespace Machine

variable (m : Machine)

/-- The word before the machine, high byte first. -/
def nextWord : Word := .ofBytes (m.memory.byteAt m.pc.toNat) (m.memory.byteAt (m.pc.toNat + 1))

/-- Whether the word before the machine is an instruction of some operation. -/
def faces (op : Operation) : Bool := (Instruction.decode m.nextWord).any fun i => i.operation == op

/-- The block of some length where the index register points. -/
def indexed (length : Nat) : Block := ⟨m.index.toNat, length⟩

/-- The checks of a step, in their order. -/
def checks : List Check :=
  let x := m.nextWord.second
  let height := m.nextWord.last
  [ -- There has to be a word before the machine, and it has to be an instruction.
    .block ⟨m.pc.toNat, 2⟩,
    ⟨instructionSet.all fun op => !op.pattern.accepts m.nextWord, .unknownOpcode m.nextWord m.pc⟩,
    -- Returns and calls need the call stack.
    ⟨m.faces .ret && m.stack.toList.isEmpty, .stackUnderflow⟩,
    ⟨m.faces .call && m.stack.toList.length == 76, .stackOverflow 76⟩,
    -- Sprites, digits and registers need a block of memory.
    .onlyIf (m.faces .draw) (.block (m.indexed height.val)),
    .onlyIf (m.faces .storeDecimal) (.block (m.indexed 3)),
    .onlyIf (m.faces .storeRegisters) (.block (m.indexed (x.val + 1))),
    .onlyIf (m.faces .loadRegisters) (.block (m.indexed (x.val + 1))) ]

/-- The blocks of memory that a step needs: that of the instruction, and the one that this asks for
where the index register points. -/
def blocks : List Block :=
  ⟨m.pc.toNat, 2⟩ :: (m.instruction?.bind Instruction.access?).toList.map m.indexed

variable {m}

/-- No pattern accepts a word exactly if it is no instruction. -/
theorem all_not_accepts (w : Word) :
    (instructionSet.all fun op => !op.pattern.accepts w) = (Instruction.decode w).isNone := by
  apply Bool.eq_iff_iff.mpr
  simp [Instruction.decode, List.find?_eq_none]

theorem faces_of_decode {i : Instruction} (h : Instruction.decode m.nextWord = some i)
    (op : Operation) : m.faces op = (i.operation == op) := by
  rw [faces, h]
  rfl

/-- The digit of a sprite is the last nibble of its word. -/
theorem digit_of_decode {w : Word} {i : Instruction} (h : Instruction.decode w = some i)
    (hi : i.operation = .draw) : i.digit = w.last := by
  obtain ⟨-, hoperands⟩ := Instruction.accepts_of_decode h
  have hmod : (w % 16).toNat = w.toNat % 16 := UInt16.toNat_mod w 16
  rw [Operands.digit, hoperands, hi]
  exact Fin.ext (by change (w % 16).toNat % 16 = w.toNat % 16; omega)

theorem x_of_decode {w : Word} {i : Instruction} (h : Instruction.decode w = some i)
    (hi : i.operation = .storeRegisters ∨ i.operation = .loadRegisters) : i.x = w.second := by
  obtain ⟨-, hoperands⟩ := Instruction.accepts_of_decode h
  rcases hi with hi | hi
  · rw [hoperands, hi]
    rfl
  · rw [hoperands, hi]
    rfl

/-- With an instruction before it, a step is left with the checks of this instruction. -/
theorem first?_checks_of_decode {i : Instruction} (hin : m.pc.toNat + 2 ≤ 4096)
    (hdecode : Instruction.decode m.nextWord = some i) :
    Check.first? m.checks = m.performFault? i := by
  have hfetched : (Block.mk m.pc.toNat 2).sticksOut = false :=
    (Block.sticksOut_eq_false_iff _).mpr hin
  have hknown : (instructionSet.all fun op => !op.pattern.accepts m.nextWord) = false := by
    rw [all_not_accepts, hdecode]
    rfl
  have hdigit := digit_of_decode hdecode
  have hx := x_of_decode hdecode
  obtain ⟨o, op⟩ := i
  -- Of the remaining checks only those of its own operation can fail.
  simp only [checks, Check.first?_cons, Check.first?_nil, Check.block, Check.onlyIf,
    faces_of_decode hdecode, hfetched, hknown, performFault?, Instruction.access?]
  cases op with
  | ret =>
    change (if m.stack.toList.isEmpty = true then _ else _) = _
    rw [CallStack.isEmpty_toList]
    by_cases hempty : m.stack.depth = 0
    · rw [if_pos (beq_iff_eq.mpr hempty), if_pos hempty]
    · rw [if_neg (mt beq_iff_eq.mp hempty), if_neg hempty]
      rfl
  | call =>
    -- The stack cannot be more than full, so not having room means being full.
    change (if (m.stack.toList.length == 76) = true then _ else _) = _
    rw [CallStack.length_toList]
    by_cases hroom : m.stack.depth < 76
    · rw [if_neg (mt beq_iff_eq.mp (Nat.ne_of_lt hroom)), if_pos hroom]
      rfl
    · have hfull : m.stack.depth = 76 := Nat.le_antisymm m.stack.depth_le (Nat.le_of_not_lt hroom)
      rw [if_pos (beq_iff_eq.mpr hfull), if_neg hroom]
  -- The operands of the others are nibbles of the word.
  | draw =>
    rw [← hdigit rfl]
    exact (Memory.fault?_eq m.index.toNat o.digit.val).symm
  | storeDecimal => exact (Memory.fault?_eq m.index.toNat 3).symm
  | storeRegisters =>
    rw [← hx (.inl rfl)]
    exact (Memory.fault?_eq m.index.toNat (o.x.val + 1)).symm
  | loadRegisters =>
    rw [← hx (.inr rfl)]
    exact (Memory.fault?_eq m.index.toNat (o.x.val + 1)).symm
  | _ => rfl

/-- The first check that fails decides what the step of a running machine fails with. -/
theorem first?_checks (hrun : m.halted = false) : Check.first? m.checks = m.fault? := by
  by_cases hin : m.pc.toNat + 2 ≤ 4096
  · have hword : m.memory.word m.pc.toNat = .ok m.nextWord := m.memory.word_of_le hin
    cases hdecode : Instruction.decode m.nextWord with
    | some i =>
      rw [first?_checks_of_decode hin hdecode]
      simp only [fault?, hrun, hword, hdecode, Bool.false_eq_true, if_false]
    | none =>
      have hfetched : (Block.mk m.pc.toNat 2).sticksOut = false :=
        (Block.sticksOut_eq_false_iff _).mpr hin
      have hunknown : (instructionSet.all fun op => !op.pattern.accepts m.nextWord) = true := by
        rw [all_not_accepts, hdecode]
        rfl
      simp [checks, Check.first?_cons, Check.block, hfetched, hunknown, fault?, hrun, hword,
        hdecode]
  · have hout : (Block.mk m.pc.toNat 2).sticksOut = true := decide_eq_true (Nat.lt_of_not_le hin)
    simp only [fault?, hrun, m.memory.word_of_lt hin, Bool.false_eq_true, if_false]
    rw [checks, Check.first?_cons, Check.block, if_pos hout]
    rfl

theorem Memory.exists_block_of_fault? {start len address : Nat}
    (h : Memory.fault? start len = some (.outOfBounds address)) :
    (Block.mk start len).sticksOut = true ∧ address = max start 4096 := by
  rw [Memory.fault?_eq] at h
  split at h
  · rename_i hout
    cases h
    exact ⟨hout, rfl⟩
  · cases h

/-- An instruction names an address only for the block that it asks for. -/
theorem access?_of_performFault? {i : Instruction} {address : Nat}
    (h : m.performFault? i = some (.outOfBounds address)) :
    ∃ length, i.access? = some length ∧ (m.indexed length).sticksOut = true ∧
      address = max m.index.toNat 4096 := by
  unfold performFault? at h
  split at h
  · split at h
    · cases h
    · cases h
  · split at h
    · cases h
    · cases h
  · obtain ⟨length, haccess, hfault⟩ := Option.bind_eq_some_iff.mp h
    exact ⟨length, haccess, Memory.exists_block_of_fault? hfault⟩

/-- A fault that names an address comes from a block of the step that sticks out. -/
theorem exists_block {address : Nat} (hrun : m.halted = false)
    (h : m.fault? = some (.outOfBounds address)) :
    ∃ b ∈ m.blocks, b.sticksOut = true ∧ address = max b.start 4096 := by
  by_cases hin : m.pc.toNat + 2 ≤ 4096
  · have hword : m.memory.word m.pc.toNat = .ok m.nextWord := m.memory.word_of_le hin
    simp only [fault?, hrun, hword, Bool.false_eq_true, if_false] at h
    cases hdecode : Instruction.decode m.nextWord with
    | none =>
      rw [hdecode] at h
      cases h
    | some i =>
      rw [hdecode] at h
      obtain ⟨length, haccess, hout, haddress⟩ := access?_of_performFault? h
      refine ⟨m.indexed length, List.mem_cons_of_mem _ ?_, hout, haddress⟩
      rw [instruction?_of_decode hword hdecode, Option.bind_some, haccess]
      exact List.mem_singleton_self _
  · have hout : (Block.mk m.pc.toNat 2).sticksOut = true := decide_eq_true (Nat.lt_of_not_le hin)
    simp only [fault?, hrun, m.memory.word_of_lt hin, Bool.false_eq_true, if_false] at h
    cases h
    exact ⟨_, List.mem_cons_self, hout, rfl⟩

/-- **When a step fails.** A step fails exactly if the machine runs and a check fails, with the
fault of the first one that does. An address in the fault is the lowest one outside memory of a
block that the step needs. Only an empty block has none, and then it is where the block starts. A
machine that has halted does not fail. -/
theorem step_fails_at_first_check (m : Machine) :
    (∀ fault, m.step.verdict = .error fault ↔
      m.halted = false ∧ Check.first? m.checks = some fault) ∧
    (∀ address, m.step.verdict = .error (.outOfBounds address) →
      ∃ b ∈ m.blocks, (0 < b.length → IsLeast b.outside address) ∧
        (b.length = 0 → address = b.start ∧ 4096 < b.start)) ∧
    (m.halted = true → m.step = ⟨.ok .halted, m, []⟩) := by
  have hrunning {fault : Fault} (h : m.fault? = some fault) : m.halted = false := by
    cases hhalted : m.halted with
    | false => rfl
    | true =>
      rw [fault?, if_pos hhalted] at h
      cases h
  refine ⟨fun fault => ?_, fun address hverdict => ?_, fun hhalted => if_pos hhalted⟩
  · rw [step_verdict_eq_error_iff]
    constructor
    · intro hfault
      exact ⟨hrunning hfault, (first?_checks (hrunning hfault)).trans hfault⟩
    · rintro ⟨hrun, hfirst⟩
      exact (first?_checks hrun).symm.trans hfirst
  · have hfault := step_verdict_eq_error_iff.mp hverdict
    obtain ⟨b, hb, hout, rfl⟩ := exists_block (hrunning hfault) hfault
    exact ⟨b, hb, Block.isLeast_outside hout, Block.start_of_empty hout⟩

/-- A machine that is to draw a sprite without rows, whose place is behind the end of memory. -/
def farSprite : Machine :=
  { fresh (.load [0xD0, 0x10] (by decide)) (.ofSeed 0) with index := 0x1100 }

theorem decode_nextWord_farSprite :
    Instruction.decode farSprite.nextWord = some { x := 0, y := 1, operation := .draw } := by
  have hword : farSprite.memory.word farSprite.pc.toNat = .ok (.ofBytes 0xD0 0x10) :=
    Memory.word_load [0xD0, 0x10] (by decide) (i := 0) (by decide)
  have hnext : farSprite.memory.word farSprite.pc.toNat = .ok farSprite.nextWord :=
    farSprite.memory.word_of_le (Memory.le_of_word hword)
  rw [Except.ok.inj (hnext.symm.trans hword)]
  decide

/-- No byte of memory is needed, but the step fails all the same. -/
theorem step_fails_at_first_check_farSprite :
    Check.first? farSprite.checks = some (.outOfBounds 0x1100) ∧
      farSprite.step.verdict = .error (.outOfBounds 0x1100) := by
  have hfirst : Check.first? farSprite.checks = some (.outOfBounds 0x1100) :=
    first?_checks_of_decode (by decide) decode_nextWord_farSprite
  exact ⟨hfirst, ((step_fails_at_first_check farSprite).1 _).mpr ⟨rfl, hfirst⟩⟩

end Machine

end ChipEight
