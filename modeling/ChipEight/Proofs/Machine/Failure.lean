import ChipEight.Proofs.Machine.Action

/-!
# Failing steps

Which step fails, with which fault, and what that does to the machine. The fault of a step
is a function of the machine, `Machine.fault?`, which looks at no more than the halted flag,
the program counter, memory, the index register and the depth of the call stack. A step
fails with this fault or succeeds if there is none, and a failing step changes nothing.

Keys, timers and the flag of the screen are not among the things looked at. A host that does
not load a program can change nothing else, so a machine that cannot step stays so.

## Main definitions

- `Instruction.access?`: how many bytes of memory an instruction needs at the index register
- `Machine.fault?`: the fault of the next step

## Main statements

- `Machine.step_respects`: a step fails with its fault, changing nothing, or succeeds
- `Machine.unknownOpcode_iff`: when a step fails for want of an instruction
- `Machine.failing_step_sticks`: a failing step changes nothing, and every later one fails
  in the same way until a program is loaded
-/

namespace ChipEight

/-! ## Faults by inspection -/

/-- The fault of an access to `len` bytes from `start` on, if they are not all in memory. -/
def Memory.fault? (start len : Nat) : Option Fault :=
  if start + len ≤ 4096 then none else some (outside start)

/-- How many bytes an instruction reads or writes where the index register points. -/
def Instruction.access? (i : Instruction) : Option Nat :=
  match i.operation with
  | .draw => some i.digit.val
  | .storeDecimal => some 3
  | .storeRegisters | .loadRegisters => some (i.x.val + 1)
  | _ => none

namespace Machine

/-- The fault of performing an instruction. -/
def performFault? (m : Machine) (i : Instruction) : Option Fault :=
  match i.operation with
  | .ret => if m.stack.depth = 0 then some .stackUnderflow else none
  | .call => if m.stack.depth < 76 then none else some (.stackOverflow 76)
  | _ => i.access?.bind (Memory.fault? m.index.toNat)

/-- The fault of the next step. -/
def fault? (m : Machine) : Option Fault :=
  if m.halted then
    none
  else
    match m.memory.word m.pc.toNat with
    | .error fault => some fault
    | .ok opcode =>
      match Instruction.decode opcode with
      | none => some (.unknownOpcode opcode m.pc)
      | some i => m.performFault? i

end Machine

/-- A result is the fault, or a value if there is no fault. -/
def Fault.Decides {α : Type} : Option Fault → Except Fault α → Prop
  | some fault, result => result = .error fault
  | none, result => ∃ value, result = .ok value

/-- A step from `m` has the verdict that its fault decides, and leaves the machine as it was
if there is a fault. -/
structure Step.Respects (m : Machine) (fault? : Option Fault) (s : Step) : Prop where
  decides : Fault.Decides fault? s.verdict
  unchanged : fault?.isSome → s.machine = m

/-! ## Parts of an instruction -/

theorem Memory.fault?_ne_unknownOpcode (start len : Nat) (opcode address : Word) :
    fault? start len ≠ some (.unknownOpcode opcode address) := by
  unfold fault? outside
  split
  · simp
  · simp

theorem Memory.fault?_decides_read (m : Memory) (start len : Nat) :
    Fault.Decides (fault? start len) (m.read start len) := by
  by_cases h : start + len ≤ 4096 <;> simp [fault?, read, Fault.Decides, h]

theorem Memory.fault?_decides_write (m : Memory) (start : Nat) (block : List UInt8) :
    Fault.Decides (fault? start block.length) (m.write start block) := by
  by_cases h : start + block.length ≤ 4096 <;> simp [fault?, write, Fault.Decides, h]

theorem CallStack.decides_push (s : CallStack) (address : Word) :
    Fault.Decides (if s.depth < 76 then none else some (.stackOverflow 76)) (s.push address) := by
  by_cases h : s.depth < 76 <;> simp [push, Fault.Decides, h]

theorem CallStack.decides_pop (s : CallStack) :
    Fault.Decides (if s.depth = 0 then some .stackUnderflow else none) s.pop := by
  by_cases h : s.depth = 0 <;> simp [pop, Fault.Decides, h, Nat.pos_iff_ne_zero]

namespace Step

theorem respects_of_ok {m : Machine} {s : Step} {progress : Progress}
    (h : s.verdict = .ok progress) : Respects m none s where
  decides := ⟨progress, h⟩
  unchanged hnone := by cases hnone

/-- An operation that asks for something and fails if it does not get it has the fault of
the request. -/
theorem respects_of_request {α : Type} {m : Machine} {s : Step} {fault? : Option Fault}
    {request : Except Fault α} (h : Fault.Decides fault? request)
    (hfail : ∀ fault, request = .error fault → s = .fail m fault)
    (hgot : ∀ value, request = .ok value → s.verdict = .ok .continued) :
    Respects m fault? s := by
  cases fault? with
  | some fault =>
    rw [hfail fault h]
    exact ⟨rfl, fun _ => rfl⟩
  | none =>
    obtain ⟨value, hvalue⟩ := h
    exact respects_of_ok (hgot value hvalue)

end Step

/-! ## Instructions and steps -/

namespace Machine

theorem storeBlock_respects (m : Machine) (block : List UInt8) :
    Step.Respects m (Memory.fault? m.index.toNat block.length) (m.storeBlock block) := by
  apply Step.respects_of_request (m.memory.fault?_decides_write m.index.toNat block)
  · intro fault hwrite
    rw [storeBlock, hwrite]
  · intro memory hwrite
    rw [storeBlock, hwrite]
    rfl

theorem loadBlock_respects (m : Machine) (x : Nibble) :
    Step.Respects m (Memory.fault? m.index.toNat (x.val + 1)) (m.loadBlock x) := by
  apply Step.respects_of_request (m.memory.fault?_decides_read m.index.toNat (x.val + 1))
  · intro fault hread
    rw [loadBlock, hread]
  · intro block hread
    rw [loadBlock, hread]
    rfl

theorem drawSprite_respects (m : Machine) (o : Operands) :
    Step.Respects m (Memory.fault? m.index.toNat o.digit.val) (m.drawSprite o) := by
  apply Step.respects_of_request (m.memory.fault?_decides_read m.index.toNat o.digit.val)
  · intro fault hread
    rw [drawSprite, hread]
  · intro rows hread
    rw [drawSprite, hread]
    rfl

theorem awaitKey_respects (m : Machine) (x : Nibble) : Step.Respects m none (m.awaitKey x) := by
  unfold awaitKey
  split
  · exact Step.respects_of_ok rfl
  · split
    · exact Step.respects_of_ok rfl
    · exact Step.respects_of_ok rfl

/-- An instruction fails with its fault, changing nothing, or succeeds. -/
theorem perform_respects (m : Machine) (i : Instruction) :
    Step.Respects m (m.performFault? i) (m.perform i) := by
  obtain ⟨o, op⟩ := i
  cases op with
  | jump =>
    simp only [perform]
    split
    · exact Step.respects_of_ok rfl
    · exact Step.respects_of_ok rfl
  | call =>
    apply Step.respects_of_request (m.stack.decides_push (m.pc + 2))
    · intro fault hpush
      simp only [perform, hpush]
    · intro stack hpush
      simp only [perform, hpush]
      rfl
  | ret =>
    apply Step.respects_of_request m.stack.decides_pop
    · intro fault hpop
      simp only [perform, hpop]
    · intro popped hpop
      simp only [perform, hpop]
      rfl
  | storeDecimal => exact m.storeBlock_respects (decimalDigits (m.register o.x))
  | storeRegisters =>
    -- The block has one byte for each register up to Vx.
    have hlen : (m.registers.toList.take (o.x.val + 1)).length = o.x.val + 1 := by
      rw [List.length_take, Vector.length_toList, Nat.min_eq_left o.x.isLt]
    have hstore := m.storeBlock_respects (m.registers.toList.take (o.x.val + 1))
    rw [hlen] at hstore
    exact hstore
  | loadRegisters => exact m.loadBlock_respects o.x
  | draw => exact m.drawSprite_respects o
  | awaitKey => exact m.awaitKey_respects o.x
  | _ => exact Step.respects_of_ok rfl

/-- A step fails with its fault, changing nothing, or succeeds. -/
theorem step_respects (m : Machine) : Step.Respects m m.fault? m.step := by
  unfold fault? step
  split
  · exact Step.respects_of_ok rfl
  · cases hword : m.memory.word m.pc.toNat with
    | error fault => exact ⟨rfl, fun _ => rfl⟩
    | ok opcode =>
      cases hdecode : Instruction.decode opcode with
      | none =>
        simp only [hdecode]
        exact ⟨rfl, fun _ => rfl⟩
      | some i =>
        simp only [hdecode]
        -- Reporting the instruction changes neither the verdict nor the machine.
        have hperform := m.perform_respects i
        exact ⟨hperform.decides, hperform.unchanged⟩

theorem step_verdict_eq_error_iff {m : Machine} {fault : Fault} :
    m.step.verdict = .error fault ↔ m.fault? = some fault := by
  have hdecides := m.step_respects.decides
  cases hfault : m.fault? with
  | none =>
    rw [hfault] at hdecides
    obtain ⟨progress, hok⟩ := hdecides
    simp [hok]
  | some found =>
    rw [hfault] at hdecides
    simp [show m.step.verdict = .error found from hdecides]

/-- No instruction fails as a word does that is none. -/
theorem performFault?_ne_unknownOpcode (m : Machine) (i : Instruction) (opcode address : Word) :
    m.performFault? i ≠ some (.unknownOpcode opcode address) := by
  unfold performFault?
  split
  · split
    · simp
    · simp
  · split
    · simp
    · simp
  · -- All that can fail here is an access to memory.
    cases i.access? with
    | none => simp
    | some len => exact Memory.fault?_ne_unknownOpcode _ _ _ _

/-- A step fails with the word before the machine, and where it stands, if it is no instruction. -/
theorem unknownOpcode_iff {m : Machine} {w : Word} (hrun : m.halted = false)
    (hword : m.memory.word m.pc.toNat = .ok w) (opcode address : Word) :
    m.step.verdict = .error (.unknownOpcode opcode address) ↔
      Instruction.decode w = none ∧ opcode = w ∧ address = m.pc := by
  rw [step_verdict_eq_error_iff, fault?, hrun, hword]
  cases hdecode : Instruction.decode w with
  | none => simp [hdecode, eq_comm]
  | some i => simp [hdecode, m.performFault?_ne_unknownOpcode i opcode address]

theorem step_machine_of_error {m : Machine} {fault : Fault} (h : m.step.verdict = .error fault) :
    m.step.machine = m := by
  apply m.step_respects.unchanged
  rw [step_verdict_eq_error_iff.mp h]
  rfl

/-! ## Failure sticks -/

/-- No action but loading a program takes a fault away or replaces it. -/
theorem fault?_act {m : Machine} {fault : Fault} {a : Action} (ha : a.isLoad = false)
    (h : m.fault? = some fault) : (m.act a).fault? = some fault := by
  cases a with
  | load program => cases ha
  | step =>
    have hunchanged : m.step.machine = m :=
      step_machine_of_error (step_verdict_eq_error_iff.mpr h)
    rw [act, hunchanged]
    exact h
  -- None of these touches what the fault is read off.
  | setKey key down => exact h
  | tick => exact h
  | acknowledgeScreen => exact h

/-- A failing step leaves the whole machine as it was, and whatever the host does from then
on, every step fails with the same fault until a program is loaded. -/
theorem failing_step_sticks {m : Machine} {fault : Fault} (h : m.step.verdict = .error fault) :
    m.step.machine = m ∧
      ∀ actions : List Action, (∀ a ∈ actions, a.isLoad = false) →
        (m.acts actions).step.verdict = .error fault := by
  refine ⟨step_machine_of_error h, fun actions hactions => ?_⟩
  have hfault : m.fault? = some fault := step_verdict_eq_error_iff.mp h
  have hlater : (m.acts actions).fault? = some fault :=
    acts_invariant (P := fun n => n.fault? = some fault) (fun _ _ ha hn => fault?_act ha hn)
      hfault hactions
  exact step_verdict_eq_error_iff.mpr hlater

def strayReturn : Machine := fresh (.load [0x00, 0xEE] (by decide)) (.ofSeed 0)

theorem step_verdict_strayReturn : strayReturn.step.verdict = .error .stackUnderflow := by
  have hword : strayReturn.memory.word strayReturn.pc.toNat = .ok (.ofBytes 0x00 0xEE) :=
    Memory.word_load [0x00, 0xEE] (by decide) (i := 0) (by decide)
  rw [step_of_decode (i := { operation := .ret }) rfl hword (by decide)]
  rfl

theorem failing_step_sticks_strayReturn :
    strayReturn.step.verdict = .error .stackUnderflow ∧
      strayReturn.step.machine = strayReturn ∧
      (strayReturn.acts [.setKey 3 true, .tick, .step, .acknowledgeScreen]).step.verdict
        = .error .stackUnderflow := by
  obtain ⟨hunchanged, hlater⟩ := failing_step_sticks step_verdict_strayReturn
  exact ⟨step_verdict_strayReturn, hunchanged, hlater _ (by decide)⟩

end Machine

end ChipEight
