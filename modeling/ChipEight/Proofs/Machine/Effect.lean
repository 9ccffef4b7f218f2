import ChipEight.Proofs.Machine.Failure

/-!
# What a step does

A step of a machine that has halted, and a step that fails, leave the machine as it was. All
others perform the instruction at the program counter. What a step keeps is therefore what
instructions keep.

What an instruction does to the machine is stated for each part of the state by itself: whether
the machine halts, which key it remembers, the call stack, and the program counter. A property of
some parts needs only the lemmas on those.

The program counter is computed in two moves. An instruction leaves it where two more bytes lead
to the right place, and then it is increased by two, whatever the instruction was. So a jump aims
two short of its target and a key wait goes back to two short of itself. The computation can be
done in any arithmetic; on words it wraps round.

## Main definitions

- `Machine.instruction?`: the instruction at the program counter
- `Machine.StepCase`: the ways in which a step can go
- `Machine.landing`: where an instruction leaves the program counter
- `Machine.progressOf`, `Machine.notices`: how an instruction that succeeds leaves the machine, and
  what it reports

## Main statements

- `Machine.step_keeps`: what every successful instruction keeps, a step keeps
- `Machine.perform_halted`, `Machine.perform_pendingKey`, `Machine.perform_stack`,
  `Machine.perform_pc`: the effect of an instruction on a part of the state
- `Machine.perform_verdict`, `Machine.perform_events`: what an instruction yields beside the machine
-/

namespace ChipEight

theorem Memory.le_of_word {m : Memory} {start : Nat} {w : Word} (h : m.word start = .ok w) :
    start + 2 ≤ 4096 := by
  unfold word at h
  split at h
  · assumption
  · cases h

namespace Machine

/-! ## Steps -/

theorem pc_le_of_word {m : Machine} {w : Word} (h : m.memory.word m.pc.toNat = .ok w) :
    m.pc.toNat ≤ 0xFFE := Nat.le_of_add_le_add_right (Memory.le_of_word h)

/-- Two bytes on, from a place that holds an instruction, nothing wraps round. -/
theorem toNat_pc_add_two {m : Machine} (hpc : m.pc.toNat ≤ 0xFFE) :
    (m.pc + 2).toNat = m.pc.toNat + 2 := by
  have htwo : (2 : Word).toNat = 2 := rfl
  rw [UInt16.toNat_add, htwo]
  omega

/-- The instruction at the program counter, if there is one. -/
def instruction? (m : Machine) : Option Instruction :=
  (m.memory.word m.pc.toNat).toOption.bind Instruction.decode

theorem instruction?_of_decode {m : Machine} {opcode : Word} {i : Instruction}
    (hword : m.memory.word m.pc.toNat = .ok opcode) (hdecode : Instruction.decode opcode = some i) :
    m.instruction? = some i := by
  rw [instruction?, hword]
  exact hdecode

theorem exists_decode_of_instruction? {m : Machine} {i : Instruction}
    (h : m.instruction? = some i) :
    ∃ opcode, m.memory.word m.pc.toNat = .ok opcode ∧ Instruction.decode opcode = some i := by
  unfold instruction? at h
  cases hword : m.memory.word m.pc.toNat with
  | error fault =>
    rw [hword] at h
    cases h
  | ok opcode =>
    rw [hword] at h
    exact ⟨opcode, rfl, h⟩

/-- The fault of a machine that runs is the fault of the instruction before it. -/
theorem fault?_of_instruction? {m : Machine} {i : Instruction} (hrun : m.halted = false)
    (h : m.instruction? = some i) : m.fault? = m.performFault? i := by
  obtain ⟨opcode, hword, hdecode⟩ := exists_decode_of_instruction? h
  simp [fault?, hrun, hword, hdecode]

/-- The ways in which a step can go. -/
inductive StepCase (m : Machine) : Prop where
  | halted (hhalted : m.halted = true) (hstep : m.step = ⟨.ok .halted, m, []⟩)
  | failed {fault : Fault} (hverdict : m.step.verdict = .error fault) (hsame : m.step.machine = m)
  | performed {opcode : Word} {i : Instruction} {progress : Progress} (hrun : m.halted = false)
      (hword : m.memory.word m.pc.toNat = .ok opcode) (hdecode : Instruction.decode opcode = some i)
      (hperform : (m.perform i).verdict = .ok progress) (hverdict : m.step.verdict = .ok progress)
      (hmachine : m.step.machine = (m.perform i).machine)

theorem stepCase (m : Machine) : m.StepCase := by
  cases hhalted : m.halted with
  | true => exact .halted hhalted (by simp [step, hhalted])
  | false =>
    cases hverdict : m.step.verdict with
    | error fault => exact .failed hverdict (step_machine_of_error hverdict)
    | ok progress =>
      -- There is an instruction, since the step would fail without one.
      cases hword : m.memory.word m.pc.toNat with
      | error fault => simp [step, hhalted, hword, Step.fail] at hverdict
      | ok opcode =>
        cases hdecode : Instruction.decode opcode with
        | none => simp [step, hhalted, hword, hdecode, Step.fail] at hverdict
        | some i =>
          have hstep := step_of_decode hhalted hword hdecode
          refine .performed hhalted hword hdecode ?_ hverdict ?_
          · rw [hstep] at hverdict
            exact hverdict
          · rw [hstep]

/-- A successful step of a machine that runs performs the instruction before it. -/
theorem exists_perform_of_ok {m : Machine} {progress : Progress} (hrun : m.halted = false)
    (hok : m.step.verdict = .ok progress) :
    ∃ opcode i, m.memory.word m.pc.toNat = .ok opcode ∧ Instruction.decode opcode = some i ∧
      (m.perform i).verdict = .ok progress ∧ m.step.machine = (m.perform i).machine := by
  cases m.stepCase with
  | halted hhalted => cases hrun.symm.trans hhalted
  | failed hverdict => cases hverdict.symm.trans hok
  | performed _ hword hdecode hperform hverdict hmachine =>
    obtain rfl := Except.ok.inj (hverdict.symm.trans hok)
    exact ⟨_, _, hword, hdecode, hperform, hmachine⟩

/-- What every successful instruction keeps, a step keeps. -/
theorem step_keeps {P : Machine → Prop} {m : Machine} (hm : P m)
    (hperform : ∀ opcode i progress, m.halted = false → m.memory.word m.pc.toNat = .ok opcode →
      Instruction.decode opcode = some i → (m.perform i).verdict = .ok progress →
        P (m.perform i).machine) :
    P m.step.machine := by
  cases m.stepCase with
  | halted _ hstep =>
    rw [hstep]
    exact hm
  | failed _ hsame =>
    rw [hsame]
    exact hm
  | performed hrun hword hdecode hok _ hmachine =>
    rw [hmachine]
    exact hperform _ _ _ hrun hword hdecode hok

/-! ## Parts of the state -/

/-- The parts of the state. -/
inductive Part where
  | memory
  | screen
  | pc
  | index
  | registers
  | stack
  | delay
  | sound
  | halted
  | pendingKey
  | keypad
  | random
  deriving DecidableEq, Repr

/-- Whether two machines have a part in common. -/
def Agrees (m n : Machine) : Part → Prop
  | .memory => m.memory = n.memory
  | .screen => m.screen = n.screen
  | .pc => m.pc = n.pc
  | .index => m.index = n.index
  | .registers => m.registers = n.registers
  | .stack => m.stack = n.stack
  | .delay => m.delay = n.delay
  | .sound => m.sound = n.sound
  | .halted => m.halted = n.halted
  | .pendingKey => m.pendingKey = n.pendingKey
  | .keypad => m.keypad = n.keypad
  | .random => m.random = n.random

theorem Agrees.refl (m : Machine) (p : Part) : m.Agrees m p := by
  cases p <;> rfl

theorem Agrees.trans {m n k : Machine} {p : Part} (h₁ : m.Agrees n p) (h₂ : n.Agrees k p) :
    m.Agrees k p := by
  cases p <;> exact Eq.trans h₁ h₂

/-- The parts that an operation may change beside the program counter. -/
def targets : Operation → List Part
  | .jump => [.halted]
  | .call | .ret => [.stack]
  | .jumpOffset | .skip _ | .hostRoutine => []
  | .loadByte | .addByte | .arithmetic _ | .loadRegisters | .readDelay => [.registers]
  | .random => [.registers, .random]
  | .loadIndex | .addIndex | .pointGlyph => [.index]
  | .storeDecimal | .storeRegisters => [.memory]
  | .clearScreen => [.screen]
  | .draw => [.screen, .registers]
  | .awaitKey => [.registers, .pendingKey]
  | .writeDelay => [.delay]
  | .writeSound => [.sound]

section Frame

variable (m : Machine) {p : Part} (hpc : p ≠ .pc)

theorem advance_agrees (hpc : p ≠ .pc) : m.advance.Agrees m p := by
  cases p <;> first | rfl | contradiction

theorem combine_agrees (f : Arithmetic) (x y : Nibble) (hregisters : p ≠ .registers) :
    (m.combine f x y).Agrees m p := by
  simp only [combine]
  split
  · cases p <;> first | rfl | contradiction
  · cases p <;> first | rfl | contradiction

include hpc

theorem storeBlock_agrees (block : List UInt8) (hmemory : p ≠ .memory) :
    (m.storeBlock block).machine.Agrees m p := by
  unfold storeBlock
  split
  · exact Agrees.refl m p
  · cases p <;> first | rfl | contradiction

theorem loadBlock_agrees (x : Nibble) (hregisters : p ≠ .registers) :
    (m.loadBlock x).machine.Agrees m p := by
  unfold loadBlock
  split
  · exact Agrees.refl m p
  · cases p <;> first | rfl | contradiction

theorem drawSprite_agrees (o : Operands) (hscreen : p ≠ .screen) (hregisters : p ≠ .registers) :
    (m.drawSprite o).machine.Agrees m p := by
  unfold drawSprite
  split
  · exact Agrees.refl m p
  · cases p <;> first | rfl | contradiction

theorem awaitKey_agrees (x : Nibble) (hregisters : p ≠ .registers) (hpending : p ≠ .pendingKey) :
    (m.awaitKey x).machine.Agrees m p := by
  unfold awaitKey
  split
  · cases p <;> first | rfl | contradiction
  · split
    · exact Agrees.refl m p
    · cases p <;> first | rfl | contradiction

/-- An instruction leaves all parts alone that are not among its targets. -/
theorem perform_agrees (i : Instruction) (hp : p ∉ targets i.operation) :
    (m.perform i).machine.Agrees m p := by
  obtain ⟨o, op⟩ := i
  -- Where there are several outcomes, each is looked at. The other operations are one update.
  cases op with
  | jump =>
    simp only [perform]
    split
    · cases p <;> first | rfl | simp [targets] at hp
    · cases p <;> first | rfl | contradiction
  | call =>
    simp only [perform]
    split
    · exact Agrees.refl m p
    · cases p <;> first | rfl | contradiction | simp [targets] at hp
  | ret =>
    simp only [perform]
    split
    · exact Agrees.refl m p
    · cases p <;> first | rfl | contradiction | simp [targets] at hp
  | arithmetic f =>
    have hregisters : p ≠ .registers := by simpa [targets] using hp
    exact ((m.combine f o.x o.y).advance_agrees hpc).trans (m.combine_agrees f o.x o.y hregisters)
  | storeDecimal => exact m.storeBlock_agrees hpc _ (by simpa [targets] using hp)
  | storeRegisters => exact m.storeBlock_agrees hpc _ (by simpa [targets] using hp)
  | loadRegisters => exact m.loadBlock_agrees hpc o.x (by simpa [targets] using hp)
  | draw =>
    have htargets : p ≠ .screen ∧ p ≠ .registers := by simpa [targets] using hp
    exact m.drawSprite_agrees hpc o htargets.1 htargets.2
  | awaitKey =>
    have htargets : p ≠ .registers ∧ p ≠ .pendingKey := by simpa [targets] using hp
    exact m.awaitKey_agrees hpc o.x htargets.1 htargets.2
  | _ => cases p <;> first | rfl | contradiction | simp [targets] at hp

end Frame

theorem perform_pendingKey (m : Machine) {i : Instruction} (hi : i.operation ≠ .awaitKey) :
    (m.perform i).machine.pendingKey = m.pendingKey := by
  apply m.perform_agrees (p := .pendingKey) (by decide)
  cases hop : i.operation <;> simp [targets]
  exact hi hop

theorem perform_stack (m : Machine) {i : Instruction} (hcall : i.operation ≠ .call)
    (hret : i.operation ≠ .ret) : (m.perform i).machine.stack = m.stack := by
  apply m.perform_agrees (p := .stack) (by decide)
  cases hop : i.operation <;> simp [targets]
  · exact hcall hop
  · exact hret hop

/-- Only a jump to its own place halts a machine. -/
theorem perform_halted (m : Machine) {i : Instruction}
    (hi : ¬(i.operation = .jump ∧ m.pc = i.address)) :
    (m.perform i).machine.halted = m.halted := by
  by_cases hjump : i.operation = .jump
  · have hgo : m.pc ≠ i.address := fun h => hi ⟨hjump, h⟩
    simp [perform, hjump, hgo, Step.proceed]
  · apply m.perform_agrees (p := .halted) (by decide)
    cases hop : i.operation <;> simp [targets]
    exact hjump hop

/-! ## Waiting for a key -/

section Waiting

variable {m : Machine} {key : Nibble}

theorem awaitKey_of_none (x : Nibble) (hkey : m.pendingKey = none) :
    m.awaitKey x = ⟨.ok .waiting, { m with pendingKey := m.firstKeyDown? }, []⟩ := by
  unfold awaitKey
  split
  · rfl
  · rename_i found hfound
    rw [hkey] at hfound
    cases hfound

theorem awaitKey_of_down (x : Nibble) (hkey : m.pendingKey = some key)
    (hdown : m.keypad.isDown key = true) : m.awaitKey x = ⟨.ok .waiting, m, []⟩ := by
  unfold awaitKey
  split
  · rename_i hnone
    rw [hkey] at hnone
    cases hnone
  · rename_i found hfound
    obtain rfl : found = key := Option.some.inj (hfound.symm.trans hkey)
    rw [if_pos hdown]

theorem awaitKey_of_up (x : Nibble) (hkey : m.pendingKey = some key)
    (hup : m.keypad.isDown key = false) :
    m.awaitKey x =
      .proceed (({ m with pendingKey := none }.setRegister x key.toByte).advance) := by
  unfold awaitKey
  split
  · rename_i hnone
    rw [hkey] at hnone
    cases hnone
  · rename_i found hfound
    obtain rfl : found = key := Option.some.inj (hfound.symm.trans hkey)
    rw [if_neg (by rw [hup]; exact Bool.false_ne_true)]

/-- Whether the key that is waited for is up again. -/
def keyReleased (m : Machine) : Bool := m.pendingKey.any fun key => !m.keypad.isDown key

theorem keyReleased_of_none (hkey : m.pendingKey = none) : m.keyReleased = false := by
  rw [keyReleased, hkey]
  rfl

theorem keyReleased_of_some (hkey : m.pendingKey = some key) :
    m.keyReleased = !m.keypad.isDown key := by
  rw [keyReleased, hkey]
  rfl

end Waiting

/-! ## The program counter -/

/-- Where an instruction leaves the program counter, before the increase by two that follows every
instruction, computed in the arithmetic that words are read into. -/
def landing {R : Type} [Add R] [Sub R] [OfNat R 2] (read : Word → R) (m : Machine)
    (i : Instruction) : R :=
  match i.operation with
  | .jump | .call => read i.address - 2
  | .jumpOffset => read i.address + read (m.register 0).toUInt16 - 2
  | .ret =>
    match m.stack.toList.getLast? with
    | some address => read address - 2
    | none => read m.pc
  | .skip condition => if m.holds condition i.toOperands then read m.pc + 2 else read m.pc
  | .awaitKey => if m.keyReleased then read m.pc else read m.pc - 2
  | _ => read m.pc

section Success

variable {m : Machine} {progress : Progress}

theorem storeBlock_pc {block : List UInt8} (h : (m.storeBlock block).verdict = .ok progress) :
    (m.storeBlock block).machine.pc = m.pc + 2 := by
  unfold storeBlock at h ⊢
  split at h
  · cases h
  · rfl

theorem loadBlock_pc {x : Nibble} (h : (m.loadBlock x).verdict = .ok progress) :
    (m.loadBlock x).machine.pc = m.pc + 2 := by
  unfold loadBlock at h ⊢
  split at h
  · cases h
  · rfl

theorem drawSprite_pc {o : Operands} (h : (m.drawSprite o).verdict = .ok progress) :
    (m.drawSprite o).machine.pc = m.pc + 2 := by
  unfold drawSprite at h ⊢
  split at h
  · cases h
  · rfl

end Success

/-- An instruction that succeeds moves the program counter as the computation on words says. -/
theorem perform_pc {m : Machine} {i : Instruction} {progress : Progress}
    (h : (m.perform i).verdict = .ok progress) :
    (m.perform i).machine.pc = m.landing id i + 2 := by
  obtain ⟨o, op⟩ := i
  cases op with
  | jump =>
    simp only [perform, landing, id, UInt16.sub_add_cancel]
    split
    · -- A machine that halts stays where it is, which is the target.
      assumption
    · rfl
  | jumpOffset => simp [perform, landing, Step.proceed]
  | call =>
    simp only [perform] at h ⊢
    split at h
    · cases h
    · simp [landing, Step.proceed]
  | ret =>
    simp only [perform] at h ⊢
    split at h
    · cases h
    · rename_i address stack hpop
      simp [landing, Step.proceed, CallStack.toList_pop hpop]
  | skip condition =>
    simp only [perform, landing, Step.proceed, skipIf, id]
    split
    · rw [UInt16.add_assoc]
      rfl
    · rfl
  | storeDecimal => exact storeBlock_pc h
  | storeRegisters => exact storeBlock_pc h
  | loadRegisters => exact loadBlock_pc h
  | draw => exact drawSprite_pc h
  | awaitKey =>
    change (m.awaitKey o.x).machine.pc = (if m.keyReleased then m.pc else m.pc - 2) + 2
    -- While the wait goes on, two less and two more cancel out.
    cases hkey : m.pendingKey with
    | none =>
      rw [awaitKey_of_none o.x hkey, keyReleased_of_none hkey]
      exact (UInt16.sub_add_cancel m.pc 2).symm
    | some key =>
      cases hdown : m.keypad.isDown key with
      | true =>
        rw [awaitKey_of_down o.x hkey hdown, keyReleased_of_some hkey, hdown]
        exact (UInt16.sub_add_cancel m.pc 2).symm
      | false =>
        rw [awaitKey_of_up o.x hkey hdown, keyReleased_of_some hkey, hdown]
        rfl
  | arithmetic f => exact congrArg (· + 2) (m.combine_agrees (p := .pc) f o.x o.y (by decide))
  | _ => rfl

theorem pc_of_jump {m : Machine} {i : Instruction} {progress : Progress}
    (hi : i.operation = .jump ∨ i.operation = .call) (h : (m.perform i).verdict = .ok progress) :
    (m.perform i).machine.pc = i.address := by
  have hlanding : m.landing id i = i.address - 2 := by
    rcases hi with hjump | hcall
    · simp [landing, hjump]
    · simp [landing, hcall]
  rw [perform_pc h, hlanding, UInt16.sub_add_cancel]

/-! ## Verdicts and events -/

end Machine

/-- Most instructions report nothing, and go on if they succeed. -/
structure Step.Plain (s : Step) : Prop where
  silent : s.events = []
  continues : ∀ {progress}, s.verdict = .ok progress → progress = .continued

theorem Step.plain_fail (m : Machine) (fault : Fault) : (fail m fault).Plain where
  silent := rfl
  continues h := by cases h

theorem Step.plain_proceed (m : Machine) : (proceed m).Plain where
  silent := rfl
  continues h := by
    cases h
    rfl

theorem Step.ext {s t : Step} (hverdict : s.verdict = t.verdict) (hmachine : s.machine = t.machine)
    (hevents : s.events = t.events) : s = t := by
  cases s
  cases t
  congr

namespace Machine

/-- How an instruction that succeeds leaves the machine. -/
def progressOf (m : Machine) (i : Instruction) : Progress :=
  match i.operation with
  | .jump => if m.pc = i.address then .halted else .continued
  | .awaitKey => if m.keyReleased then .continued else .waiting
  | _ => .continued

/-- What an instruction reports. -/
def notices (m : Machine) (i : Instruction) : List Event :=
  match i.operation with
  | .jump => if m.pc = i.address then [.selfJump i.address] else []
  | .hostRoutine => [.routineIgnored i.address m.pc]
  | _ => []

theorem storeBlock_plain (m : Machine) (block : List UInt8) : (m.storeBlock block).Plain := by
  unfold storeBlock
  split
  · exact Step.plain_fail m _
  · exact Step.plain_proceed _

theorem loadBlock_plain (m : Machine) (x : Nibble) : (m.loadBlock x).Plain := by
  unfold loadBlock
  split
  · exact Step.plain_fail m _
  · exact Step.plain_proceed _

theorem drawSprite_plain (m : Machine) (o : Operands) : (m.drawSprite o).Plain := by
  unfold drawSprite
  split
  · exact Step.plain_fail m _
  · exact Step.plain_proceed _

theorem awaitKey_yields (m : Machine) (x : Nibble) :
    (m.awaitKey x).verdict = .ok (if m.keyReleased then .continued else .waiting) ∧
      (m.awaitKey x).events = [] := by
  cases hkey : m.pendingKey with
  | none =>
    rw [awaitKey_of_none x hkey, keyReleased_of_none hkey]
    exact ⟨rfl, rfl⟩
  | some key =>
    rw [keyReleased_of_some hkey]
    cases hdown : m.keypad.isDown key with
    | true =>
      rw [awaitKey_of_down x hkey hdown]
      exact ⟨rfl, rfl⟩
    | false =>
      rw [awaitKey_of_up x hkey hdown]
      exact ⟨rfl, rfl⟩

/-- What an instruction reports does not hang on whether it succeeds. -/
theorem perform_events (m : Machine) (i : Instruction) : (m.perform i).events = m.notices i := by
  obtain ⟨o, op⟩ := i
  cases op with
  | jump =>
    simp only [perform, notices]
    split
    · rfl
    · rfl
  | call =>
    simp only [perform]
    split
    · rfl
    · rfl
  | ret =>
    simp only [perform]
    split
    · rfl
    · rfl
  | storeDecimal => exact (m.storeBlock_plain _).silent
  | storeRegisters => exact (m.storeBlock_plain _).silent
  | loadRegisters => exact (m.loadBlock_plain o.x).silent
  | draw => exact (m.drawSprite_plain o).silent
  | awaitKey => exact (m.awaitKey_yields o.x).2
  | _ => rfl

theorem perform_progress {m : Machine} {i : Instruction} {progress : Progress}
    (h : (m.perform i).verdict = .ok progress) : progress = m.progressOf i := by
  obtain ⟨o, op⟩ := i
  cases op with
  | jump =>
    simp only [perform, progressOf] at h ⊢
    split at h
    · rename_i hself
      cases h
      rw [if_pos hself]
    · rename_i hgo
      cases h
      rw [if_neg hgo]
  | call =>
    simp only [perform] at h
    split at h
    · cases h
    · cases h
      rfl
  | ret =>
    simp only [perform] at h
    split at h
    · cases h
    · cases h
      rfl
  | storeDecimal => exact (m.storeBlock_plain _).continues h
  | storeRegisters => exact (m.storeBlock_plain _).continues h
  | loadRegisters => exact (m.loadBlock_plain o.x).continues h
  | draw => exact (m.drawSprite_plain o).continues h
  | awaitKey => exact Except.ok.inj (h.symm.trans (m.awaitKey_yields o.x).1)
  | _ =>
    cases h
    rfl

/-- An instruction yields its fault, or else how it leaves the machine. -/
theorem perform_verdict (m : Machine) (i : Instruction) :
    (m.perform i).verdict =
      match m.performFault? i with
      | some fault => .error fault
      | none => .ok (m.progressOf i) := by
  have hdecides := (m.perform_respects i).decides
  cases hfault : m.performFault? i with
  | some fault =>
    rw [hfault] at hdecides
    exact hdecides
  | none =>
    rw [hfault] at hdecides
    obtain ⟨progress, hok⟩ := hdecides
    rw [hok, perform_progress hok]

/-- An instruction that has a fault does nothing but fail. -/
theorem perform_of_fault {m : Machine} {i : Instruction} {fault : Fault}
    (h : m.performFault? i = some fault) : m.perform i = .fail m fault := by
  have hrespects := m.perform_respects i
  rw [h] at hrespects
  -- The operations that report something are not among those that can fail.
  have hsilent : m.notices i = [] := by
    unfold notices
    split
    · rename_i hop
      simp [performFault?, Instruction.access?, hop] at h
    · rename_i hop
      simp [performFault?, Instruction.access?, hop] at h
    · rfl
  have hevents := m.perform_events i
  rw [hsilent] at hevents
  exact Step.ext hrespects.decides (hrespects.unchanged rfl) hevents

theorem register_setRegister (m : Machine) (r : Nibble) (value : UInt8) :
    (m.setRegister r value).advance.register r = value := by
  simp [register, setRegister, advance]

theorem register_setRegister_of_ne (m : Machine) {r q : Nibble} (value : UInt8) (h : q ≠ r) :
    (m.setRegister r value).register q = m.register q :=
  Vector.getElem_set_ne r.isLt q.isLt fun heq => h (Fin.ext heq.symm)

theorem index_of_loadIndex {m : Machine} {i : Instruction} (hi : i.operation = .loadIndex) :
    (m.perform i).machine.index = i.address := by
  simp only [perform, hi]
  rfl

end Machine

end ChipEight
