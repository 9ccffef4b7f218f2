import ChipEight.Proofs.Machine.Chronicle

/-!
# Footprints of instructions

An instruction looks at few parts of the machine and changes few. Which parts it changes is said by
its targets, and the frame around them stays as it is. Here it is said which parts it looks at, its
sources. Two machines that agree on the sources of an instruction cannot be told apart by it: it
yields the same on both, and it leaves its targets the same.

What this is good for is that a change to parts which an instruction neither looks at nor changes
may as well be made after it. Whoever turns the random source round, lets a timer run down or looks
at the screen makes such a change.

## Main definitions

- `Machine.sources`: the parts that an operation looks at
- `Step.Match`, `Step.SameOn`: steps that yield the same, and leave machines that are related, or
  that agree on given parts
- `Machine.Confined`: changes to given parts, in which no others play a part

## Main statements

- `Machine.step_match`: steps match if the instructions before them do
- `Machine.perform_congr`: an instruction does the same where its sources are the same
- `Machine.perform_of_confined`: an instruction and a change outside its footprint can change places
- `Machine.step_of_confined`: so can a step and such a change
-/

namespace ChipEight

namespace Machine

/-! ## Parts -/

/-- The parts that an operation looks at beside the program counter. A part that it changes only in
places counts as looked at. -/
def sources : Operation → List Part
  | .jump => [.halted]
  | .call | .ret => [.stack]
  | .hostRoutine | .loadIndex | .clearScreen => []
  | .skip .keyDown | .skip .keyUp => [.registers, .keypad]
  | .jumpOffset | .skip _ | .loadByte | .addByte | .arithmetic _ | .pointGlyph | .writeDelay
  | .writeSound => [.registers]
  | .random => [.registers, .random]
  | .addIndex => [.registers, .index]
  | .readDelay => [.registers, .delay]
  | .storeDecimal | .storeRegisters | .loadRegisters => [.registers, .index, .memory]
  | .draw => [.registers, .index, .memory, .screen]
  | .awaitKey => [.registers, .pendingKey, .keypad]

theorem Agrees.symm {m n : Machine} {p : Part} (h : m.Agrees n p) : n.Agrees m p := by
  cases p <;> exact Eq.symm h

/-- Machines that agree on all parts are the same. -/
theorem ext_parts {m n : Machine} (h : ∀ p, m.Agrees n p) : m = n := by
  cases m
  cases n
  congr
  · exact h .memory
  · exact h .screen
  · exact h .pc
  · exact h .index
  · exact h .registers
  · exact h .stack
  · exact h .delay
  · exact h .sound
  · exact h .halted
  · exact h .pendingKey
  · exact h .keypad
  · exact h .random

end Machine

/-! ## The same steps -/

namespace Step

/-- Two steps yield the same, and leave machines that are related. -/
structure Match (R : Machine → Machine → Prop) (s t : Step) : Prop where
  verdict : s.verdict = t.verdict
  events : s.events = t.events
  machine : R s.machine t.machine

/-- Two steps yield the same, and leave machines that have given parts in common. -/
abbrev SameOn (parts : List Machine.Part) (s t : Step) : Prop :=
  Match (fun m n => ∀ p ∈ parts, m.Agrees n p) s t

theorem sameOn_two {s t : Step} {p q : Machine.Part} (verdict : s.verdict = t.verdict)
    (events : s.events = t.events) (hp : s.machine.Agrees t.machine p)
    (hq : s.machine.Agrees t.machine q) : SameOn [p, q] s t where
  verdict := verdict
  events := events
  machine := List.forall_mem_cons.mpr ⟨hp, List.forall_mem_singleton.mpr hq⟩

/-- The same step with a change to the machine behind it. -/
def map (f : Machine → Machine) (s : Step) : Step := { s with machine := f s.machine }

theorem Match.eq_map {f : Machine → Machine} {s t : Step} (h : Match (fun m n => n = f m) s t) :
    t = s.map f := Step.ext h.verdict.symm h.machine h.events.symm

end Step

namespace Machine

/-- The steps of related machines match if the instructions before them do, provided that it is the
same instruction. -/
theorem step_match {R : Machine → Machine → Prop} {m n : Machine} (hmemory : m.memory = n.memory)
    (hpc : m.pc = n.pc) (hhalted : m.halted = n.halted) (hsame : R m n)
    (hperform : ∀ opcode i, m.halted = false → m.memory.word m.pc.toNat = .ok opcode →
      Instruction.decode opcode = some i → Step.Match R (m.perform i) (n.perform i)) :
    Step.Match R m.step n.step := by
  cases hrun : m.halted with
  | true =>
    simp only [step, ← hhalted, hrun]
    exact ⟨rfl, rfl, hsame⟩
  | false =>
    cases hword : m.memory.word m.pc.toNat with
    | error fault =>
      simp only [step, ← hmemory, ← hpc, ← hhalted, hrun, hword]
      exact ⟨rfl, rfl, hsame⟩
    | ok opcode =>
      cases hdecode : Instruction.decode opcode with
      | none =>
        simp only [step, ← hmemory, ← hpc, ← hhalted, hrun, hword, hdecode]
        exact ⟨rfl, rfl, hsame⟩
      | some i =>
        have hdone := hperform opcode i hrun hword hdecode
        rw [step_of_decode hrun hword hdecode, step_of_decode (m := n) (hhalted ▸ hrun)
          (by rw [← hmemory, ← hpc, hword]) hdecode]
        exact ⟨hdone.verdict, by rw [hdone.events, hpc], hdone.machine⟩

/-! ## The same sources -/

section Congruence

variable {m n : Machine}

theorem storeBlock_congr (hpc : m.pc = n.pc) (hindex : m.index = n.index)
    (hmemory : m.memory = n.memory) (block : List UInt8) :
    Step.SameOn [.pc, .memory] (m.storeBlock block) (n.storeBlock block) := by
  unfold storeBlock
  rw [← hindex, ← hmemory]
  cases m.memory.write m.index.toNat block with
  | error fault => exact Step.sameOn_two rfl rfl hpc hmemory
  | ok memory => exact Step.sameOn_two rfl rfl (congrArg (· + 2) hpc) rfl

theorem loadBlock_congr (hpc : m.pc = n.pc) (hregisters : m.registers = n.registers)
    (hindex : m.index = n.index) (hmemory : m.memory = n.memory) (x : Nibble) :
    Step.SameOn [.pc, .registers] (m.loadBlock x) (n.loadBlock x) := by
  unfold loadBlock register
  rw [← hindex, ← hmemory, ← hregisters]
  cases m.memory.read m.index.toNat (x.val + 1) with
  | error fault => exact Step.sameOn_two rfl rfl hpc hregisters
  | ok block => exact Step.sameOn_two rfl rfl (congrArg (· + 2) hpc) rfl

theorem drawSprite_congr (hpc : m.pc = n.pc) (hregisters : m.registers = n.registers)
    (hindex : m.index = n.index) (hmemory : m.memory = n.memory) (hscreen : m.screen = n.screen)
    (o : Operands) :
    Step.SameOn [.pc, .screen, .registers] (m.drawSprite o) (n.drawSprite o) := by
  unfold drawSprite register
  rw [← hindex, ← hmemory, ← hregisters, ← hscreen]
  cases m.memory.read m.index.toNat o.digit.val with
  | error fault => exact ⟨rfl, rfl, by simp [Agrees, Step.fail, hpc, hregisters, hscreen]⟩
  | ok rows =>
    refine ⟨rfl, rfl, ?_⟩
    simp [Agrees, Step.proceed, advance, setFlag, setRegister, hpc, hregisters]

theorem awaitKey_congr (hpc : m.pc = n.pc) (hregisters : m.registers = n.registers)
    (hpending : m.pendingKey = n.pendingKey) (hkeypad : m.keypad = n.keypad) (x : Nibble) :
    Step.SameOn [.pc, .registers, .pendingKey] (m.awaitKey x) (n.awaitKey x) := by
  unfold awaitKey firstKeyDown?
  rw [← hpending, ← hkeypad]
  cases m.pendingKey with
  | none => exact ⟨rfl, rfl, by simp [Agrees, hpc, hregisters]⟩
  | some key =>
    cases hkey : m.keypad.isDown key with
    | true =>
      simp only [hkey, if_true]
      exact ⟨rfl, rfl, by simp [Agrees, hpc, hregisters, hpending]⟩
    | false =>
      simp only [hkey, Bool.false_eq_true, if_false]
      exact ⟨rfl, rfl, by simp [Agrees, Step.proceed, advance, setRegister, hpc, hregisters]⟩

/-- Where its sources are the same an instruction yields the same, and its targets are the same
afterwards. -/
theorem perform_congr {i : Instruction} (hpc : m.Agrees n .pc)
    (h : ∀ p ∈ sources i.operation, m.Agrees n p) :
    Step.SameOn (.pc :: targets i.operation) (m.perform i) (n.perform i) := by
  obtain ⟨memory, screen, pc, index, registers, stack, delay, sound, halted, pendingKey, keypad,
    random⟩ := m
  obtain ⟨memory', screen', pc', index', registers', stack', delay', sound', halted', pendingKey',
    keypad', random'⟩ := n
  obtain ⟨o, op⟩ := i
  obtain rfl : pc = pc' := hpc
  -- The parts that are looked at become the same, and then so does what is made of them.
  cases op with
  | hostRoutine => exact ⟨rfl, rfl, List.forall_mem_singleton.mpr rfl⟩
  | loadIndex | clearScreen => exact Step.sameOn_two rfl rfl rfl rfl
  | jump =>
    obtain rfl : halted = halted' := h .halted (.head _)
    simp only [perform]
    split
    · exact Step.sameOn_two rfl rfl rfl rfl
    · exact Step.sameOn_two rfl rfl rfl rfl
  | call =>
    obtain rfl : stack = stack' := h .stack (.head _)
    simp only [perform]
    split
    · exact Step.sameOn_two rfl rfl rfl rfl
    · exact Step.sameOn_two rfl rfl rfl rfl
  | ret =>
    obtain rfl : stack = stack' := h .stack (.head _)
    simp only [perform]
    split
    · exact Step.sameOn_two rfl rfl rfl rfl
    · exact Step.sameOn_two rfl rfl rfl rfl
  | jumpOffset =>
    obtain rfl : registers = registers' := h .registers (.head _)
    exact ⟨rfl, rfl, List.forall_mem_singleton.mpr rfl⟩
  | skip condition =>
    obtain rfl : registers = registers' := by
      cases condition <;> exact h .registers (.head _)
    cases condition with
    | keyDown | keyUp =>
      obtain rfl : keypad = keypad' := h .keypad (.tail _ (.head _))
      exact ⟨rfl, rfl, List.forall_mem_singleton.mpr rfl⟩
    | _ => exact ⟨rfl, rfl, List.forall_mem_singleton.mpr rfl⟩
  | loadByte | addByte | writeDelay | writeSound | pointGlyph =>
    obtain rfl : registers = registers' := h .registers (.head _)
    exact Step.sameOn_two rfl rfl rfl rfl
  | arithmetic f =>
    obtain rfl : registers = registers' := h .registers (.head _)
    cases f <;> exact Step.sameOn_two rfl rfl rfl rfl
  | random =>
    obtain rfl : registers = registers' := h .registers (.head _)
    obtain rfl : random = random' := h .random (.tail _ (.head _))
    exact ⟨rfl, rfl, List.forall_mem_cons.mpr
      ⟨rfl, List.forall_mem_cons.mpr ⟨rfl, List.forall_mem_singleton.mpr rfl⟩⟩⟩
  | addIndex =>
    obtain rfl : registers = registers' := h .registers (.head _)
    obtain rfl : index = index' := h .index (.tail _ (.head _))
    exact Step.sameOn_two rfl rfl rfl rfl
  | readDelay =>
    obtain rfl : registers = registers' := h .registers (.head _)
    obtain rfl : delay = delay' := h .delay (.tail _ (.head _))
    exact Step.sameOn_two rfl rfl rfl rfl
  | storeDecimal | storeRegisters =>
    obtain rfl : registers = registers' := h .registers (.head _)
    obtain rfl : index = index' := h .index (.tail _ (.head _))
    obtain rfl : memory = memory' := h .memory (.tail _ (.tail _ (.head _)))
    apply storeBlock_congr <;> rfl
  | loadRegisters =>
    obtain rfl : registers = registers' := h .registers (.head _)
    obtain rfl : index = index' := h .index (.tail _ (.head _))
    obtain rfl : memory = memory' := h .memory (.tail _ (.tail _ (.head _)))
    apply loadBlock_congr <;> rfl
  | draw =>
    obtain rfl : registers = registers' := h .registers (.head _)
    obtain rfl : index = index' := h .index (.tail _ (.head _))
    obtain rfl : memory = memory' := h .memory (.tail _ (.tail _ (.head _)))
    obtain rfl : screen = screen' := h .screen (.tail _ (.tail _ (.tail _ (.head _))))
    apply drawSprite_congr <;> rfl
  | awaitKey =>
    obtain rfl : registers = registers' := h .registers (.head _)
    obtain rfl : pendingKey = pendingKey' := h .pendingKey (.tail _ (.head _))
    obtain rfl : keypad = keypad' := h .keypad (.tail _ (.tail _ (.head _)))
    apply awaitKey_congr <;> rfl

/-- What machines have in common that an instruction cannot tell apart, they have in common after
it. -/
theorem perform_agrees_of_agrees {i : Instruction} (hpc : m.Agrees n .pc)
    (h : ∀ p ∈ sources i.operation, m.Agrees n p) {p : Part} (hp : m.Agrees n p) :
    (m.perform i).machine.Agrees (n.perform i).machine p := by
  by_cases htarget : p ∈ .pc :: targets i.operation
  · exact (perform_congr hpc h).machine p htarget
  · have hne : p ≠ .pc := fun h => htarget (h ▸ List.mem_cons_self)
    have hframe : p ∉ targets i.operation := fun h => htarget (List.mem_cons_of_mem _ h)
    exact ((m.perform_agrees hne i hframe).trans hp).trans (n.perform_agrees hne i hframe).symm

end Congruence

/-! ## Changes outside the footprint -/

/-- A change to given parts of a machine, in which no others play a part. -/
structure Confined (parts : List Part) (f : Machine → Machine) : Prop where
  keeps : ∀ m p, p ∉ parts → (f m).Agrees m p
  determined : ∀ m n, (∀ p ∈ parts, m.Agrees n p) → ∀ p ∈ parts, (f m).Agrees (f n) p

/-- The parts that the footprint of an operation consists of. -/
def footprint (op : Operation) : List Part := .pc :: (sources op ++ targets op)

/-- The parts that decide whether a step performs an instruction, and which one. -/
def steers : List Part := [.memory, .pc, .halted, .index, .stack]

theorem performFault?_congr {m n : Machine} (h : ∀ p ∈ steers, m.Agrees n p) (i : Instruction) :
    m.performFault? i = n.performFault? i := by
  have hindex : m.index = n.index := h .index (by decide)
  have hstack : m.stack = n.stack := h .stack (by decide)
  rw [performFault?, performFault?, hindex, hstack]

/-- Machines that agree on these parts perform the same instruction, or none. -/
theorem performed?_congr {m n : Machine} (h : ∀ p ∈ steers, m.Agrees n p) :
    m.performed? = n.performed? := by
  have hmemory : m.memory = n.memory := h .memory (by decide)
  have hpc : m.pc = n.pc := h .pc (by decide)
  have hhalted : m.halted = n.halted := h .halted (by decide)
  have hfault : m.fault? = n.fault? := by
    simp only [fault?, hmemory, hpc, hhalted, performFault?_congr h]
  rw [performed?, performed?, instruction?, instruction?, succeeds_step, succeeds_step, hfault,
    hmemory, hpc, hhalted]

section Confined

variable {parts : List Part} {f : Machine → Machine} (hf : Confined parts f) (m : Machine)
include hf

/-- An instruction and a change outside its footprint can change places. -/
theorem perform_of_confined {i : Instruction} (hfree : ∀ p ∈ footprint i.operation, p ∉ parts) :
    (f m).perform i = (m.perform i).map f := by
  obtain ⟨hpc, hrest⟩ := List.forall_mem_cons.mp hfree
  obtain ⟨hsources, htargets⟩ := List.forall_mem_append.mp hrest
  have hpc' : (f m).Agrees m .pc := hf.keeps m .pc hpc
  have hsources' : ∀ p ∈ sources i.operation, (f m).Agrees m p :=
    fun p hp => hf.keeps m p (hsources p hp)
  have hsame := perform_congr hpc' hsources'
  refine Step.ext hsame.verdict (ext_parts fun p => ?_) hsame.events
  change ((f m).perform i).machine.Agrees (f (m.perform i).machine) p
  by_cases hp : p ∈ parts
  · -- The instruction leaves the parts of the change alone, wherever it is made.
    have hframe : ∀ n : Machine, ∀ q ∈ parts, (n.perform i).machine.Agrees n q := fun n q hq =>
      n.perform_agrees (fun h => hpc (h ▸ hq)) i fun h => htargets q h hq
    exact (hframe (f m) p hp).trans
      (hf.determined m (m.perform i).machine (fun q hq => (hframe m q hq).symm) p hp)
  · exact (perform_agrees_of_agrees hpc' hsources' (hf.keeps m p hp)).trans
      (hf.keeps (m.perform i).machine p hp).symm

/-- A step and a change can change places if the instruction that the step performs can, and the
change takes no part in whether a step performs one. -/
theorem step_of_confined (hsteers : ∀ p ∈ steers, p ∉ parts)
    (hperform : ∀ i, m.performed? = some i → (f m).perform i = (m.perform i).map f) :
    (f m).step = m.step.map f := by
  have hkeeps : ∀ p ∈ steers, (f m).Agrees m p := fun p hp => hf.keeps m p (hsteers p hp)
  refine Step.Match.eq_map (step_match (hkeeps .memory (by decide)).symm
    (hkeeps .pc (by decide)).symm (hkeeps .halted (by decide)).symm rfl ?_)
  intro opcode i hrun hword hdecode
  -- An instruction that fails does so on both machines, for the same reason.
  cases hfault : m.performFault? i with
  | some fault =>
    rw [perform_of_fault hfault, perform_of_fault ((performFault?_congr hkeeps i).trans hfault)]
    exact ⟨rfl, rfl, rfl⟩
  | none =>
    have hok : (m.perform i).verdict = .ok (m.progressOf i) := by
      rw [perform_verdict, hfault]
    rw [hperform i (performed?_of_perform hrun hword hdecode hok).1]
    exact ⟨rfl, rfl, rfl⟩

end Confined

end Machine
end ChipEight
