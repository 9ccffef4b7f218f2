import ChipEight.Proofs.Machine.Effect
import ChipEight.Proofs.Reachable

/-!
# Bounds of reachable machines

The program counter may leave memory, but not by much. A jump with an offset leads at most 0xFF
beyond the last address, a skip or an instruction that goes on behind itself starts from an address
that holds a whole instruction, and a return leads to an address that a call has put on the stack,
which is two behind such an address. None of these bounds holds by itself: returns need the
addresses on the stack, and these need the program counter at the call.

Since the bounds are far below 2 ^ 16, the arithmetic of words agrees with that of integers, also
where a jump to the addresses 0 and 1 aims below zero for a moment.

## Main definitions

- `Word.toInt`: the number that a word stands for
- `Machine.Bounded`: the bounds

## Main statements

- `Machine.toInt_landing`: from where an instruction is, words move the program counter as integers
- `Machine.Bounded.step`: a step keeps the bounds
- `Machine.reachable_bounds`: the bounds of reachable machines, and what follows for their steps
-/

namespace ChipEight

namespace Word

/-- The number that a word stands for. -/
def toInt (w : Word) : Int := w.toNat

theorem toInt_add {v w : Word} (h : v.toNat + w.toNat < 65536) :
    toInt (v + w) = toInt v + toInt w := by
  unfold toInt
  rw [UInt16.toNat_add, Nat.mod_eq_of_lt h, Int.natCast_add]

end Word

theorem Operands.toNat_address_lt (o : Operands) : o.address.toNat < 4096 := by
  rw [address, Word.toNat_address]
  exact Nat.mod_lt _ (by decide)

namespace Machine

/-! ## No wrapping round -/

/-- From a place that holds an instruction the program counter is moved as if words had no
bound. -/
theorem toInt_landing (m : Machine) (i : Instruction) (hpc : m.pc.toNat ≤ 0xFFE) :
    Word.toInt (m.landing id i + 2) = m.landing Word.toInt i + 2 := by
  have hnext : Word.toInt (m.pc + 2) = Word.toInt m.pc + 2 := by
    apply Word.toInt_add
    have : (2 : Word).toNat = 2 := rfl
    omega
  obtain ⟨o, op⟩ := i
  cases op with
  -- Two less and two more cancel out in words just as in integers, even where words wrap round.
  | jump | call => simp only [landing, id, UInt16.sub_add_cancel, Int.sub_add_cancel]
  | jumpOffset =>
    simp only [landing, id, UInt16.sub_add_cancel, Int.sub_add_cancel]
    apply Word.toInt_add
    have haddress := o.toNat_address_lt
    have hoffset := (m.register 0).toNat_lt
    rw [UInt8.toNat_toUInt16]
    omega
  | ret =>
    simp only [landing]
    split
    · simp only [id, UInt16.sub_add_cancel, Int.sub_add_cancel]
    · exact hnext
  | skip condition =>
    simp only [landing]
    split
    · -- A skip goes on twice.
      have hskip : Word.toInt (m.pc + 2 + 2) = Word.toInt (m.pc + 2) + 2 := by
        apply Word.toInt_add
        rw [UInt16.toNat_add]
        have : (2 : Word).toNat = 2 := rfl
        omega
      exact hskip.trans (congrArg (· + 2) hnext)
    · exact hnext
  | awaitKey =>
    simp only [landing]
    split
    · exact hnext
    · simp only [id, UInt16.sub_add_cancel, Int.sub_add_cancel]
  | _ => exact hnext

/-! ## Bounds -/

/-- The bounds that all reachable machines keep. -/
structure Bounded (m : Machine) : Prop where
  pc_le : m.pc.toNat ≤ 0x10FE
  returns : ∀ address ∈ m.stack.toList, 0x0002 ≤ address.toNat ∧ address.toNat ≤ 0x1000

/-- An address on the stack was there before, or a call has put it there. -/
theorem mem_stack_perform {m : Machine} {i : Instruction} {address : Word}
    (h : address ∈ (m.perform i).machine.stack.toList) :
    address ∈ m.stack.toList ∨ address = m.pc + 2 := by
  by_cases hcall : i.operation = .call
  · simp only [perform, hcall] at h
    split at h
    · exact .inl h
    · rename_i stack hpush
      rw [Step.proceed, CallStack.toList_push hpush, List.mem_append, List.mem_singleton] at h
      exact h
  · left
    by_cases hret : i.operation = .ret
    · simp only [perform, hret] at h
      split at h
      · exact h
      · rename_i target stack hpop
        rw [CallStack.toList_pop hpop]
        exact List.mem_append_left _ h
    · rw [m.perform_stack hcall hret] at h
      exact h

/-- No instruction leads beyond the bound of the program counter. -/
theorem Bounded.landing_le {m : Machine} (hm : m.Bounded) (i : Instruction)
    (hpc : m.pc.toNat ≤ 0xFFE) : m.landing Word.toInt i + 2 ≤ 0x10FE := by
  have hhere : Word.toInt m.pc ≤ 0xFFE := Int.ofNat_le.mpr hpc
  obtain ⟨o, op⟩ := i
  have haddress : Word.toInt o.address ≤ 0xFFF :=
    Int.ofNat_le.mpr (Nat.le_of_lt_succ o.toNat_address_lt)
  cases op with
  | jump | call =>
    simp only [landing]
    omega
  | jumpOffset =>
    simp only [landing]
    have hoffset : Word.toInt (m.register 0).toUInt16 ≤ 0xFF :=
      Int.ofNat_le.mpr (Nat.le_of_lt_succ (UInt8.toNat_toUInt16 _ ▸ (m.register 0).toNat_lt))
    omega
  | ret =>
    simp only [landing]
    split
    · rename_i address hlast
      have hreturn : Word.toInt address ≤ 0x1000 :=
        Int.ofNat_le.mpr (hm.returns address (List.mem_of_getLast? hlast)).2
      omega
    · omega
  | skip condition | awaitKey =>
    simp only [landing]
    split
    · omega
    · omega
  | _ =>
    simp only [landing]
    omega

/-- A step keeps the bounds. -/
theorem Bounded.step {m : Machine} (hm : m.Bounded) : m.step.machine.Bounded := by
  apply step_keeps hm
  intro opcode i progress hrun hword hdecode hok
  have hpc : m.pc.toNat ≤ 0xFFE := pc_le_of_word hword
  constructor
  · rw [perform_pc hok]
    have hle := hm.landing_le i hpc
    rw [← m.toInt_landing i hpc] at hle
    exact Int.ofNat_le.mp hle
  · intro address haddress
    rcases mem_stack_perform haddress with hold | rfl
    · exact hm.returns address hold
    · -- The call itself is in memory, so what follows it is at most just behind memory.
      have htwo : (2 : Word).toNat = 2 := rfl
      rw [UInt16.toNat_add]
      omega

/-- Programs start within the bounds, with an empty stack. -/
theorem bounded_fresh (memory : Memory) (random : RandomSource) :
    (fresh memory random).Bounded where
  pc_le := by
    change 0x200 ≤ 0x10FE
    decide
  returns address haddress := by cases haddress

theorem Bounded.act {m : Machine} {a : Action} (ha : a.isLoad = false) (hm : m.Bounded) :
    (m.act a).Bounded := by
  cases a with
  | load program => cases ha
  | step => exact hm.step
  -- A host touches neither the program counter nor the stack.
  | setKey key down => exact ⟨hm.pc_le, hm.returns⟩
  | tick => exact ⟨hm.pc_le, hm.returns⟩
  | acknowledgeScreen => exact ⟨hm.pc_le, hm.returns⟩

theorem Reachable.bounded {m : Machine} (hm : m.Reachable) : m.Bounded :=
  hm.invariant bounded_fresh fun _ _ => Bounded.act

/-! ## Reachable machines -/

/-- **Bounds of reachable machines.** The program counter, the depth of the call stack and the
return addresses on it stay within bounds. So the arithmetic of words, which wraps round, moves the
program counter just as integers would: a successful step leaves it where the computation without
bound says. -/
theorem reachable_bounds {m : Machine} (hm : m.Reachable) :
    m.pc.toNat ≤ 0x10FE ∧ m.stack.toList.length ≤ 76 ∧
      (∀ address ∈ m.stack.toList, 0x0002 ≤ address.toNat ∧ address.toNat ≤ 0x1000) ∧
      ∀ progress, m.step.verdict = .ok progress →
        m.halted = true ∧ m.step.machine.pc = m.pc ∨
        m.halted = false ∧ ∃ i, m.instruction? = some i ∧
          m.step.machine.pc = m.landing id i + 2 ∧
          Word.toInt m.step.machine.pc = m.landing Word.toInt i + 2 := by
  refine ⟨hm.bounded.pc_le, ?_, hm.bounded.returns, ?_⟩
  · rw [CallStack.length_toList]
    exact m.stack.depth_le
  · intro progress hprogress
    cases m.stepCase with
    | halted hhalted hstep =>
      left
      rw [hstep]
      exact ⟨hhalted, rfl⟩
    | failed hverdict _ =>
      rw [hverdict] at hprogress
      cases hprogress
    | @performed opcode i _ hrun hword hdecode hperform _ hmachine =>
      right
      have hpc : m.pc.toNat ≤ 0xFFE := pc_le_of_word hword
      have hi : m.instruction? = some i := by
        rw [instruction?, hword]
        exact hdecode
      refine ⟨hrun, i, hi, ?_, ?_⟩
      · rw [hmachine, perform_pc hperform]
      · rw [hmachine, perform_pc hperform, m.toInt_landing i hpc]

/-- Sets V0 to 0xFF and jumps to 0xFFF + V0. -/
def farJumpProgram : Array UInt8 := #[0x60, 0xFF, 0xBF, 0xFF]

/-- A machine in front of the jump that leads farthest out of memory. -/
def farJump : Machine := (powerOn (.ofSeed 0)).acts [.load farJumpProgram, .step]

theorem farJump_eq :
    farJump = ((fresh (.image farJumpProgram) (.ofSeed 0)).setRegister 0 0xFF).advance := by
  let start := fresh (.image farJumpProgram) (.ofSeed 0)
  have hload : (powerOn (.ofSeed 0)).act (.load farJumpProgram) = start :=
    act_load_of_le _ (by decide)
  have hword : start.memory.word start.pc.toNat = .ok (.ofBytes 0x60 0xFF) :=
    Memory.word_image (i := 0) (by decide) (by decide)
  rw [farJump, acts_cons, acts_cons, acts_nil, hload, act,
    step_of_decode (i := { operation := .loadByte, immediate := 0xFF }) rfl hword (by decide)]
  rfl

theorem step_farJump :
    farJump.step.verdict = .ok .continued ∧ farJump.step.machine.pc = 0x10FE := by
  have hword : farJump.memory.word farJump.pc.toNat = .ok (.ofBytes 0xBF 0xFF) := by
    rw [farJump_eq]
    exact Memory.word_image (i := 2) (by decide) (by decide)
  have hrun : farJump.halted = false := by
    rw [farJump_eq]
    rfl
  have hoffset : farJump.register 0 = 0xFF := by
    rw [farJump_eq]
    rfl
  rw [step_of_decode (i := { operation := .jumpOffset, immediate := 0xFFF }) hrun hword (by decide)]
  refine ⟨rfl, ?_⟩
  simp only [perform, Step.proceed, hoffset]
  rfl

theorem reachable_bounds_farJump :
    farJump.Reachable ∧ farJump.step.verdict = .ok .continued ∧
      Word.toInt farJump.step.machine.pc = 0x10FE ∧
      ∃ i, farJump.instruction? = some i ∧ farJump.landing Word.toInt i + 2 = 0x10FE := by
  obtain ⟨hverdict, hpc⟩ := step_farJump
  have hreachable : farJump.Reachable := (Reachable.powerOn _).acts _
  have hnumber : Word.toInt farJump.step.machine.pc = 0x10FE := by
    rw [hpc]
    rfl
  refine ⟨hreachable, hverdict, hnumber, ?_⟩
  obtain ⟨-, -, -, hstep⟩ := reachable_bounds hreachable
  rcases hstep _ hverdict with ⟨hhalted, -⟩ | ⟨-, i, hi, -, hinteger⟩
  · rw [farJump_eq] at hhalted
    cases hhalted
  · exact ⟨i, hi, hinteger.symm.trans hnumber⟩

end Machine

end ChipEight
