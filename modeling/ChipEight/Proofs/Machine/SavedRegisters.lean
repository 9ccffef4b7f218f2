import ChipEight.Proofs.Machine.Frame

/-!
# Saved registers

A program saves registers by storing them, goes on with whatever it has to do, and loads them again
from the same address. The registers that it loads are then as they were when they were saved. All
that is needed of the history in between is that no store has written over them. The program may
move the index register about as it likes, it may be stepped in any way between inputs, and it may
even run what it has saved.

It can load fewer registers than it has saved. Only these have to be left alone then, and the other
registers are as they were before the load.

## Main definitions

- `Memory.Saves`: memory holds the values of registers, from an address on

## Main statements

- `Machine.saves_of_storeRegisters`: a store saves registers
- `Machine.saves_acts`: they stay saved over a whole history
- `Machine.step_of_loadRegisters`: a load takes registers from memory
- `Machine.saved_registers_come_back`: the three of them together
-/

namespace ChipEight

/-! ## Values in memory -/

/-- The values of V0 to Vx are in memory, from an address on. -/
structure Memory.Saves (m : Memory) (start : Nat) (x : Nibble) (values : Nibble → UInt8) :
    Prop where
  fits : start + x.val < 4096
  byteAt : ∀ r ≤ x, m.byteAt (start + r.val) = values r

namespace Memory.Saves

variable {m n : Memory} {start : Nat} {x y : Nibble} {values : Nibble → UInt8}

/-- Who saves several registers saves the first of them. -/
theorem of_le (h : m.Saves start x values) (hy : y ≤ x) : m.Saves start y values where
  fits := Nat.lt_of_le_of_lt (Nat.add_le_add_left hy start) h.fits
  byteAt r hr := h.byteAt r (Nat.le_trans hr hy)

theorem congr (h : m.Saves start x values)
    (hsame : ∀ r ≤ x, n.byteAt (start + r.val) = m.byteAt (start + r.val)) :
    n.Saves start x values where
  fits := h.fits
  byteAt r hr := (hsame r hr).trans (h.byteAt r hr)

/-- The word made up of the values of two neighbours. -/
theorem word (h : m.Saves start x values) {r q : Nibble} (hq : q ≤ x)
    (hnext : q.val = r.val + 1) : m.word (start + r.val) = .ok (.ofBytes (values r) (values q)) := by
  have hfits := h.fits
  have hle : q.val ≤ x.val := hq
  have hr : r ≤ x := by
    change r.val ≤ x.val
    omega
  rw [m.word_of_le (by omega), h.byteAt r hr, ← h.byteAt q hq, hnext, Nat.add_assoc]

end Memory.Saves

namespace Machine

variable {m n : Machine} {i j : Instruction}

/-! ## Saving, waiting and loading -/

/-- Registers that are stored are saved. -/
theorem saves_of_storeRegisters (hi : m.performed? = some i) (hop : i.operation = .storeRegisters) :
    m.step.machine.memory.Saves m.index.toNat i.x m.register := by
  have hwrite := (Deed.stores_registers (d := ⟨m, .step⟩) hi hop).write
  obtain ⟨hfits, -⟩ := Memory.exists_put_of_write hwrite
  constructor
  · rw [List.length_take, Vector.length_toList, Nat.min_eq_left i.x.isLt] at hfits
    exact hfits
  · -- The block starts with V0, so each register is as far into it as its number says.
    intro r hr
    change (Deed.mk m .step).after.memory.byteAt _ = _
    rw [Memory.byteAt_write hwrite, if_pos (Nat.le_add_right _ _), Nat.add_sub_cancel_left,
      List.getElem?_take_of_lt (Nat.lt_succ_of_le hr), Vector.getElem?_toList,
      Vector.getElem?_eq_getElem r.isLt, Option.getD_some]
    rfl

/-- What is saved stays saved over a history without loads, as long as nothing is stored over it. -/
theorem saves_acts {actions : List Action} (hactions : ∀ a ∈ actions, a.isLoad = false)
    {start : Nat} {x : Nibble} {values : Nibble → UInt8} (h : m.memory.Saves start x values)
    (hkept : ∀ s ∈ m.stepsOf actions, ∀ k, s.performed? = some k →
      ∀ r ≤ x, ¬s.Names k.toOperands k.operation (.byte (start + r.val))) :
    (m.acts actions).memory.Saves start x values :=
  h.congr fun r hr => acts_sameAt hactions (p := .byte (start + r.val)) rfl
    fun s hs k hk => hkept s hs k hk r hr

/-- A step that loads registers. -/
theorem step_of_loadRegisters (hrun : m.halted = false) (hi : m.instruction? = some i)
    (hop : i.operation = .loadRegisters) (hfits : m.index.toNat + i.x.val < 4096) :
    m.step.verdict = .ok .continued ∧
      ∀ r, m.step.machine.register r
        = if r ≤ i.x then m.memory.byteAt (m.index.toNat + r.val) else m.register r := by
  obtain ⟨opcode, hword, hdecode⟩ := exists_decode_of_instruction? hi
  have hperform : m.perform i = m.loadBlock i.x := by rw [perform, hop]
  have hok : (m.perform i).verdict = .ok .continued := by
    have hnone : m.performFault? i = none := by
      simp only [performFault?, Instruction.access?, hop, Option.bind_some, Memory.fault?]
      exact if_pos hfits
    rw [perform_verdict, hnone, progressOf, hop]
  rw [step_of_decode hrun hword hdecode]
  refine ⟨hok, ?_⟩
  rw [hperform] at hok ⊢
  exact m.register_loadBlock hok

/-- **Saved registers come back.** Registers that were stored are loaded again with their values
from the time of the store, whatever is done in between, unless something is stored over what is to
be loaded or a program is loaded. The load does not fail, and it leaves the other registers as they
were before it. Neither of the two changes the index register, the load does not change memory, and
the store does so only where it stores. -/
theorem saved_registers_come_back {actions : List Action}
    (hi : m.performed? = some i) (hstore : i.operation = .storeRegisters)
    (hactions : ∀ a ∈ actions, a.isLoad = false) (hn : m.step.machine.acts actions = n)
    (hrun : n.halted = false) (hj : n.instruction? = some j) (hload : j.operation = .loadRegisters)
    (hx : j.x ≤ i.x) (hindex : n.index = m.index)
    (hkept : ∀ s ∈ m.step.machine.stepsOf actions, ∀ k, s.performed? = some k →
      ∀ r ≤ j.x, ¬s.Names k.toOperands k.operation (.byte (m.index.toNat + r.val))) :
    n.step.verdict = .ok .continued ∧
      (∀ r, n.step.machine.register r = if r ≤ j.x then m.register r else n.register r) ∧
      m.step.machine.index = m.index ∧ n.step.machine.index = n.index ∧
      n.step.machine.memory = n.memory ∧
      ∀ a, ¬(m.index.toNat ≤ a ∧ a ≤ m.index.toNat + i.x.val) →
        m.step.machine.memory.byteAt a = m.memory.byteAt a := by
  -- Where the store has found room for more registers, the load finds room for these.
  have hsaved : n.memory.Saves n.index.toNat j.x m.register := by
    rw [hindex, ← hn]
    exact saves_acts hactions ((saves_of_storeRegisters hi hstore).of_le hx) hkept
  obtain ⟨hverdict, hregisters⟩ := step_of_loadRegisters hrun hj hload hsaved.fits
  have hloaded : n.performed? = some j := (performed?_of_ok hrun hverdict).trans hj
  refine ⟨hverdict, fun r => ?_, ?_, ?_, ?_, fun a ha => ?_⟩
  · rw [hregisters]
    split
    · rename_i hr
      exact hsaved.byteAt r hr
    · rfl
  -- All else is what a store or a load does not name.
  · exact step_sameAt_of_performed? (p := .index) hi (by rw [hstore]; exact id)
  · exact step_sameAt_of_performed? (p := .index) hloaded (by rw [hload]; exact id)
  · refine Memory.eq_of_byteAt fun a => ?_
    exact step_sameAt_of_performed? (p := .byte a) hloaded (by rw [hload]; exact id)
  · exact step_sameAt_of_performed? (p := .byte a) hi (by rw [hstore]; exact ha)

/-- It stores V0 and V1 over its second word, which is run then, and loads V0 again. -/
def selfSavingProgram : Array UInt8 := #[0xF1, 0x55, 0x00, 0x00, 0xF0, 0x65]

/-- A machine somewhere in the program, with 5 in V1. -/
def inSelfSaving (memory : Memory) (pc : Word) (v : UInt8) : Machine :=
  { ((fresh memory (.ofSeed 0)).setRegister 0 v).setRegister 1 5 with pc := pc, index := 0x202 }

/-- Memory behind the store. What is saved there is the instruction to put 5 into V0. -/
def selfSaved : Memory := (Memory.image selfSavingProgram).put 0x202 [0x60, 5] (by decide)

theorem perform_selfSaving (memory : Memory) :
    (inSelfSaving memory 0x200 0x60).perform { x := 1, operation := .storeRegisters }
      = .proceed (inSelfSaving (memory.put 0x202 [0x60, 5] (by decide)) 0x202 0x60) := by
  rfl

theorem step_selfSaving :
    (inSelfSaving (.image selfSavingProgram) 0x200 0x60).performed?
        = some { x := 1, operation := .storeRegisters } ∧
      (inSelfSaving (.image selfSavingProgram) 0x200 0x60).step.machine
        = inSelfSaving selfSaved 0x202 0x60 := by
  have hword : (Memory.image selfSavingProgram).word 0x200 = .ok (.ofBytes 0xF1 0x55) :=
    Memory.word_image (i := 0) (by decide) (by decide)
  have hperform := perform_selfSaving (.image selfSavingProgram)
  obtain ⟨hperformed, hmachine⟩ := performed?_of_perform
    (m := inSelfSaving (.image selfSavingProgram) 0x200 0x60) rfl hword (by decide)
    (congrArg Step.verdict hperform)
  rw [hmachine, hperform, Step.proceed, selfSaved]
  exact ⟨hperformed, rfl⟩

theorem saves_selfSaved :
    selfSaved.Saves 0x202 1 (inSelfSaving (.image selfSavingProgram) 0x200 0x60).register := by
  have hsaves := saves_of_storeRegisters step_selfSaving.1 rfl
  rwa [step_selfSaving.2] at hsaves

theorem step_savedInstruction :
    (inSelfSaving selfSaved 0x202 0x60).performed?
        = some { operation := .loadByte, immediate := 5 } ∧
      (inSelfSaving selfSaved 0x202 0x60).step.machine = inSelfSaving selfSaved 0x204 5 :=
  performed?_of_perform rfl (saves_selfSaved.word (r := 0) (q := 1) (by decide) rfl) (by decide) rfl

theorem instruction?_reloading :
    (inSelfSaving selfSaved 0x204 5).instruction? = some { operation := .loadRegisters } := by
  have hword : (Memory.image selfSavingProgram).word 0x204 = .ok (.ofBytes 0xF0 0x65) :=
    Memory.word_image (i := 4) (by decide) (by decide)
  have hsame : selfSaved.word 0x204 = (Memory.image selfSavingProgram).word 0x204 :=
    Memory.word_put (by decide) (.inr (by decide))
  exact instruction?_of_decode (hsame.trans hword) (by decide)

/-- What was saved has been run, so that V0 is 5 before the load. A key is pressed, too. -/
theorem saved_registers_come_back_selfSaving :
    (inSelfSaving (.image selfSavingProgram) 0x200 0x60).step.machine.acts
        [.step, .setKey 3 true] = (inSelfSaving selfSaved 0x204 5).setKey 3 true ∧
      (inSelfSaving selfSaved 0x204 5).register 0 = 5 ∧
      ((inSelfSaving selfSaved 0x204 5).setKey 3 true).step.machine.register 0 = 0x60 := by
  obtain ⟨hstored, hsaving⟩ := step_selfSaving
  obtain ⟨hrun, hafter⟩ := step_savedInstruction
  have hreached : (inSelfSaving (.image selfSavingProgram) 0x200 0x60).step.machine.acts
      [.step, .setKey 3 true] = (inSelfSaving selfSaved 0x204 5).setKey 3 true := by
    rw [hsaving, acts_cons, act, hafter, acts_cons, acts_nil, act]
  refine ⟨hreached, rfl, (saved_registers_come_back hstored rfl (by decide) hreached rfl
    instruction?_reloading rfl (by decide) rfl ?_).2.1 0⟩
  -- Only what was saved is run in between, and it stores nothing.
  rw [hsaving]
  refine List.forall_mem_singleton.mpr fun k hk r _ => ?_
  obtain rfl := Option.some.inj (hk.symm.trans hrun)
  exact id

end Machine

end ChipEight
