import ChipEight.Proofs.Machine.Bounds

/-!
# Flow of control

Where a step leads is said here in plain numbers, one rule for each way in which control can go.
Most instructions go on behind themselves. Jumps, calls and returns go where they say, skips look at
the machine, and a key wait stays where it is until its key is up.

None of the rules knows that addresses are words. An instruction that is performed lies in memory,
so nothing that is added to its address comes near the end of the words, and a jump to one of the
first two addresses is a jump like any other, although the machine aims two short of its target.

## Main definitions

- `Machine.Position`: the program counter and the return addresses, as plain numbers
- `Condition.Met`: what a skip tests
- `Machine.Flow`: how control goes from an instruction

## Main statements

- `Machine.Flow.unique`: the rules leave no choice
- `Machine.perform_flow`: an instruction that succeeds goes by the rules
- `Machine.step_flow`: so does every successful step of a machine that runs
-/

namespace ChipEight

/-! ## The rules -/

/-- What a skip tests on the machine before it: a register against a byte or another register, or
whether the key is down that the low four bits of a register name. -/
def Condition.Met (m : Machine) (o : Operands) : Condition → Prop
  | .equalsByte => m.register o.x = o.byte
  | .differsFromByte => m.register o.x ≠ o.byte
  | .equalsRegister => m.register o.x = m.register o.y
  | .differsFromRegister => m.register o.x ≠ m.register o.y
  | .keyDown => ∃ key : Nibble, key.val = (m.register o.x).toNat &&& 0xF ∧
      m.keypad.isDown key = true
  | .keyUp => ∃ key : Nibble, key.val = (m.register o.x).toNat &&& 0xF ∧
      m.keypad.isDown key = false

/-- Whether an operation can lead elsewhere than behind itself. -/
def Operation.steers : Operation → Bool
  | .jump | .jumpOffset | .call | .ret | .skip _ | .awaitKey => true
  | _ => false

namespace Machine

/-- Where a machine is in its program, in plain numbers: the address of the next instruction, and
the return addresses on the call stack, oldest first. -/
structure Position where
  pc : Nat
  returns : List Nat
  deriving DecidableEq, Repr

def position (m : Machine) : Position := ⟨m.pc.toNat, m.stack.toList.map UInt16.toNat⟩

/-- `m.Flow o op progress after`: on the machine `m`, the operation `op` with the operands `o` makes
this progress and leads to the position `after`. -/
inductive Flow (m : Machine) (o : Operands) :
    (op : Operation) → (progress : Progress) → (after : Position) → Prop where
  | halt (hself : o.address.toNat = m.pc.toNat) : Flow m o .jump .halted m.position
  | jump (haway : o.address.toNat ≠ m.pc.toNat) :
      Flow m o .jump .continued ⟨o.address.toNat, m.position.returns⟩
  | jumpOffset :
      Flow m o .jumpOffset .continued
        ⟨o.address.toNat + (m.register 0).toNat, m.position.returns⟩
  | call :
      Flow m o .call .continued ⟨o.address.toNat, m.position.returns ++ [m.pc.toNat + 2]⟩
  | ret {address : Nat} {returns : List Nat}
      (hreturns : m.position.returns = returns ++ [address]) :
      Flow m o .ret .continued ⟨address, returns⟩
  | skip {condition : Condition} (hmet : condition.Met m o) :
      Flow m o (.skip condition) .continued ⟨m.pc.toNat + 4, m.position.returns⟩
  | noSkip {condition : Condition} (hnot : ¬condition.Met m o) :
      Flow m o (.skip condition) .continued ⟨m.pc.toNat + 2, m.position.returns⟩
  | wait (hheld : ∀ key, m.pendingKey = some key → m.keypad.isDown key = true) :
      Flow m o .awaitKey .waiting m.position
  | served {key : Nibble} (hkey : m.pendingKey = some key) (hup : m.keypad.isDown key = false) :
      Flow m o .awaitKey .continued ⟨m.pc.toNat + 2, m.position.returns⟩
  | goOn {op : Operation} (hop : op.steers = false) :
      Flow m o op .continued ⟨m.pc.toNat + 2, m.position.returns⟩

variable {m : Machine} {o : Operands} {op : Operation} {progress progress' : Progress}
  {after after' : Position}

/-- The rules leave no choice. -/
theorem Flow.unique (h : m.Flow o op progress after) (h' : m.Flow o op progress' after') :
    progress = progress' ∧ after = after' := by
  -- Rules of one operation exclude each other, and an operation that steers never just goes on.
  cases h with
  | halt hself =>
    cases h' with
    | halt => exact ⟨rfl, rfl⟩
    | jump haway => exact absurd hself haway
    | goOn hop => cases hop
  | jump haway =>
    cases h' with
    | halt hself => exact absurd hself haway
    | jump => exact ⟨rfl, rfl⟩
    | goOn hop => cases hop
  | jumpOffset =>
    cases h' with
    | jumpOffset => exact ⟨rfl, rfl⟩
    | goOn hop => cases hop
  | call =>
    cases h' with
    | call => exact ⟨rfl, rfl⟩
    | goOn hop => cases hop
  | ret hreturns =>
    cases h' with
    | ret hreturns' =>
      obtain ⟨rfl, rfl⟩ := List.append_singleton_inj.mp (hreturns.symm.trans hreturns')
      exact ⟨rfl, rfl⟩
    | goOn hop => cases hop
  | skip hmet =>
    cases h' with
    | skip => exact ⟨rfl, rfl⟩
    | noSkip hnot => exact absurd hmet hnot
    | goOn hop => cases hop
  | noSkip hnot =>
    cases h' with
    | skip hmet => exact absurd hmet hnot
    | noSkip => exact ⟨rfl, rfl⟩
    | goOn hop => cases hop
  | wait hheld =>
    cases h' with
    | wait => exact ⟨rfl, rfl⟩
    | served hkey hup => cases (hheld _ hkey).symm.trans hup
    | goOn hop => cases hop
  | served hkey hup =>
    cases h' with
    | wait hheld => cases (hheld _ hkey).symm.trans hup
    | served => exact ⟨rfl, rfl⟩
    | goOn hop => cases hop
  | goOn hop =>
    cases h' with
    | goOn => exact ⟨rfl, rfl⟩
    | _ => cases hop

/-- Only a jump to its own place halts. -/
theorem Flow.halted_iff (h : m.Flow o op progress after) :
    progress = .halted ↔ op = .jump ∧ o.address.toNat = m.pc.toNat := by
  constructor
  · rintro rfl
    cases h with
    | halt hself => exact ⟨rfl, hself⟩
  · rintro ⟨rfl, hself⟩
    exact (h.unique (.halt hself)).1

/-- Only a key wait waits. -/
theorem Flow.op_of_waiting (h : m.Flow o op .waiting after) : op = .awaitKey := by
  cases h with
  | wait => rfl

/-! ## Instructions go by the rules -/

theorem holds_iff (m : Machine) (o : Operands) (condition : Condition) :
    m.holds condition o = true ↔ condition.Met m o := by
  -- The low four bits of a register name one key.
  have hkey (down : Bool) : (m.keypad.isDown (Nibble.truncate (m.register o.x)) = down) ↔
      ∃ key : Nibble, key.val = (m.register o.x).toNat &&& 0xF ∧ m.keypad.isDown key = down := by
    have hmask : (m.register o.x).toNat &&& 0xF = (Nibble.truncate (m.register o.x)).val :=
      Nat.and_two_pow_sub_one_eq_mod _ 4
    rw [hmask]
    constructor
    · exact fun h => ⟨_, rfl, h⟩
    · rintro ⟨key, hval, h⟩
      rwa [← Fin.ext hval]
  cases condition with
  | keyDown => exact hkey true
  | keyUp =>
    rw [holds, Bool.not_eq_true']
    exact hkey false
  | _ => simp [holds, Condition.Met]

/-- A key wait is over when the key that is remembered is up. -/
theorem keyReleased_iff :
    m.keyReleased = true ↔ ∃ key, m.pendingKey = some key ∧ m.keypad.isDown key = false := by
  simp [keyReleased, Option.any_eq_true]

/-- An instruction that neither calls nor returns keeps the call stack. In memory the number that it
leads to is computed without wrapping round. -/
theorem position_perform {i : Instruction} {a : Nat} (hcall : i.operation ≠ .call)
    (hret : i.operation ≠ .ret) (hpc : m.pc.toNat ≤ 0xFFE)
    (hok : (m.perform i).verdict = .ok progress) (hnumber : m.landing Word.toInt i + 2 = a) :
    (m.perform i).machine.position = ⟨a, m.position.returns⟩ := by
  -- The landing is two short of the target and may be negative, so it is an integer.
  have htoNat : (m.perform i).machine.pc.toNat = a := by
    rw [perform_pc hok]
    exact Int.ofNat.inj ((m.toInt_landing i hpc).trans hnumber)
  rw [position, htoNat, m.perform_stack hcall hret, position]

/-- An instruction that lies in memory and succeeds goes by the rules. -/
theorem perform_flow {i : Instruction} (hpc : m.pc.toNat ≤ 0xFFE)
    (hok : (m.perform i).verdict = .ok progress) :
    m.Flow i.toOperands i.operation progress (m.perform i).machine.position := by
  have hprogress : progress = m.progressOf i := perform_progress hok
  obtain ⟨o, op⟩ := i
  cases op with
  | jump =>
    rw [position_perform (a := o.address.toNat) (by simp) (by simp) hpc hok
      (Int.sub_add_cancel _ _), hprogress]
    by_cases hself : m.pc = o.address
    · simp only [progressOf, hself, if_true]
      rw [← hself]
      exact .halt (congrArg UInt16.toNat hself.symm)
    · simp only [progressOf, hself, if_false]
      exact .jump fun h => hself (UInt16.toNat_inj.mp h.symm)
  | jumpOffset =>
    rw [position_perform (a := o.address.toNat + (m.register 0).toNat) (by simp) (by simp) hpc hok
      (Int.sub_add_cancel _ _), hprogress]
    exact .jumpOffset
  | call =>
    simp only [perform] at hok ⊢
    split at hok
    · cases hok
    · rename_i stack hpush
      cases hok
      simp only [position, Step.proceed, CallStack.toList_push hpush, List.map_append,
        List.map_singleton, toNat_pc_add_two hpc]
      exact .call
  | ret =>
    simp only [perform] at hok ⊢
    split at hok
    · cases hok
    · rename_i address stack hpop
      cases hok
      refine .ret ?_
      simp only [position, Step.proceed, CallStack.toList_pop hpop, List.map_append,
        List.map_singleton]
  | skip condition =>
    rw [hprogress]
    by_cases hmet : m.holds condition o = true
    · rw [position_perform (a := m.pc.toNat + 4) (by simp) (by simp) hpc hok
        (by simp only [landing, hmet, if_true]; rfl)]
      exact .skip ((m.holds_iff o condition).mp hmet)
    · rw [position_perform (a := m.pc.toNat + 2) (by simp) (by simp) hpc hok
        (by simp only [landing, hmet]; rfl)]
      exact .noSkip (mt (m.holds_iff o condition).mpr hmet)
  | awaitKey =>
    rw [hprogress]
    by_cases hup : m.keyReleased = true
    · rw [position_perform (a := m.pc.toNat + 2) (by simp) (by simp) hpc hok
        (by simp only [landing, hup, if_true]; rfl)]
      obtain ⟨key, hkey, hup'⟩ := keyReleased_iff.mp hup
      simp only [progressOf, hup, if_true]
      exact .served hkey hup'
    · rw [position_perform (a := m.pc.toNat) (by simp) (by simp) hpc hok
        (by simp only [landing, hup]; exact Int.sub_add_cancel _ _)]
      simp only [progressOf, hup]
      refine .wait fun key hkey => eq_true_of_ne_false fun hup' => ?_
      exact hup (keyReleased_iff.mpr ⟨key, hkey, hup'⟩)
  | _ =>
    rw [position_perform (a := m.pc.toNat + 2) (by simp) (by simp) hpc hok rfl, hprogress]
    exact .goOn rfl

/-! ## Steps go by the rules -/

/-- **The exact next program counter.** In plain numbers, every successful step of a machine that
runs leads from its instruction to where the rules say, with the progress that they say, and nowhere
else. It halts exactly if the instruction is a jump to its own place, and only a key wait waits. -/
theorem step_flow (hrun : m.halted = false) (hok : m.step.verdict = .ok progress) :
    ∃ i, m.instruction? = some i ∧
      m.Flow i.toOperands i.operation progress m.step.machine.position ∧
      (∀ progress' after, m.Flow i.toOperands i.operation progress' after →
        progress' = progress ∧ after = m.step.machine.position) ∧
      (progress = .halted ↔ i.operation = .jump ∧ i.address.toNat = m.pc.toNat) ∧
      (progress = .waiting → i.operation = .awaitKey) := by
  obtain ⟨opcode, i, hword, hdecode, hperform, hmachine⟩ := exists_perform_of_ok hrun hok
  -- The instruction was read from memory, so its address is far from the end of the words.
  have hflow := perform_flow (pc_le_of_word hword) hperform
  rw [← hmachine] at hflow
  refine ⟨i, instruction?_of_decode hword hdecode, hflow, ?_, hflow.halted_iff, ?_⟩
  · exact fun progress' after hflow' => hflow'.unique hflow
  · rintro rfl
    exact hflow.op_of_waiting

/-- A machine in front of a jump to the address 1, which is below where the machine aims. -/
def lowJump : Machine := fresh (.image #[0x10, 0x01]) (.ofSeed 0)

theorem step_flow_lowJump :
    lowJump.halted = false ∧ lowJump.step.verdict = .ok .continued ∧
      lowJump.step.machine.position = ⟨1, []⟩ := by
  have hword : lowJump.memory.word lowJump.pc.toNat = .ok (.ofBytes 0x10 0x01) :=
    Memory.word_image (i := 0) (by decide) (by decide)
  have hdecode : Instruction.decode (.ofBytes 0x10 0x01)
      = some { immediate := 1, operation := .jump } := by decide
  have hverdict : lowJump.step.verdict = .ok .continued := by
    rw [step_of_decode rfl hword hdecode]
    rfl
  obtain ⟨i, hi, -, hunique, -⟩ := step_flow rfl hverdict
  obtain rfl := Option.some.inj (hi.symm.trans (instruction?_of_decode hword hdecode))
  exact ⟨rfl, hverdict, (hunique .continued ⟨1, []⟩ (.jump (by decide))).2.symm⟩

end Machine

end ChipEight
