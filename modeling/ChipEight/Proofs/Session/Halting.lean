import ChipEight.Proofs.Machine.Standstill
import ChipEight.Proofs.Session.Hosting

/-!
# Halting

A program halts by a jump to its own place, and in no other way: a jump with an offset, a return or
a call that leads to where it stands goes round for ever. Since nothing takes the flag back but
loading a program, a machine has halted exactly if there was such a jump since then.

From then on the machine stands still. Steps change nothing and say that it has halted, and so do
runs, whatever they may execute and wherever there are breakpoints, since a run looks at the flag
before anything else. What a host still can change is its own: the keys, the timers and the flag of
the screen.

## Main definitions

- `Machine.Deed.SelfJump`: a jump to its own place was performed
- `Session.Move.isLoad`, `Session.Move.isRenewal`: what puts an end to it, and what makes a new
  session

## Main statements

- `Machine.step_halted_iff`: which steps halt a machine
- `Machine.Chronicle.halted_iff`: which machines have halted
- `Session.run_of_halted`: the runs of a machine that has halted
- `Session.halting_is_final`: halting, from the jump on
-/

namespace ChipEight

namespace Machine

/-! ## How a machine halts -/

/-- Among instructions only a jump to its own place halts a machine. -/
theorem perform_halted_iff {m : Machine} (hrun : m.halted = false) (i : Instruction) :
    (m.perform i).machine.halted = true ↔ i.operation = .jump ∧ i.address = m.pc := by
  by_cases hself : i.operation = .jump ∧ m.pc = i.address
  · have hperform : (m.perform i).machine = { m with halted := true } := by
      simp only [perform, hself.1, hself.2, if_true]
    rw [hperform]
    exact ⟨fun _ => ⟨hself.1, hself.2.symm⟩, fun _ => rfl⟩
  · rw [m.perform_halted hself, hrun]
    simp only [Bool.false_eq_true, false_iff]
    exact fun h => hself ⟨h.1, h.2.symm⟩

/-- The word of the jump to a place in memory, as it is decoded. -/
theorem decode_jump_to {a : Word} (ha : a.toNat ≤ 0xFFE) :
    ∃ i, Instruction.decode (0x1000 + a) = some i ∧ i.operation = .jump ∧ i.address = a := by
  have hsum : (0x1000 + a : Word).toNat = 4096 + a.toNat := by
    have hthousand : (0x1000 : Word).toNat = 4096 := rfl
    rw [UInt16.toNat_add, hthousand]
    omega
  have hfamily : (0x1000 + a : Word).family = 0x1 := by
    apply Fin.ext
    have hone : (0x1 : Nibble).val = 1 := rfl
    simp only [Word.family, hsum, hone]
    omega
  refine ⟨_, Instruction.decode_jump hfamily, rfl, ?_⟩
  apply UInt16.toNat_inj.mp
  rw [Operands.address, Word.address_address, Word.toNat_address, hsum]
  omega

/-- A step halts a machine that runs if the word before it is the jump to where it stands, and not
otherwise. -/
theorem step_halted_iff {m : Machine} (hrun : m.halted = false) :
    m.step.machine.halted = true ↔ m.memory.word m.pc.toNat = .ok (0x1000 + m.pc) := by
  constructor
  · intro hhalted
    cases m.stepCase with
    | halted h => cases hrun.symm.trans h
    | failed _ hsame =>
      rw [hsame, hrun] at hhalted
      cases hhalted
    | performed _ hword hdecode _ _ hmachine =>
      rw [hmachine, perform_halted_iff hrun] at hhalted
      rw [hword, ← Instruction.encode_of_decode hdecode, Instruction.encode_jump hhalted.1,
        hhalted.2]
  · intro hword
    obtain ⟨i, hdecode, hjump⟩ := decode_jump_to (pc_le_of_word hword)
    rw [step_of_decode hrun hword hdecode]
    exact (perform_halted_iff hrun i).mpr hjump

theorem progressOf_eq_halted_iff (m : Machine) (i : Instruction) :
    m.progressOf i = .halted ↔ i.operation = .jump ∧ i.address = m.pc := by
  unfold progressOf
  split
  · rename_i hjump
    simp [hjump, eq_comm]
  · rename_i hawait
    cases m.keyReleased <;> simp [hawait]
  · rename_i hjump _
    exact ⟨nofun, fun h => absurd h.1 hjump⟩

/-- A step tells whether the machine has halted after it. -/
theorem step_verdict_halted_iff (m : Machine) :
    m.step.verdict = .ok .halted ↔ m.step.machine.halted = true := by
  cases m.stepCase with
  | halted hhalted hstep => simp [hstep, hhalted]
  | failed hverdict hsame =>
    have hrun : m.halted = false := by
      refine Bool.eq_false_iff.mpr fun hhalted => ?_
      simp [step, hhalted] at hverdict
    simp [hverdict, hsame, hrun]
  | performed hrun _ _ hperform hverdict hmachine =>
    rw [hverdict, hmachine, perform_halted_iff hrun, ← progressOf_eq_halted_iff,
      perform_progress hperform]
    exact ⟨Except.ok.inj, congrArg _⟩

namespace Deed

/-- A jump to its own place was performed. -/
def SelfJump (d : Deed) : Prop :=
  ∃ i, d.performed? = some i ∧ i.operation = .jump ∧ i.address = d.before.pc

theorem not_selfJump_of_none {d : Deed} (h : d.performed? = none) : ¬d.SelfJump := by
  rintro ⟨i, hi, -⟩
  cases h.symm.trans hi

/-- A machine has halted after a deed that is not a load if it had before, or if the deed was a jump
to its own place. -/
theorem halted_after_iff {d : Deed} (hload : d.loaded? = none) :
    d.after.halted = true ↔ d.SelfJump ∨ d.before.halted = true := by
  cases d.cases with
  | @performed i _ _ hperformed _ hrun _ _ hafter =>
    rw [hafter, perform_halted_iff hrun, hrun]
    constructor
    · exact fun hjump => .inl ⟨i, hperformed, hjump⟩
    · rintro (⟨j, hj, hjump⟩ | hhalted)
      · obtain rfl := Option.some.inj (hperformed.symm.trans hj)
        exact hjump
      · cases hhalted
  | loaded hloaded => cases hload.symm.trans hloaded
  | input _ hperformed halike =>
    rw [halike.halted]
    exact (or_iff_right (not_selfJump_of_none hperformed)).symm

end Deed

/-- A machine has halted if it jumped to its own place since a program was loaded last, and not
otherwise. -/
theorem Chronicle.halted_iff {m : Machine} {past : List Deed} (hm : m.Chronicle past) :
    m.halted = true ↔ ∃ d ∈ sinceLoad past, d.SelfJump := by
  apply hm.sinceLoad_invariant
    (P := fun _ recent m => m.halted = true ↔ ∃ d ∈ recent, d.SelfJump)
  · exact fun _ _ => ⟨nofun, nofun⟩
  · intro _ d recent hload ih
    rw [Deed.halted_after_iff hload, ih]
    simp only [List.mem_cons, exists_eq_or_imp]

end Machine

namespace Session

/-! ## After the jump -/

/-- Whether a move loads a program. -/
def Move.isLoad : Move → Bool
  | .act (.machine action) => action.isLoad
  | _ => false

/-- Whether a move puts the machine into a new session. -/
def Move.isRenewal : Move → Bool
  | .renew _ => true
  | _ => false

theorem run_of_halted {s : Session} (h : s.machine.halted = true) :
    s.run = ⟨.ok ⟨.halted, 0⟩, s, #[]⟩ := by
  unfold run
  cases s.settings.maxSteps <;> simp [runFor, h]

/-- What a host does to a machine that has halted is input, if it is not a load. -/
theorem machine_move_of_halted {s : Session} (h : s.machine.halted = true) {v : Move}
    (hv : v.isLoad = false) :
    (s.move v).machine.Alike s.machine ∧ (s.move v).machine.pendingKey = s.machine.pendingKey := by
  cases v with
  | renew maxSteps => exact ⟨.refl _, rfl⟩
  | act action =>
    cases action with
    | run =>
      rw [move, act, run_of_halted h]
      exact ⟨.refl _, rfl⟩
    | addBreakpoint address => exact ⟨.refl _, rfl⟩
    | removeBreakpoint address => exact ⟨.refl _, rfl⟩
    | clearBreakpoints => exact ⟨.refl _, rfl⟩
    | machine action =>
      cases action with
      | load program => cases hv
      | step =>
        have hstep : s.machine.act .step = s.machine := by simp [Machine.act, Machine.step, h]
        rw [move, act, hstep]
        exact ⟨.refl _, rfl⟩
      | setKey key down => exact s.machine.act_input (a := .setKey key down) rfl
      | tick => exact s.machine.act_input (a := .tick) rfl
      | acknowledgeScreen => exact s.machine.act_input (a := .acknowledgeScreen) rfl

theorem lastStop?_move_of_halted {s : Session} (h : s.machine.halted = true) {v : Move}
    (hv : v.isRenewal = false) : (s.move v).lastStop? = s.lastStop? := by
  cases v with
  | renew maxSteps => cases hv
  | act action =>
    cases action with
    | run => rw [move, act, run_of_halted h]
    | _ => rfl

/-- A machine that has halted stays as it is but for input, until a program is loaded. -/
theorem machine_moves_of_halted {s : Session} (h : s.machine.halted = true) {list : List Move}
    (hlist : ∀ v ∈ list, v.isLoad = false) :
    (s.moves list).machine.Alike s.machine ∧
      (s.moves list).machine.pendingKey = s.machine.pendingKey := by
  induction list generalizing s with
  | nil => exact ⟨.refl _, rfl⟩
  | cons v list ih =>
    obtain ⟨hv, hrest⟩ := List.forall_mem_cons.mp hlist
    obtain ⟨halike, hkey⟩ := machine_move_of_halted h hv
    obtain ⟨halike', hkey'⟩ := ih (halike.halted.trans h) hrest
    exact ⟨halike'.trans halike, hkey'.trans hkey⟩

theorem lastStop?_moves_of_halted {s : Session} (h : s.machine.halted = true) {list : List Move}
    (hlist : ∀ v ∈ list, v.isLoad = false) (hkept : ∀ v ∈ list, v.isRenewal = false) :
    (s.moves list).lastStop? = s.lastStop? := by
  induction list generalizing s with
  | nil => rfl
  | cons v list ih =>
    obtain ⟨hv, hrest⟩ := List.forall_mem_cons.mp hlist
    obtain ⟨hv', hrest'⟩ := List.forall_mem_cons.mp hkept
    have hhalted : (s.move v).machine.halted = true :=
      (machine_move_of_halted h hv).1.halted.trans h
    exact (ih hhalted hrest hrest').trans (lastStop?_move_of_halted h hv')

/-- **Halting is final.**

1. A machine has halted exactly if a jump to its own place was performed since a program was loaded
   last.
2. A step halts a machine that runs exactly if it has that jump before it, and tells so. No other
   instruction does, wherever it leads.
3. Whatever a host does with a machine that has halted, short of loading a program: a step changes
   nothing and tells that it has halted, a run reports that after no instruction, and nothing
   changes but what is the host's own. Nor does the session forget where it stopped last, as long
   as it is the same session. -/
theorem halting_is_final :
    (∀ (m : Machine) (past : List Machine.Deed), m.Chronicle past →
      (m.halted = true ↔ ∃ d ∈ Machine.sinceLoad past, d.SelfJump)) ∧
    (∀ m : Machine, m.halted = false →
      (m.step.machine.halted = true ↔ m.memory.word m.pc.toNat = .ok (0x1000 + m.pc)) ∧
      (m.step.verdict = .ok .halted ↔ m.memory.word m.pc.toNat = .ok (0x1000 + m.pc)) ∧
      ∀ i, m.performed? = some i → i.operation ≠ .jump → m.step.machine.halted = false) ∧
    ∀ s : Session, s.machine.halted = true →
      ∀ list : List Move, (∀ v ∈ list, v.isLoad = false) →
        let t := s.moves list
        t.machine.step = ⟨.ok .halted, t.machine, []⟩ ∧
        t.run = ⟨.ok ⟨.halted, 0⟩, t, #[]⟩ ∧
        t.machine.Alike s.machine ∧ t.machine.pendingKey = s.machine.pendingKey ∧
        ((∀ v ∈ list, v.isRenewal = false) → t.lastStop? = s.lastStop?) := by
  refine ⟨fun m past hm => hm.halted_iff, fun m hrun => ⟨?_, ?_, ?_⟩, ?_⟩
  · exact Machine.step_halted_iff hrun
  · rw [Machine.step_verdict_halted_iff]
    exact Machine.step_halted_iff hrun
  · intro i hperformed hi
    have hafter := Machine.Deed.halted_after_iff (d := ⟨m, .step⟩) rfl
    refine Bool.eq_false_iff.mpr fun hhalted => ?_
    rcases hafter.mp hhalted with ⟨j, hj, hjump, -⟩ | hbefore
    · obtain rfl := Option.some.inj (hperformed.symm.trans hj)
      exact hi hjump
    · cases hrun.symm.trans hbefore
  · intro s hhalted list hlist t
    obtain ⟨halike, hkey⟩ := machine_moves_of_halted hhalted hlist
    have hstill : t.machine.halted = true := halike.halted.trans hhalted
    refine ⟨by simp [Machine.step, hstill], run_of_halted hstill, halike, hkey, ?_⟩
    exact lastStop?_moves_of_halted hhalted hlist

/-- What was done to the machine that is stuck. -/
def stuckPast : List Machine.Deed :=
  [⟨(Machine.powerOn (.ofSeed 0)).act (.load #[0x12, 0x00]), .step⟩,
    ⟨.powerOn (.ofSeed 0), .load #[0x12, 0x00]⟩]

theorem chronicle_stuckPast : Machine.stuck.Chronicle stuckPast := by
  rw [Machine.stuck, Machine.acts_cons, Machine.acts_cons, Machine.acts_nil]
  exact ((Machine.Chronicle.powerOn (.ofSeed 0)).act (.load #[0x12, 0x00])).act .step

theorem halted_stuck : Machine.stuck.halted = true := by
  rw [Machine.stuck_eq]

/-- A machine before a jump with an offset that leads to where it stands. -/
def circling : Machine := .fresh (.image #[0xB2, 0x00]) (.ofSeed 0)

theorem step_circling :
    circling.performed? = some { operation := .jumpOffset, immediate := 0x200 } ∧
      circling.step.machine.pc = circling.pc := by
  have hword : circling.memory.word circling.pc.toNat = .ok (.ofBytes 0xB2 0x00) :=
    Memory.word_image (i := 0) (by decide) (by decide)
  obtain ⟨hperformed, hmachine⟩ :=
    Machine.performed?_of_perform (i := { operation := .jumpOffset, immediate := 0x200 }) rfl hword
      (by decide) rfl
  refine ⟨hperformed, ?_⟩
  rw [hmachine]
  decide

/-- The session of a machine that is stuck, without a budget, that has stopped somewhere before. -/
def stuckSession : Session where
  machine := .stuck
  settings := { maxSteps := 0 }
  lastStop? := some 0x300

/-- A host that tries to get it going, with a breakpoint where it stands. -/
def proddingHost : List Move :=
  [.act (.addBreakpoint 0x200), .act (.machine (.setKey 3 true)), .act .run,
    .act (.machine .step), .act (.machine .tick), .act .run]

theorem halting_is_final_stuck :
    (∃ d ∈ Machine.sinceLoad stuckPast, d.SelfJump) ∧
      (circling.step.machine.pc = circling.pc ∧ circling.step.machine.halted = false) ∧
      (stuckSession.moves proddingHost).run.verdict = .ok ⟨.halted, 0⟩ ∧
      (stuckSession.moves proddingHost).lastStop? = some 0x300 := by
  obtain ⟨hjumped, hruns, hstill⟩ := halting_is_final
  obtain ⟨hperformed, hplace⟩ := step_circling
  obtain ⟨-, hrun, -, -, hlast⟩ := hstill stuckSession halted_stuck proddingHost (by decide)
  refine ⟨(hjumped _ _ chronicle_stuckPast).mp halted_stuck, ⟨hplace, ?_⟩, ?_, hlast (by decide)⟩
  · exact (hruns circling rfl).2.2 _ hperformed (by decide)
  · rw [hrun]

end Session

end ChipEight
