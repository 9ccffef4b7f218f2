import ChipEight.Proofs.Machine.KeyWait
import ChipEight.Proofs.Reachable

/-!
# Chronicles

The chronicle of a machine is what was done to it since it was switched on, each deed with the
machine that it was done to. Much of the state is explained by the deeds since a program was loaded
last, and there by the instructions that were performed, as opposed to those that failed.

A chronicle begins with its newest deed, so that a deed is added at the front, and the deeds since
the last load are those before it in the list. A run of a session enters the chronicle as the steps
that it makes.

## Main definitions

- `Machine.Deed`: a thing that was done to a machine
- `Machine.Deed.performed?`, `Machine.Deed.loaded?`: what instruction was performed by it, and what
  program was loaded
- `Machine.Chronicle`: the chronicles of machines
- `Machine.sinceLoad`, `Machine.programOf`: the deeds since the last load, and the program that was
  loaded then

## Main statements

- `Machine.Deed.cases`: a deed performs an instruction, loads a program, or does nothing but input
- `Machine.Chronicle.sinceLoad_invariant`: what is so after loading, and stays so by every deed that
  is not a load, is always so
- `Machine.Reachable.exists_chronicle`: every machine that can be reached has a chronicle
-/

namespace ChipEight.Machine

/-! ## Deeds -/

theorem succeeds_step (m : Machine) : m.step.succeeds = m.fault?.isNone := by
  have hdecides := m.step_respects.decides
  cases hfault : m.fault? with
  | some fault =>
    rw [hfault] at hdecides
    have herror : m.step.verdict = .error fault := hdecides
    simp [Step.succeeds, herror]
  | none =>
    rw [hfault] at hdecides
    obtain ⟨progress, hok⟩ := hdecides
    simp [Step.succeeds, hok]

/-- The instruction that a step performs. There is none if the machine has halted or if the step
fails. -/
def performed? (m : Machine) : Option Instruction :=
  if m.halted = false ∧ m.step.succeeds = true then m.instruction? else none

theorem performed?_of_halted {m : Machine} (h : m.halted = true) : m.performed? = none := by
  simp [performed?, h]

theorem performed?_of_error {m : Machine} {fault : Fault} (h : m.step.verdict = .error fault) :
    m.performed? = none := by
  simp [performed?, Step.succeeds, h]

theorem performed?_of_ok {m : Machine} {progress : Progress} (hrun : m.halted = false)
    (h : m.step.verdict = .ok progress) : m.performed? = m.instruction? := by
  simp [performed?, Step.succeeds, hrun, h]

/-- A machine that runs performs the instruction before it, unless that fails. -/
theorem performed?_of_perform {m : Machine} {opcode : Word} {i : Instruction} {progress : Progress}
    (hrun : m.halted = false) (hword : m.memory.word m.pc.toNat = .ok opcode)
    (hdecode : Instruction.decode opcode = some i)
    (hok : (m.perform i).verdict = .ok progress) :
    m.performed? = some i ∧ m.step.machine = (m.perform i).machine := by
  have hstep := step_of_decode hrun hword hdecode
  have hverdict : m.step.verdict = .ok progress := by
    rw [hstep]
    exact hok
  refine ⟨?_, by rw [hstep]⟩
  rw [performed?_of_ok hrun hverdict]
  exact instruction?_of_decode hword hdecode

/-- One thing that was done to a machine. -/
structure Deed where
  before : Machine
  action : Action

namespace Deed

def after (d : Deed) : Machine := d.before.act d.action

/-- The instruction that was performed. -/
def performed? (d : Deed) : Option Instruction :=
  match d.action with
  | .step => d.before.performed?
  | _ => none

/-- The program that was loaded, if it was not refused. -/
def loaded? (d : Deed) : Option (Array UInt8) :=
  match d.action with
  | .load program => if program.size ≤ AddressSpace.programCapacity then some program else none
  | _ => none

theorem size_le_of_loaded {d : Deed} {program : Array UInt8} (h : d.loaded? = some program) :
    program.size ≤ 3584 := by
  unfold loaded? at h
  split at h
  · split at h
    · obtain rfl := Option.some.inj h
      assumption
    · cases h
  · cases h

/-- What a deed amounts to. -/
inductive Cases (d : Deed) : Prop where
  | performed {i : Instruction} {progress : Progress} (hloaded : d.loaded? = none)
      (hperformed : d.performed? = some i) (haction : d.action = .step)
      (hrun : d.before.halted = false) (hpc : d.before.pc.toNat ≤ 0xFFE)
      (hverdict : (d.before.perform i).verdict = .ok progress)
      (hafter : d.after = (d.before.perform i).machine)
  | loaded {program : Array UInt8} (hloaded : d.loaded? = some program)
      (hperformed : d.performed? = none) (haction : d.action = .load program)
      (hsize : program.size ≤ 3584) (hafter : d.after = fresh (.image program) d.before.random)
  | input (hloaded : d.loaded? = none) (hperformed : d.performed? = none)
      (halike : d.after.Alike d.before)

/-- Every deed performs an instruction, loads a program, or does nothing but input. -/
theorem cases (d : Deed) : d.Cases := by
  obtain ⟨m, a⟩ := d
  cases a with
  | load program =>
    rcases Nat.lt_or_ge 3584 program.size with hlarge | hfits
    · -- A program that is refused changes nothing.
      refine .input (if_neg (Nat.not_le.mpr hlarge)) rfl ?_
      rw [after, act_load_of_lt m hlarge]
      exact .refl m
    · exact .loaded (if_pos hfits) rfl rfl hfits (act_load_of_le m hfits)
  | step =>
    cases m.stepCase with
    | halted hhalted hstep =>
      refine .input rfl (performed?_of_halted hhalted) ?_
      rw [after, act, hstep]
      exact .refl m
    | failed hverdict hsame =>
      refine .input rfl (performed?_of_error hverdict) ?_
      rw [after, act, hsame]
      exact .refl m
    | performed hrun hword hdecode hperform hverdict hmachine =>
      have hperformed : m.performed? = some _ :=
        (performed?_of_ok hrun hverdict).trans (instruction?_of_decode hword hdecode)
      exact .performed rfl hperformed rfl hrun (pc_le_of_word hword) hperform hmachine
  | setKey key down => exact .input rfl rfl (m.act_input rfl).1
  | tick => exact .input rfl rfl (m.act_input rfl).1
  | acknowledgeScreen => exact .input rfl rfl (m.act_input rfl).1

end Deed

/-! ## Since the last load -/

/-- The deeds since a program was loaded last, or since the machine was switched on. -/
def sinceLoad (past : List Deed) : List Deed := past.takeWhile fun d => d.loaded?.isNone

/-- The program that was loaded last. As long as there is none it counts as empty. -/
def programOf (past : List Deed) : Array UInt8 := (past.findSome? Deed.loaded?).getD #[]

theorem size_programOf_le (past : List Deed) : (programOf past).size ≤ 3584 := by
  unfold programOf
  cases hfound : past.findSome? Deed.loaded? with
  | none => exact Nat.zero_le _
  | some program =>
    obtain ⟨d, -, hd⟩ := List.exists_of_findSome?_eq_some hfound
    exact Deed.size_le_of_loaded hd

section Cons

variable {d : Deed} {past : List Deed}

theorem sinceLoad_cons_of_some {program : Array UInt8} (h : d.loaded? = some program) :
    sinceLoad (d :: past) = [] := by
  simp [sinceLoad, h]

theorem sinceLoad_cons_of_none (h : d.loaded? = none) :
    sinceLoad (d :: past) = d :: sinceLoad past := by
  simp [sinceLoad, h]

theorem programOf_cons_of_some {program : Array UInt8} (h : d.loaded? = some program) :
    programOf (d :: past) = program := by
  simp [programOf, h]

theorem programOf_cons_of_none (h : d.loaded? = none) :
    programOf (d :: past) = programOf past := by
  simp [programOf, h]

end Cons

/-! ## Chronicles -/

/-- The first `n` steps of a machine that is only stepped. -/
def steps (m : Machine) : (n : Nat) → List Deed
  | 0 => []
  | n + 1 => ⟨m.after n, .step⟩ :: m.steps n

theorem mem_steps {m : Machine} {j n : Nat} (h : j < n) : ⟨m.after j, .step⟩ ∈ m.steps n := by
  induction n with
  | zero => exact absurd h (Nat.not_lt_zero j)
  | succ n ih =>
    rcases Nat.lt_succ_iff_lt_or_eq.mp h with hlt | rfl
    · exact List.mem_cons_of_mem _ (ih hlt)
    · exact List.mem_cons_self

theorem action_of_mem_steps {m : Machine} {n : Nat} {d : Deed} (h : d ∈ m.steps n) :
    d.action = .step := by
  induction n with
  | zero => cases h
  | succ n ih =>
    rcases List.mem_cons.mp h with rfl | hbefore
    · rfl
    · exact ih hbefore

/-- `m.Chronicle past`: the machine has come about by the deeds in `past`, of which the newest comes
first. -/
inductive Chronicle : Machine → (past : List Deed) → Prop where
  | powerOn (random : RandomSource) : Chronicle (.powerOn random) []
  | act {m : Machine} {past : List Deed} (a : Action) (hm : m.Chronicle past) :
      Chronicle (m.act a) (⟨m, a⟩ :: past)
  | run {s : Session} {past : List Deed} (hs : s.machine.Chronicle past) :
      Chronicle s.run.session.machine (s.machine.steps s.calls.length ++ past)

namespace Chronicle

variable {m : Machine} {past : List Deed}

/-- What is so of every machine that was just switched on, and stays so by every deed, is so of all
machines with their chronicles. -/
theorem invariant {P : Machine → List Deed → Prop} (hpower : ∀ random, P (.powerOn random) [])
    (hdeed : ∀ (d : Deed) past, P d.before past → P d.after (d :: past)) (hm : m.Chronicle past) :
    P m past := by
  induction hm with
  | powerOn random => exact hpower random
  | @act m past a _ ih => exact hdeed ⟨m, a⟩ past ih
  | @run s past _ ih =>
    -- A run does what its steps do, one after the other.
    have hsteps : ∀ n, P (s.machine.after n) (s.machine.steps n ++ past) := by
      intro n
      induction n with
      | zero => exact ih
      | succ n ihn => exact hdeed ⟨s.machine.after n, .step⟩ _ ihn
    obtain ⟨_, hcourse, -, -⟩ := s.course_run
    rw [hcourse.machine_eq]
    exact hsteps s.calls.length

/-- What is so of every machine whose program was just loaded, and stays so by every deed that is
not a load, is always so: of the program that was loaded last, the deeds since then, and the
machine. -/
theorem sinceLoad_invariant {P : Array UInt8 → List Deed → Machine → Prop}
    (hfresh : ∀ program random, P program [] (fresh (.image program) random))
    (hdeed : ∀ program (d : Deed) recent, d.loaded? = none → P program recent d.before →
      P program (d :: recent) d.after)
    (hm : m.Chronicle past) : P (programOf past) (sinceLoad past) m := by
  apply hm.invariant (P := fun m past => P (programOf past) (sinceLoad past) m)
  · -- A machine without a program is one with the empty program.
    intro random
    have hblank : Memory.withGlyphs = Memory.image #[] := by
      rw [← Memory.load_eq_image #[] (Nat.zero_le _), Memory.load, Memory.put]
    rw [Machine.powerOn, hblank]
    exact hfresh #[] random
  · intro d past ih
    cases hloaded : d.loaded? with
    | none =>
      rw [programOf_cons_of_none hloaded, sinceLoad_cons_of_none hloaded]
      exact hdeed _ d _ hloaded ih
    | some program =>
      rw [programOf_cons_of_some hloaded, sinceLoad_cons_of_some hloaded]
      cases d.cases with
      | loaded hprogram _ _ _ hafter =>
        obtain rfl := Option.some.inj (hloaded.symm.trans hprogram)
        rw [hafter]
        exact hfresh _ _
      | performed hnone => cases hloaded.symm.trans hnone
      | input hnone => cases hloaded.symm.trans hnone

theorem reachable (hm : m.Chronicle past) : m.Reachable := by
  induction hm with
  | powerOn random => exact .powerOn random
  | act a _ ih => exact ih.act a
  | run _ ih => exact ih.run

end Chronicle

/-- Every machine that a host can come to has a chronicle. -/
theorem Reachable.exists_chronicle {m : Machine} (hm : m.Reachable) : ∃ past, m.Chronicle past := by
  induction hm with
  | powerOn random => exact ⟨_, .powerOn random⟩
  | act a _ ih =>
    obtain ⟨past, hpast⟩ := ih
    exact ⟨_, hpast.act a⟩
  | run _ ih =>
    obtain ⟨past, hpast⟩ := ih
    exact ⟨_, hpast.run⟩

end ChipEight.Machine
