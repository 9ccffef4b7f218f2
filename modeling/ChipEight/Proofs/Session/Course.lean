import ChipEight.Proofs.Machine.Failure
import ChipEight.Session

/-!
# The course of a run

A run makes one step after the other until there is a reason to stop. Its report only counts
the steps; here they are listed, and the ways in which a run can go on or end are the
constructors of a relation. Facts about runs are proved by induction on it, without another
look at the loop.

## Main definitions

- `Session.fresh`: a session that has not run
- `Session.calls`: the steps that a run makes, first to last
- `Session.completed`, `Session.progresses`: how many of them succeed, and whether one of them
  leaves its place
- `Session.attempts`, `Session.breakpoint?`: what the end of a run says about its steps, and
  about the breakpoint where it stopped
- `Session.Course`: the steps of a run, how it ends, and the session it leaves

## Main statements

- `Session.course_run`: a run has a course, and shows nothing that is not in it
- `Session.Course.unique`: there is only one course
-/

namespace ChipEight

def Step.succeeds (s : Step) : Bool :=
  match s.verdict with
  | .ok _ => true
  | .error _ => false

/-- Whether a step succeeds and leaves its place, which a key wait does not. -/
def Step.progresses (s : Step) : Bool :=
  match s.verdict with
  | .ok .continued | .ok .halted => true
  | _ => false

namespace Session

/-- A session that has not run. -/
def fresh (m : Machine) (settings : Settings) (breakpoints : Std.ExtTreeSet Word := ∅) : Session :=
  { machine := m, settings := settings, breakpoints := breakpoints }

/-! ## The steps of a run -/

/-- The session after an instruction from which a run goes on. -/
def goOn (s : Session) : Session := { s with machine := s.machine.step.machine, lastStop? := none }

theorem machine_goOn (s : Session) : s.goOn.machine = s.machine.step.machine := rfl

/-- The steps of a run that may execute `budget` instructions. -/
def callsFor (s : Session) : (budget : Nat) → List Step
  | 0 => []
  | budget + 1 =>
    if s.machine.halted || s.mustStop then
      []
    else
      match s.machine.step.verdict with
      | .ok .continued => s.machine.step :: s.goOn.callsFor budget
      | _ => [s.machine.step]

/-- The steps of a run, first to last. -/
def calls (s : Session) : List Step := s.callsFor s.settings.maxSteps

def completed (s : Session) : Nat := s.calls.countP Step.succeeds

/-- Whether a run completes an instruction that leaves its place. -/
def progresses (s : Session) : Bool := s.calls.any Step.progresses

/-! ## The ways of a run -/

/-- How many steps a run makes that completes some and then ends as given: a fault comes in a
step of its own. -/
def attempts (completed : Nat) : (ending : Except Fault Outcome) → Nat
  | .ok _ => completed
  | .error _ => completed + 1

def breakpoint? : (ending : Except Fault Outcome) → Option Word
  | .ok (.breakpoint address) => some address
  | _ => none

/-- `s.Course budget calls ending t`: a run of `s` that may execute `budget` instructions
makes the steps `calls`, ends as `ending` says, and leaves the session `t`. -/
inductive Course : Session → (budget : Nat) → (calls : List Step) →
    (ending : Except Fault Outcome) → Session → Prop where
  -- The run ends before a step.
  | halted {s : Session} {budget : Nat} (hhalted : s.machine.halted = true) :
      Course s budget [] (.ok .halted) s
  | exhausted {s : Session} (hrun : s.machine.halted = false) :
      Course s 0 [] (.ok .budgetExhausted) s
  | stopped {s : Session} {budget : Nat} (hrun : s.machine.halted = false)
      (hstop : s.mustStop = true) :
      Course s (budget + 1) [] (.ok (.breakpoint s.machine.pc))
        { s with lastStop? := some s.machine.pc }
  -- The run ends with a step.
  | failed {s : Session} {budget : Nat} {fault : Fault} (hrun : s.machine.halted = false)
      (hpass : s.mustStop = false) (hstep : s.machine.step.verdict = .error fault) :
      Course s (budget + 1) [s.machine.step] (.error fault)
        { s with machine := s.machine.step.machine }
  | waiting {s : Session} {budget : Nat} (hrun : s.machine.halted = false)
      (hpass : s.mustStop = false) (hstep : s.machine.step.verdict = .ok .waiting) :
      Course s (budget + 1) [s.machine.step] (.ok .waitingForKey)
        { s with machine := s.machine.step.machine }
  | selfJump {s : Session} {budget : Nat} (hrun : s.machine.halted = false)
      (hpass : s.mustStop = false) (hstep : s.machine.step.verdict = .ok .halted) :
      Course s (budget + 1) [s.machine.step] (.ok .halted) s.goOn
  -- The run goes on behind a step.
  | continued {s t : Session} {budget : Nat} {calls : List Step}
      {ending : Except Fault Outcome} (hrun : s.machine.halted = false)
      (hpass : s.mustStop = false) (hstep : s.machine.step.verdict = .ok .continued)
      (rest : Course s.goOn budget calls ending t) :
      Course s (budget + 1) (s.machine.step :: calls) ending t

/-- The loop of a run follows a course. What it yields on top is the count of completed steps
and the events of all steps, both added to what it started with. -/
theorem course_runFor (s : Session) (steps : Nat) (events : Array Event) (budget : Nat) :
    ∃ ending, s.Course budget (s.callsFor budget) ending (s.runFor steps events budget).session ∧
      (s.runFor steps events budget).verdict
        = ending.map (⟨·, steps + (s.callsFor budget).countP Step.succeeds⟩) ∧
      (s.runFor steps events budget).events.toList
        = events.toList ++ (s.callsFor budget).flatMap Step.events := by
  induction budget generalizing s steps events with
  | zero =>
    cases hhalted : s.machine.halted with
    | true => exact ⟨_, .halted hhalted, by simp [runFor, callsFor, hhalted, Except.map]⟩
    | false => exact ⟨_, .exhausted hhalted, by simp [runFor, callsFor, hhalted, Except.map]⟩
  | succ budget ih =>
    cases hhalted : s.machine.halted with
    | true =>
      simp only [runFor, callsFor, hhalted]
      exact ⟨_, .halted hhalted, by simp [Except.map]⟩
    | false =>
      cases hstop : s.mustStop with
      | true =>
        simp only [runFor, callsFor, hhalted, hstop]
        exact ⟨_, .stopped hhalted hstop, by simp [Except.map]⟩
      | false =>
        simp only [runFor, callsFor, hhalted, hstop, Bool.or_self, Bool.false_eq_true, if_false]
        cases hstep : s.machine.step.verdict with
        | error fault => exact ⟨_, .failed hhalted hstop hstep, by simp [Except.map]⟩
        | ok progress =>
          have hcount : Step.succeeds s.machine.step = true := by simp [Step.succeeds, hstep]
          cases progress with
          | waiting => exact ⟨_, .waiting hhalted hstop hstep, by simp [Except.map, hcount]⟩
          | halted => exact ⟨_, .selfJump hhalted hstop hstep, by simp [Except.map, hcount]⟩
          | continued =>
            obtain ⟨ending, hrest, hverdict, hevents⟩ :=
              ih s.goOn (steps + 1) (events ++ s.machine.step.events)
            refine ⟨ending, .continued hhalted hstop hstep hrest, ?_, ?_⟩
            · rw [List.countP_cons_of_pos hcount, ← Nat.add_assoc, Nat.add_right_comm]
              exact hverdict
            · rw [Array.toList_appendList, List.append_assoc] at hevents
              exact hevents

/-- A run has a course. Its report counts the completed steps of the course, and its events
are those of the steps. -/
theorem course_run (s : Session) :
    ∃ ending, s.Course s.settings.maxSteps s.calls ending s.run.session ∧
      s.run.verdict = ending.map (⟨·, s.completed⟩) ∧
      s.run.events.toList = s.calls.flatMap Step.events := by
  obtain ⟨ending, hcourse, hverdict, hevents⟩ :=
    s.course_runFor 0 #[] s.settings.maxSteps
  rw [Nat.zero_add] at hverdict
  exact ⟨ending, hcourse, hverdict, hevents⟩

/-! ## What every course shares -/

namespace Course

variable {s t : Session} {budget : Nat} {calls : List Step} {ending : Except Fault Outcome}

theorem length_le (h : Course s budget calls ending t) : calls.length ≤ budget := by
  induction h with
  | halted | exhausted | stopped => exact Nat.zero_le _
  | failed | waiting | selfJump => exact Nat.le_add_left _ _
  | continued _ _ _ _ ih => exact Nat.succ_le_succ ih

/-- All steps succeed, except for the last one of a run that ends with a fault. -/
theorem length_eq (h : Course s budget calls ending t) :
    calls.length = attempts (calls.countP Step.succeeds) ending := by
  induction h with
  | halted | exhausted | stopped => rfl
  | failed _ _ hstep => simp [attempts, Step.succeeds, hstep]
  | waiting _ _ hstep => simp [attempts, Step.succeeds, hstep]
  | selfJump _ _ hstep => simp [attempts, Step.succeeds, hstep]
  | @continued _ _ _ _ ending _ _ hstep _ ih =>
    rw [List.countP_cons_of_pos (by simp [Step.succeeds, hstep]), List.length_cons, ih]
    cases ending <;> rfl

theorem settings_eq (h : Course s budget calls ending t) : t.settings = s.settings := by
  induction h with
  | continued _ _ _ _ ih => exact ih
  | _ => rfl

theorem breakpoints_eq (h : Course s budget calls ending t) : t.breakpoints = s.breakpoints := by
  induction h with
  | continued _ _ _ _ ih => exact ih
  | _ => rfl

/-- A run that stops at a breakpoint remembers it. Any other run forgets what was remembered
if it left its place, and keeps it if not. -/
theorem lastStop?_eq (h : Course s budget calls ending t) :
    t.lastStop? =
      (breakpoint? ending).or (if calls.any Step.progresses then none else s.lastStop?) := by
  induction h with
  | halted | exhausted | stopped => rfl
  | failed _ _ hstep => simp [breakpoint?, Step.progresses, hstep]
  | waiting _ _ hstep => simp [breakpoint?, Step.progresses, hstep]
  | selfJump _ _ hstep => simp [breakpoint?, Step.progresses, hstep, goOn]
  | continued _ _ hstep _ ih => simp [ih, Step.progresses, hstep, goOn]

/-- A session and its budget leave only one course. -/
theorem unique {calls' : List Step} {ending' : Except Fault Outcome} {t' : Session}
    (h : Course s budget calls ending t) (h' : Course s budget calls' ending' t') :
    calls = calls' ∧ ending = ending' ∧ t = t' := by
  -- What the first step of one course needs rules out all other first steps for the other one.
  induction h generalizing calls' with
  | halted hhalted => cases h' <;> simp_all
  | exhausted hrun => cases h' <;> simp_all
  | stopped hrun hstop => cases h' <;> simp_all
  | failed hrun hpass hstep => cases h' <;> simp_all
  | waiting hrun hpass hstep => cases h' <;> simp_all
  | selfJump hrun hpass hstep => cases h' <;> simp_all
  | continued hrun hpass hstep _ ih =>
    cases h' with
    | continued _ _ _ rest =>
      obtain ⟨rfl, rfl, rfl⟩ := ih rest
      exact ⟨rfl, rfl, rfl⟩
    | _ => simp_all

/-- So a course of the whole budget is the one that the run takes. -/
theorem calls_run_eq (h : Course s s.settings.maxSteps calls ending t) : s.calls = calls := by
  obtain ⟨_, hcourse, -, -⟩ := s.course_run
  exact (hcourse.unique h).1

theorem run_eq (h : Course s s.settings.maxSteps calls ending t) :
    s.run.verdict = ending.map (⟨·, calls.countP Step.succeeds⟩) ∧ s.run.session = t ∧
      s.run.events.toList = calls.flatMap Step.events := by
  obtain ⟨ending', hcourse, hverdict, hevents⟩ := s.course_run
  obtain ⟨-, rfl, hsession⟩ := hcourse.unique h
  rw [completed, h.calls_run_eq] at hverdict
  rw [h.calls_run_eq] at hevents
  exact ⟨hverdict, hsession, hevents⟩

end Course

end Session

end ChipEight
