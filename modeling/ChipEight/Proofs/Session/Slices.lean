import ChipEight.Proofs.Session.History
import ChipEight.Proofs.Session.Resumption

/-!
# Runs in slices

A host that has other work to do lets a session run in slices: a run that has used its budget up
is followed by another one. Where the cuts are does not show. Whatever a run carries from one
instruction to the next is in the session, so the next run takes it up, be it in front of a
breakpoint, in the middle of a key wait, or right behind an instruction that was resumed.

On courses this is plain: a course that ends for want of budget, and a course that starts where it
ended, are one course with the budgets added. It carries over to runs because a session and its
budget leave only one course.

## Main definitions

- `Session.withBudget`: the same session with another budget
- `Session.again`: the session after several runs

## Main statements

- `Session.Course.append`: courses are put together
- `Session.run_in_slices`: runs that follow each other for want of budget are one run
-/

namespace ChipEight

/-- The report of a run that goes on where another one ended, with the instructions of both. -/
def Report.addSteps (earlier : Nat) (r : Report) : Report := { r with steps := earlier + r.steps }

namespace Session

def withBudget (s : Session) (budget : Nat) : Session :=
  { s with settings := { s.settings with maxSteps := budget } }

@[simp] theorem withBudget_withBudget (s : Session) (a b : Nat) :
    (s.withBudget a).withBudget b = s.withBudget b := rfl

theorem withBudget_maxSteps {s : Session} {budget : Nat} (h : s.settings.maxSteps = budget) :
    s.withBudget budget = s := by
  subst h
  rfl

theorem eq_of_eq_withBudget {s t : Session} {budget : Nat} (h : s = t.withBudget budget) :
    s.machine = t.machine ∧ s.lastStop? = t.lastStop? ∧ s.breakpoints = t.breakpoints := by
  subst h
  exact ⟨rfl, rfl, rfl⟩

/-- The session after `n` runs, each of which starts where the one before it ended. -/
def again (s : Session) : (n : Nat) → Session
  | 0 => s
  | n + 1 => (s.again n).run.session

/-! ## Courses -/

namespace Course

variable {s t u : Session} {a b budget : Nat} {calls later : List Step}
  {ending : Except Fault Outcome}

/-- What a session is set up with has no part in the course of a run. -/
theorem withBudget (h : Course s budget calls ending t) (n : Nat) :
    Course (s.withBudget n) budget calls ending (t.withBudget n) := by
  induction h with
  | halted hhalted => exact .halted hhalted
  | exhausted hrun => exact .exhausted hrun
  | stopped hrun hstop => exact .stopped (s := Session.withBudget _ n) hrun hstop
  | failed hrun hpass hstep => exact .failed (s := Session.withBudget _ n) hrun hpass hstep
  | waiting hrun hpass hstep => exact .waiting (s := Session.withBudget _ n) hrun hpass hstep
  | selfJump hrun hpass hstep => exact .selfJump (s := Session.withBudget _ n) hrun hpass hstep
  | continued hrun hpass hstep _ ih =>
    exact .continued (s := Session.withBudget _ n) hrun hpass hstep ih

/-- A run that has used its budget up has completed that many instructions. -/
theorem completed_of_exhausted (h : Course s budget calls ending t)
    (hending : ending = .ok .budgetExhausted) : calls.countP Step.succeeds = budget := by
  induction h with
  | exhausted => rfl
  | continued _ _ hstep _ ih =>
    rw [List.countP_cons_of_pos (by simp [Step.succeeds, hstep]), ih hending]
  | _ => cases hending

/-- A course that ends for want of budget and one that starts there are one course. -/
theorem append (h : Course s a calls ending t) (hending : ending = .ok .budgetExhausted)
    {ending' : Except Fault Outcome} (h' : Course t b later ending' u) :
    Course s (a + b) (calls ++ later) ending' u := by
  induction h with
  | exhausted =>
    rw [Nat.zero_add]
    exact h'
  | continued hrun hpass hstep _ ih =>
    rw [Nat.add_right_comm]
    exact .continued hrun hpass hstep (ih hending h')
  | _ => cases hending

end Course

/-! ## Runs -/

/-- The course of a run for which the budget was not enough. -/
theorem course_of_exhausted {s : Session} {steps : Nat}
    (h : s.run.verdict = .ok ⟨.budgetExhausted, steps⟩) :
    steps = s.settings.maxSteps ∧
      s.Course s.settings.maxSteps s.calls (.ok .budgetExhausted) s.run.session := by
  obtain ⟨ending, hcourse, hverdict, -⟩ := s.course_run
  rw [hverdict] at h
  cases ending with
  | error fault => cases h
  | ok outcome =>
    cases h
    exact ⟨hcourse.completed_of_exhausted rfl, hcourse⟩

/-- A run for which the budget was not enough, and the run that follows it, are one run with both
budgets. -/
theorem run_add {s : Session} {a steps : Nat}
    (h : (s.withBudget a).run.verdict = .ok ⟨.budgetExhausted, steps⟩) (b : Nat) :
    let first := (s.withBudget a).run
    let second := (first.session.withBudget b).run
    let whole := (s.withBudget (a + b)).run
    steps = a ∧ whole.verdict = second.verdict.map (Report.addSteps a) ∧
      whole.session = second.session.withBudget (a + b) ∧
      whole.events.toList = first.events.toList ++ second.events.toList := by
  intro first second whole
  obtain ⟨hsteps, hfirst⟩ := course_of_exhausted h
  obtain ⟨-, -, hevents⟩ := hfirst.run_eq
  obtain ⟨ending, hsecond, hverdict, hevents'⟩ := (first.session.withBudget b).course_run
  -- Both courses are taken over to the budget of the whole run.
  have hcourse : Course (s.withBudget (a + b)) (a + b)
      ((s.withBudget a).calls ++ (first.session.withBudget b).calls) ending
      (second.session.withBudget (a + b)) :=
    (hfirst.withBudget (a + b)).append rfl (hsecond.withBudget (a + b))
  obtain ⟨hwhole, hsession, hall⟩ := Course.run_eq (s := s.withBudget (a + b)) hcourse
  refine ⟨hsteps, ?_, hsession, ?_⟩
  · have hcompleted : (s.withBudget a).calls.countP Step.succeeds = a :=
      hfirst.completed_of_exhausted rfl
    rw [hwhole, List.countP_append, hcompleted, hverdict]
    cases ending <;> rfl
  · rw [hall, List.flatMap_append, ← hevents, ← hevents']

theorem maxSteps_again (s : Session) (n : Nat) :
    (s.again n).settings.maxSteps = s.settings.maxSteps := by
  induction n with
  | zero => rfl
  | succ n ih =>
    obtain ⟨_, hcourse, -⟩ := (s.again n).course_run
    rw [again, hcourse.settings_eq, ih]

/-- Runs for which the budget was not enough, and the run that follows them, are one run with all
their budgets. -/
theorem run_mul {s : Session} {n : Nat}
    (h : ∀ i < n, ∃ steps, (s.again i).run.verdict = .ok ⟨.budgetExhausted, steps⟩) :
    let last := (s.again n).run
    let whole := (s.withBudget ((n + 1) * s.settings.maxSteps)).run
    whole.verdict = last.verdict.map (Report.addSteps (n * s.settings.maxSteps)) ∧
      whole.session = last.session.withBudget ((n + 1) * s.settings.maxSteps) ∧
      whole.events.toList
        = (List.range (n + 1)).flatMap fun i => (s.again i).run.events.toList := by
  induction n with
  | zero =>
    intro last whole
    have hself : s.withBudget ((0 + 1) * s.settings.maxSteps) = s :=
      withBudget_maxSteps (by rw [Nat.zero_add, Nat.one_mul])
    obtain ⟨_, hcourse, -⟩ := s.course_run
    refine ⟨?_, ?_, ?_⟩
    · have hnone : Report.addSteps (0 * s.settings.maxSteps) = id :=
        funext fun r => by simp [Report.addSteps]
      rw [hnone, Except.map_id]
      exact congrArg (·.run.verdict) hself
    · rw [withBudget_maxSteps (s := last.session)]
      · exact congrArg (·.run.session) hself
      · exact (congrArg Settings.maxSteps hcourse.settings_eq).trans (by simp)
    · rw [Nat.zero_add, List.range_one, List.flatMap_singleton]
      exact congrArg (·.run.events.toList) hself
  | succ n ih =>
    intro last whole
    obtain ⟨hverdict, hsession, hevents⟩ := ih fun i hi => h i (Nat.lt_succ_of_lt hi)
    -- The runs so far are one run, for which the budget was not enough either.
    obtain ⟨steps, hsteps⟩ := h n (Nat.lt_succ_self n)
    rw [hsteps] at hverdict
    obtain ⟨-, hwhole, hafter, hall⟩ := run_add hverdict s.settings.maxSteps
    have hnext : (s.withBudget ((n + 1) * s.settings.maxSteps)).run.session.withBudget
        s.settings.maxSteps = s.again (n + 1) := by
      rw [hsession, withBudget_withBudget]
      exact withBudget_maxSteps (s.maxSteps_again (n + 1))
    rw [hnext] at hwhole hafter hall
    have hsum : (n + 1) * s.settings.maxSteps + s.settings.maxSteps
        = (n + 1 + 1) * s.settings.maxSteps := (Nat.succ_mul ..).symm
    rw [hsum] at hwhole hafter hall
    refine ⟨hwhole, hafter, ?_⟩
    rw [hall, hevents, List.range_succ (n := n + 1), List.flatMap_append]
    simp

/-- **Runs in slices.** If the budget of a run was not enough, then the run that follows it ends as
one run with both budgets would have ended: with the same outcome or fault, the same machine and
the same remembered stop, and it reports fewer steps by the first budget. So several runs with one
budget, each of which follows one for which it was not enough, are one run with the product of the
budgets. -/
theorem run_in_slices (s : Session) :
    (∀ a b steps, (s.withBudget a).run.verdict = .ok ⟨.budgetExhausted, steps⟩ →
      let first := (s.withBudget a).run
      let second := (first.session.withBudget b).run
      let whole := (s.withBudget (a + b)).run
      steps = a ∧ whole.verdict = second.verdict.map (Report.addSteps a) ∧
        whole.session.machine = second.session.machine ∧
        whole.session.lastStop? = second.session.lastStop? ∧
        whole.session.breakpoints = second.session.breakpoints ∧
        whole.events.toList = first.events.toList ++ second.events.toList) ∧
    ∀ m n, (∀ i < n, ∃ steps,
        ((s.withBudget m).again i).run.verdict = .ok ⟨.budgetExhausted, steps⟩) →
      let last := ((s.withBudget m).again n).run
      let whole := (s.withBudget ((n + 1) * m)).run
      (∀ i < n, ((s.withBudget m).again i).run.verdict = .ok ⟨.budgetExhausted, m⟩) ∧
        whole.verdict = last.verdict.map (Report.addSteps (n * m)) ∧
        whole.session.machine = last.session.machine ∧
        whole.session.lastStop? = last.session.lastStop? ∧
        whole.session.breakpoints = last.session.breakpoints ∧
        whole.events.toList = (List.range (n + 1)).flatMap fun i =>
          ((s.withBudget m).again i).run.events.toList := by
  constructor
  · intro a b steps h first second whole
    obtain ⟨hsteps, hverdict, hsession, hevents⟩ := run_add h b
    obtain ⟨hmachine, hlast, hbreakpoints⟩ := eq_of_eq_withBudget hsession
    exact ⟨hsteps, hverdict, hmachine, hlast, hbreakpoints, hevents⟩
  · intro m n h last whole
    obtain ⟨hverdict, hsession, hevents⟩ := run_mul h
    obtain ⟨hmachine, hlast, hbreakpoints⟩ := eq_of_eq_withBudget hsession
    refine ⟨fun i hi => ?_, hverdict, hmachine, hlast, hbreakpoints, hevents⟩
    obtain ⟨steps, hsteps⟩ := h i hi
    have hm : steps = m :=
      (course_of_exhausted hsteps).1.trans ((s.withBudget m).maxSteps_again i)
    rw [hsteps, hm]

/-- A session of a program of two instructions, the second of which has a breakpoint. -/
def cutSession : Session := (fresh countOnce { maxSteps := 1 }).addBreakpoint 0x202

/-- Behind the first instruction it must stop. -/
theorem goOn_cutSession :
    cutSession.goOn.machine.halted = false ∧ cutSession.goOn.machine.pc = 0x202 ∧
      cutSession.goOn.mustStop = true := by
  obtain ⟨-, hrun, hpc, -⟩ := step_countOnce
  have hmachine : cutSession.goOn.machine = countOnce.step.machine := by
    have hstart : cutSession.machine = countOnce := rfl
    rw [machine_goOn, hstart]
  have hunstopped : cutSession.goOn.lastStop? = none := rfl
  rw [hmachine]
  refine ⟨hrun, hpc, ?_⟩
  refine mustStop_eq_true_iff.mpr ⟨?_, by simp [hunstopped]⟩
  rw [hmachine, hpc]
  exact Std.ExtTreeSet.mem_insert_self

/-- A budget of one is not enough to find that out. -/
theorem run_cutSession :
    cutSession.run.verdict = .ok ⟨.budgetExhausted, 1⟩ ∧
      cutSession.run.session = cutSession.goOn := by
  obtain ⟨hrun, -, -⟩ := goOn_cutSession
  have hpass : cutSession.mustStop = false := by
    simp [cutSession, mustStop, addBreakpoint, fresh, pc_countOnce]
  have hcourse : cutSession.Course 1 [cutSession.machine.step] (.ok .budgetExhausted)
      cutSession.goOn := .continued rfl hpass step_countOnce.1 (.exhausted hrun)
  obtain ⟨hverdict, hsession, -⟩ := hcourse.run_eq
  rw [hcourse.completed_of_exhausted rfl] at hverdict
  exact ⟨hverdict, hsession⟩

/-- The cut falls in front of a breakpoint: the second run stops there at once, and one run with
both budgets stops there as well. -/
theorem run_in_slices_cutSession :
    cutSession.run.verdict = .ok ⟨.budgetExhausted, 1⟩ ∧
      (cutSession.goOn.withBudget 1).run.verdict = .ok ⟨.breakpoint 0x202, 0⟩ ∧
      (cutSession.withBudget 2).run.verdict = .ok ⟨.breakpoint 0x202, 1⟩ := by
  obtain ⟨hfirst, hsession⟩ := run_cutSession
  obtain ⟨hrun, hpc, hstop⟩ := goOn_cutSession
  have hstopped : cutSession.goOn.Course (0 + 1) _ _ _ := .stopped hrun hstop
  have hcourse := hstopped.withBudget 1
  have hsecond : (cutSession.goOn.withBudget 1).run.verdict = .ok ⟨.breakpoint 0x202, 0⟩ := by
    rw [hcourse.run_eq.1, hpc]
    rfl
  refine ⟨hfirst, hsecond, ?_⟩
  have hself : cutSession.withBudget 1 = cutSession := withBudget_maxSteps rfl
  obtain ⟨-, hwhole, -⟩ := (run_in_slices cutSession).1 1 1 1 (by rw [hself]; exact hfirst)
  rw [hself, hsession, hsecond] at hwhole
  exact hwhole

end Session

end ChipEight
