import ChipEight.Proofs.Session.Course

/-!
# Runs and stepping by hand

A host without a session can step a machine by itself, one step after the other, and look
before and after each step for a reason to stop. A run does just that: it comes to the first
reason that such a host would find, and to the machine that it would have then.

The reasons are tried in a fixed order. A halted machine comes first, also before a used-up
budget; a breakpoint comes last of what is looked at before a step, and the one at which the
session stopped last counts only from the second step on.

## Main definitions

- `Session.stop?`: the reason to stop at a certain step
- `Session.FirstStop`: the first step at which there is one

## Main statements

- `Session.run_eq_firstStop`: a run ends where the first reason to stop is met
-/

namespace ChipEight.Session

/-! ## Reasons to stop -/

/-- A reason to stop, and how many instructions are completed then. -/
structure Stop where
  ending : Except Fault Outcome
  completed : Nat

def Stop.later (stop : Stop) : Stop := { stop with completed := stop.completed + 1 }

/-- The reason to stop of a host that has stepped the machine `i` times and is willing to
step it `limit` times. What a step yields is known only after it. -/
def stop? (s : Session) (limit i : Nat) : Option Stop :=
  let m := s.machine.after i
  if m.halted then
    some ⟨.ok .halted, i⟩
  else if limit ≤ i then
    some ⟨.ok .budgetExhausted, i⟩
  else if m.pc ∈ s.breakpoints ∧ ¬(i = 0 ∧ s.lastStop? = some m.pc) then
    some ⟨.ok (.breakpoint m.pc), i⟩
  else
    match m.step.verdict with
    | .error fault => some ⟨.error fault, i⟩
    | .ok .halted => some ⟨.ok .halted, i + 1⟩
    | .ok .waiting => some ⟨.ok .waitingForKey, i + 1⟩
    | .ok .continued => none

/-- `stop` is the first reason to stop, and it is met after `i` steps. -/
structure FirstStop (s : Session) (limit i : Nat) (stop : Stop) : Prop where
  before : ∀ j < i, s.stop? limit j = none
  met : s.stop? limit i = some stop

theorem FirstStop.le {s : Session} {limit i j : Nat} {stop stop' : Stop}
    (h : s.FirstStop limit i stop) (h' : s.FirstStop limit j stop') : i ≤ j := by
  apply Nat.le_of_not_lt
  intro hlt
  have hnone : s.stop? limit j = none := h.before j hlt
  rw [h'.met] at hnone
  cases hnone

theorem FirstStop.unique {s : Session} {limit i j : Nat} {stop stop' : Stop}
    (h : s.FirstStop limit i stop) (h' : s.FirstStop limit j stop') : stop = stop' := by
  have hij : i = j := Nat.le_antisymm (h.le h') (h'.le h)
  subst hij
  exact Option.some.inj (h.met.symm.trans h'.met)

/-! ## One step further -/

/-- Before its first step a host watches for the same breakpoints as a run. -/
theorem stop?_zero (s : Session) (limit : Nat) :
    s.stop? (limit + 1) 0 =
      if s.machine.halted then
        some ⟨.ok .halted, 0⟩
      else if s.mustStop then
        some ⟨.ok (.breakpoint s.machine.pc), 0⟩
      else
        match s.machine.step.verdict with
        | .error fault => some ⟨.error fault, 0⟩
        | .ok .halted => some ⟨.ok .halted, 1⟩
        | .ok .waiting => some ⟨.ok .waitingForKey, 1⟩
        | .ok .continued => none := by
  simp [stop?, mustStop]

/-- A host that has made a first step goes on like one that starts behind it and remembers
no breakpoint. -/
theorem stop?_succ (s : Session) (limit i : Nat) :
    s.stop? (limit + 1) (i + 1) = (s.goOn.stop? limit i).map Stop.later := by
  have hafter : s.goOn.machine.after i = s.machine.after (i + 1) := s.machine.after_step i
  have hfirst : ¬(i = 0 ∧ s.goOn.lastStop? = some (s.machine.after (i + 1)).pc) := by simp [goOn]
  have hlater : ¬(i + 1 = 0 ∧ s.lastStop? = some (s.machine.after (i + 1)).pc) := by simp
  simp only [stop?, hafter, hfirst, hlater, Nat.add_le_add_iff_right,
    show s.goOn.breakpoints = s.breakpoints from rfl]
  cases (s.machine.after (i + 1)).halted with
  | true => rfl
  | false =>
    by_cases hlimit : limit ≤ i
    · simp [hlimit, Stop.later]
    · by_cases hmem : (s.machine.after (i + 1)).pc ∈ s.breakpoints
      · simp [hlimit, hmem, Stop.later]
      · simp only [hlimit, hmem, false_and, if_false, Bool.false_eq_true]
        cases (s.machine.after (i + 1)).step.verdict with
        | error fault => rfl
        | ok progress => cases progress <;> rfl

theorem firstStop_zero {s : Session} {limit : Nat} {stop : Stop}
    (h : s.stop? limit 0 = some stop) : s.FirstStop limit 0 stop where
  before j hj := by cases hj
  met := h

/-- A first step without a reason to stop puts off the reasons behind it. -/
theorem FirstStop.succ {s : Session} {limit i : Nat} {stop : Stop}
    (hfirst : s.stop? (limit + 1) 0 = none) (h : s.goOn.FirstStop limit i stop) :
    s.FirstStop (limit + 1) (i + 1) stop.later where
  before j hj := by
    cases j with
    | zero => exact hfirst
    | succ j => rw [stop?_succ, h.before j (Nat.lt_of_succ_lt_succ hj), Option.map_none]
  met := by rw [stop?_succ, h.met, Option.map_some]

/-! ## Runs -/

namespace Course

variable {s t : Session} {budget : Nat} {calls : List Step} {ending : Except Fault Outcome}

/-- A run ends at the first reason to stop. -/
theorem firstStop (h : Course s budget calls ending t) :
    ∃ i, s.FirstStop budget i ⟨ending, calls.countP Step.succeeds⟩ := by
  induction h with
  | halted hhalted => exact ⟨0, firstStop_zero (by simp [stop?, hhalted])⟩
  | exhausted hrun => exact ⟨0, firstStop_zero (by simp [stop?, hrun])⟩
  | stopped hrun hstop => exact ⟨0, firstStop_zero (by simp [stop?_zero, hrun, hstop])⟩
  | failed hrun hpass hstep =>
    exact ⟨0, firstStop_zero (by simp [stop?_zero, hrun, hpass, hstep, Step.succeeds])⟩
  | waiting hrun hpass hstep =>
    exact ⟨0, firstStop_zero (by simp [stop?_zero, hrun, hpass, hstep, Step.succeeds])⟩
  | selfJump hrun hpass hstep =>
    exact ⟨0, firstStop_zero (by simp [stop?_zero, hrun, hpass, hstep, Step.succeeds])⟩
  | @continued s t budget calls ending hrun hpass hstep _ ih =>
    obtain ⟨i, hi⟩ := ih
    have hfirst : s.stop? (budget + 1) 0 = none := by simp [stop?_zero, hrun, hpass, hstep]
    rw [List.countP_cons_of_pos (by simp [Step.succeeds, hstep])]
    exact ⟨i + 1, hi.succ hfirst⟩

theorem machine_eq (h : Course s budget calls ending t) :
    t.machine = s.machine.after calls.length := by
  induction h with
  | halted | exhausted | stopped | failed | waiting | selfJump => rfl
  | @continued s t budget calls ending _ _ _ _ ih =>
    rw [ih, List.length_cons, ← Machine.after_step]
    rfl

/-- It is also the machine of the completed steps, since a failing one changes nothing. -/
theorem machine_eq_completed (h : Course s budget calls ending t) :
    t.machine = s.machine.after (calls.countP Step.succeeds) := by
  induction h with
  | halted | exhausted | stopped => rfl
  | failed _ _ hstep =>
    rw [List.countP_cons_of_neg (by simp [Step.succeeds, hstep])]
    exact Machine.step_machine_of_error hstep
  | waiting _ _ hstep =>
    rw [List.countP_cons_of_pos (by simp [Step.succeeds, hstep])]
    rfl
  | selfJump _ _ hstep =>
    rw [List.countP_cons_of_pos (by simp [Step.succeeds, hstep])]
    rfl
  | @continued s t budget calls ending _ _ hstep _ ih =>
    rw [List.countP_cons_of_pos (by simp [Step.succeeds, hstep]), ih, ← Machine.after_step]
    rfl

theorem calls_eq (h : Course s budget calls ending t) :
    calls = (List.range calls.length).map fun i => (s.machine.after i).step := by
  induction h with
  | halted | exhausted | stopped | failed | waiting | selfJump => rfl
  | @continued s t budget calls ending _ _ _ _ ih =>
    rw [List.length_cons, List.range_succ_eq_map, List.map_cons, List.map_map]
    refine congrArg (s.machine.step :: ·) (ih.trans (List.map_congr_left fun i _ => ?_))
    exact congrArg Machine.step (s.machine.after_step i)

end Course

/-- Where a run stops, given the first reason to do so. -/
theorem FirstStop.run_eq {s : Session} {i : Nat} {stop : Stop}
    (h : s.FirstStop s.settings.maxSteps i stop) :
    s.run.verdict = stop.ending.map (⟨·, stop.completed⟩) ∧ s.completed = stop.completed ∧
      s.run.session =
        { s with
          machine := s.machine.after stop.completed
          lastStop? := (breakpoint? stop.ending).or (if s.progresses then none else s.lastStop?) } := by
  obtain ⟨ending, hcourse, hverdict, -⟩ := s.course_run
  obtain ⟨j, hfirst⟩ := hcourse.firstStop
  obtain rfl : ⟨ending, s.completed⟩ = stop := hfirst.unique h
  refine ⟨hverdict, rfl, ?_⟩
  have hmachine := hcourse.machine_eq_completed
  have hsettings := hcourse.settings_eq
  have hbreakpoints := hcourse.breakpoints_eq
  have hlast := hcourse.lastStop?_eq
  cases hsession : s.run.session
  rw [hsession] at hmachine hsettings hbreakpoints hlast
  subst hmachine hsettings hbreakpoints hlast
  rfl

/-- **Runs are stepping by hand**, up to the first reason to stop. The run ends as that reason
says, with the machine of the completed steps. -/
theorem run_eq_firstStop (s : Session) :
    ∃ i stop, s.FirstStop s.settings.maxSteps i stop ∧
      s.run.verdict = stop.ending.map (⟨·, stop.completed⟩) ∧
      s.run.session.machine = s.machine.after stop.completed ∧
      s.run.session.settings = s.settings ∧ s.run.session.breakpoints = s.breakpoints ∧
      s.run.session.lastStop? =
        (breakpoint? stop.ending).or (if s.progresses then none else s.lastStop?) ∧
      -- No more steps than allowed are made, and a report counts them.
      s.calls = (List.range s.calls.length).map (fun j => (s.machine.after j).step) ∧
      s.calls.length = attempts stop.completed stop.ending ∧
      s.run.events.toList = s.calls.flatMap Step.events ∧
      s.run.session.machine = s.machine.after s.calls.length ∧
      s.calls.length ≤ s.settings.maxSteps ∧
      ∀ report, s.run.verdict = .ok report → report.steps = s.calls.length := by
  obtain ⟨ending, hcourse, hverdict, hevents⟩ := s.course_run
  obtain ⟨i, hfirst⟩ := hcourse.firstStop
  refine ⟨i, ⟨ending, s.completed⟩, hfirst, hverdict, hcourse.machine_eq_completed,
    hcourse.settings_eq, hcourse.breakpoints_eq, hcourse.lastStop?_eq, hcourse.calls_eq,
    hcourse.length_eq, hevents, hcourse.machine_eq, hcourse.length_le, ?_⟩
  intro report hreport
  rw [hverdict] at hreport
  cases ending with
  | error fault => cases hreport
  | ok outcome =>
    cases hreport
    exact hcourse.length_eq.symm

end ChipEight.Session
