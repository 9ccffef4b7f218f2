import ChipEight.Proofs.Machine.Footprint
import ChipEight.Proofs.Session.Hosting

/-!
# Sessions that correspond

Two machines may differ and yet behave alike, to a program, to a host, or to both. To see that they
do, a relation between machines is given that every single deed keeps, while the host is told the
same. From single deeds it carries over to runs and to all that a host may do in a session, since a
run only looks at the program counter and the halted flag on its own.

The deeds at issue are only those that are done to the first machine. So it is enough that the
relation is kept where the first machine comes along.

## Main definitions

- `Session.on`: the same session with another machine
- `Machine.Deed.Match`: a deed tells the same on another machine and keeps a relation
- `Session.Answer`, `Session.answers`: what a host is told in a session

## Main statements

- `Session.Course.correspond`, `Session.run_correspond`: runs of related machines
- `Session.moves_correspond`: sessions of related machines
-/

namespace ChipEight

/-- What a step tells. -/
def Step.told (s : Step) : Except Fault Progress × List Event := (s.verdict, s.events)

theorem Step.Match.told_eq {R : Machine → Machine → Prop} {s t : Step} (h : s.Match R t) :
    t.told = s.told := by
  rw [Step.told, Step.told, h.verdict, h.events]

theorem Step.of_told_eq {steps steps' : List Step} (h : steps'.map told = steps.map told) :
    steps'.countP succeeds = steps.countP succeeds ∧
      steps'.flatMap events = steps.flatMap events := by
  have hcount (list : List Step) : list.countP succeeds = (list.map told).countP (·.1.toBool) := by
    rw [List.countP_map]
    refine List.countP_congr fun s _ => ?_
    unfold succeeds
    cases hverdict : s.verdict <;> simp [told, hverdict, Except.toBool]
  have hevents (list : List Step) : list.flatMap events = (list.map told).flatMap (·.2) := by
    rw [List.flatMap_map]
    rfl
  rw [hcount, hcount, hevents, hevents, h]
  exact ⟨rfl, rfl⟩

/-- A deed tells the same when it is done to another machine, and leaves related machines. -/
structure Machine.Deed.Match (R : Machine → Machine → Prop) (d : Deed) (n : Machine) : Prop where
  answer : n.answer d.action = d.before.answer d.action
  machine : R d.after (n.act d.action)

theorem Step.Match.deed {R : Machine → Machine → Prop} {m n : Machine}
    (h : Step.Match R m.step n.step) : Machine.Deed.Match R ⟨m, .step⟩ n where
  answer := by simp only [Machine.answer, h.verdict, h.events]
  machine := h.machine

theorem Machine.Deed.Match.step {R : Machine → Machine → Prop} {m n : Machine}
    (h : Machine.Deed.Match R ⟨m, .step⟩ n) : Step.Match R m.step n.step := by
  obtain ⟨hverdict, hevents⟩ := Machine.Answer.stepped.inj h.answer
  exact ⟨hverdict.symm, hevents.symm, h.machine⟩

namespace Session

/-! ## Another machine -/

/-- The same session with another machine in it. -/
def on (s : Session) (n : Machine) : Session := { s with machine := n }

theorem mustStop_on {s : Session} {n : Machine} (h : s.machine.pc = n.pc) :
    (s.on n).mustStop = s.mustStop := by
  simp only [mustStop, on, h]

/-! ## Runs -/

section Runs

variable {R : Machine → Machine → Prop}
  (hlook : ∀ {m n : Machine}, R m n → m.pc = n.pc ∧ m.halted = n.halted)
include hlook

theorem goes_on {s : Session} {n : Machine} (hn : R s.machine n) (hrun : s.machine.halted = false)
    (hpass : s.mustStop = false) :
    (s.on n).machine.halted = false ∧ (s.on n).mustStop = false := by
  obtain ⟨hpc, hhalted⟩ := hlook hn
  exact ⟨hhalted.symm.trans hrun, (mustStop_on hpc).trans hpass⟩

/-- Related machines take runs that correspond, if their steps do. -/
theorem Course.correspond {s t : Session} {budget : Nat} {calls : List Step}
    {ending : Except Fault Outcome} (h : Course s budget calls ending t)
    (hstep : ∀ j < calls.length, ∀ n, R (s.machine.after j) n →
      Step.Match R (s.machine.after j).step n.step)
    {n : Machine} (hn : R s.machine n) :
    ∃ calls' n', Course (s.on n) budget calls' ending (t.on n') ∧
      calls'.map Step.told = calls.map Step.told ∧ R t.machine n' := by
  -- In each case the session on the other machine goes the same way, since it finds the same.
  induction h generalizing n with
  | halted hhalted =>
    rw [(hlook hn).2] at hhalted
    exact ⟨[], n, .halted hhalted, rfl, hn⟩
  | exhausted hrun =>
    rw [(hlook hn).2] at hrun
    exact ⟨[], n, .exhausted hrun, rfl, hn⟩
  | @stopped s _ hrun hstop =>
    obtain ⟨hpc, hhalted⟩ := hlook hn
    rw [hhalted] at hrun
    rw [← mustStop_on hpc] at hstop
    refine ⟨[], n, ?_, rfl, hn⟩
    rw [hpc]
    exact .stopped (s := s.on n) hrun hstop
  | @failed s _ _ hrun hpass hverdict =>
    have hmatch : Step.Match R s.machine.step n.step := hstep 0 Nat.one_pos n hn
    obtain ⟨hrun', hpass'⟩ := goes_on hlook hn hrun hpass
    exact ⟨[n.step], n.step.machine,
      .failed (s := s.on n) hrun' hpass' (hmatch.verdict.symm.trans hverdict),
      congrArg (fun told => [told]) hmatch.told_eq, hmatch.machine⟩
  | @waiting s _ hrun hpass hverdict =>
    have hmatch : Step.Match R s.machine.step n.step := hstep 0 Nat.one_pos n hn
    obtain ⟨hrun', hpass'⟩ := goes_on hlook hn hrun hpass
    exact ⟨[n.step], n.step.machine,
      .waiting (s := s.on n) hrun' hpass' (hmatch.verdict.symm.trans hverdict),
      congrArg (fun told => [told]) hmatch.told_eq, hmatch.machine⟩
  | @selfJump s _ hrun hpass hverdict =>
    have hmatch : Step.Match R s.machine.step n.step := hstep 0 Nat.one_pos n hn
    obtain ⟨hrun', hpass'⟩ := goes_on hlook hn hrun hpass
    exact ⟨[n.step], n.step.machine,
      .selfJump (s := s.on n) hrun' hpass' (hmatch.verdict.symm.trans hverdict),
      congrArg (fun told => [told]) hmatch.told_eq, hmatch.machine⟩
  | @continued s t _ calls _ hrun hpass hverdict _ ih =>
    have hmatch : Step.Match R s.machine.step n.step := hstep 0 (Nat.zero_lt_succ _) n hn
    obtain ⟨hrun', hpass'⟩ := goes_on hlook hn hrun hpass
    have hlater : ∀ j < calls.length, ∀ k, R (s.goOn.machine.after j) k →
        Step.Match R (s.goOn.machine.after j).step k.step := by
      intro j hj
      have hnext : s.goOn.machine.after j = s.machine.after (j + 1) := s.machine.after_step j
      rw [hnext]
      exact hstep (j + 1) (Nat.succ_lt_succ hj)
    obtain ⟨calls', n', hrest, htold, hn'⟩ := ih hlater hmatch.machine
    refine ⟨n.step :: calls', n',
      .continued (s := s.on n) hrun' hpass' (hmatch.verdict.symm.trans hverdict) hrest, ?_, hn'⟩
    rw [List.map_cons, List.map_cons, htold, hmatch.told_eq]

/-- What a run yields is read off what its steps tell. -/
theorem run_correspond {s : Session} {n : Machine}
    (hstep : ∀ j < s.calls.length, ∀ n, R (s.machine.after j) n →
      Step.Match R (s.machine.after j).step n.step)
    (hn : R s.machine n) :
    (s.on n).run.verdict = s.run.verdict ∧ (s.on n).run.events = s.run.events ∧
      ∃ n', (s.on n).run.session = s.run.session.on n' ∧ R s.run.session.machine n' := by
  obtain ⟨ending, hcourse, hverdict, hevents⟩ := s.course_run
  obtain ⟨calls', n', hcourse', htold, hn'⟩ := hcourse.correspond hlook hstep hn
  obtain ⟨hverdict', hsession', hevents'⟩ := hcourse'.run_eq
  obtain ⟨hcount, hreported⟩ := Step.of_told_eq htold
  rw [hverdict', hverdict, hcount]
  refine ⟨rfl, Array.toList_inj.mp ?_, n', hsession', hn'⟩
  rw [hevents', hevents, hreported]

end Runs

/-! ## Moves -/

/-- What a host is told by a move. -/
inductive Answer where
  | ran (verdict : Except Fault Report) (events : Array Event)
  | machine (answer : Machine.Answer)
  | done

def answer (s : Session) : Move → Answer
  | .act .run => .ran s.run.verdict s.run.events
  | .act (.machine action) => .machine (s.machine.answer action)
  | _ => .done

/-- What a host is told by several moves, the first of the list first. -/
def answers (s : Session) : (list : List Move) → List Answer
  | [] => []
  | v :: list => s.answer v :: (s.move v).answers list

theorem answers_cons (s : Session) (v : Move) (list : List Move) :
    s.answers (v :: list) = s.answer v :: (s.move v).answers list := rfl

section Moves

variable {R : Machine → Machine → Prop}
  (hlook : ∀ {m n : Machine}, R m n → m.pc = n.pc ∧ m.halted = n.halted)
include hlook

theorem move_correspond {s : Session} {v : Move}
    (hdeed : ∀ d ∈ s.deeds v, ∀ n, R d.before n → d.Match R n) {n : Machine}
    (hn : R s.machine n) :
    (s.on n).answer v = s.answer v ∧
      ∃ n', (s.on n).move v = (s.move v).on n' ∧ R (s.move v).machine n' := by
  cases v with
  | renew maxSteps => exact ⟨rfl, n, rfl, hn⟩
  | act action =>
    cases action with
    | addBreakpoint address => exact ⟨rfl, n, rfl, hn⟩
    | removeBreakpoint address => exact ⟨rfl, n, rfl, hn⟩
    | clearBreakpoints => exact ⟨rfl, n, rfl, hn⟩
    | machine action =>
      have hmatch := hdeed _ List.mem_cons_self n hn
      exact ⟨congrArg Answer.machine hmatch.answer, n.act action, rfl, hmatch.machine⟩
    | run =>
      obtain ⟨hverdict, hevents, hsession⟩ := run_correspond hlook
        (fun j hj k hk => (hdeed _ (Machine.mem_steps hj) k hk).step) hn
      exact ⟨by simp only [answer, hverdict, hevents], hsession⟩

/-- Sessions of related machines tell a host the same, whatever it does, and keep related machines
and all else the same, as long as single deeds do. -/
theorem moves_correspond {s : Session} {list : List Move}
    (hdeed : ∀ d ∈ s.deedsOf list, ∀ n, R d.before n → d.Match R n) {n : Machine}
    (hn : R s.machine n) :
    (s.on n).answers list = s.answers list ∧
      ∃ n', (s.on n).moves list = (s.moves list).on n' ∧ R (s.moves list).machine n' := by
  induction list generalizing s n with
  | nil => exact ⟨rfl, n, rfl, hn⟩
  | cons v list ih =>
    obtain ⟨hanswer, n', hmove, hn'⟩ := move_correspond hlook
      (fun d hd => hdeed d (List.mem_append_right _ hd)) hn
    obtain ⟨hanswers, hmoves⟩ := ih (fun d hd => hdeed d (List.mem_append_left _ hd)) hn'
    rw [answers_cons, answers_cons, moves_cons, moves_cons, hanswer, hmove, hanswers]
    exact ⟨rfl, hmoves⟩

end Moves

end Session

end ChipEight
