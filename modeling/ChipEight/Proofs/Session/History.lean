import ChipEight.Proofs.Session.FirstStop

/-!
# The remembered stop

A session remembers one address: the breakpoint at which it stopped last, until it goes on from
there. A host cannot see it. This module says what it is in terms of what the host has done and
seen: it is the breakpoint that was reported last, if no run has left its place since then.

Between the runs a host may do as it likes. It can set breakpoints and take them back, press
keys, load another program and step the machine by itself; none of this is remembered. Nor do
the runs count that got no further, be it for want of a key or of budget, or because of a fault.

## Main definitions

- `Session.Action`, `Session.acts`: what a host does with a session
- `Session.runsOf`: the runs among it
- `Session.Remembered`: what these runs leave to remember
- `Session.Attempts`: that a run attempts the instruction in front of it

## Main statements

- `Session.lastStop?_acts_iff`: a session remembers just that
- `Session.run_at_breakpoint`: how a run goes that starts at a breakpoint
-/

namespace ChipEight.Session

/-! ## Actions -/

/-- What a host can do with a session and with the machine in it. -/
inductive Action where
  | run
  | addBreakpoint (address : Word)
  | removeBreakpoint (address : Word)
  | clearBreakpoints
  | machine (action : Machine.Action)
  deriving DecidableEq

/-- The session after an action. -/
def act (s : Session) : Action → Session
  | .run => s.run.session
  | .addBreakpoint address => s.addBreakpoint address
  | .removeBreakpoint address => s.removeBreakpoint address
  | .clearBreakpoints => s.clearBreakpoints
  | .machine action => { s with machine := s.machine.act action }

/-- The session after several actions, the first of the list first. -/
def acts (s : Session) (actions : List Action) : Session := actions.foldl act s

/-- The runs among several actions, each given by the session that is run. -/
def runsOf (s : Session) : (actions : List Action) → List Session
  | [] => []
  | .run :: actions => s :: s.run.session.runsOf actions
  | a :: actions => (s.act a).runsOf actions

theorem runsOf_append (s : Session) (history more : List Action) :
    s.runsOf (history ++ more) = s.runsOf history ++ (s.acts history).runsOf more := by
  induction history generalizing s with
  | nil => rfl
  | cons a history ih =>
    cases a with
    | run => exact congrArg (s :: ·) (ih s.run.session)
    | _ => exact ih _

theorem settings_acts (s : Session) (actions : List Action) :
    (s.acts actions).settings = s.settings := by
  induction actions generalizing s with
  | nil => rfl
  | cons a actions ih =>
    have hact : (s.act a).settings = s.settings := by
      cases a with
      | run =>
        obtain ⟨_, hcourse, -⟩ := s.course_run
        exact hcourse.settings_eq
      | _ => rfl
    exact (ih (s.act a)).trans hact

/-! ## What runs leave to remember -/

def reported? (s : Session) : Option Word := breakpoint? (s.run.verdict.map Report.outcome)

/-- A run that neither reports a breakpoint nor leaves its place. -/
def Quiet (s : Session) : Prop := s.reported? = none ∧ s.progresses = false

/-- The breakpoint that was reported last is `address`, and every run since then was quiet. -/
def Remembered (address : Word) (runs : List Session) : Prop :=
  ∃ earlier s later, runs = earlier ++ s :: later ∧ s.reported? = some address ∧
    ∀ t ∈ later, t.Quiet

theorem not_remembered_nil (address : Word) : ¬Remembered address [] := by
  rintro ⟨earlier, s, later, hruns, -⟩
  cases earlier <;> cases hruns

/-- The first of several runs is remembered only if all others are quiet. -/
theorem remembered_cons_iff {address : Word} {s : Session} {runs : List Session} :
    Remembered address (s :: runs) ↔
      Remembered address runs ∨ s.reported? = some address ∧ ∀ t ∈ runs, t.Quiet := by
  constructor
  · rintro ⟨earlier, t, later, hruns, hreported, hlater⟩
    cases earlier with
    | nil =>
      obtain ⟨rfl, rfl⟩ := List.cons.inj hruns
      exact .inr ⟨hreported, hlater⟩
    | cons u earlier =>
      obtain ⟨-, rfl⟩ := List.cons.inj hruns
      exact .inl ⟨earlier, t, later, rfl, hreported, hlater⟩
  · rintro (⟨earlier, t, later, rfl, hreported, hlater⟩ | ⟨hreported, hruns⟩)
    · exact ⟨s :: earlier, t, later, rfl, hreported, hlater⟩
    · exact ⟨[], s, runs, rfl, hreported, hruns⟩

/-- Quiet runs do not change what is remembered. -/
theorem remembered_append_iff {address : Word} {runs more : List Session}
    (hquiet : ∀ t ∈ more, t.Quiet) :
    Remembered address (runs ++ more) ↔ Remembered address runs := by
  induction runs with
  | nil =>
    refine ⟨?_, fun h => absurd h (not_remembered_nil address)⟩
    rintro ⟨earlier, s, later, rfl, hreported, -⟩
    have hnone : s.reported? = none :=
      (hquiet s (List.mem_append_right earlier List.mem_cons_self)).1
    rw [hnone] at hreported
    cases hreported
  | cons s runs ih =>
    have hall : (∀ t ∈ runs ++ more, t.Quiet) ↔ ∀ t ∈ runs, t.Quiet :=
      ⟨fun h t ht => h t (List.mem_append_left more ht), fun h t ht =>
        (List.mem_append.mp ht).elim (h t) (hquiet t)⟩
    rw [List.cons_append, remembered_cons_iff, remembered_cons_iff, ih, hall]

/-! ## What a session remembers -/

/-- A run remembers the breakpoint that it reports, and a quiet one what was remembered. -/
theorem lastStop?_run_iff (s : Session) (address : Word) :
    s.run.session.lastStop? = some address ↔
      s.reported? = some address ∨ s.Quiet ∧ s.lastStop? = some address := by
  obtain ⟨ending, hcourse, hverdict, -⟩ := s.course_run
  have hreported : s.reported? = breakpoint? ending := by
    rw [reported?, hverdict]
    cases ending <;> rfl
  rw [Quiet, hreported, hcourse.lastStop?_eq]
  change (breakpoint? ending).or (if s.progresses then none else s.lastStop?) = some address ↔ _
  cases breakpoint? ending with
  | some found => simp
  | none => cases s.progresses <;> simp

/-- After any history a session remembers what its runs leave to remember. If all of them are
quiet it still remembers what it did before. -/
theorem lastStop?_acts_iff (s : Session) (actions : List Action) (address : Word) :
    (s.acts actions).lastStop? = some address ↔
      Remembered address (s.runsOf actions) ∨
        (∀ t ∈ s.runsOf actions, t.Quiet) ∧ s.lastStop? = some address := by
  induction actions generalizing s with
  | nil => simp [acts, runsOf, not_remembered_nil]
  | cons a actions ih =>
    cases a with
    | run =>
      have hrest := ih s.run.session
      rw [lastStop?_run_iff] at hrest
      change (s.run.session.acts actions).lastStop? = some address ↔
        Remembered address (s :: s.run.session.runsOf actions) ∨
          (∀ t ∈ s :: s.run.session.runsOf actions, t.Quiet) ∧ s.lastStop? = some address
      rw [hrest, remembered_cons_iff, List.forall_mem_cons, or_assoc]
      refine or_congr_right ?_
      constructor
      · rintro ⟨hquiet, hreported | ⟨hs, hlast⟩⟩
        · exact .inl ⟨hreported, hquiet⟩
        · exact .inr ⟨⟨hs, hquiet⟩, hlast⟩
      · rintro (⟨hreported, hquiet⟩ | ⟨⟨hs, hquiet⟩, hlast⟩)
        · exact ⟨hquiet, .inl hreported⟩
        · exact ⟨hquiet, .inr ⟨hs, hlast⟩⟩
    -- Nothing else touches what is remembered.
    | addBreakpoint b => exact ih (s.addBreakpoint b)
    | removeBreakpoint b => exact ih (s.removeBreakpoint b)
    | clearBreakpoints => exact ih s.clearBreakpoints
    | machine action => exact ih { s with machine := s.machine.act action }

/-! ## Runs that start at a breakpoint -/

theorem mustStop_eq_true_iff {s : Session} :
    s.mustStop = true ↔
      s.machine.pc ∈ s.breakpoints ∧ s.lastStop? ≠ some s.machine.pc := by
  simp [mustStop]

theorem run_of_mustStop {s : Session} (hrun : s.machine.halted = false)
    (hbudget : 1 ≤ s.settings.maxSteps) (hstop : s.mustStop = true) :
    s.run = ⟨.ok ⟨.breakpoint s.machine.pc, 0⟩, { s with lastStop? := some s.machine.pc }, #[]⟩ := by
  obtain ⟨budget, hmax⟩ := Nat.exists_eq_add_of_le' hbudget
  simp [run, hmax, runFor, hrun, hstop]

/-- The run attempts the instruction in front of it, and reports what this does before all else. If
the instruction fails, so does the run, and the machine stays as it is. If it succeeds, the run goes
on from there, and leaves the machine behind one or more instructions. -/
structure Attempts (s : Session) : Prop where
  first : s.calls.head? = some s.machine.step
  events : s.machine.step.events <+: s.run.events.toList
  failed : ∀ fault, s.machine.step.verdict = .error fault →
    s.run.verdict = .error fault ∧ s.run.session.machine = s.machine
  succeeded : ∀ progress, s.machine.step.verdict = .ok progress →
    ∃ n, 1 ≤ n ∧ s.run.session.machine = s.machine.after n ∧
      ∀ report, s.run.verdict = .ok report → report.steps = n

/-- A run that need not stop attempts the next instruction. -/
theorem attempts_of_not_mustStop {s : Session} (hrun : s.machine.halted = false)
    (hbudget : 1 ≤ s.settings.maxSteps) (hpass : s.mustStop = false) : s.Attempts := by
  obtain ⟨budget, hmax⟩ := Nat.exists_eq_add_of_le' hbudget
  have hhead : s.calls.head? = some s.machine.step := by
    simp only [calls, hmax, callsFor, hrun, hpass, Bool.or_self, Bool.false_eq_true, if_false]
    split <;> rfl
  obtain ⟨rest, hcalls⟩ := List.head?_eq_some_iff.mp hhead
  obtain ⟨ending, hcourse, hverdict, hevents⟩ := s.course_run
  refine ⟨hhead, ?_, fun fault hfault => ?_, fun progress hprogress => ?_⟩
  · rw [hevents, hcalls, List.flatMap_cons]
    exact List.prefix_append _ _
  · -- The failing step is the whole course of the run.
    have hfailed : s.Course s.settings.maxSteps [s.machine.step] (.error fault)
        { s with machine := s.machine.step.machine } := hmax ▸ .failed hrun hpass hfault
    obtain ⟨hverdict, hsession, -⟩ := hfailed.run_eq
    exact ⟨hverdict, (congrArg machine hsession).trans (Machine.step_machine_of_error hfault)⟩
  · refine ⟨s.completed, ?_, hcourse.machine_eq_completed, fun report hreport => ?_⟩
    · rw [completed, hcalls, List.countP_cons_of_pos (by simp [Step.succeeds, hprogress])]
      exact Nat.le_add_left 1 _
    · rw [hverdict] at hreport
      cases ending with
      | error fault => cases hreport
      | ok outcome =>
        cases hreport
        rfl

/-- It reports at least this one. -/
theorem Attempts.one_le_steps {s : Session} (h : s.Attempts) {report : Report}
    (hreport : s.run.verdict = .ok report) : 1 ≤ report.steps := by
  cases hstep : s.machine.step.verdict with
  | error fault =>
    rw [(h.failed fault hstep).1] at hreport
    cases hreport
  | ok progress =>
    obtain ⟨n, hn, -, hsteps⟩ := h.succeeded progress hstep
    rw [hsteps report hreport]
    exact hn

/-- **Breakpoint memory over host histories.** A run that starts at a breakpoint stops there at
once, unless this breakpoint was reported last and all runs since then were quiet; in that case
it attempts the instruction there, and fails with it or comes further. Quiet runs, and whatever is
done between runs, do not change which case it is. -/
theorem run_at_breakpoint (m : Machine) (settings : Settings) (history : List Action)
    {s : Session} (hs : (fresh m settings).acts history = s) (hrun : s.machine.halted = false)
    (hbudget : 1 ≤ settings.maxSteps) (hmem : s.machine.pc ∈ s.breakpoints) :
    (¬Remembered s.machine.pc ((fresh m settings).runsOf history) →
      s.run =
        ⟨.ok ⟨.breakpoint s.machine.pc, 0⟩, { s with lastStop? := some s.machine.pc }, #[]⟩) ∧
    (Remembered s.machine.pc ((fresh m settings).runsOf history) →
      s.Attempts ∧ ∀ report, s.run.verdict = .ok report → 1 ≤ report.steps) ∧
    ∀ more address, (∀ t ∈ s.runsOf more, t.Quiet) →
      (Remembered address ((fresh m settings).runsOf (history ++ more)) ↔
        Remembered address ((fresh m settings).runsOf history)) := by
  have hmax : 1 ≤ s.settings.maxSteps := by
    rw [← hs, settings_acts]
    exact hbudget
  have hlast : s.lastStop? = some s.machine.pc ↔
      Remembered s.machine.pc ((fresh m settings).runsOf history) := by
    rw [← hs, lastStop?_acts_iff]
    simp [fresh]
  refine ⟨fun hforgotten => ?_, fun hremembered => ?_, fun more address hquiet => ?_⟩
  · have hstop : s.mustStop = true :=
      mustStop_eq_true_iff.mpr ⟨hmem, fun h => hforgotten (hlast.mp h)⟩
    exact run_of_mustStop hrun hmax hstop
  · have hpass : s.mustStop = false := by
      refine Bool.eq_false_iff.mpr fun hstop => ?_
      exact (mustStop_eq_true_iff.mp hstop).2 (hlast.mpr hremembered)
    have hattempts := attempts_of_not_mustStop hrun hmax hpass
    exact ⟨hattempts, fun _ => hattempts.one_le_steps⟩
  · rw [runsOf_append, hs]
    exact remembered_append_iff hquiet

/-- A session with a breakpoint in front of its first instruction, which fails. -/
def watchedReturn : Session :=
  (fresh Machine.strayReturn { maxSteps := 1 }).addBreakpoint Machine.strayReturn.pc

theorem run_watchedReturn :
    watchedReturn.run = ⟨.ok ⟨.breakpoint Machine.strayReturn.pc, 0⟩,
      { watchedReturn with lastStop? := some Machine.strayReturn.pc }, #[]⟩ := by
  have hstop : watchedReturn.mustStop = true :=
    mustStop_eq_true_iff.mpr ⟨Std.ExtTreeSet.mem_insert_self, nofun⟩
  exact run_of_mustStop rfl (Nat.le_refl 1) hstop

/-- The session stops in front of the instruction. Run again it attempts it and fails, although the
breakpoint was taken back and set anew. -/
theorem run_at_breakpoint_watchedReturn :
    ((fresh Machine.strayReturn { maxSteps := 1 }).acts
        [.addBreakpoint Machine.strayReturn.pc]).run.verdict
      = .ok ⟨.breakpoint Machine.strayReturn.pc, 0⟩ ∧
    ((fresh Machine.strayReturn { maxSteps := 1 }).acts
        [.addBreakpoint Machine.strayReturn.pc, .run, .removeBreakpoint Machine.strayReturn.pc,
          .addBreakpoint Machine.strayReturn.pc]).run.verdict
      = .error .stackUnderflow := by
  have hreported : watchedReturn.reported? = some Machine.strayReturn.pc := by
    rw [reported?, run_watchedReturn]
    rfl
  have hremembered : Remembered Machine.strayReturn.pc [watchedReturn] :=
    ⟨[], watchedReturn, [], rfl, hreported, nofun⟩
  constructor
  · have hstopped := (run_at_breakpoint Machine.strayReturn { maxSteps := 1 }
      [.addBreakpoint Machine.strayReturn.pc] rfl rfl (Nat.le_refl 1)
      Std.ExtTreeSet.mem_insert_self).1 (not_remembered_nil _)
    exact congrArg Run.verdict hstopped
  · -- The session that is run again has the machine that it had before.
    have hagain : (fresh Machine.strayReturn { maxSteps := 1 }).acts
        [.addBreakpoint Machine.strayReturn.pc, .run, .removeBreakpoint Machine.strayReturn.pc,
          .addBreakpoint Machine.strayReturn.pc] =
        (({ watchedReturn with lastStop? := some Machine.strayReturn.pc } : Session).removeBreakpoint
          Machine.strayReturn.pc).addBreakpoint Machine.strayReturn.pc := by
      change ((watchedReturn.run.session.removeBreakpoint _).addBreakpoint _) = _
      rw [run_watchedReturn]
    have hattempts := ((run_at_breakpoint Machine.strayReturn { maxSteps := 1 } _ hagain rfl
      (Nat.le_refl 1) Std.ExtTreeSet.mem_insert_self).2.1 hremembered).1
    rw [hagain]
    exact (hattempts.failed _ Machine.step_verdict_strayReturn).1

end ChipEight.Session
