import ChipEight.Proofs.Machine.KeyWait
import ChipEight.Proofs.Session.History
import ChipEight.Proofs.Session.Resumption

/-!
# Breakpoints at key waits

A key wait does not leave its place, so a run that is waiting for a key is at the same address
again with every step. A breakpoint there is still reported only once for each wait. It is
reported when the program arrives, and from then on the session remembers it until a key has been
pressed and released and the wait is over, however often it is run until then.

The host may press keys and change the breakpoints meanwhile. It may also set the breakpoint when
the wait has long begun, and then it is reported by the next run, since nothing is remembered of
this place yet. What decides is the memory of the last stop, and it is written once: a run that
reports the breakpoint sets it, all runs that get no further keep it.

## Main definitions

- `Session.GoesOn`: the run completes a step and goes on behind it
- `Session.Arrives`: the run comes to a place of which nothing is remembered
- `Session.Action.isHandling`: a host that makes runs, presses keys and changes breakpoints

## Main statements

- `Session.Arrives.run_at_wait`: the run that arrives at a wait
- `Session.run_at_wait`: a run that starts there
- `Session.timesReported_runsOf`: how often such runs report the breakpoint
- `Session.breakpoint_fires_once`: the whole course of a wait, from one arrival to the next
-/

namespace ChipEight

namespace Machine

variable {m : Machine} {x : Nibble}

/-- A step before a wait waits, or it completes the wait. -/
theorem Waits.step_cases (hm : m.Waits x) :
    m.step.verdict = .ok .waiting ∧
        m.step.machine = { m with pendingKey := m.step.machine.pendingKey } ∨
      m.step.verdict = .ok .continued := by
  obtain ⟨hverdict, hmachine⟩ := hm.step
  rw [hverdict, hmachine]
  cases hkey : m.pendingKey with
  | none =>
    rw [awaitKey_of_none x hkey]
    exact .inl ⟨rfl, rfl⟩
  | some key =>
    cases hdown : m.keypad.isDown key with
    | true =>
      rw [awaitKey_of_down x hkey hdown]
      exact .inl ⟨rfl, rfl⟩
    | false =>
      rw [awaitKey_of_up x hkey hdown]
      exact .inr rfl

end Machine

namespace Session

/-! ## Arrivals -/

/-- The run makes `k` steps, completes one more and goes on behind it. -/
def GoesOn (s : Session) (k : Nat) : Prop := ∃ step ∈ s.calls[k]?, step.verdict = .ok .continued

/-- With `k` steps the run comes to a place of which nothing is remembered: it completed a step
that led there, or it starts there, and this is not where the session stopped last. -/
structure Arrives (s : Session) (k : Nat) : Prop where
  goesOn : ∀ j < k, s.GoesOn j
  forgotten : k = 0 → s.lastStop? ≠ some s.machine.pc

/-- What a host does that makes runs, gives input and changes breakpoints. -/
def Action.isHandling : Action → Bool
  | .machine action => action.isInput
  | .run | .addBreakpoint _ | .removeBreakpoint _ | .clearBreakpoints => true

/-- A run with a reason to stop before or with its first step goes on behind no step. -/
theorem stopped_iff {s : Session} {budget : Nat} (hstop : s.stop? budget 0 ≠ none)
    {calls : List Step} (hcalls : ∀ step ∈ calls, step.verdict ≠ .ok .continued) (k : Nat) :
    (∃ step ∈ calls[k]?, step.verdict = .ok .continued) ↔ ∀ j ≤ k, s.stop? budget j = none := by
  constructor
  · rintro ⟨step, hstep, hverdict⟩
    exact absurd hverdict (hcalls step (List.mem_of_getElem? hstep))
  · intro hnone
    exact absurd (hnone 0 (Nat.zero_le k)) hstop

/-- A run goes on behind a step exactly if there is no reason to stop up to then. -/
theorem Course.goesOn_iff {s t : Session} {budget : Nat} {calls : List Step}
    {ending : Except Fault Outcome} (h : Course s budget calls ending t) (k : Nat) :
    (∃ step ∈ calls[k]?, step.verdict = .ok .continued) ↔ ∀ j ≤ k, s.stop? budget j = none := by
  -- A course that ends at once has a reason to stop at its start, and no call that goes on.
  induction h generalizing k with
  | halted hhalted => exact stopped_iff (by simp [stop?, hhalted]) (by simp) k
  | exhausted hrun => exact stopped_iff (by simp [stop?, hrun]) (by simp) k
  | stopped hrun hstop => exact stopped_iff (by simp [stop?_zero, hrun, hstop]) (by simp) k
  | failed hrun hpass hstep =>
    exact stopped_iff (by simp [stop?_zero, hrun, hpass, hstep]) (by simp [hstep]) k
  | waiting hrun hpass hstep =>
    exact stopped_iff (by simp [stop?_zero, hrun, hpass, hstep]) (by simp [hstep]) k
  | selfJump hrun hpass hstep =>
    exact stopped_iff (by simp [stop?_zero, hrun, hpass, hstep]) (by simp [hstep]) k
  | @continued s t budget calls ending hrun hpass hstep _ ih =>
    have hfirst : s.stop? (budget + 1) 0 = none := by simp [stop?_zero, hrun, hpass, hstep]
    -- Behind the first step the reasons are those of the remaining course, one step later.
    cases k with
    | zero => simp [hfirst, hstep]
    | succ k =>
      rw [List.getElem?_cons_succ, ih]
      constructor
      · rintro hnone (_ | j) hj
        · exact hfirst
        · rw [stop?_succ, hnone j (Nat.le_of_succ_le_succ hj), Option.map_none]
      · intro hnone j hj
        have hnext := hnone (j + 1) (Nat.succ_le_succ hj)
        rwa [stop?_succ, Option.map_eq_none_iff] at hnext

theorem goesOn_iff {s : Session} {k : Nat} :
    s.GoesOn k ↔ ∀ j ≤ k, s.stop? s.settings.maxSteps j = none := by
  obtain ⟨_, hcourse, -, -⟩ := s.course_run
  exact hcourse.goesOn_iff k

/-- A run goes on behind its first step if no breakpoint is in front of it and it leaves its
place. -/
theorem goesOn_zero_iff {s : Session} (hrun : s.machine.halted = false)
    (hbudget : 1 ≤ s.settings.maxSteps) :
    s.GoesOn 0 ↔ s.mustStop = false ∧ s.machine.step.verdict = .ok .continued := by
  obtain ⟨budget, hmax⟩ := Nat.exists_eq_add_of_le' hbudget
  rw [goesOn_iff, hmax]
  simp only [Nat.le_zero_eq, forall_eq, stop?_zero, hrun, Bool.false_eq_true, if_false]
  cases s.mustStop with
  | true => simp
  | false =>
    cases hstep : s.machine.step.verdict with
    | error fault => simp
    | ok progress => cases progress <;> simp

/-- Behind a step that was completed the run is at another place. -/
theorem GoesOn.progresses {s : Session} {k : Nat} (h : s.GoesOn k) : s.progresses = true := by
  obtain ⟨step, hstep, hverdict⟩ := h
  exact List.any_eq_true.mpr
    ⟨step, List.mem_of_getElem? hstep, by simp [Step.progresses, hverdict]⟩

namespace Arrives

variable {s : Session} {k : Nat}

theorem stop?_eq_none (h : s.Arrives k) : ∀ j < k, s.stop? s.settings.maxSteps j = none :=
  fun j hj => goesOn_iff.mp (h.goesOn j hj) j (Nat.le_refl j)

theorem le_maxSteps (h : s.Arrives k) : k ≤ s.settings.maxSteps := by
  cases k with
  | zero => exact Nat.zero_le _
  | succ k => exact (runs_of_stop?_eq_none (h.stop?_eq_none k (Nat.lt_succ_self k))).2

/-- A run that arrived somewhere by a step has forgotten where it stopped last. -/
theorem progresses (h : s.Arrives k) (hk : 0 < k) : s.progresses = true :=
  (h.goesOn 0 hk).progresses

/-- The run stops where it has arrived if there is a reason to. -/
theorem run_eq (h : s.Arrives k) {stop : Stop}
    (hstop : s.stop? s.settings.maxSteps k = some stop) :
    s.run.verdict = stop.ending.map (⟨·, stop.completed⟩) ∧
      s.run.session.machine = s.machine.after stop.completed := by
  obtain ⟨hverdict, -, hsession⟩ := FirstStop.run_eq ⟨h.stop?_eq_none, hstop⟩
  exact ⟨hverdict, congrArg machine hsession⟩

/-- With budget left, a run stops at a breakpoint where it arrives. -/
theorem run_reports (h : s.Arrives k) (hrun : (s.machine.after k).halted = false)
    (hbudget : k < s.settings.maxSteps) (hmem : (s.machine.after k).pc ∈ s.breakpoints) :
    s.run.verdict = .ok ⟨.breakpoint (s.machine.after k).pc, k⟩ ∧
      s.run.session.machine = s.machine.after k := by
  have hwatched : ¬(k = 0 ∧ s.lastStop? = some (s.machine.after k).pc) := by
    rintro ⟨rfl, hlast⟩
    exact h.forgotten rfl hlast
  have hstop : s.stop? s.settings.maxSteps k
      = some ⟨.ok (.breakpoint (s.machine.after k).pc), k⟩ := by
    simp [stop?, hrun, Nat.not_le.mpr hbudget, hmem, hwatched]
  exact h.run_eq hstop

/-- The place of arrival is remembered after the run only if the run reports it. -/
theorem lastStop?_run_iff (h : s.Arrives k) :
    s.run.session.lastStop? = some (s.machine.after k).pc ↔
      s.reported? = some (s.machine.after k).pc := by
  rw [Session.lastStop?_run_iff]
  -- What was remembered before outlasts the run only if the run completes no step.
  refine or_iff_left ?_
  rintro ⟨⟨-, hquiet⟩, hlast⟩
  cases k with
  | zero => exact h.forgotten rfl hlast
  | succ k =>
    rw [h.progresses (Nat.succ_pos k)] at hquiet
    cases hquiet

end Arrives

/-- After a run that completed a step, a session starts anew at a breakpoint that was not reported
since then. -/
theorem arrives_of_not_reported {u t : Session} (hu : u.GoesOn 0) {actions : List Action}
    (ht : u.run.session.acts actions = t)
    (hreported : ∀ r ∈ u :: u.run.session.runsOf actions, r.reported? ≠ some t.machine.pc) :
    t.Arrives 0 := by
  refine ⟨fun j hj => absurd hj (Nat.not_lt_zero j), fun _ hlast => ?_⟩
  obtain ⟨hfirst, hlater⟩ := List.forall_mem_cons.mp hreported
  rw [← ht, lastStop?_acts_iff, lastStop?_run_iff, ht] at hlast
  -- The place could be remembered from a later run, from the first one, or from before it.
  rcases hlast with ⟨earlier, r, later, hruns, hr, -⟩ | ⟨-, hr | ⟨⟨-, hquiet⟩, -⟩⟩
  · refine hlater r ?_ hr
    rw [hruns]
    exact List.mem_append_right earlier List.mem_cons_self
  · exact hfirst hr
  · rw [hu.progresses] at hquiet
    cases hquiet

/-! ## Runs at a wait -/

section Wait

variable {s t u : Session} {k : Nat} {x : Nibble} {actions : List Action}

/-- A run that arrives at a wait and does not complete it. -/
theorem Arrives.run_at_wait (h : s.Arrives k) (hwait : (s.machine.after k).Waits x)
    (hopen : ¬s.GoesOn k) :
    (k = s.settings.maxSteps ∧ s.run.verdict = .ok ⟨.budgetExhausted, k⟩ ∧
        s.run.session.machine = s.machine.after k) ∨
      (k < s.settings.maxSteps ∧ (s.machine.after k).pc ∈ s.breakpoints ∧
        s.run.verdict = .ok ⟨.breakpoint (s.machine.after k).pc, k⟩ ∧
        s.run.session.machine = s.machine.after k) ∨
      (k < s.settings.maxSteps ∧ (s.machine.after k).pc ∉ s.breakpoints ∧
        s.run.verdict = .ok ⟨.waitingForKey, k + 1⟩ ∧
        s.run.session.machine =
          { s.machine.after k with pendingKey := s.run.session.machine.pendingKey }) := by
  rcases Nat.eq_or_lt_of_le h.le_maxSteps with hmax | hlt
  · have hstop : s.stop? s.settings.maxSteps k = some ⟨.ok .budgetExhausted, k⟩ := by
      simp [stop?, hwait.running, ← hmax]
    exact .inl ⟨hmax, h.run_eq hstop⟩
  · by_cases hmem : (s.machine.after k).pc ∈ s.breakpoints
    · exact .inr (.inl ⟨hlt, hmem, h.run_reports hwait.running hlt hmem⟩)
    · rcases hwait.step_cases with ⟨hstep, hmachine⟩ | hstep
      · have hstop : s.stop? s.settings.maxSteps k = some ⟨.ok .waitingForKey, k + 1⟩ := by
          simp [stop?, hwait.running, Nat.not_le.mpr hlt, hmem, hstep]
        obtain ⟨hverdict, hafter⟩ := h.run_eq hstop
        refine .inr (.inr ⟨hlt, hmem, hverdict, ?_⟩)
        rw [hafter]
        exact hmachine
      · -- A completed wait leaves no reason to stop, and the run would go on.
        refine absurd (goesOn_iff.mpr fun j hj => ?_) hopen
        rcases Nat.lt_or_eq_of_le hj with hj | rfl
        · exact h.stop?_eq_none j hj
        · simp [stop?, hwait.running, Nat.not_le.mpr hlt, hmem, hstep]

theorem Arrives.alike_run (h : s.Arrives k) (hwait : (s.machine.after k).Waits x)
    (hopen : ¬s.GoesOn k) : s.run.session.machine.Alike (s.machine.after k) := by
  rcases h.run_at_wait hwait hopen with
    ⟨-, -, hmachine⟩ | ⟨-, -, -, hmachine⟩ | ⟨-, -, -, hmachine⟩
  · rw [hmachine]
    exact .refl _
  · rw [hmachine]
    exact .refl _
  · rw [hmachine]
    exact .setPendingKey _ _

/-- A run that starts at a wait and does not complete it. -/
theorem run_at_wait (hwait : u.machine.Waits x) (hbudget : 1 ≤ u.settings.maxSteps)
    (hopen : ¬u.GoesOn 0) :
    (u.mustStop = true ∧ u.run.verdict = .ok ⟨.breakpoint u.machine.pc, 0⟩ ∧
        u.run.session.machine = u.machine ∧ u.run.session.lastStop? = some u.machine.pc) ∨
      (u.mustStop = false ∧ u.run.verdict = .ok ⟨.waitingForKey, 1⟩ ∧
        u.run.session.machine =
          { u.machine with pendingKey := u.run.session.machine.pendingKey } ∧
        u.run.session.lastStop? = u.lastStop?) := by
  cases hstop : u.mustStop with
  | true =>
    rw [run_of_mustStop hwait.running hbudget hstop]
    exact .inl ⟨rfl, rfl, rfl, rfl⟩
  | false =>
    rcases hwait.step_cases with ⟨hstep, hmachine⟩ | hstep
    · obtain ⟨budget, hmax⟩ := Nat.exists_eq_add_of_le' hbudget
      have hcourse : Course u u.settings.maxSteps [u.machine.step] (.ok .waitingForKey)
          { u with machine := u.machine.step.machine } := by
        rw [hmax]
        exact .waiting hwait.running hstop hstep
      obtain ⟨hverdict, hsession, -⟩ := hcourse.run_eq
      rw [hsession]
      refine .inr ⟨rfl, ?_, hmachine, rfl⟩
      rw [hverdict]
      simp [Except.map, Step.succeeds, hstep]
    · exact absurd ((goesOn_zero_iff hwait.running hbudget).mpr ⟨hstop, hstep⟩) hopen

/-- Whether it stops or waits, the machine is as before but for the key that is remembered. -/
theorem alike_run (hwait : u.machine.Waits x) (hbudget : 1 ≤ u.settings.maxSteps)
    (hopen : ¬u.GoesOn 0) : u.run.session.machine.Alike u.machine := by
  rcases run_at_wait hwait hbudget hopen with ⟨-, -, hmachine, -⟩ | ⟨-, -, hmachine, -⟩
  · rw [hmachine]
    exact .refl _
  · rw [hmachine]
    exact .setPendingKey _ _

theorem runsOf_cons {a : Action} (ha : a ≠ .run) :
    t.runsOf (a :: actions) = (t.act a).runsOf actions := by
  cases a with
  | run => exact absurd rfl ha
  | _ => rfl

/-- Between the runs the host changes nothing of what matters to a wait. -/
theorem act_handling {a : Action} (ha : a.isHandling = true) (hrun : a ≠ .run) :
    (t.act a).machine.Alike t.machine ∧ (t.act a).lastStop? = t.lastStop? ∧
      (t.act a).settings = t.settings := by
  cases a with
  | run => exact absurd rfl hrun
  | machine action => exact ⟨(t.machine.act_input ha).1, rfl, rfl⟩
  | _ => exact ⟨.refl _, rfl, rfl⟩

/-- All runs of a wait that is not completed start at the wait. -/
theorem alike_of_mem_runsOf (hwait : t.machine.Waits x) (hbudget : 1 ≤ t.settings.maxSteps)
    (hactions : ∀ a ∈ actions, a.isHandling = true) (hopen : ∀ u ∈ t.runsOf actions, ¬u.GoesOn 0) :
    ∀ u ∈ t.runsOf actions, u.machine.Alike t.machine ∧ u.settings = t.settings := by
  -- Every action leads to a session at the same wait, so the induction is over all of these.
  induction actions generalizing t with
  | nil => simp [runsOf]
  | cons a actions ih =>
    obtain ⟨ha, hrest⟩ := List.forall_mem_cons.mp hactions
    by_cases hrun : a = .run
    · subst hrun
      obtain ⟨hfirst, hlater⟩ := List.forall_mem_cons.mp hopen
      have halike := alike_run hwait hbudget hfirst
      have hsettings : t.run.session.settings = t.settings := t.settings_acts [.run]
      refine List.forall_mem_cons.mpr ⟨⟨.refl _, rfl⟩, fun u hu => ?_⟩
      obtain ⟨hu, hu'⟩ := ih (halike.waits hwait) (hsettings ▸ hbudget) hrest hlater u hu
      exact ⟨hu.trans halike, hu'.trans hsettings⟩
    · rw [runsOf_cons hrun] at hopen ⊢
      obtain ⟨halike, -, hsettings⟩ := act_handling (t := t) ha hrun
      intro u hu
      obtain ⟨hu, hu'⟩ := ih (halike.waits hwait) (hsettings ▸ hbudget) hrest hopen u hu
      exact ⟨hu.trans halike, hu'.trans hsettings⟩

/-- The first of several runs remembers what was remembered before. -/
theorem lastStop?_of_head?_runsOf (hactions : ∀ a ∈ actions, a.isHandling = true) :
    ∀ u ∈ (t.runsOf actions).head?, u.lastStop? = t.lastStop? := by
  induction actions generalizing t with
  | nil => simp [runsOf]
  | cons a actions ih =>
    obtain ⟨ha, hrest⟩ := List.forall_mem_cons.mp hactions
    by_cases hrun : a = .run
    · subst hrun
      simp [runsOf]
    · rw [runsOf_cons hrun]
      intro u hu
      exact (ih hrest u hu).trans (act_handling ha hrun).2.1

theorem reported?_of_verdict {report : Report} (h : u.run.verdict = .ok report) :
    u.reported? = breakpoint? (.ok report.outcome) := by
  rw [reported?, h, Except.map]

/-- How often several runs report a breakpoint. -/
def timesReported (runs : List Session) : Nat := runs.countP fun u => u.reported?.isSome

theorem timesReported_cons_of_some {runs : List Session} {address : Word}
    (h : u.reported? = some address) : timesReported (u :: runs) = timesReported runs + 1 :=
  List.countP_cons_of_pos (by simp [h])

theorem timesReported_cons_of_none {runs : List Session} (h : u.reported? = none) :
    timesReported (u :: runs) = timesReported runs :=
  List.countP_cons_of_neg (by simp [h])

/-- During a wait the breakpoint is reported once at most, and not at all if it is remembered. -/
theorem timesReported_runsOf (hwait : t.machine.Waits x) (hbudget : 1 ≤ t.settings.maxSteps)
    (hactions : ∀ a ∈ actions, a.isHandling = true) (hopen : ∀ u ∈ t.runsOf actions, ¬u.GoesOn 0) :
    timesReported (t.runsOf actions) ≤ 1 ∧
      (t.lastStop? = some t.machine.pc → timesReported (t.runsOf actions) = 0) := by
  -- The second part carries the induction: after a report the place is remembered.
  induction actions generalizing t with
  | nil => exact ⟨Nat.zero_le 1, fun _ => rfl⟩
  | cons a actions ih =>
    obtain ⟨ha, hrest⟩ := List.forall_mem_cons.mp hactions
    by_cases hrun : a = .run
    · subst hrun
      obtain ⟨hfirst, hlater⟩ := List.forall_mem_cons.mp hopen
      have halike := alike_run hwait hbudget hfirst
      have hsettings : t.run.session.settings = t.settings := t.settings_acts [.run]
      obtain ⟨hle, hnone⟩ := ih (halike.waits hwait) (hsettings ▸ hbudget) hrest hlater
      rw [halike.pc] at hnone
      rcases run_at_wait hwait hbudget hfirst with
        ⟨hstop, hverdict, -, hlast⟩ | ⟨-, hverdict, -, hlast⟩
      · -- The run reports the breakpoint, and from then on it is remembered.
        rw [runsOf, timesReported_cons_of_some (reported?_of_verdict hverdict), hnone hlast]
        exact ⟨Nat.le_refl 1, fun h => absurd h (mustStop_eq_true_iff.mp hstop).2⟩
      · -- The run reports none, and keeps what is remembered.
        rw [runsOf, timesReported_cons_of_none (reported?_of_verdict hverdict)]
        exact ⟨hle, fun h => hnone (hlast.trans h)⟩
    · rw [runsOf_cons hrun] at hopen ⊢
      obtain ⟨halike, hlast, hsettings⟩ := act_handling (t := t) ha hrun
      obtain ⟨hle, hnone⟩ := ih (halike.waits hwait) (hsettings ▸ hbudget) hrest hopen
      rw [hlast, halike.pc] at hnone
      exact ⟨hle, hnone⟩

end Wait

/-! ## From the arrival on -/

/-- A run of `s` arrives with `k` steps at a wait for a key. Then the host goes on with `actions`,
and none of the runs completes the wait. -/
structure OpenWait (s : Session) (k : Nat) (x : Nibble) (actions : List Action) : Prop where
  arrives : s.Arrives k
  waits : (s.machine.after k).Waits x
  budget : 1 ≤ s.settings.maxSteps
  handled : ∀ a ∈ actions, a.isHandling = true
  first : ¬s.GoesOn k
  later : ∀ u ∈ s.run.session.runsOf actions, ¬u.GoesOn 0

/-- The run that first finds the machine at its wait with budget left: the one that arrives there,
or the next one if the arrival took the whole budget. -/
def finder? (s : Session) (k : Nat) (later : List Session) : Option Session :=
  if k < s.settings.maxSteps then some s else later.head?

namespace OpenWait

variable {s u : Session} {k : Nat} {x : Nibble} {actions : List Action}

theorem alike (h : s.OpenWait k x actions) :
    s.run.session.machine.Alike (s.machine.after k) := h.arrives.alike_run h.waits h.first

theorem budget_run (h : s.OpenWait k x actions) : 1 ≤ s.run.session.settings.maxSteps := by
  have hsettings : s.run.session.settings = s.settings := s.settings_acts [.run]
  rw [hsettings]
  exact h.budget

/-- The runs after the first one start at the wait. -/
theorem alike_later (h : s.OpenWait k x actions) (hu : u ∈ s.run.session.runsOf actions) :
    u.machine.Alike (s.machine.after k) ∧ 1 ≤ u.settings.maxSteps := by
  obtain ⟨hu, hsettings⟩ :=
    alike_of_mem_runsOf (h.alike.waits h.waits) h.budget_run h.handled h.later u hu
  exact ⟨hu.trans h.alike, hsettings ▸ h.budget_run⟩

/-- From the arrival on the breakpoint is reported once at most. -/
theorem timesReported_le (h : s.OpenWait k x actions) :
    timesReported (s :: s.run.session.runsOf actions) ≤ 1 := by
  obtain ⟨hle, hnone⟩ :=
    timesReported_runsOf (h.alike.waits h.waits) h.budget_run h.handled h.later
  rw [h.alike.pc, h.arrives.lastStop?_run_iff] at hnone
  -- Only if the arriving run reports the breakpoint itself, the later ones have to report nothing.
  rcases h.arrives.run_at_wait h.waits h.first with
    ⟨-, hverdict, -⟩ | ⟨-, -, hverdict, -⟩ | ⟨-, -, hverdict, -⟩
  · rw [timesReported_cons_of_none (reported?_of_verdict hverdict)]
    exact hle
  · have hreported := reported?_of_verdict hverdict
    have honce : timesReported (s :: s.run.session.runsOf actions) = 1 := by
      rw [timesReported_cons_of_some hreported, hnone hreported]
    exact Nat.le_of_eq honce
  · rw [timesReported_cons_of_none (reported?_of_verdict hverdict)]
    exact hle

/-- The run that first finds the machine at its wait reports the breakpoint, if there is one. -/
theorem reported?_finder (h : s.OpenWait k x actions)
    (hu : u ∈ finder? s k (s.run.session.runsOf actions))
    (hmem : (s.machine.after k).pc ∈ u.breakpoints) :
    u ∈ s :: s.run.session.runsOf actions ∧ u.reported? = some (s.machine.after k).pc := by
  rw [finder?] at hu
  split at hu
  case isTrue hlt =>
    obtain rfl := Option.some.inj hu
    have hrun := h.arrives.run_reports h.waits.running hlt hmem
    exact ⟨List.mem_cons_self, reported?_of_verdict hrun.1⟩
  case isFalse hle =>
    have hlater : u ∈ s.run.session.runsOf actions := List.mem_of_mem_head? hu
    obtain ⟨halike, hbudget⟩ := h.alike_later hlater
    -- The arriving run has no budget left: it reports nothing and remembers nothing of the place.
    have hreported : s.reported? = none := by
      rcases h.arrives.run_at_wait h.waits h.first with ⟨-, hverdict, -⟩ | ⟨hlt, -⟩ | ⟨hlt, -⟩
      · exact reported?_of_verdict hverdict
      · exact absurd hlt hle
      · exact absurd hlt hle
    have hstop : u.mustStop = true := by
      rw [mustStop_eq_true_iff, halike.pc, lastStop?_of_head?_runsOf h.handled u hu, ne_eq,
        h.arrives.lastStop?_run_iff, hreported]
      exact ⟨hmem, nofun⟩
    have hrun := run_of_mustStop (halike.halted.trans h.waits.running) hbudget hstop
    rw [halike.pc] at hrun
    exact ⟨List.mem_cons_of_mem s hlater, reported?_of_verdict (congrArg Run.verdict hrun)⟩

end OpenWait

/-- **A breakpoint at a key wait fires once for each wait.**

1. From the arrival at the wait on, until a run completes it: the run that arrives ends there, for
   want of budget, at the breakpoint, or waiting; every later run stops at the breakpoint or waits
   with its only step, and the machine changes in nothing but the key that is remembered. The
   breakpoint is reported once at most, and it is if it is set when a run first finds the machine
   there with budget left.
2. Once a run has completed a step, such as the wait, a run that starts at a breakpoint which was
   not reported since then arrives there anew.
3. Every arrival at a breakpoint is reported, if there is budget left. -/
theorem breakpoint_fires_once :
    (∀ (s : Session) (k : Nat) (x : Nibble) (actions : List Action), s.OpenWait k x actions →
      let m := s.machine.after k
      let later := s.run.session.runsOf actions
      ((k = s.settings.maxSteps ∧ s.run.verdict = .ok ⟨.budgetExhausted, k⟩ ∧
          s.run.session.machine = m) ∨
        (k < s.settings.maxSteps ∧ m.pc ∈ s.breakpoints ∧
          s.run.verdict = .ok ⟨.breakpoint m.pc, k⟩ ∧ s.run.session.machine = m) ∨
        (k < s.settings.maxSteps ∧ m.pc ∉ s.breakpoints ∧
          s.run.verdict = .ok ⟨.waitingForKey, k + 1⟩ ∧
          s.run.session.machine = { m with pendingKey := s.run.session.machine.pendingKey })) ∧
      (∀ u ∈ later, u.machine.pc = m.pc ∧
        (u.run.verdict = .ok ⟨.breakpoint m.pc, 0⟩ ∧ u.run.session.machine = u.machine ∨
          u.run.verdict = .ok ⟨.waitingForKey, 1⟩ ∧
            u.run.session.machine =
              { u.machine with pendingKey := u.run.session.machine.pendingKey })) ∧
      timesReported (s :: later) ≤ 1 ∧
      ∀ u ∈ finder? s k later, m.pc ∈ u.breakpoints → timesReported (s :: later) = 1) ∧
    (∀ (u : Session) (actions : List Action), u.GoesOn 0 →
      let t := u.run.session.acts actions
      (∀ r ∈ u :: u.run.session.runsOf actions, r.reported? ≠ some t.machine.pc) → t.Arrives 0) ∧
    ∀ (t : Session) (k : Nat), t.Arrives k → (t.machine.after k).halted = false →
      k < t.settings.maxSteps → (t.machine.after k).pc ∈ t.breakpoints →
        t.run.verdict = .ok ⟨.breakpoint (t.machine.after k).pc, k⟩ := by
  refine ⟨?_, fun u actions hu => arrives_of_not_reported hu rfl,
    fun t k ht hrun hbudget hmem => (ht.run_reports hrun hbudget hmem).1⟩
  intro s k x actions h m later
  refine ⟨h.arrives.run_at_wait h.waits h.first, ?_, h.timesReported_le, ?_⟩
  · intro u hu
    obtain ⟨halike, hbudget⟩ := h.alike_later hu
    refine ⟨halike.pc, ?_⟩
    rw [← halike.pc]
    rcases run_at_wait (halike.waits h.waits) hbudget (h.later u hu) with
      ⟨-, hverdict, hmachine, -⟩ | ⟨-, hverdict, hmachine, -⟩
    · exact .inl ⟨hverdict, hmachine⟩
    · exact .inr ⟨hverdict, hmachine⟩
  · intro u hu hmem
    obtain ⟨hmem, hreported⟩ := h.reported?_finder hu hmem
    refine Nat.le_antisymm h.timesReported_le (List.countP_pos_iff.mpr ⟨u, hmem, ?_⟩)
    rw [hreported]
    rfl

/-- What a host does that notices a wait late: it sets a breakpoint there and runs the session, then
presses a key and runs it again. -/
def lateHost (address : Word) : List Action :=
  [.addBreakpoint address, .run, .machine (.setKey 7 true), .run]

/-- The first run after that is the one that finds the machine at its wait. -/
theorem finder?_lateHost (m : Machine) :
    ∃ u ∈ finder? (fresh m { maxSteps := 1 }) 1
        ((fresh m { maxSteps := 1 }).run.session.runsOf (lateHost m.step.machine.pc)),
      ((fresh m { maxSteps := 1 }).machine.after 1).pc ∈ u.breakpoints :=
  ⟨(fresh m { maxSteps := 1 }).run.session.addBreakpoint m.step.machine.pc, rfl,
    Std.ExtTreeSet.mem_insert_self⟩

/-- A wait is not completed before a key has been latched. -/
theorem not_goesOn_of_pendingKey {u : Session} {x : Nibble} (hwait : u.machine.Waits x)
    (hbudget : 1 ≤ u.settings.maxSteps) (hpending : u.machine.pendingKey = none) : ¬u.GoesOn 0 := by
  rw [goesOn_zero_iff hwait.running hbudget, hwait.step.1, Machine.awaitKey_of_none x hpending]
  rintro ⟨-, hverdict⟩
  cases hverdict

/-- A run arrives at a wait with the last step of its budget, and the host notices late. -/
theorem openWait_lateHost {m : Machine} {x : Nibble} (hrun : m.halted = false)
    (hstep : m.step.verdict = .ok .continued) (hwait : m.step.machine.Waits x)
    (hpending : m.step.machine.pendingKey = none) :
    (fresh m { maxSteps := 1 }).OpenWait 1 x (lateHost m.step.machine.pc) := by
  have hfirst : (fresh m { maxSteps := 1 }).GoesOn 0 :=
    (goesOn_zero_iff hrun (Nat.le_refl 1)).mpr ⟨rfl, hstep⟩
  refine ⟨⟨?_, nofun⟩, hwait, Nat.le_refl 1, by simp [lateHost, Action.isHandling,
    Machine.Action.isInput], ?_, ?_⟩
  · intro j hj
    obtain rfl := Nat.lt_one_iff.mp hj
    exact hfirst
  · intro hmore
    have hlt := (runs_of_stop?_eq_none (goesOn_iff.mp hmore 1 (Nat.le_refl 1))).2
    exact absurd hlt (Nat.lt_irrefl 1)
  · have hcourse : Course (fresh m { maxSteps := 1 }) 1 _ _ _ :=
      .continued hrun rfl hstep (.exhausted hwait.running)
    rw [hcourse.run_eq.2.1]
    -- The second run stops at the breakpoint, and in the third one the key is still down.
    let watched := (fresh m { maxSteps := 1 }).goOn.addBreakpoint m.step.machine.pc
    have hstop : watched.mustStop = true :=
      mustStop_eq_true_iff.mpr ⟨Std.ExtTreeSet.mem_insert_self, nofun⟩
    have hwatched : ¬watched.GoesOn 0 := not_goesOn_of_pendingKey hwait (Nat.le_refl 1) hpending
    have hsession := congrArg Run.session (run_of_mustStop hwait.running (Nat.le_refl 1) hstop)
    have hpressed : ¬(watched.run.session.act (.machine (.setKey 7 true))).GoesOn 0 := by
      rw [hsession]
      obtain ⟨halike, hkey⟩ := m.step.machine.act_input (a := .setKey 7 true) rfl
      exact not_goesOn_of_pendingKey (halike.waits hwait) (Nat.le_refl 1) (hkey.trans hpending)
    change ∀ u ∈ [watched, watched.run.session.act (.machine (.setKey 7 true))], ¬u.GoesOn 0
    simp [hwatched, hpressed]

/-- A machine before an instruction that is followed by a wait. -/
def beforeWait : Machine := .fresh (.image #[0x60, 0x05, 0xF3, 0x0A]) (.ofSeed 0)

theorem step_beforeWait :
    beforeWait.step.verdict = .ok .continued ∧
      beforeWait.step.machine = (beforeWait.setRegister 0 5).advance := by
  have hword : beforeWait.memory.word beforeWait.pc.toNat = .ok (.ofBytes 0x60 0x05) :=
    Memory.word_image (i := 0) (by decide) (by decide)
  rw [Machine.step_of_decode (i := { operation := .loadByte, x := 0, immediate := 5 }) rfl hword
    (by decide)]
  exact ⟨rfl, rfl⟩

theorem waits_beforeWait : beforeWait.step.machine.Waits 3 := by
  rw [step_beforeWait.2]
  refine ⟨rfl, ?_⟩
  have hcode : Word.ofBytes 0xF3 0x0A = .ofNibbles 0xF 3 0x0 0xA := by decide
  rw [← hcode]
  exact Memory.word_image (i := 2) (by decide) (by decide)

/-- The breakpoint is reported by the run after the one that arrived, and only by that one. -/
theorem breakpoint_fires_once_lateHost :
    (fresh beforeWait { maxSteps := 1 }).OpenWait 1 3 (lateHost 0x202) ∧
      (fresh beforeWait { maxSteps := 1 }).run.verdict = .ok ⟨.budgetExhausted, 1⟩ ∧
      timesReported (fresh beforeWait { maxSteps := 1 } ::
        (fresh beforeWait { maxSteps := 1 }).run.session.runsOf (lateHost 0x202)) = 1 := by
  obtain ⟨hstep, hmachine⟩ := step_beforeWait
  have hpc : beforeWait.step.machine.pc = 0x202 := by
    rw [hmachine]
    rfl
  have hpending : beforeWait.step.machine.pendingKey = none := by
    rw [hmachine]
    rfl
  have hopen := openWait_lateHost rfl hstep waits_beforeWait hpending
  obtain ⟨hfirst, -, -, honce⟩ := breakpoint_fires_once.1 _ 1 3 _ hopen
  rw [← hpc]
  refine ⟨hopen, ?_, ?_⟩
  · rcases hfirst with ⟨-, hverdict, -⟩ | ⟨hlt, -⟩ | ⟨hlt, -⟩
    · exact hverdict
    · exact absurd hlt (Nat.lt_irrefl 1)
    · exact absurd hlt (Nat.lt_irrefl 1)
  · obtain ⟨u, hu, hmem⟩ := finder?_lateHost beforeWait
    exact honce u hu hmem

end Session

end ChipEight
