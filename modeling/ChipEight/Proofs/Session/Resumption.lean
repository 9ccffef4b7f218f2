import Mathlib.Algebra.GroupWithZero.Nat
import ChipEight.Proofs.Session.FirstStop

/-!
# Resuming at breakpoints

A host that wants to look at a machine at certain addresses sets breakpoints, and runs the
session again each time that it stops at one of them. Taken together these runs are the run
that would have been made without breakpoints: the instructions are the same, so is the end,
and on the way the session stops once for each time that the program arrives at a breakpoint.

The proof follows the arrivals. Between two of them a session that was resumed at the `i`-th
machine of the plain run has the reasons to stop of the plain run, `i` steps earlier; at an
arrival it stops, and the session that is resumed there stands for the rest of the plain run.

## Main definitions

- `Session.Resumed`: the runs of a session that is run again after each breakpoint

## Main statements

- `Session.resumed_eq_plain`: runs resumed at breakpoints are one run without breakpoints
-/

namespace ChipEight.Session

/-- `s.Resumed stops t`: run again and again, `s` stops at breakpoints with the reports `stops`,
and is then `t`. -/
inductive Resumed : Session → (stops : List Report) → Session → Prop where
  | done (s : Session) : Resumed s [] s
  | again {s t : Session} {address : Word} {steps : Nat} {stops : List Report}
      (hstop : s.run.verdict = .ok ⟨.breakpoint address, steps⟩)
      (rest : Resumed s.run.session stops t) :
      Resumed s (⟨.breakpoint address, steps⟩ :: stops) t

/-! ## Sessions on the way -/

/-- The session that has come to the `i`-th machine. It `paused` if it was stopped there by a
breakpoint. -/
def onWay (m : Machine) (settings : Settings) (breakpoints : Std.ExtTreeSet Word) (i : Nat)
    (paused : Bool) : Session :=
  { machine := m.after i
    settings := settings
    breakpoints := breakpoints
    lastStop? := if paused then some (m.after i).pc else none }

/-- The first step at which a session on its way watches for breakpoints. -/
def firstWatched (i : Nat) (paused : Bool) : Nat := i + paused.toNat

/-- The same reason to stop, without the first `i` completed instructions. -/
def Stop.earlier (i : Nat) (stop : Stop) : Stop := { stop with completed := stop.completed - i }

section OnWay

variable {m : Machine} {settings : Settings} {breakpoints : Std.ExtTreeSet Word}
  {limit last i l : Nat} {paused : Bool} {stop : Stop}

theorem firstWatched_le_add_iff {j : Nat} :
    firstWatched i paused ≤ i + j ↔ ¬(j = 0 ∧ paused = true) := by
  cases paused <;> simp [firstWatched]
  omega

/-- A session on its way stops at a breakpoint that is watched for. Elsewhere it has the
reason to stop of the plain session, if that one has budget left. -/
theorem stop?_onWay (hi : i ≤ l) (hbudget : (m.after l).halted = true ∨ l < limit) :
    (onWay m settings breakpoints i paused).stop? limit (l - i) =
      if (m.after l).halted = false ∧ (m.after l).pc ∈ breakpoints ∧ firstWatched i paused ≤ l then
        some ⟨.ok (.breakpoint (m.after l).pc), l - i⟩
      else
        ((fresh m settings).stop? limit l).map (Stop.earlier i) := by
  obtain ⟨j, rfl⟩ := Nat.exists_eq_add_of_le hi
  rw [Nat.add_sub_cancel_left]
  have hafter : (onWay m settings breakpoints i paused).machine.after j = m.after (i + j) :=
    (m.after_add i j).symm
  have hwatch : (j = 0 ∧ (onWay m settings breakpoints i paused).lastStop?
      = some (m.after (i + j)).pc) ↔ ¬firstWatched i paused ≤ i + j := by
    rw [firstWatched_le_add_iff, Classical.not_not]
    refine and_congr_right fun hj => ?_
    subst hj
    cases paused <;> simp [onWay]
  have hnone : (m.after (i + j)).pc ∉ (fresh m settings).breakpoints :=
    Std.ExtTreeSet.not_mem_empty
  simp only [stop?, hafter, hwatch, hnone, Classical.not_not, false_and, if_false,
    show (fresh m settings).machine = m from rfl,
    show (onWay m settings breakpoints i paused).breakpoints = breakpoints from rfl]
  cases hhalted : (m.after (i + j)).halted with
  | true => simp [Stop.earlier]
  | false =>
    have hlt : i + j < limit := by simpa [hhalted] using hbudget
    have hleft : ¬limit ≤ i + j := Nat.not_le_of_lt hlt
    have hleft' : ¬limit ≤ j := Nat.not_le_of_lt (Nat.lt_of_le_of_lt (Nat.le_add_left ..) hlt)
    simp only [hleft, hleft', if_false, Bool.false_eq_true, true_and]
    by_cases hstop : (m.after (i + j)).pc ∈ breakpoints ∧ firstWatched i paused ≤ i + j
    · simp only [hstop, and_self, if_true]
    · simp only [hstop, if_false]
      cases (m.after (i + j)).step.verdict with
      | error fault => simp [Stop.earlier]
      | ok progress => cases progress <;> simp [Stop.earlier, Nat.add_assoc]

/-! ## The plain run -/

theorem runs_of_stop?_eq_none {s : Session} (h : s.stop? limit i = none) :
    (s.machine.after i).halted = false ∧ i < limit := by
  cases hhalted : (s.machine.after i).halted with
  | true => simp [stop?, hhalted] at h
  | false =>
    refine ⟨rfl, Nat.lt_of_not_le fun hle => ?_⟩
    simp [stop?, hhalted, hle] at h

/-- Without breakpoints, a reason to stop that is not the budget is that the machine has
halted, or comes with a step. -/
theorem stop?_fresh (h : (fresh m settings).stop? limit i = some stop)
    (hbudget : stop.ending ≠ .ok .budgetExhausted) :
    i ≤ stop.completed ∧
      ((m.after i).halted = true ∧ attempts stop.completed stop.ending = i ∨
        (m.after i).halted = false ∧ i < limit ∧
          attempts stop.completed stop.ending = i + 1) := by
  have hnone : (m.after i).pc ∉ (fresh m settings).breakpoints := Std.ExtTreeSet.not_mem_empty
  simp only [stop?, show (fresh m settings).machine = m from rfl, hnone, false_and,
    if_false] at h
  cases hhalted : (m.after i).halted with
  | true =>
    simp only [hhalted, if_true] at h
    cases h
    exact ⟨Nat.le_refl i, .inl ⟨rfl, rfl⟩⟩
  | false =>
    simp only [hhalted, Bool.false_eq_true, if_false] at h
    by_cases hle : limit ≤ i
    · simp only [hle, if_true] at h
      cases h
      exact absurd rfl hbudget
    · have hstep : i ≤ stop.completed ∧ attempts stop.completed stop.ending = i + 1 := by
        simp only [hle, if_false] at h
        cases hverdict : (m.after i).step.verdict with
        | error fault =>
          rw [hverdict] at h
          cases h
          exact ⟨Nat.le_refl i, rfl⟩
        | ok progress =>
          rw [hverdict] at h
          cases progress <;> cases h <;> exact ⟨Nat.le_succ i, rfl⟩
      exact ⟨hstep.1, .inr ⟨rfl, Nat.lt_of_not_le hle, hstep.2⟩⟩

/-- The run without breakpoints comes to its first reason to stop at the machine `last`, and
it is not the budget. -/
structure PlainEnd (m : Machine) (settings : Settings) (limit last : Nat) (stop : Stop) : Prop where
  first : (fresh m settings).FirstStop limit last stop
  settled : stop.ending ≠ .ok .budgetExhausted

namespace PlainEnd

theorem budget_left (h : PlainEnd m settings limit last stop) (hl : l ≤ last) :
    (m.after l).halted = true ∨ l < limit := by
  rcases Nat.lt_or_eq_of_le hl with hlt | rfl
  · exact .inr (runs_of_stop?_eq_none (h.first.before l hlt)).2
  · rcases (stop?_fresh h.first.met h.settled).2 with ⟨hhalted, -⟩ | ⟨-, hlt, -⟩
    · exact .inl hhalted
    · exact .inr hlt

/-- The plain run attempts a step at each machine up to the last one that runs. -/
theorem lt_attempts_iff (h : PlainEnd m settings limit last stop) :
    l < attempts stop.completed stop.ending ↔ l ≤ last ∧ (m.after l).halted = false := by
  rcases (stop?_fresh h.first.met h.settled).2 with ⟨hhalted, heq⟩ | ⟨hrun, -, heq⟩
  · rw [heq]
    constructor
    · intro hlt
      exact ⟨Nat.le_of_lt hlt, (runs_of_stop?_eq_none (h.first.before l hlt)).1⟩
    · rintro ⟨hl, hrun⟩
      refine Nat.lt_of_le_of_ne hl fun hlast => ?_
      rw [hlast, hhalted] at hrun
      cases hrun
  · rw [heq]
    constructor
    · intro hlt
      rcases Nat.lt_or_eq_of_le (Nat.le_of_lt_succ hlt) with hlt | rfl
      · exact ⟨Nat.le_of_lt hlt, (runs_of_stop?_eq_none (h.first.before l hlt)).1⟩
      · exact ⟨Nat.le_refl l, hrun⟩
    · rintro ⟨hl, -⟩
      exact Nat.lt_succ_of_le hl

/-! ## Between two arrivals -/

/-- If no breakpoint is arrived at before the `l`-th machine, nothing stops a session on its
way before it has come there. -/
theorem firstStop_onWay {stop' : Stop} (h : PlainEnd m settings limit last stop) (hl : l ≤ last)
    (hquiet : ∀ j < l, firstWatched i paused ≤ j → (m.after j).pc ∉ breakpoints)
    (hmet : (onWay m settings breakpoints i paused).stop? limit (l - i) = some stop') :
    (onWay m settings breakpoints i paused).FirstStop limit (l - i) stop' where
  before j hj := by
    have hlt : i + j < l := by rwa [Nat.add_comm, ← Nat.lt_sub_iff_add_lt]
    have hlast : i + j < last := Nat.lt_of_lt_of_le hlt hl
    have hpass : ¬((m.after (i + j)).halted = false ∧ (m.after (i + j)).pc ∈ breakpoints ∧
        firstWatched i paused ≤ i + j) :=
      fun ⟨_, hmem, hwatched⟩ => hquiet (i + j) hlt hwatched hmem
    have hstop : (onWay m settings breakpoints i paused).stop? limit (i + j - i) = _ :=
      stop?_onWay (Nat.le_add_right i j) (h.budget_left (Nat.le_of_lt hlast))
    rw [if_neg hpass, h.first.before _ hlast, Option.map_none, Nat.add_sub_cancel_left] at hstop
    exact hstop
  met := hmet

/-- Where no breakpoint is left ahead, a session on its way ends like the plain run. -/
theorem firstStop_onWay_last (h : PlainEnd m settings limit last stop) (hi : i ≤ last)
    (hquiet : ∀ j < attempts stop.completed stop.ending, firstWatched i paused ≤ j →
      (m.after j).pc ∉ breakpoints) :
    (onWay m settings breakpoints i paused).FirstStop limit (last - i) (stop.earlier i) := by
  have hahead : ∀ j ≤ last, (m.after j).halted = false → firstWatched i paused ≤ j →
      (m.after j).pc ∉ breakpoints :=
    fun j hj hrun => hquiet j (h.lt_attempts_iff.mpr ⟨hj, hrun⟩)
  refine h.firstStop_onWay (Nat.le_refl last) ?_ ?_
  · intro j hj
    exact hahead j (Nat.le_of_lt hj) (runs_of_stop?_eq_none (h.first.before j hj)).1
  · have hpass : ¬((m.after last).halted = false ∧ (m.after last).pc ∈ breakpoints ∧
        firstWatched i paused ≤ last) :=
      fun ⟨hrun, hmem, hwatched⟩ => hahead last (Nat.le_refl last) hrun hwatched hmem
    rw [stop?_onWay hi (h.budget_left (Nat.le_refl last)), if_neg hpass, h.first.met,
      Option.map_some]

/-- A breakpoint ahead is stopped at, if the plain run attempts the instruction there. -/
theorem firstStop_onWay_arrival (h : PlainEnd m settings limit last stop) (hi : i ≤ l)
    (hl : l < attempts stop.completed stop.ending) (hmem : (m.after l).pc ∈ breakpoints)
    (hwatched : firstWatched i paused ≤ l)
    (hquiet : ∀ j < l, firstWatched i paused ≤ j → (m.after j).pc ∉ breakpoints) :
    (onWay m settings breakpoints i paused).FirstStop limit (l - i)
      ⟨.ok (.breakpoint (m.after l).pc), l - i⟩ := by
  obtain ⟨hlast, hrun⟩ := h.lt_attempts_iff.mp hl
  refine h.firstStop_onWay hlast hquiet ?_
  rw [stop?_onWay hi (h.budget_left hlast), if_pos ⟨hrun, hmem, hwatched⟩]

end PlainEnd

/-! ## From arrival to arrival -/

/-- The steps at which the plain run arrives at a breakpoint, from a certain step on. -/
def arrivals (m : Machine) (breakpoints : Std.ExtTreeSet Word) (start attempted : Nat) :
    List Nat :=
  (List.range' start (attempted - start)).filter fun i => (m.after i).pc ∈ breakpoints

theorem mem_arrivals {start attempted j : Nat} :
    j ∈ arrivals m breakpoints start attempted ↔
      start ≤ j ∧ j < attempted ∧ (m.after j).pc ∈ breakpoints := by
  rw [arrivals, List.mem_filter, List.mem_range'_1, decide_eq_true_eq, and_assoc]
  refine and_congr_right fun hj => and_congr_left fun _ => ?_
  omega

/-- The first arrival, and those behind it. -/
theorem arrivals_eq_cons {start attempted a : Nat} {ahead : List Nat}
    (h : arrivals m breakpoints start attempted = a :: ahead) :
    (∀ j < a, start ≤ j → (m.after j).pc ∉ breakpoints) ∧
      arrivals m breakpoints (a + 1) attempted = ahead := by
  obtain ⟨quiet, rest, hsplit, hquiet, -, hrest⟩ := List.filter_eq_cons_iff.mp h
  obtain ⟨k, -, rfl, hbehind⟩ := List.range'_eq_append_iff.mp hsplit
  cases hleft : attempted - start - k with
  | zero =>
    rw [hleft] at hbehind
    cases hbehind
  | succ n =>
    rw [hleft, List.range'_succ] at hbehind
    obtain ⟨rfl, rfl⟩ := List.cons.inj hbehind
    refine ⟨fun j hj hstart hmem => ?_, ?_⟩
    · refine hquiet j (List.mem_range'_1.mpr ⟨hstart, ?_⟩) (decide_eq_true hmem)
      omega
    · rw [← hrest, arrivals]
      congr 2
      omega

/-- From its breakpoint on, a stopped session is on its way there. -/
theorem run_onWay (hi : i ≤ l)
    (hstop : (onWay m settings breakpoints i paused).FirstStop settings.maxSteps (l - i)
      ⟨.ok (.breakpoint (m.after l).pc), l - i⟩) :
    (onWay m settings breakpoints i paused).run.session = onWay m settings breakpoints l true := by
  have hmachine : (m.after i).after (l - i) = m.after l := by
    rw [← m.after_add, Nat.add_sub_cancel' hi]
  rw [hstop.run_eq.2.2]
  simp only [onWay, hmachine]
  rfl

/-- A session on its way stops at all arrivals ahead, and then ends like the plain run. -/
theorem resumed_onWay (h : PlainEnd m settings settings.maxSteps last stop) (hi : i ≤ last)
    {ahead : List Nat}
    (hahead : arrivals m breakpoints (firstWatched i paused)
      (attempts stop.completed stop.ending) = ahead) :
    ∃ stops l paused', i ≤ l ∧ l ≤ last ∧
      (onWay m settings breakpoints i paused).Resumed stops
        (onWay m settings breakpoints l paused') ∧
      stops.map Report.outcome = ahead.map (fun j => .breakpoint (m.after j).pc) ∧
      (stops.map Report.steps).sum = l - i ∧
      (onWay m settings breakpoints l paused').FirstStop settings.maxSteps (last - l)
        (stop.earlier l) := by
  -- The arrivals ahead are taken one by one; behind each of them the session is again on its way.
  induction ahead generalizing i paused with
  | nil =>
    refine ⟨[], i, paused, Nat.le_refl i, hi, .done _, rfl, (Nat.sub_self i).symm, ?_⟩
    refine h.firstStop_onWay_last hi fun j hj hwatched hmem => ?_
    have hmem' := mem_arrivals.mpr ⟨hwatched, hj, hmem⟩
    rw [hahead] at hmem'
    cases hmem'
  | cons a ahead ih =>
    have hmem : a ∈ arrivals m breakpoints (firstWatched i paused)
        (attempts stop.completed stop.ending) := by
      rw [hahead]
      exact List.mem_cons_self
    obtain ⟨hwatched, ha, hpc⟩ := mem_arrivals.mp hmem
    obtain ⟨hquiet, (hbehind : arrivals m breakpoints (firstWatched a true) _ = ahead)⟩ :=
      arrivals_eq_cons hahead
    have hia : i ≤ a := Nat.le_trans (Nat.le_add_right ..) hwatched
    have hstop := h.firstStop_onWay_arrival hia ha hpc hwatched hquiet
    obtain ⟨stops, l, paused', hal, hl, hresumed, houtcomes, hsteps, hlast⟩ :=
      ih (h.lt_attempts_iff.mp ha).1 hbehind
    rw [← run_onWay hia hstop] at hresumed
    refine ⟨⟨.breakpoint (m.after a).pc, a - i⟩ :: stops, l, paused', Nat.le_trans hia hal, hl,
      .again hstop.run_eq.1 hresumed, ?_, ?_, hlast⟩
    · rw [List.map_cons, List.map_cons, houtcomes]
    · rw [List.map_cons, List.sum_cons, hsteps]
      show a - i + (l - a) = l - i
      omega

end OnWay

/-- **Runs resumed at breakpoints are one run without breakpoints.** If the plain run does not
end for want of budget, a session with breakpoints, run again after each of them, stops once
for each instruction at a breakpoint that the plain run attempts, ends like the plain run with
the same machine, and completes as many instructions. -/
theorem resumed_eq_plain (m : Machine) (settings : Settings)
    (breakpoints : Std.ExtTreeSet Word) {ending : Except Fault Outcome}
    (hending : (fresh m settings).run.verdict.map Report.outcome = ending)
    (hsettled : ending = .ok .halted ∨ ending = .ok .waitingForKey ∨
      ∃ fault, ending = .error fault) :
    ∃ stops last, (fresh m settings breakpoints).Resumed stops last ∧
      stops.map Report.outcome =
        ((List.range (attempts (fresh m settings).completed ending)).filter
          (fun i => (m.after i).pc ∈ breakpoints)).map (fun i => .breakpoint (m.after i).pc) ∧
      last.run.verdict.map Report.outcome = ending ∧
      last.run.session.machine = (fresh m settings).run.session.machine ∧
      (stops.map Report.steps).sum + last.completed = (fresh m settings).completed ∧
      ∀ report, last.run.verdict = .ok report → report.steps = last.completed := by
  obtain ⟨ending', hcourse, hverdict, -⟩ := (fresh m settings).course_run
  obtain ⟨i, hfirst⟩ := hcourse.firstStop
  obtain rfl : ending' = ending := by
    rw [← hending, hverdict]
    cases ending' <;> rfl
  have h : PlainEnd m settings settings.maxSteps i ⟨ending', (fresh m settings).completed⟩ :=
    ⟨hfirst, by rcases hsettled with rfl | rfl | ⟨fault, rfl⟩ <;> nofun⟩
  have hcompleted : i ≤ (fresh m settings).completed := (stop?_fresh h.first.met h.settled).1
  obtain ⟨stops, l, paused, -, hl, hresumed, houtcomes, hsteps, hlast⟩ :=
    resumed_onWay h (Nat.zero_le i) (rfl : arrivals m breakpoints (firstWatched 0 false) _ = _)
  obtain ⟨hrun, hrest, hsession⟩ := hlast.run_eq
  refine ⟨stops, _, hresumed, ?_, ?_, ?_, ?_, ?_⟩
  · rw [houtcomes, List.range_eq_range']
    rfl
  · rw [hrun]
    cases ending' <;> rfl
  · rw [hsession, hcourse.machine_eq_completed]
    show (m.after l).after ((fresh m settings).completed - l) = m.after (fresh m settings).completed
    rw [← m.after_add, Nat.add_sub_cancel' (Nat.le_trans hl hcompleted)]
  · rw [hsteps, hrest]
    exact Nat.add_sub_cancel' (Nat.le_trans hl hcompleted)
  · intro report hreport
    rw [hrun] at hreport
    cases ending' with
    | error fault => cases hreport
    | ok outcome =>
      cases hreport
      exact hrest.symm

/-! ## A run with two arrivals -/

/-- A machine whose program counts once and then jumps onto itself. -/
def countOnce : Machine := .fresh (.load [0x70, 0x01, 0x12, 0x02] (by decide)) (.ofSeed 0)

theorem pc_countOnce : countOnce.pc = 0x200 := by decide

theorem step_countOnce :
    countOnce.step.verdict = .ok .continued ∧ countOnce.step.machine.halted = false ∧
      countOnce.step.machine.pc = 0x202 ∧ countOnce.step.machine.memory = countOnce.memory := by
  have hword : countOnce.memory.word countOnce.pc.toNat = .ok (.ofBytes 0x70 0x01) :=
    Memory.word_load [0x70, 0x01, 0x12, 0x02] (by decide) (i := 0) (by decide)
  rw [Machine.step_of_decode (i := { operation := .addByte, immediate := 1 }) rfl hword
    (by decide)]
  exact ⟨rfl, rfl, rfl, rfl⟩

theorem step_selfJump {m : Machine} (hrun : m.halted = false) (hpc : m.pc = 0x202)
    (hword : m.memory.word m.pc.toNat = .ok (.ofBytes 0x12 0x02)) :
    m.step.verdict = .ok .halted := by
  rw [Machine.step_of_decode (i := { operation := .jump, immediate := 0x202 }) hrun hword
    (by decide)]
  simp only [Machine.perform, hpc]
  rfl

theorem step_step_countOnce : countOnce.step.machine.step.verdict = .ok .halted := by
  obtain ⟨-, hrun, hpc, hmemory⟩ := step_countOnce
  refine step_selfJump hrun hpc ?_
  rw [hpc, hmemory]
  exact Memory.word_load [0x70, 0x01, 0x12, 0x02] (by decide) (i := 2) (by decide)

theorem firstStop_of_two_steps {m : Machine} {settings : Settings} (hrun : m.halted = false)
    (hstep : m.step.verdict = .ok .continued) (hrun' : m.step.machine.halted = false)
    (hstep' : m.step.machine.step.verdict = .ok .halted) :
    (fresh m settings).FirstStop 2 1 ⟨.ok .halted, 2⟩ := by
  have hfirst : (fresh m settings).stop? 2 0 = none := by
    rw [stop?_zero]
    simp [fresh, mustStop, hstep, hrun]
  have hmet : (fresh m settings).goOn.stop? 1 0 = some ⟨.ok .halted, 1⟩ := by
    rw [stop?_zero]
    simp [goOn, fresh, mustStop, hstep', hrun']
  exact FirstStop.succ hfirst (firstStop_zero hmet)

theorem resumed_eq_plain_countOnce :
    ∃ stops last,
      (fresh countOnce { maxSteps := 2 } (.ofList [(0x200 : Word), 0x202])).Resumed stops last ∧
      stops.map Report.outcome = [.breakpoint 0x200, .breakpoint 0x202] ∧
      last.run.verdict.map Report.outcome = .ok .halted ∧
      (stops.map Report.steps).sum + last.completed = 2 := by
  obtain ⟨hstep, hrun, hpc, -⟩ := step_countOnce
  have hfirst : (fresh countOnce { maxSteps := 2 }).FirstStop 2 1 ⟨.ok .halted, 2⟩ :=
    firstStop_of_two_steps rfl hstep hrun step_step_countOnce
  obtain ⟨hverdict, hcompleted, -⟩ := hfirst.run_eq
  have hending :
      (fresh countOnce { maxSteps := 2 }).run.verdict.map Report.outcome = .ok .halted := by
    rw [hverdict]
    rfl
  obtain ⟨stops, last, hresumed, houtcomes, hend, -, hsum, -⟩ :=
    resumed_eq_plain countOnce { maxSteps := 2 } (.ofList [(0x200 : Word), 0x202]) hending
      (.inl rfl)
  refine ⟨stops, last, hresumed, ?_, hend, hsum.trans hcompleted⟩
  have hnext : (countOnce.after 1).pc = 0x202 := by
    rw [Machine.after_succ, Machine.after_zero]
    exact hpc
  have hrange : List.range (attempts 2 (.ok .halted)) = [0, 1] := rfl
  rw [houtcomes, hcompleted, hrange]
  simp [Std.ExtTreeSet.mem_ofList, pc_countOnce, hnext]

end ChipEight.Session
