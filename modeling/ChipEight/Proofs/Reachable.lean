import ChipEight.Proofs.Machine.Loading
import ChipEight.Proofs.Session.FirstStop

/-!
# Reachable machines

A host starts with a fresh machine. It may act on the machine itself, or hand it to a session
and let that run it: any number of times, with any settings, breakpoints and remembered stop. The
machines that come about in this way are the reachable ones.

A run only steps its machine, so sessions add nothing to what can be reached. A property of all
reachable machines is proved without them.

## Main definitions

- `Machine.Reachable`: the machines that a host can come to

## Main statements

- `Machine.Reachable.invariant`: what every fresh machine has and every action keeps, all
  reachable machines have
-/

namespace ChipEight

namespace Session

/-- A run does to its machine what some number of steps does. -/
theorem machine_run (s : Session) : ∃ n, s.run.session.machine = s.machine.after n := by
  obtain ⟨_, hcourse, -, -⟩ := s.course_run
  exact ⟨_, hcourse.machine_eq⟩

end Session

namespace Machine

/-- The machines that a host can come to. -/
inductive Reachable : Machine → Prop where
  | powerOn (random : RandomSource) : Reachable (.powerOn random)
  | act {m : Machine} (a : Action) (hm : Reachable m) : Reachable (m.act a)
  | run {s : Session} (hs : Reachable s.machine) : Reachable s.run.session.machine

theorem after_invariant {P : Machine → Prop} (hstep : ∀ m, P m → P m.step.machine)
    {m : Machine} (hm : P m) (n : Nat) : P (m.after n) := by
  induction n with
  | zero => exact hm
  | succ n ih => exact hstep _ ih

/-- What every fresh machine has, and every action but a load keeps, all reachable machines
have. -/
theorem Reachable.invariant {P : Machine → Prop} (hfresh : ∀ memory random, P (fresh memory random))
    (hact : ∀ m a, a.isLoad = false → P m → P (m.act a)) {m : Machine} (hm : Reachable m) :
    P m := by
  induction hm with
  | powerOn random => exact hfresh _ random
  | @act m a _ ih =>
    cases a with
    | load program => exact act_load_keeps hfresh ih program
    | _ => exact hact m _ rfl ih
  | @run s _ ih =>
    obtain ⟨n, hn⟩ := s.machine_run
    rw [hn]
    exact after_invariant (fun m hm => hact m .step rfl hm) ih n

theorem Reachable.acts {m : Machine} (hm : Reachable m) (actions : List Action) :
    Reachable (m.acts actions) := by
  induction actions generalizing m with
  | nil => exact hm
  | cons a actions ih => exact ih (hm.act a)

end Machine

end ChipEight
