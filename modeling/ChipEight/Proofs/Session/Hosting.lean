import ChipEight.Proofs.Machine.Chronicle
import ChipEight.Proofs.Session.History

/-!
# A machine and its host

A host keeps a machine in a session. It acts on the session and on the machine in it, and it may
take the machine out again and put it into another session, with another budget for its runs. This
covers a host without a session: it has one that it never runs.

To the machine this is one deed after the other. A run of the session is the steps that it makes,
and setting breakpoints is nothing at all.

## Main definitions

- `Session.Move`, `Session.moves`: what a host does
- `Session.deedsOf`: the deeds that are done to the machine by it
- `Machine.Leads`: machines that become others by given deeds

## Main statements

- `Session.leads_deedsOf`: the deeds of the host lead from the first machine to the last one
-/

namespace ChipEight

namespace Machine

/-- `m.Leads past n`: by the deeds in `past`, of which the newest comes first, `m` becomes `n`. -/
inductive Leads (m : Machine) : (past : List Deed) → Machine → Prop where
  | nothing : m.Leads [] m
  | deed {past : List Deed} (d : Deed) (h : m.Leads past d.before) : m.Leads (d :: past) d.after

theorem Leads.steps {m n : Machine} {past : List Deed} (h : m.Leads past n) (count : Nat) :
    m.Leads (n.steps count ++ past) (n.after count) := by
  induction count with
  | zero => exact h
  | succ count ih => exact .deed ⟨n.after count, .step⟩ ih

end Machine

namespace Session

/-- A session of a machine that was just switched on. -/
def powerOn (random : RandomSource) : Session := fresh (.powerOn random) {}

/-- What a host does that has a machine in a session: it acts on them, or it puts the machine into a
new session with another budget. -/
inductive Move where
  | act (action : Action)
  | renew (maxSteps : UInt64)

def move (s : Session) : Move → Session
  | .act action => s.act action
  | .renew maxSteps => fresh s.machine { maxSteps := maxSteps.toNat }

/-- The session after several moves, the first of the list first. -/
def moves (s : Session) (list : List Move) : Session := list.foldl move s

@[simp] theorem moves_cons (s : Session) (v : Move) (list : List Move) :
    s.moves (v :: list) = (s.move v).moves list := rfl

/-- What a move does to the machine, the last deed first. -/
def deeds (s : Session) : Move → List Machine.Deed
  | .act .run => s.machine.steps s.calls.length
  | .act (.machine action) => [⟨s.machine, action⟩]
  | _ => []

/-- What several moves do to the machine, the last deed first. -/
def deedsOf (s : Session) : (list : List Move) → List Machine.Deed
  | [] => []
  | v :: list => (s.move v).deedsOf list ++ s.deeds v

/-- A deed is a step, or it is a move of the host. -/
theorem mem_deeds {s : Session} {v : Move} {d : Machine.Deed} (h : d ∈ s.deeds v) :
    d.action = .step ∨ v = .act (.machine d.action) := by
  cases v with
  | renew maxSteps => cases h
  | act action =>
    cases action with
    | run => exact .inl (Machine.action_of_mem_steps h)
    | machine action =>
      obtain rfl := List.mem_singleton.mp h
      exact .inr rfl
    | addBreakpoint address => cases h
    | removeBreakpoint address => cases h
    | clearBreakpoints => cases h

theorem mem_deedsOf {s : Session} {list : List Move} {d : Machine.Deed} (h : d ∈ s.deedsOf list) :
    d.action = .step ∨ .act (.machine d.action) ∈ list := by
  induction list generalizing s with
  | nil => cases h
  | cons v list ih =>
    rcases List.mem_append.mp h with hlater | hfirst
    · exact (ih hlater).imp_right (List.mem_cons_of_mem v)
    · exact (mem_deeds hfirst).imp_right fun hv => List.mem_cons.mpr (.inl hv.symm)

theorem leads_deeds {m : Machine} {past : List Machine.Deed} {s : Session}
    (h : m.Leads past s.machine) (v : Move) : m.Leads (s.deeds v ++ past) (s.move v).machine := by
  cases v with
  | renew maxSteps => exact h
  | act action =>
    cases action with
    | run =>
      obtain ⟨_, hcourse, -, -⟩ := s.course_run
      have hmachine : (s.move (.act .run)).machine = s.machine.after s.calls.length :=
        hcourse.machine_eq
      rw [hmachine]
      exact h.steps s.calls.length
    | machine action => exact .deed ⟨s.machine, action⟩ h
    | addBreakpoint address => exact h
    | removeBreakpoint address => exact h
    | clearBreakpoints => exact h

/-- Whatever a host does, its deeds lead from the machine that it starts with to the machine that it
ends with. -/
theorem leads_deedsOf (s : Session) (list : List Move) :
    s.machine.Leads (s.deedsOf list) (s.moves list).machine := by
  -- The deeds so far are carried along.
  suffices hpast : ∀ {m : Machine} {past} (t : Session), m.Leads past t.machine →
      m.Leads (t.deedsOf list ++ past) (t.moves list).machine by
    simpa using hpast s .nothing
  intro m past t h
  induction list generalizing t past with
  | nil => exact h
  | cons v list ih =>
    rw [deedsOf, List.append_assoc]
    exact ih (t.move v) (leads_deeds h v)

end Session

end ChipEight
