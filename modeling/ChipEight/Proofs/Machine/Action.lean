import ChipEight.Machine.Step

/-!
# Histories of a machine

What a host can do to a machine, and the machine after it has done several such things one
after the other. Left alone, a machine is only stepped.

## Main definitions

- `Machine.Action`, `Machine.act`: one thing that a host does
- `Machine.acts`: a history, which is a list of them
- `Machine.after`: the history of a machine that is only stepped

## Main statements

- `Machine.acts_invariant`: what every action keeps, a history keeps
-/

namespace ChipEight.Machine

/-! ## Actions -/

/-- What a host can do to a machine. -/
inductive Action where
  | load (program : Array UInt8)
  | step
  | setKey (key : Nibble) (down : Bool)
  | tick
  | acknowledgeScreen
  deriving DecidableEq

def Action.isLoad : Action → Bool
  | .load _ => true
  | _ => false

/-- The machine after an action, be it successful or not. -/
def act (m : Machine) : Action → Machine
  | .load program => (m.load program).machine
  | .step => m.step.machine
  | .setKey key down => m.setKey key down
  | .tick => m.tick
  | .acknowledgeScreen => m.acknowledgeScreen

/-- The machine after several actions, the first of the list first. -/
def acts (m : Machine) (actions : List Action) : Machine := actions.foldl act m

@[simp] theorem acts_nil (m : Machine) : m.acts [] = m := rfl

@[simp] theorem acts_cons (m : Machine) (a : Action) (actions : List Action) :
    m.acts (a :: actions) = (m.act a).acts actions := rfl

/-- A property that each allowed action keeps holds after every history of allowed
actions. -/
theorem acts_invariant {P : Machine → Prop} {allowed : Action → Prop}
    (keeps : ∀ m a, allowed a → P m → P (m.act a)) {m : Machine} (hm : P m)
    {actions : List Action} (hallowed : ∀ a ∈ actions, allowed a) : P (m.acts actions) := by
  induction actions generalizing m with
  | nil => exact hm
  | cons a actions ih =>
    have hnext : P (m.act a) := keeps m a (hallowed a (List.mem_cons_self ..)) hm
    exact ih hnext fun b hb => hallowed b (List.mem_cons_of_mem _ hb)

/-! ## Steps alone -/

/-- The machine after `n` steps, whether or not they succeed. -/
def after (m : Machine) : (n : Nat) → Machine
  | 0 => m
  | n + 1 => (m.after n).step.machine

@[simp] theorem after_zero (m : Machine) : m.after 0 = m := rfl

theorem after_succ (m : Machine) (n : Nat) : m.after (n + 1) = (m.after n).step.machine := rfl

theorem after_step (m : Machine) (n : Nat) : m.step.machine.after n = m.after (n + 1) := by
  induction n with
  | zero => rfl
  | succ n ih => rw [after_succ, ih, ← after_succ]

theorem after_add (m : Machine) (i j : Nat) : m.after (i + j) = (m.after i).after j := by
  induction j with
  | zero => rfl
  | succ j ih => rw [Nat.add_succ, after_succ, after_succ, ih]

end ChipEight.Machine
