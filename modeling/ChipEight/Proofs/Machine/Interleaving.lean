import ChipEight.Proofs.Machine.Effect

/-!
# Steps among other actions

A host steps the machine and does other things in between, in any order. What matters to an
instruction that looks at the keys is which keys each step finds down. That is the host's doing
alone: the machine never changes its keypad. Beside steps and loads there is only input, which
touches the keypad, the timers and the flag of the screen.

## Main definitions

- `Machine.stepsOf`: the steps among several actions
- `Machine.keypadsOf`: the keypads that they find
- `Machine.Action.isInput`: what a host does beside loading and stepping

## Main statements

- `Machine.map_keypad_stepsOf`: the keypads are decided by the host
- `Machine.stepsOf_zero`, `Machine.stepsOf_succ`: before a step, back to the one before it, there
  is only input
-/

namespace ChipEight.Machine

/-! ## Steps among actions -/

/-- The steps among several actions, each given by the machine that is stepped. -/
def stepsOf (m : Machine) : (actions : List Action) → List Machine
  | [] => []
  | .step :: actions => m :: m.step.machine.stepsOf actions
  | a :: actions => (m.act a).stepsOf actions

/-- The keypads that the steps among several actions find, if no program is loaded. They are
decided by the host alone. -/
def keypadsOf (keys : Keypad) : (actions : List Action) → List Keypad
  | [] => []
  | .step :: actions => keys :: keypadsOf keys actions
  | .setKey key down :: actions => keypadsOf (keys.set key down) actions
  | _ :: actions => keypadsOf keys actions

theorem keypad_step (m : Machine) : m.step.machine.keypad = m.keypad := by
  apply step_keeps (P := fun n => n.keypad = m.keypad) rfl
  intro opcode i progress _ _ _ _
  apply m.perform_agrees (p := .keypad) (by decide)
  cases i.operation <;> simp [targets]

theorem map_keypad_stepsOf (m : Machine) {actions : List Action}
    (hactions : ∀ a ∈ actions, a.isLoad = false) :
    (m.stepsOf actions).map keypad = keypadsOf m.keypad actions := by
  induction actions generalizing m with
  | nil => rfl
  | cons a actions ih =>
    have hrest : ∀ b ∈ actions, b.isLoad = false :=
      fun b hb => hactions b (List.mem_cons_of_mem a hb)
    cases a with
    | load program => cases hactions _ List.mem_cons_self
    | step =>
      rw [stepsOf, List.map_cons, ih _ hrest, keypad_step]
      rfl
    | setKey key down => exact ih _ hrest
    | tick => exact ih _ hrest
    | acknowledgeScreen => exact ih _ hrest

/-- What a host does beside loading and stepping. -/
def Action.isInput : Action → Bool
  | .load _ | .step => false
  | .setKey _ _ | .tick | .acknowledgeScreen => true

theorem Action.eq_step_or_isInput {a : Action} (ha : a.isLoad = false) :
    a = .step ∨ a.isInput = true := by
  cases a with
  | load program => cases ha
  | step => exact .inl rfl
  | setKey key down => exact .inr rfl
  | tick => exact .inr rfl
  | acknowledgeScreen => exact .inr rfl

/-- Input is passed over. -/
theorem stepsOf_cons_input (m : Machine) {a : Action} (ha : a.isInput = true)
    (actions : List Action) : m.stepsOf (a :: actions) = (m.act a).stepsOf actions := by
  cases a with
  | load program => cases ha
  | step => cases ha
  | setKey key down => rfl
  | tick => rfl
  | acknowledgeScreen => rfl

/-- Before the first step there is only input. -/
theorem stepsOf_zero {m s : Machine} {actions : List Action}
    (hactions : ∀ a ∈ actions, a.isLoad = false) (h : (m.stepsOf actions)[0]? = some s) :
    ∃ input : List Action, (∀ a ∈ input, a.isInput = true) ∧ s = m.acts input := by
  induction actions generalizing m with
  | nil => cases h
  | cons a actions ih =>
    have hrest : ∀ b ∈ actions, b.isLoad = false :=
      fun b hb => hactions b (List.mem_cons_of_mem a hb)
    rcases Action.eq_step_or_isInput (hactions a List.mem_cons_self) with rfl | ha
    · cases h
      exact ⟨[], nofun, rfl⟩
    · rw [m.stepsOf_cons_input ha] at h
      obtain ⟨input, hall, hs⟩ := ih hrest h
      exact ⟨a :: input, List.forall_mem_cons.mpr ⟨ha, hall⟩, hs⟩

/-- Between a step and the next one there is only input. -/
theorem stepsOf_succ {m s' : Machine} {actions : List Action} {t : Nat}
    (hactions : ∀ a ∈ actions, a.isLoad = false) (h : (m.stepsOf actions)[t + 1]? = some s') :
    ∃ s input, (m.stepsOf actions)[t]? = some s ∧ (∀ a ∈ input, a.isInput = true) ∧
      s' = s.step.machine.acts input := by
  -- Each action is passed over, and the number of steps still to come goes down at a step.
  induction actions generalizing m t with
  | nil => cases h
  | cons a actions ih =>
    have hrest : ∀ b ∈ actions, b.isLoad = false :=
      fun b hb => hactions b (List.mem_cons_of_mem a hb)
    rcases Action.eq_step_or_isInput (hactions a List.mem_cons_self) with rfl | ha
    · cases t with
      | zero =>
        obtain ⟨input, hall, hs⟩ := stepsOf_zero hrest h
        exact ⟨m, input, rfl, hall, hs⟩
      | succ t => exact ih hrest h
    · rw [m.stepsOf_cons_input ha] at h ⊢
      exact ih hrest h

end ChipEight.Machine
