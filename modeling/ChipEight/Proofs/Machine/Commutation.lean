import ChipEight.Proofs.Machine.Footprint

/-!
# Input between steps

A host that presses keys, lets the timers run down and looks at the screen does so at times of its
own. Mostly it does not matter whether an input comes just before a step or just after it: a step
only minds the timers if its instruction reads or sets one, the keys if it waits for one or tests
the one in question, and the flag of the screen if it paints. All others go the same way with the
input before them, and leave what the input finds.

So of a host that lets the machine make a number of steps, and gives it some input in the meantime,
nobody can tell at which steps the input came, as long as it met none of them. Only the keys have an
order among each other.

## Main definitions

- `Machine.Meets`: an instruction minds an input
- `Machine.Independent`: a step does not
- `Machine.FreeOf`: none of the first steps of a machine does
- `Action.SameInput`: actions with the same steps and the same input, at different times

## Main statements

- `Machine.step_act`: an input and a step that does not mind it can change places
- `Machine.acts_of_freeOf`: so the input may as well come when all steps are made
- `Machine.input_commutes`: when the input comes does not matter
-/

namespace ChipEight.Machine

/-! ## Input and instructions -/

/-- Whether an instruction minds an input: it looks at something that the input changes, or changes
it. A test of a key looks at no other key. -/
def Meets (m : Machine) (i : Instruction) : Action → Prop
  | .tick => i.operation = .readDelay ∨ i.operation = .writeDelay ∨ i.operation = .writeSound
  | .setKey key _ =>
    i.operation = .awaitKey ∨
      (i.operation = .skip .keyDown ∨ i.operation = .skip .keyUp) ∧
        Nibble.truncate (m.register i.x) = key
  | .acknowledgeScreen => i.operation = .clearScreen ∨ i.operation = .draw
  | .load _ | .step => True

/-- The instruction that a step performs, if there is one, does not mind an input. -/
def Independent (m : Machine) (a : Action) : Prop := ∀ i, m.performed? = some i → ¬m.Meets i a

/-- The parts that an input changes. -/
def Action.parts : Action → List Part
  | .setKey _ _ => [.keypad]
  | .tick => [.delay, .sound]
  | .acknowledgeScreen => [.screen]
  | .load _ | .step => []

theorem confined_input {a : Action} (ha : a.isInput = true) : Confined a.parts (·.act a) where
  keeps m p hp := by
    cases a with
    | load program => cases ha
    | step => cases ha
    | setKey key down => cases p <;> first | rfl | simp [Action.parts] at hp
    | tick => cases p <;> first | rfl | simp [Action.parts] at hp
    | acknowledgeScreen => cases p <;> first | rfl | simp [Action.parts] at hp
  determined m n h := by
    cases a with
    | load program => cases ha
    | step => cases ha
    | setKey key down =>
      have hkeypad : m.keypad = n.keypad := h .keypad (.head _)
      have hset : m.keypad.set key down = n.keypad.set key down := by rw [hkeypad]
      exact List.forall_mem_singleton.mpr hset
    | tick =>
      have hdelay : m.delay = n.delay := h .delay (.head _)
      have hsound : m.sound = n.sound := h .sound (.tail _ (.head _))
      refine List.forall_mem_cons.mpr ⟨?_, List.forall_mem_singleton.mpr ?_⟩
      · exact congrArg (fun timer : UInt8 => if timer = 0 then 0 else timer - 1) hdelay
      · exact congrArg (fun timer : UInt8 => if timer = 0 then 0 else timer - 1) hsound
    | acknowledgeScreen =>
      have hscreen : m.screen = n.screen := h .screen (.head _)
      exact List.forall_mem_singleton.mpr (congrArg Screen.acknowledge hscreen)

theorem steers_not_parts (a : Action) : ∀ p ∈ steers, p ∉ a.parts := by
  cases a <;> simp [steers, Action.parts]

/-- The operations that touch what a host changes. -/
theorem mem_footprint_iff (op : Operation) :
    (.delay ∈ footprint op ↔ op = .readDelay ∨ op = .writeDelay) ∧
      (.sound ∈ footprint op ↔ op = .writeSound) ∧
      (.keypad ∈ footprint op ↔ op = .awaitKey ∨ op = .skip .keyDown ∨ op = .skip .keyUp) ∧
      (.screen ∈ footprint op ↔ op = .clearScreen ∨ op = .draw) := by
  cases op with
  | skip condition => cases condition <;> simp [footprint, sources, targets]
  | _ => simp [footprint, sources, targets]

section Input

variable {m : Machine} {a : Action} (ha : a.isInput = true)
include ha

/-- Input does not change which instruction comes next. -/
theorem performed?_act : (m.act a).performed? = m.performed? :=
  performed?_congr fun p hp => (confined_input ha).keeps m p (steers_not_parts a p hp)

theorem independent_act {b : Action} : (m.act a).Independent b ↔ m.Independent b := by
  have hregisters : (m.act a).registers = m.registers := (m.act_input ha).1.registers
  have hmeets (i : Instruction) : (m.act a).Meets i b = m.Meets i b := by
    cases b <;> simp only [Meets, register, hregisters]
  simp only [Independent, performed?_act ha, hmeets]

/-- An instruction that an input gets in touch with and that does not mind it tests another key. -/
theorem exists_test_of_not_meets {i : Instruction} {p : Part} (hp : p ∈ footprint i.operation)
    (hparts : p ∈ a.parts) (hmeets : ¬m.Meets i a) :
    ∃ key down condition, a = .setKey key down ∧ i.operation = .skip condition ∧
      Nibble.truncate (m.register i.x) ≠ key := by
  obtain ⟨hdelay, hsound, hkeypad, hscreen⟩ := mem_footprint_iff i.operation
  cases a with
  | load program => cases ha
  | step => cases ha
  | tick =>
    have hp' : p = .delay ∨ p = .sound := by simpa [Action.parts] using hparts
    refine absurd ?_ hmeets
    rcases hp' with rfl | rfl
    · exact (hdelay.mp hp).elim .inl fun h => .inr (.inl h)
    · exact .inr (.inr (hsound.mp hp))
  | acknowledgeScreen =>
    obtain rfl : p = .screen := by simpa [Action.parts] using hparts
    exact absurd (hscreen.mp hp) hmeets
  | setKey key down =>
    obtain rfl : p = .keypad := by simpa [Action.parts] using hparts
    obtain ⟨hawait, htest⟩ := not_or.mp hmeets
    have hskip := (hkeypad.mp hp).resolve_left hawait
    have hother : Nibble.truncate (m.register i.x) ≠ key := fun h => htest ⟨hskip, h⟩
    rcases hskip with hskip | hskip
    · exact ⟨key, down, _, rfl, hskip, hother⟩
    · exact ⟨key, down, _, rfl, hskip, hother⟩

/-- An instruction and an input that it does not mind can change places. -/
theorem perform_act {i : Instruction} (hmeets : ¬m.Meets i a) :
    (m.act a).perform i = (m.perform i).map (·.act a) := by
  by_cases htouch : ∃ p ∈ footprint i.operation, p ∈ a.parts
  · obtain ⟨p, hp, hparts⟩ := htouch
    obtain ⟨key, down, condition, rfl, hskip, hother⟩ := exists_test_of_not_meets ha hp hparts hmeets
    have hdown : (m.setKey key down).keypad.isDown (Nibble.truncate (m.register i.x))
        = m.keypad.isDown (Nibble.truncate (m.register i.x)) :=
      Vector.getElem_set_ne key.isLt _ fun h => hother (Fin.ext h.symm)
    have hholds : (m.setKey key down).holds condition i.toOperands
        = m.holds condition i.toOperands := by
      cases condition with
      | keyDown => exact hdown
      | keyUp => exact congrArg not hdown
      | _ => rfl
    simp only [perform, act, hskip, hholds]
    rfl
  · exact perform_of_confined (confined_input ha) m fun p hp hparts => htouch ⟨p, hp, hparts⟩

/-- A step and an input that it does not mind can change places. -/
theorem step_act (hfree : m.Independent a) : (m.act a).step = m.step.map (·.act a) :=
  step_of_confined (confined_input ha) m (steers_not_parts a)
    fun i hi => perform_act ha (hfree i hi)

/-- Behind the input the host is told the same by the step. -/
theorem answer_act (hfree : m.Independent a) : (m.act a).answer .step = m.answer .step := by
  simp only [answer, step_act ha hfree, Step.map]

/-- Behind the step the host is told the same by the input. -/
theorem answer_step (hfree : m.Independent a) : m.step.machine.answer a = m.answer a := by
  cases a with
  | load program => cases ha
  | step => cases ha
  | setKey key down => rfl
  | tick => rfl
  | acknowledgeScreen =>
    suffices hscreen : m.step.machine.screen = m.screen by simp only [answer, hscreen]
    apply step_keeps (P := fun n => n.screen = m.screen) rfl
    intro opcode i progress hrun hword hdecode hok
    -- An instruction that is performed does not paint.
    have hpaint := hfree i (performed?_of_perform hrun hword hdecode hok).1
    apply m.perform_agrees (p := .screen) (by decide)
    refine fun htarget => hpaint ((mem_footprint_iff i.operation).2.2.2.mp ?_)
    exact List.mem_cons_of_mem _ (List.mem_append_right _ htarget)

end Input

/-! ## Input among many steps -/

theorem Action.count_step_cons {a : Action} (ha : a.isInput = true) (actions : List Action) :
    (a :: actions).count .step = actions.count .step := by
  apply List.count_cons_of_ne
  rintro rfl
  cases ha

/-- If the machine is only stepped, none of the first `count` steps minds any of the given
inputs. -/
def FreeOf (m : Machine) (inputs : List Action) (count : Nat) : Prop :=
  ∀ j < count, ∀ a ∈ inputs, (m.after j).Independent a

section FreeOf

variable {m : Machine} {a : Action} {inputs : List Action} {count : Nat}

theorem freeOf_zero : m.FreeOf inputs 0 := fun j hj => absurd hj (Nat.not_lt_zero j)

theorem freeOf_succ :
    m.FreeOf inputs (count + 1) ↔
      m.FreeOf inputs count ∧ ∀ a ∈ inputs, (m.after count).Independent a := by
  simp only [FreeOf, Nat.lt_succ_iff_lt_or_eq, or_imp, forall_and, forall_eq]

/-- The first step and the later ones. -/
theorem freeOf_succ' :
    m.FreeOf inputs (count + 1) ↔
      (∀ a ∈ inputs, m.Independent a) ∧ m.step.machine.FreeOf inputs count := by
  constructor
  · intro h
    refine ⟨h 0 (Nat.zero_lt_succ count), fun j hj => ?_⟩
    rw [after_step]
    exact h (j + 1) (Nat.succ_lt_succ hj)
  · rintro ⟨hfirst, hlater⟩ j hj
    cases j with
    | zero => exact hfirst
    | succ j =>
      rw [← after_step]
      exact hlater j (Nat.lt_of_succ_lt_succ hj)

/-- An input may as well come behind a number of steps that do not mind it. -/
theorem after_act (ha : a.isInput = true) (hmem : a ∈ inputs) (hfree : m.FreeOf inputs count) :
    (m.act a).after count = (m.after count).act a := by
  induction count with
  | zero => rfl
  | succ count ih =>
    obtain ⟨hbefore, hlast⟩ := freeOf_succ.mp hfree
    rw [after_succ, ih hbefore, step_act ha (hlast a hmem)]
    rfl

/-- Input does not change which steps mind any. -/
theorem freeOf_act (ha : a.isInput = true) (hmem : a ∈ inputs) :
    (m.act a).FreeOf inputs count ↔ m.FreeOf inputs count := by
  induction count with
  | zero => exact ⟨fun _ => freeOf_zero, fun _ => freeOf_zero⟩
  | succ count ih =>
    rw [freeOf_succ, freeOf_succ, ih]
    refine and_congr_right fun hbefore => ?_
    rw [after_act ha hmem hbefore]
    simp only [independent_act ha]

/-- Whether steps mind the input among which they are made can be seen without it. -/
theorem freeOf_iff {actions : List Action} (hload : ∀ a ∈ actions, a.isLoad = false)
    (hinputs : ∀ a ∈ actions, a.isInput = true → a ∈ inputs) :
    m.FreeOf inputs (actions.count .step) ↔
      ∀ s ∈ m.stepsOf actions, ∀ a ∈ inputs, s.Independent a := by
  induction actions generalizing m with
  | nil => exact ⟨fun _ s hs => absurd hs List.not_mem_nil, fun _ => freeOf_zero⟩
  | cons a actions ih =>
    obtain ⟨ha, hload'⟩ := List.forall_mem_cons.mp hload
    obtain ⟨hmem, hinputs'⟩ := List.forall_mem_cons.mp hinputs
    rcases Action.eq_step_or_isInput ha with rfl | hinput
    · rw [List.count_cons_self, freeOf_succ', ih hload' hinputs', stepsOf, List.forall_mem_cons]
    · rw [Action.count_step_cons hinput, m.stepsOf_cons_input hinput, ← ih hload' hinputs',
        freeOf_act hinput (hmem hinput)]

/-- If no step minds the input, the steps go as they would without it, and it may as well come when
they are all made. -/
theorem acts_of_freeOf {actions : List Action} (hload : ∀ a ∈ actions, a.isLoad = false)
    (hinputs : ∀ a ∈ actions, a.isInput = true → a ∈ inputs)
    (hfree : m.FreeOf inputs (actions.count .step)) :
    (m.stepsOf actions).map (·.answer .step)
        = (List.range (actions.count .step)).map (fun j => (m.after j).answer .step) ∧
      m.acts actions = (m.after (actions.count .step)).acts (actions.filter Action.isInput) := by
  -- The first step, or an input in front of it, is taken off, and the other steps are looked at
  -- from there.
  induction actions generalizing m with
  | nil => exact ⟨rfl, rfl⟩
  | cons a actions ih =>
    obtain ⟨ha, hload'⟩ := List.forall_mem_cons.mp hload
    obtain ⟨hmem, hinputs'⟩ := List.forall_mem_cons.mp hinputs
    rcases Action.eq_step_or_isInput ha with rfl | hinput
    · rw [List.count_cons_self] at hfree ⊢
      obtain ⟨hanswers, hacts⟩ := ih hload' hinputs' (freeOf_succ'.mp hfree).2
      simp only [after_step] at hanswers hacts
      constructor
      · rw [stepsOf, List.map_cons, hanswers, List.range_succ_eq_map, List.map_cons, List.map_map]
        rfl
      · exact hacts
    · rw [Action.count_step_cons hinput] at hfree ⊢
      obtain ⟨hanswers, hacts⟩ := ih hload' hinputs' ((freeOf_act hinput (hmem hinput)).mpr hfree)
      have hafter : ∀ j ≤ actions.count .step, (m.act a).after j = (m.after j).act a :=
        fun j hj => after_act hinput (hmem hinput) fun i hi => hfree i (Nat.lt_of_lt_of_le hi hj)
      constructor
      · rw [m.stepsOf_cons_input hinput, hanswers]
        refine List.map_congr_left fun j hj => ?_
        have hlt : j < actions.count .step := List.mem_range.mp hj
        rw [hafter j (Nat.le_of_lt hlt), answer_act hinput (hfree j hlt a (hmem hinput))]
      · rw [acts_cons, hacts, hafter _ (Nat.le_refl _), List.filter_cons_of_pos hinput, acts_cons]

end FreeOf

/-! ## Input of several kinds -/

def Action.isKey : Action → Bool
  | .setKey _ _ => true
  | _ => false

/-- An action may come behind others with which it can change places one by one. -/
theorem acts_act {a : Action} {actions : List Action}
    (h : ∀ b ∈ actions, ∀ n : Machine, (n.act a).act b = (n.act b).act a) (m : Machine) :
    (m.act a).acts actions = (m.acts actions).act a := by
  induction actions generalizing m with
  | nil => rfl
  | cons b actions ih =>
    obtain ⟨hb, hrest⟩ := List.forall_mem_cons.mp h
    rw [acts_cons, acts_cons, hb m, ih hrest]

theorem exists_setKey_of_mem {b : Action} {actions : List Action} (h : b ∈ actions.filter Action.isKey) :
    ∃ key down, b = .setKey key down := by
  have hkey := (List.mem_filter.mp h).2
  cases b with
  | setKey key down => exact ⟨key, down, rfl⟩
  | _ => cases hkey

/-- Input may be sorted: the keys in their order, then the periods of the timers, and last the looks
at the screen. -/
theorem acts_sorted (m : Machine) (actions : List Action) :
    m.acts (actions.filter Action.isInput)
      = ((m.acts (actions.filter Action.isKey)).acts
          (List.replicate (actions.count .tick) .tick)).acts
            (List.replicate (actions.count .acknowledgeScreen) .acknowledgeScreen) := by
  induction actions generalizing m with
  | nil => rfl
  | cons a actions ih =>
    cases a with
    | load program => exact ih m
    | step => exact ih m
    | setKey key down => exact ih (m.setKey key down)
    | tick =>
      have hkeys : m.tick.acts (actions.filter Action.isKey)
          = (m.acts (actions.filter Action.isKey)).tick := by
        refine acts_act (a := .tick) (fun b hb n => ?_) m
        obtain ⟨key, down, rfl⟩ := exists_setKey_of_mem hb
        rfl
      rw [List.count_cons_self, List.replicate_succ, acts_cons]
      refine (ih m.tick).trans ?_
      rw [hkeys]
      rfl
    | acknowledgeScreen =>
      have hkeys : m.acknowledgeScreen.acts (actions.filter Action.isKey)
          = (m.acts (actions.filter Action.isKey)).acknowledgeScreen := by
        refine acts_act (a := .acknowledgeScreen) (fun b hb n => ?_) m
        obtain ⟨key, down, rfl⟩ := exists_setKey_of_mem hb
        rfl
      have hticks (n : Machine) (count : Nat) :
          n.acknowledgeScreen.acts (List.replicate count .tick)
            = (n.acts (List.replicate count .tick)).acknowledgeScreen := by
        refine acts_act (a := .acknowledgeScreen) (fun b hb k => ?_) n
        obtain rfl := List.eq_of_mem_replicate hb
        rfl
      rw [List.count_cons_self, List.replicate_succ, acts_cons]
      refine (ih m.acknowledgeScreen).trans ?_
      rw [hkeys, hticks]
      rfl

/-! ## The time of input does not matter -/

/-- The same number of steps and the same input, spread over them in another way. Presses and
releases of keys come in the same order. -/
structure Action.SameInput (xs ys : List Action) : Prop where
  steps : xs.count .step = ys.count .step
  keys : xs.filter Action.isKey = ys.filter Action.isKey
  ticks : xs.count .tick = ys.count .tick
  looks : xs.count .acknowledgeScreen = ys.count .acknowledgeScreen

theorem Action.SameInput.mem {xs ys : List Action} (h : SameInput xs ys) {a : Action} (ha : a ∈ ys)
    (hinput : a.isInput = true) : a ∈ xs := by
  cases a with
  | load program => cases hinput
  | step => cases hinput
  | setKey key down =>
    have hkey : .setKey key down ∈ xs.filter Action.isKey :=
      h.keys ▸ List.mem_filter.mpr ⟨ha, rfl⟩
    exact (List.mem_filter.mp hkey).1
  | tick => exact List.count_pos_iff.mp (h.ticks ▸ List.count_pos_iff.mpr ha)
  | acknowledgeScreen => exact List.count_pos_iff.mp (h.looks ▸ List.count_pos_iff.mpr ha)

/-- **The time of input does not matter.**

1. An input may come before a step or behind it, if the step does not mind it: the host is told the
   same by both, and the machine ends up the same. A step that performs no instruction, since the
   machine has halted or the step fails, minds none.
2. If a host makes steps with some input among them, and none of the steps minds any of it, then
   each step tells the same, and the machine ends up the same, however the input is spread over the
   steps. Only the keys have to come in the same order. -/
theorem input_commutes :
    (∀ (m : Machine) (a : Action), a.isInput = true → m.Independent a →
      (m.act a).answer .step = m.answer .step ∧
      (m.act .step).answer a = m.answer a ∧
      (m.act a).act .step = (m.act .step).act a) ∧
    ∀ (m : Machine) (xs ys : List Action),
      (∀ a ∈ xs, a.isLoad = false) → (∀ a ∈ ys, a.isLoad = false) → Action.SameInput xs ys →
      (∀ s ∈ m.stepsOf xs, ∀ a ∈ xs, a.isInput = true → s.Independent a) →
        (m.stepsOf xs).map (·.answer .step) = (m.stepsOf ys).map (·.answer .step) ∧
        m.acts xs = m.acts ys := by
  constructor
  · intro m a ha hfree
    exact ⟨answer_act ha hfree, answer_step ha hfree, congrArg Step.machine (step_act ha hfree)⟩
  · intro m xs ys hxs hys hsame hfree
    -- Both come to the same as all steps without input, and then the input sorted by kinds.
    have hin : ∀ a ∈ xs, a.isInput = true → a ∈ xs.filter Action.isInput :=
      fun a ha hinput => List.mem_filter.mpr ⟨ha, hinput⟩
    have hbare : m.FreeOf (xs.filter Action.isInput) (xs.count .step) :=
      (freeOf_iff hxs hin).mpr fun s hs a ha =>
        hfree s hs a (List.mem_filter.mp ha).1 (List.mem_filter.mp ha).2
    obtain ⟨hanswers, hacts⟩ := acts_of_freeOf hxs hin hbare
    rw [hsame.steps] at hbare
    obtain ⟨hanswers', hacts'⟩ :=
      acts_of_freeOf hys (fun a ha hinput => hin a (hsame.mem ha hinput) hinput) hbare
    constructor
    · rw [hanswers, hanswers', hsame.steps]
    · rw [hacts, hacts', acts_sorted, acts_sorted, hsame.steps, hsame.keys, hsame.ticks,
        hsame.looks]

/-- A machine that tests whether key 5 is down. -/
def testingFive : Machine :=
  { fresh (.image #[0xE0, 0x9E]) (.ofSeed 0) with registers := Vector.replicate 16 5 }

/-- A period of the timers passes and key 7 goes down before the test, and the host looks at the
screen behind it. -/
def earlyInput : List Action := [.tick, .setKey 7 true, .step, .acknowledgeScreen]

def lateInput : List Action := [.acknowledgeScreen, .step, .setKey 7 true, .tick]

theorem performed?_testingFive : testingFive.performed? = some { operation := .skip .keyDown } := by
  have hword : testingFive.memory.word testingFive.pc.toNat = .ok (.ofBytes 0xE0 0x9E) :=
    Memory.word_image (i := 0) (by decide) (by decide)
  exact (performed?_of_perform rfl hword (by decide) rfl).1

/-- The test does not mind the input. -/
theorem independent_testingFive {a : Action} (ha : a ∈ earlyInput) (hinput : a.isInput = true) :
    testingFive.Independent a := by
  intro i hi
  obtain rfl := Option.some.inj (performed?_testingFive.symm.trans hi)
  have hregister : testingFive.register 0 = 5 := rfl
  have hother : Nibble.truncate 5 ≠ 7 := by decide
  simp only [earlyInput, List.mem_cons, List.not_mem_nil, or_false] at ha
  rcases ha with rfl | rfl | rfl | rfl
  · simp [Meets]
  · simp [Meets, hregister, hother]
  · cases hinput
  · simp [Meets]

theorem input_commutes_testingFive :
    (strayReturn.act .tick).answer .step = strayReturn.answer .step ∧
      (testingFive.stepsOf earlyInput).map (·.answer .step)
        = (testingFive.stepsOf lateInput).map (·.answer .step) ∧
      testingFive.acts earlyInput = testingFive.acts lateInput := by
  obtain ⟨hstep, hspread⟩ := input_commutes
  constructor
  · -- A step that fails minds nothing.
    have hnone : strayReturn.performed? = none := performed?_of_error step_verdict_strayReturn
    exact (hstep strayReturn .tick rfl fun i hi => nomatch hnone.symm.trans hi).1
  · apply hspread testingFive earlyInput lateInput (by decide) (by decide) ⟨rfl, rfl, rfl, rfl⟩
    intro s hs a ha hinput
    obtain rfl : s = (testingFive.act .tick).act (.setKey 7 true) := List.mem_singleton.mp hs
    rw [independent_act rfl, independent_act rfl]
    exact independent_testingFive ha hinput

end ChipEight.Machine
