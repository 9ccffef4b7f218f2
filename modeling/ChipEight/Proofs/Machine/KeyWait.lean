import ChipEight.Proofs.Machine.Interleaving
import ChipEight.Proofs.Machine.Loading

/-!
# Waiting for a key

A machine that waits for a key stays where it is until the host has pressed a key and released it
again. It sees the keypad only when it is stepped. The first step that finds a key down latches the
lowest one, and the first step after that which finds this key up ends the wait. Between these two
steps lies a stroke, which is read off the keypads that the steps find, and so is the host's doing.

How far a wait has come is its stage: either every step has found the keypad idle, or a key has been
latched and was held ever since. The key that the machine remembers says which of them it is, and
each step either ends a stroke or leads to the next stage.

## Main definitions

- `Machine.Stroke`: a key that is latched by one step and found released by a later one
- `Machine.Stage`: how far a wait has come
- `Machine.Alike`: machines that differ at most in the keypad, the timers, the flag of the screen
  and the key that is remembered

## Main statements

- `Machine.Stage.step`: one step of a wait
- `Machine.stage_of_stepsOf`: a wait until the end of the first stroke
- `Machine.key_wait`: a whole wait, whatever else the host does
-/

namespace ChipEight.Machine

/-! ## Keypads -/

/-- No key is down. -/
def Idle (keys : Keypad) : Prop := ∀ key : Nibble, keys.isDown key = false

/-- The key is down, and it is the lowest one that is. -/
def IsLowest (keys : Keypad) (key : Nibble) : Prop :=
  keys.isDown key = true ∧ ∀ lower < key, keys.isDown lower = false

instance (keys : Keypad) : Decidable (Idle keys) :=
  inferInstanceAs (Decidable (∀ key : Nibble, keys.isDown key = false))

instance (keys : Keypad) (key : Nibble) : Decidable (IsLowest keys key) :=
  inferInstanceAs (Decidable (keys.isDown key = true ∧ ∀ lower < key, keys.isDown lower = false))

theorem IsLowest.unique {keys : Keypad} {key key' : Nibble} (h : IsLowest keys key)
    (h' : IsLowest keys key') : key = key' := by
  rcases Nat.lt_trichotomy key.val key'.val with hlt | heq | hgt
  · have hup := h'.2 key hlt
    rw [h.1] at hup
    cases hup
  · exact Fin.ext heq
  · have hup := h.2 key' hgt
    rw [h'.1] at hup
    cases hup

theorem firstKeyDown?_eq_none {m : Machine} (h : m.firstKeyDown? = none) : Idle m.keypad := by
  intro key
  have hup := List.find?_eq_none.mp h key (List.mem_finRange key)
  exact Bool.eq_false_iff.mpr hup

theorem firstKeyDown?_eq_some {m : Machine} {key : Nibble} (h : m.firstKeyDown? = some key) :
    IsLowest m.keypad key := by
  obtain ⟨hdown, i, hi, hkey, hbefore⟩ := List.find?_eq_some_iff_getElem.mp h
  refine ⟨hdown, fun lower hlower => ?_⟩
  have hval : key.val = i := by
    rw [← hkey]
    simp
  have hup := hbefore lower.val (hval ▸ hlower)
  rw [List.getElem_finRange] at hup
  simpa using hup

/-! ## Strokes

`seen` holds the keypads that one step after the other finds. -/

section Strokes

variable (seen : List Keypad)

/-- Step `t₁` is the first that finds a key down, and `key` is the lowest one that it finds. -/
structure Latch (key : Nibble) (t₁ : Nat) : Prop where
  idle : ∀ j < t₁, ∀ keys ∈ seen[j]?, Idle keys
  lowest : ∃ keys ∈ seen[t₁]?, IsLowest keys key

/-- Every step after `t₁` and before `t` finds the key down. -/
def Held (key : Nibble) (t₁ t : Nat) : Prop :=
  ∀ j < t, ∀ keys ∈ seen[j]?, t₁ < j → keys.isDown key = true

/-- The key is latched at step `t₁`, and `t₂` is the first step after it that finds the key up. -/
structure Stroke (key : Nibble) (t₁ t₂ : Nat) : Prop extends Latch seen key t₁ where
  later : t₁ < t₂
  held : Held seen key t₁ t₂
  released : ∃ keys ∈ seen[t₂]?, keys.isDown key = false

/-- How far a wait has come before step `t`, by the key that is remembered: no key has been found
down, or one has been latched and is still held. -/
inductive Stage (t : Nat) : Option Nibble → Prop where
  | idle (hidle : ∀ j < t, ∀ keys ∈ seen[j]?, Idle keys) : Stage t none
  | held {key : Nibble} {t₁ : Nat} (hlatch : Latch seen key t₁) (hlater : t₁ < t)
      (hheld : Held seen key t₁ t) : Stage t (some key)

variable {seen} {key key' : Nibble} {t t₁ t₂ t₁' t₂' : Nat}

/-- What the steps before `t` find, and step `t` too, the steps before `t + 1` find. -/
theorem forall_seen_succ {Q : Nat → Keypad → Prop} {now : Keypad} (hseen : seen[t]? = some now)
    (hnow : Q t now) (h : ∀ j < t, ∀ keys ∈ seen[j]?, Q j keys) :
    ∀ j < t + 1, ∀ keys ∈ seen[j]?, Q j keys := by
  intro j hj keys hkeys
  rcases Nat.lt_succ_iff_lt_or_eq.mp hj with hlt | rfl
  · exact h j hlt keys hkeys
  · obtain rfl : now = keys := Option.some.inj (hseen.symm.trans hkeys)
    exact hnow

/-- A key that is latched is not found up at the same time. -/
theorem Latch.not_idle (h : Latch seen key t₁) : ¬∀ keys ∈ seen[t₁]?, Idle keys := by
  intro hidle
  obtain ⟨keys, hkeys, hlowest⟩ := h.lowest
  have hup := hidle keys hkeys key
  rw [hlowest.1] at hup
  cases hup

theorem Latch.unique (h : Latch seen key t₁) (h' : Latch seen key' t₁') :
    key = key' ∧ t₁ = t₁' := by
  rcases Nat.lt_trichotomy t₁ t₁' with hlt | rfl | hgt
  · exact absurd (h'.idle t₁ hlt) h.not_idle
  · obtain ⟨keys, hkeys, hlowest⟩ := h.lowest
    obtain ⟨keys', hkeys', hlowest'⟩ := h'.lowest
    obtain rfl : keys = keys' := Option.some.inj (hkeys.symm.trans hkeys')
    exact ⟨hlowest.unique hlowest', rfl⟩
  · exact absurd (h.idle t₁' hgt) h'.not_idle

/-- A stroke does not end while its key is held. -/
theorem Stroke.le_of_held (h : Stroke seen key t₁ t₂) (hheld : Held seen key t₁ t) : t ≤ t₂ := by
  apply Nat.le_of_not_lt
  intro hlt
  obtain ⟨keys, hkeys, hup⟩ := h.released
  have hdown := hheld t₂ hlt keys hkeys h.later
  rw [hup] at hdown
  cases hdown

theorem Stroke.unique (h : Stroke seen key t₁ t₂) (h' : Stroke seen key' t₁' t₂') :
    key = key' ∧ t₁ = t₁' ∧ t₂ = t₂' := by
  obtain ⟨rfl, rfl⟩ := h.toLatch.unique h'.toLatch
  exact ⟨rfl, rfl, Nat.le_antisymm (h'.le_of_held h.held) (h.le_of_held h'.held)⟩

/-- While a stroke lasts it decides what is remembered. -/
theorem Stroke.stage_eq (h : Stroke seen key t₁ t₂) {pending : Option Nibble}
    (hstage : Stage seen t pending) : pending = if t ≤ t₁ then none else some key := by
  cases hstage with
  | idle hidle =>
    have hle : t ≤ t₁ := Nat.le_of_not_lt fun hlt => h.not_idle (hidle t₁ hlt)
    rw [if_pos hle]
  | held hlatch hlater hheld =>
    obtain ⟨rfl, rfl⟩ := h.toLatch.unique hlatch
    rw [if_neg (Nat.not_le.mpr hlater)]

end Strokes

/-! ## One step of a wait -/

/-- Before the machine is an instruction that waits for a key. -/
structure Waits (m : Machine) (x : Nibble) : Prop where
  running : m.halted = false
  word : m.memory.word m.pc.toNat = .ok (.ofNibbles 0xF x 0x0 0xA)

theorem decode_awaitKey : ∀ x : Nibble,
    Instruction.decode (.ofNibbles 0xF x 0x0 0xA) = some { x := x, operation := .awaitKey } := by
  decide

theorem Waits.step {m : Machine} {x : Nibble} (hm : m.Waits x) :
    m.step.verdict = (m.awaitKey x).verdict ∧ m.step.machine = (m.awaitKey x).machine := by
  rw [step_of_decode hm.running hm.word (decode_awaitKey x)]
  exact ⟨rfl, rfl⟩

theorem Waits.step_of_none {m : Machine} {x : Nibble} (hm : m.Waits x)
    (hkey : m.pendingKey = none) : m.step.machine = { m with pendingKey := m.firstKeyDown? } := by
  rw [hm.step.2, awaitKey_of_none x hkey]

/-- The machine after a wait that has got a key: the key is in Vx, and the wait lies behind. -/
def served (m : Machine) (x key : Nibble) : Machine :=
  { (m.setRegister x key.toByte).advance with pendingKey := none }

/-- Either a stroke ends with a step, and the wait is over, or the wait goes on and comes to the
next stage. -/
theorem Stage.step {s : Machine} {x : Nibble} {seen : List Keypad} {t : Nat}
    (hs : s.Waits x) (hstage : Stage seen t s.pendingKey) (hseen : seen[t]? = some s.keypad) :
    (∃ key t₁, Stroke seen key t₁ t ∧ s.step.verdict = .ok .continued ∧
      s.step.machine = s.served x key) ∨
    (s.step.verdict = .ok .waiting ∧
      s.step.machine = { s with pendingKey := s.step.machine.pendingKey } ∧
      Stage seen (t + 1) s.step.machine.pendingKey) := by
  obtain ⟨hverdict, hmachine⟩ := hs.step
  rw [hverdict, hmachine]
  cases hkey : s.pendingKey with
  | none =>
    -- No key has been latched yet. This step does so if it finds one down.
    rw [hkey] at hstage
    obtain ⟨hidle⟩ := hstage
    rw [awaitKey_of_none x hkey]
    refine .inr ⟨rfl, rfl, ?_⟩
    change Stage seen (t + 1) s.firstKeyDown?
    cases hfirst : s.firstKeyDown? with
    | none => exact .idle (forall_seen_succ hseen (firstKeyDown?_eq_none hfirst) hidle)
    | some key =>
      have hlatch : Latch seen key t := ⟨hidle, s.keypad, hseen, firstKeyDown?_eq_some hfirst⟩
      have hheld : Held seen key t (t + 1) := fun j hj _ _ hafter =>
        absurd hafter (Nat.not_lt_of_le (Nat.le_of_lt_succ hj))
      exact .held hlatch (Nat.lt_succ_self t) hheld
  | some key =>
    -- A key is latched. Its stroke ends with this step if the key is found up.
    rw [hkey] at hstage
    cases hstage with
    | @held _ t₁ hlatch hlater hheld =>
    cases hdown : s.keypad.isDown key with
    | true =>
      rw [awaitKey_of_down x hkey hdown]
      refine .inr ⟨rfl, rfl, ?_⟩
      change Stage seen (t + 1) s.pendingKey
      rw [hkey]
      exact .held hlatch (Nat.lt_succ_of_lt hlater)
        (forall_seen_succ hseen (fun _ => hdown) hheld)
    | false =>
      rw [awaitKey_of_up x hkey hdown]
      exact .inl ⟨key, t₁, ⟨hlatch, hlater, hheld, s.keypad, hseen, hdown⟩, rfl, rfl⟩

/-! ## A whole wait -/

/-- Two machines differ at most in what input changes and in the key that is remembered. -/
structure Alike (m n : Machine) : Prop where
  memory : m.memory = n.memory
  picture : m.screen.bytes = n.screen.bytes
  pc : m.pc = n.pc
  index : m.index = n.index
  registers : m.registers = n.registers
  stack : m.stack = n.stack
  halted : m.halted = n.halted
  random : m.random = n.random

namespace Alike

variable {m n k : Machine} {x : Nibble}

theorem refl (m : Machine) : m.Alike m := ⟨rfl, rfl, rfl, rfl, rfl, rfl, rfl, rfl⟩

theorem symm (h : m.Alike n) : n.Alike m :=
  ⟨h.memory.symm, h.picture.symm, h.pc.symm, h.index.symm, h.registers.symm, h.stack.symm,
    h.halted.symm, h.random.symm⟩

theorem trans (h : m.Alike n) (h' : n.Alike k) : m.Alike k :=
  ⟨h.memory.trans h'.memory, h.picture.trans h'.picture, h.pc.trans h'.pc,
    h.index.trans h'.index, h.registers.trans h'.registers, h.stack.trans h'.stack,
    h.halted.trans h'.halted, h.random.trans h'.random⟩

theorem waits (h : m.Alike n) (hn : n.Waits x) : m.Waits x where
  running := h.halted.trans hn.running
  word := by
    rw [h.memory, h.pc]
    exact hn.word

theorem setPendingKey (m : Machine) (pending : Option Nibble) :
    { m with pendingKey := pending }.Alike m := ⟨rfl, rfl, rfl, rfl, rfl, rfl, rfl, rfl⟩

theorem served (h : m.Alike n) (x key : Nibble) : (m.served x key).Alike (n.served x key) where
  memory := h.memory
  picture := h.picture
  pc := congrArg (· + 2) h.pc
  index := h.index
  registers := congrArg (·.set x key.toByte) h.registers
  stack := h.stack
  halted := h.halted
  random := h.random

end Alike

/-- Input leaves a wait as it is. -/
theorem act_input (m : Machine) {a : Action} (ha : a.isInput = true) :
    (m.act a).Alike m ∧ (m.act a).pendingKey = m.pendingKey := by
  cases a with
  | load program => cases ha
  | step => cases ha
  | setKey key down => exact ⟨⟨rfl, rfl, rfl, rfl, rfl, rfl, rfl, rfl⟩, rfl⟩
  | tick => exact ⟨⟨rfl, rfl, rfl, rfl, rfl, rfl, rfl, rfl⟩, rfl⟩
  | acknowledgeScreen => exact ⟨⟨rfl, rfl, rfl, rfl, rfl, rfl, rfl, rfl⟩, rfl⟩

theorem acts_input (m : Machine) {input : List Action} (hinput : ∀ a ∈ input, a.isInput = true) :
    (m.acts input).Alike m ∧ (m.acts input).pendingKey = m.pendingKey := by
  apply acts_invariant (P := fun n => n.Alike m ∧ n.pendingKey = m.pendingKey) ?_ ⟨.refl m, rfl⟩
    hinput
  intro n a ha hn
  obtain ⟨halike, hkey⟩ := n.act_input ha
  exact ⟨halike.trans hn.1, hkey.trans hn.2⟩

section Wait

variable {m s : Machine} {x : Nibble} {actions : List Action} {t : Nat}

/-- The keypads that the steps among several actions find. -/
def keypadsSeen (m : Machine) (actions : List Action) : List Keypad :=
  (m.stepsOf actions).map keypad

theorem keypadsSeen_of_stepsOf (hs : (m.stepsOf actions)[t]? = some s) :
    (m.keypadsSeen actions)[t]? = some s.keypad := by
  rw [keypadsSeen, List.getElem?_map, hs]
  rfl

theorem exists_stepsOf {keys : Keypad} (h : (m.keypadsSeen actions)[t]? = some keys) :
    ∃ s, (m.stepsOf actions)[t]? = some s := by
  rw [keypadsSeen, List.getElem?_map] at h
  cases hs : (m.stepsOf actions)[t]? with
  | none =>
    rw [hs] at h
    cases h
  | some s => exact ⟨s, rfl⟩

/-- As long as no stroke has ended, the machine is as at the start of the wait, but that it
remembers what the stage of the wait says. -/
theorem stage_of_stepsOf (hwait : m.Waits x) (hpending : m.pendingKey = none)
    (hactions : ∀ a ∈ actions, a.isLoad = false)
    (hs : (m.stepsOf actions)[t]? = some s)
    (hopen : ∀ key t₁ t₂, Stroke (m.keypadsSeen actions) key t₁ t₂ → t ≤ t₂) :
    s.Alike m ∧ Stage (m.keypadsSeen actions) t s.pendingKey := by
  induction t generalizing s with
  | zero =>
    obtain ⟨input, hinput, rfl⟩ := stepsOf_zero hactions hs
    obtain ⟨halike, hkey⟩ := m.acts_input hinput
    rw [hkey, hpending]
    exact ⟨halike, .idle fun j hj => absurd hj (Nat.not_lt_zero j)⟩
  | succ t ih =>
    obtain ⟨s₀, input, hs₀, hinput, rfl⟩ := stepsOf_succ hactions hs
    obtain ⟨halike₀, hstage₀⟩ := ih hs₀ fun key t₁ t₂ h => Nat.le_of_succ_le (hopen key t₁ t₂ h)
    obtain ⟨halike, hkey⟩ := s₀.step.machine.acts_input hinput
    rw [hkey]
    rcases hstage₀.step (halike₀.waits hwait) (keypadsSeen_of_stepsOf hs₀) with
      ⟨key, t₁, hstroke, -, -⟩ | ⟨-, hsame, hstage⟩
    · -- A stroke that ends with the step before would have ended earlier.
      exact absurd (hopen key t₁ t hstroke) (Nat.not_succ_le_self t)
    · have hstep : s₀.step.machine.Alike s₀ := by
        rw [hsame]
        exact .setPendingKey s₀ _
      exact ⟨(halike.trans hstep).trans halike₀, hstage⟩

/-- A step before which no stroke ends, and with which none ends, goes on waiting. -/
theorem waiting_of_open (hwait : m.Waits x) (hpending : m.pendingKey = none)
    (hactions : ∀ a ∈ actions, a.isLoad = false)
    (hs : (m.stepsOf actions)[t]? = some s)
    (hopen : ∀ key t₁ t₂, Stroke (m.keypadsSeen actions) key t₁ t₂ → t < t₂) :
    s.Alike m ∧ s.step.verdict = .ok .waiting ∧
      s.step.machine = { s with pendingKey := s.step.machine.pendingKey } ∧
      Stage (m.keypadsSeen actions) (t + 1) s.step.machine.pendingKey := by
  have hle : ∀ key t₁ t₂, Stroke (m.keypadsSeen actions) key t₁ t₂ → t ≤ t₂ :=
    fun key t₁ t₂ h => Nat.le_of_lt (hopen key t₁ t₂ h)
  obtain ⟨halike, hstage⟩ := stage_of_stepsOf hwait hpending hactions hs hle
  rcases hstage.step (halike.waits hwait) (keypadsSeen_of_stepsOf hs) with
    ⟨key, t₁, hstroke, -, -⟩ | hgoes
  · exact absurd (hopen key t₁ t hstroke) (Nat.lt_irrefl t)
  · exact ⟨halike, hgoes⟩

/-- The step with which a stroke ends serves its key. -/
theorem served_of_stroke (hwait : m.Waits x) (hpending : m.pendingKey = none)
    (hactions : ∀ a ∈ actions, a.isLoad = false) {key : Nibble} {t₁ t₂ : Nat}
    (hs : (m.stepsOf actions)[t₂]? = some s)
    (hstroke : Stroke (m.keypadsSeen actions) key t₁ t₂) :
    s.Alike m ∧ s.step.verdict = .ok .continued ∧ s.step.machine = s.served x key := by
  have hle : ∀ key' t₁' t₂', Stroke (m.keypadsSeen actions) key' t₁' t₂' → t₂ ≤ t₂' :=
    fun _ _ _ h => Nat.le_of_eq (hstroke.unique h).2.2
  obtain ⟨halike, hstage⟩ := stage_of_stepsOf hwait hpending hactions hs hle
  rcases hstage.step (halike.waits hwait) (keypadsSeen_of_stepsOf hs) with
    ⟨key', t₁', hstroke', hserved⟩ | ⟨-, -, hstage⟩
  · obtain ⟨rfl, -⟩ := hstroke.unique hstroke'
    exact ⟨halike, hserved⟩
  · -- The wait cannot go on beyond the end of the stroke, since its key was found up.
    have hlatched : s.step.machine.pendingKey = some key := by
      rw [hstroke.stage_eq hstage, if_neg (by have := hstroke.later; omega)]
    rw [hlatched] at hstage
    cases hstage with
    | held hlatch _ hheld =>
      obtain ⟨-, rfl⟩ := hstroke.toLatch.unique hlatch
      exact absurd (hstroke.le_of_held hheld) (Nat.not_succ_le_self t₂)

/-- **Waiting for a key.** A machine waits for a key, and its host steps it and presses and
releases keys in any order.

1. As long as no stroke has ended, a step waits: it changes nothing but the key that is remembered.
2. The step with which a stroke ends puts the key of that stroke into Vx and goes on behind the
   wait, two addresses further.
3. What else the host does with the keys has no influence: if the same stroke is found among other
   actions, all steps up to its end have the same verdict and do the same to the machine. -/
theorem key_wait (hwait : m.Waits x) (hpending : m.pendingKey = none)
    (hactions : ∀ a ∈ actions, a.isLoad = false) :
    (∀ t s, (m.stepsOf actions)[t]? = some s →
      (∀ key t₁ t₂, Stroke (m.keypadsSeen actions) key t₁ t₂ → t < t₂) →
      s.Alike m ∧ s.step.verdict = .ok .waiting ∧
        s.step.machine = { s with pendingKey := s.step.machine.pendingKey }) ∧
    (∀ key t₁ t₂, Stroke (m.keypadsSeen actions) key t₁ t₂ →
      ∃ s, (m.stepsOf actions)[t₂]? = some s ∧ s.Alike m ∧ s.step.verdict = .ok .continued ∧
        s.step.machine =
          { (s.setRegister x key.toByte).advance with pendingKey := none } ∧
        s.step.machine.register x = key.toByte ∧ s.step.machine.pc = s.pc + 2) ∧
    ∀ others : List Action, (∀ a ∈ others, a.isLoad = false) →
      ∀ key t₁ t₂, Stroke (m.keypadsSeen actions) key t₁ t₂ →
        Stroke (m.keypadsSeen others) key t₁ t₂ →
        ∀ t ≤ t₂, ∀ s s', (m.stepsOf actions)[t]? = some s → (m.stepsOf others)[t]? = some s' →
          s.step.verdict = s'.step.verdict ∧ s.step.machine.Alike s'.step.machine ∧
            s.step.machine.pendingKey = s'.step.machine.pendingKey := by
  refine ⟨?_, ?_, ?_⟩
  · intro t s hs hopen
    obtain ⟨halike, hverdict, hmachine, -⟩ := waiting_of_open hwait hpending hactions hs hopen
    exact ⟨halike, hverdict, hmachine⟩
  · intro key t₁ t₂ hstroke
    obtain ⟨keys, hkeys, -⟩ := hstroke.released
    obtain ⟨s, hs⟩ := exists_stepsOf hkeys
    obtain ⟨halike, hverdict, hmachine⟩ := served_of_stroke hwait hpending hactions hs hstroke
    refine ⟨s, hs, halike, hverdict, hmachine, ?_, ?_⟩
    · rw [hmachine]
      exact register_setRegister ..
    · rw [hmachine]
      rfl
  · intro others hothers key t₁ t₂ hstroke hstroke' t hle s s' hs hs'
    rcases Nat.lt_or_eq_of_le hle with hlt | rfl
    · have hopen {actions : List Action} (h : Stroke (m.keypadsSeen actions) key t₁ t₂) :
          ∀ key t₁ t₂, Stroke (m.keypadsSeen actions) key t₁ t₂ → t < t₂ :=
        fun _ _ _ h' => (h.unique h').2.2 ▸ hlt
      obtain ⟨halike, hverdict, hmachine, hstage⟩ :=
        waiting_of_open hwait hpending hactions hs (hopen hstroke)
      obtain ⟨halike', hverdict', hmachine', hstage'⟩ :=
        waiting_of_open hwait hpending hothers hs' (hopen hstroke')
      refine ⟨hverdict.trans hverdict'.symm, ?_, ?_⟩
      · rw [hmachine, hmachine']
        exact ((Alike.setPendingKey s _).trans halike).trans
          ((Alike.setPendingKey s' _).trans halike').symm
      · rw [hstroke.stage_eq hstage, hstroke'.stage_eq hstage']
    · obtain ⟨halike, hverdict, hmachine⟩ :=
        served_of_stroke hwait hpending hactions hs hstroke
      obtain ⟨halike', hverdict', hmachine'⟩ :=
        served_of_stroke hwait hpending hothers hs' hstroke'
      refine ⟨hverdict.trans hverdict'.symm, ?_, ?_⟩
      · rw [hmachine, hmachine']
        exact (halike.trans halike'.symm).served x key
      · rw [hmachine, hmachine']
        rfl

end Wait

/-- A machine before an instruction that waits for a key and puts it into V3. -/
def atWait : Machine := fresh (.image #[0xF3, 0x0A]) (.ofSeed 0)

theorem waits_atWait : atWait.Waits 3 where
  running := rfl
  word := by
    have hcode : Word.ofBytes 0xF3 0x0A = .ofNibbles 0xF 3 0x0 0xA := by decide
    rw [← hcode]
    exact Memory.word_image (i := 0) (by decide) (by decide)

/-- A keypad on which the given keys are down. -/
def keypadWith (down : List Nibble) : Keypad := Vector.ofFn fun key => decide (key ∈ down)

/-- The host presses 7 and 5, which the machine sees. It does not see that 5 is released and
pressed again. Then the host presses 2, and later releases 5. -/
def hastyStroke : List Action :=
  [.step, .setKey 7 true, .setKey 5 true, .step, .setKey 5 false, .setKey 5 true, .setKey 2 true,
    .tick, .step, .setKey 5 false, .step]

/-- The host presses 5 and releases it. -/
def plainStroke : List Action :=
  [.step, .setKey 5 true, .step, .step, .setKey 5 false, .step]

theorem keypadsSeen_hastyStroke :
    atWait.keypadsSeen hastyStroke =
      [keypadWith [], keypadWith [5, 7], keypadWith [2, 5, 7], keypadWith [2, 7]] := by
  rw [keypadsSeen, map_keypad_stepsOf atWait (by decide)]
  change keypadsOf (Vector.replicate 16 false) hastyStroke = _
  decide

theorem keypadsSeen_plainStroke :
    atWait.keypadsSeen plainStroke =
      [keypadWith [], keypadWith [5], keypadWith [5], keypadWith []] := by
  rw [keypadsSeen, map_keypad_stepsOf atWait (by decide)]
  change keypadsOf (Vector.replicate 16 false) plainStroke = _
  decide

theorem stroke_of_four {k₀ k₁ k₂ k₃ : Keypad} {key : Nibble} (h₀ : Idle k₀)
    (h₁ : IsLowest k₁ key) (h₂ : k₂.isDown key = true) (h₃ : k₃.isDown key = false) :
    Stroke [k₀, k₁, k₂, k₃] key 1 3 := by
  refine ⟨⟨?_, k₁, rfl, h₁⟩, by decide, ?_, k₃, rfl, h₃⟩
  · intro j hj keys hkeys
    obtain rfl : j = 0 := by omega
    cases hkeys
    exact h₀
  · intro j hj keys hkeys hafter
    obtain rfl : j = 2 := by omega
    cases hkeys
    exact h₂

theorem key_wait_atWait :
    atWait.Waits 3 ∧ atWait.pendingKey = none ∧
      Stroke (atWait.keypadsSeen hastyStroke) 5 1 3 ∧
      Stroke (atWait.keypadsSeen plainStroke) 5 1 3 ∧
      ∃ s₂ s₃ s₃', (atWait.stepsOf hastyStroke)[2]? = some s₂ ∧
        (atWait.stepsOf hastyStroke)[3]? = some s₃ ∧ (atWait.stepsOf plainStroke)[3]? = some s₃' ∧
        s₂.step.verdict = .ok .waiting ∧ s₂.step.machine.register 3 = s₂.register 3 ∧
        s₃.step.verdict = .ok .continued ∧ s₃.step.machine.register 3 = 5 ∧
        s₃.pc = 0x200 ∧ s₃.step.machine.pc = 0x202 ∧
        s₃'.step.verdict = .ok .continued ∧
        s₃'.step.machine.registers = s₃.step.machine.registers := by
  have hfree : ∀ a ∈ hastyStroke, a.isLoad = false := by decide
  have hhasty : Stroke (atWait.keypadsSeen hastyStroke) 5 1 3 := by
    rw [keypadsSeen_hastyStroke]
    exact stroke_of_four (by decide) (by decide) (by decide) (by decide)
  have hplain : Stroke (atWait.keypadsSeen plainStroke) 5 1 3 := by
    rw [keypadsSeen_plainStroke]
    exact stroke_of_four (by decide) (by decide) (by decide) (by decide)
  have hseen : (atWait.keypadsSeen hastyStroke)[2]? = some (keypadWith [2, 5, 7]) := by
    rw [keypadsSeen_hastyStroke]
    rfl
  have hseen' : (atWait.keypadsSeen plainStroke)[3]? = some (keypadWith []) := by
    rw [keypadsSeen_plainStroke]
    rfl
  obtain ⟨s₂, hs₂⟩ := exists_stepsOf hseen
  obtain ⟨s₃', hs₃'⟩ := exists_stepsOf hseen'
  obtain ⟨hwaiting, hserved, hother⟩ := key_wait waits_atWait rfl hfree
  obtain ⟨-, hverdict₂, hmachine₂⟩ := hwaiting 2 s₂ hs₂ fun key t₁ t₂ h => by
    rw [← (hhasty.unique h).2.2]
    decide
  obtain ⟨s₃, hs₃, halike₃, hverdict₃, -, hregister₃, hpc₃⟩ := hserved 5 1 3 hhasty
  obtain ⟨hverdict, halike, -⟩ :=
    hother plainStroke (by decide) 5 1 3 hhasty hplain 3 (Nat.le_refl 3) s₃ s₃' hs₃ hs₃'
  refine ⟨waits_atWait, rfl, hhasty, hplain, s₂, s₃, s₃', hs₂, hs₃, hs₃', hverdict₂, ?_, hverdict₃,
    hregister₃, halike₃.pc, ?_, hverdict.symm.trans hverdict₃, halike.registers.symm⟩
  · rw [hmachine₂]
    rfl
  · rw [hpc₃, halike₃.pc]
    rfl

end ChipEight.Machine
