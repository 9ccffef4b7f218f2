import ChipEight.Proofs.Guarded.Listing
import ChipEight.Proofs.Guarded.Machine
import ChipEight.Proofs.Machine.Loading
import ChipEight.Proofs.Session.Hosting

/-!
# Guarded sessions

What a host does to a machine and a session, on their plain forms and with all operations guarded.
Whatever a host does, no operation is applied outside its domain, and the plain form goes on being
the plain form of what the host has.

That is why the definitions of the machine need no guards of their own. The depth of the call stack
stays within its slots, each key that is waited for is a nibble, and a run counts no further than
its budget. Plain forms do not have these facts in their types; they have them because they come
about from a machine that was switched on.

## Main definitions

- `PlainMachine.act`: one thing that a host does to a machine
- `PlainSession`: a machine with breakpoints and a budget
- `PlainSession.run`, `PlainSession.moves`: a run, and what a host does
- `Session.plain`: the plain form of a session

## Main statements

- `PlainMachine.act_plain`, `PlainSession.run_plain`, `PlainSession.moves_plain`: acting, running
  and a whole history never leave their domain
- `Session.moves_within_domain`: nothing that a host can do, look at or list leaves its domain
-/

namespace ChipEight

open Guarded

/-! ## Machines and their host -/

namespace PlainMachine

/-- Memory as it is before a program is loaded. -/
def glyphMemory : Guarded Memory := do
  let stop ← size (Glyphs.start + Glyphs.rows.length)
  return { bytes := ← overwrite Memory.zero.bytes Glyphs.start stop Glyphs.rows }

def powerOn (random : RandomSource) : Guarded PlainMachine := do
  let memory ← glyphMemory
  let pc ← word AddressSpace.programStart
  return {
    memory := memory
    screen := .blank
    pc := pc
    index := 0
    registers := Vector.replicate 16 0
    stack := { slots := Vector.replicate 76 0, depth := 0 }
    delay := 0
    sound := 0
    halted := false
    pendingKey := none
    keypad := Vector.replicate 16 false
    random := random }

variable (m : PlainMachine)

/-- Puts everything but the random source back to what it is after switching on, and a program into
memory. A program that is too large is refused before. -/
def load (program : Array UInt8) : Guarded (Except Fault Unit × PlainMachine) := do
  if AddressSpace.programCapacity < program.size then
    return (.error (.programTooLarge program.size), m)
  else
    let n ← powerOn m.random
    let stop ← size (AddressSpace.programStart + program.size)
    let bytes ← overwrite n.memory.bytes AddressSpace.programStart stop program.toList
    return (.ok (), { n with memory := { bytes := bytes } })

def setKey (key : UInt8) (down : Bool) : Guarded PlainMachine :=
  return { m with keypad := ← update m.keypad key.toNat down }

def tick : PlainMachine :=
  { m with
    delay := if m.delay = 0 then 0 else m.delay - 1
    sound := if m.sound = 0 then 0 else m.sound - 1 }

/-- The machine after an action, be it successful or not. -/
def act : Machine.Action → Guarded PlainMachine
  | .load program => return (← m.load program).2
  | .step => return (← m.step).2
  | .setKey key down => m.setKey key.toByte down
  | .tick => return m.tick
  | .acknowledgeScreen => return { m with screen := m.screen.acknowledge }

/-! ### Within the domain -/

theorem glyphMemory_eq : glyphMemory = .ok .withGlyphs := by
  have hfits : Glyphs.start + Glyphs.rows.length ≤ 4096 := by decide
  rw [glyphMemory, size_of_lt (by decide), ok_bind, Memory.zero.overwrite_range hfits]
  rfl

theorem powerOn_eq (random : RandomSource) :
    powerOn random = .ok (Machine.powerOn random).plain := by
  rw [powerOn, glyphMemory_eq, ok_bind, word_of_lt (by decide)]
  rfl

theorem load_plain (m : Machine) (program : Array UInt8) :
    m.plain.load program = .ok ((m.load program).verdict, (m.load program).machine.plain) := by
  by_cases h : program.size ≤ AddressSpace.programCapacity
  · have hfits : AddressSpace.programStart + program.toList.length ≤ 4096 := by
      rw [Array.length_toList]
      exact Nat.add_le_add_left h _
    have hwrite := Memory.withGlyphs.overwrite_range hfits
    rw [Array.length_toList] at hwrite hfits
    have hstop := size_of_lt (Nat.lt_of_le_of_lt hfits (by decide))
    have hpower : powerOn m.plain.random = .ok (Machine.powerOn m.random).plain := powerOn_eq _
    rw [load, if_neg (Nat.not_lt.mpr h), hpower, ok_bind, hstop, ok_bind, Machine.load, dif_pos h]
    exact congrArg (· >>= _) hwrite
  · rw [load, if_pos (Nat.not_le.mp h), Machine.load, dif_neg h]
    rfl

theorem setKey_plain (m : Machine) (key : Nibble) (down : Bool) :
    m.plain.setKey key.toByte down = .ok (m.setKey key down).plain := by
  rw [setKey, Nibble.toNat_toByte, update_of_lt key.isLt]
  rfl

/-- Acting on a machine never leaves its domain, and does to the plain form what it does to the
machine. -/
theorem act_plain (m : Machine) (a : Machine.Action) : m.plain.act a = .ok (m.act a).plain := by
  cases a with
  | load program =>
    rw [act, load_plain]
    rfl
  | step =>
    rw [act, step_plain]
    rfl
  | setKey key down => exact setKey_plain m key down
  | tick => rfl
  | acknowledgeScreen => rfl

end PlainMachine

/-! ## Sessions -/

/-- A machine with the breakpoints and the budget of its runs. -/
structure PlainSession where
  machine : PlainMachine
  maxSteps : UInt64
  breakpoints : Std.ExtTreeSet Word
  -- The breakpoint at which a run stopped last, until an instruction is executed.
  lastStop? : Option Word

namespace PlainSession

variable (s : PlainSession)

/-- Whether a run has to stop in front of the next instruction. -/
def mustStop : Bool :=
  s.breakpoints.contains s.machine.pc && s.lastStop? != some s.machine.pc

/-- Goes on with a run that has executed `steps` instructions. -/
def runFrom (s : PlainSession) (steps : Nat) : Guarded (Except Fault Report × PlainSession) :=
  if s.machine.halted then
    return (.ok ⟨.halted, steps⟩, s)
  else if s.maxSteps.toNat ≤ steps then
    return (.ok ⟨.budgetExhausted, steps⟩, s)
  else if s.mustStop then
    return (.ok ⟨.breakpoint s.machine.pc, steps⟩, { s with lastStop? := some s.machine.pc })
  else do
    let (verdict, m) ← s.machine.step
    match verdict with
    | .error fault => return (.error fault, { s with machine := m })
    | .ok progress =>
      -- The count of one more instruction has to fit before it is used.
      let _ ← size (steps + 1)
      match progress with
      | .waiting => return (.ok ⟨.waitingForKey, steps + 1⟩, { s with machine := m })
      | .halted => return (.ok ⟨.halted, steps + 1⟩, { s with machine := m, lastStop? := none })
      | .continued => runFrom { s with machine := m, lastStop? := none } (steps + 1)
termination_by s.maxSteps.toNat - steps

def run : Guarded (Except Fault Report × PlainSession) := s.runFrom 0

/-- What a host does: it acts on the session, or it puts the machine into a new one. -/
def move : Session.Move → Guarded PlainSession
  | .act .run => return (← s.run).2
  | .act (.addBreakpoint address) =>
    return { s with breakpoints := s.breakpoints.insert address }
  | .act (.removeBreakpoint address) =>
    return { s with breakpoints := s.breakpoints.erase address }
  | .act .clearBreakpoints => return { s with breakpoints := ∅ }
  | .act (.machine action) => return { s with machine := ← s.machine.act action }
  | .renew maxSteps =>
    return { machine := s.machine, maxSteps := maxSteps, breakpoints := ∅, lastStop? := none }

/-- A session of a machine that was just switched on. -/
def powerOn (random : RandomSource) : Guarded PlainSession :=
  return {
    machine := ← PlainMachine.powerOn random
    maxSteps := 1000000
    breakpoints := ∅
    lastStop? := none }

/-- The session after several moves, the first of the list first. -/
def moves (list : List Session.Move) : Guarded PlainSession := list.foldlM move s

end PlainSession

/-! ## The plain form -/

namespace Session

def plain (s : Session) : PlainSession where
  machine := s.machine.plain
  maxSteps := .ofNat s.settings.maxSteps
  breakpoints := s.breakpoints
  lastStop? := s.lastStop?

/-- Whether the budget of a session can be counted, as the budget of every session of a host can. -/
def Countable (s : Session) : Prop := s.settings.maxSteps < 0x10000000000000000

theorem countable_powerOn (random : RandomSource) : (powerOn random).Countable :=
  show 1000000 < 0x10000000000000000 by decide

theorem Countable.move {s : Session} (hs : s.Countable) (v : Move) : (s.move v).Countable := by
  cases v with
  | act action =>
    have hsettings := s.settings_acts [action]
    exact (congrArg (fun t => t.maxSteps < 0x10000000000000000) hsettings).mpr hs
  | renew maxSteps => exact maxSteps.toNat_lt

end Session

namespace PlainSession

theorem toNat_maxSteps_plain {s : Session} (hs : s.Countable) :
    s.plain.maxSteps.toNat = s.settings.maxSteps := Nat.mod_eq_of_lt hs

theorem halted_plain (s : Session) : s.plain.machine.halted = s.machine.halted := rfl

theorem mustStop_plain (s : Session) : s.plain.mustStop = s.mustStop := rfl

/-- The loop of a run never leaves its domain, since it counts no further than the budget. -/
theorem runFrom_plain {s : Session} (hs : s.Countable) {steps budget : Nat} (events : Array Event)
    (hbudget : steps + budget = s.settings.maxSteps) :
    s.plain.runFrom steps = .ok ((s.runFor steps events budget).verdict,
      (s.runFor steps events budget).session.plain) := by
  -- The count and what is left of the budget have one sum all the time.
  induction budget generalizing s steps events with
  | zero =>
    have hused : s.plain.maxSteps.toNat ≤ steps := by
      rw [toNat_maxSteps_plain hs]
      omega
    rw [runFrom, Session.runFor, halted_plain, if_pos hused]
    cases s.machine.halted <;> rfl
  | succ budget ih =>
    have hleft : ¬s.plain.maxSteps.toNat ≤ steps := by
      rw [toNat_maxSteps_plain hs]
      omega
    have hcount : size (steps + 1) = .ok (steps + 1) := by
      have hmax : s.settings.maxSteps < 0x10000000000000000 := hs
      exact size_of_lt (by omega)
    have hstep : s.plain.machine.step = .ok _ := PlainMachine.step_plain s.machine
    rw [runFrom, Session.runFor, halted_plain, if_neg hleft, mustStop_plain, hstep, ok_bind]
    cases s.machine.halted with
    | true => rfl
    | false =>
      cases s.mustStop with
      | true => rfl
      | false =>
        simp only [Bool.false_eq_true, if_false]
        cases s.machine.step.verdict with
        | error fault => rfl
        | ok progress =>
          simp only [hcount, ok_bind]
          cases progress with
          | waiting => rfl
          | halted => rfl
          | continued =>
            have hgoOn : s.goOn.Countable := hs
            have hnext : steps + 1 + budget = s.goOn.settings.maxSteps :=
              (Nat.add_right_comm steps 1 budget).trans hbudget
            exact ih hgoOn (events ++ s.machine.step.events) hnext

/-- A run never leaves its domain. It reports what the run of the session reports. -/
theorem run_plain {s : Session} (hs : s.Countable) :
    s.plain.run = .ok (s.run.verdict, s.run.session.plain) :=
  runFrom_plain hs #[] (Nat.zero_add _)

theorem move_plain {s : Session} (hs : s.Countable) (v : Session.Move) :
    s.plain.move v = .ok (s.move v).plain := by
  cases v with
  | renew maxSteps =>
    have hmax : maxSteps = UInt64.ofNat maxSteps.toNat := UInt64.ofNat_toNat.symm
    exact congrArg (fun budget => Except.ok (PlainSession.mk s.machine.plain budget ∅ none)) hmax
  | act action =>
    cases action with
    | run =>
      rw [move, run_plain hs]
      rfl
    | machine action =>
      have hact := PlainMachine.act_plain s.machine action
      exact congrArg (· >>= _) hact
    | addBreakpoint address => rfl
    | removeBreakpoint address => rfl
    | clearBreakpoints => rfl

theorem moves_plain {s : Session} (hs : s.Countable) (list : List Session.Move) :
    s.plain.moves list = .ok (s.moves list).plain := by
  induction list generalizing s with
  | nil => rfl
  | cons v list ih =>
    rw [moves, List.foldlM_cons, move_plain hs, ok_bind]
    exact ih (hs.move v)

theorem powerOn_eq (random : RandomSource) :
    powerOn random = .ok (Session.powerOn random).plain := by
  rw [powerOn, PlainMachine.powerOn_eq]
  rfl

end PlainSession

namespace Session

/-- Whatever a host does with a machine, from switching it on, no operation is applied outside its
domain: the plain form, with guards on all operations, goes through the whole history and stays the
plain form of what the host has. The same holds for looking at a pixel, be it on the screen or not,
for looking at the live return addresses, and for listing a program of any length that there is. -/
theorem moves_within_domain (random : RandomSource) (list : List Move) :
    let s := (powerOn random).moves list
    (PlainSession.powerOn random >>= fun start => start.moves list) = .ok s.plain ∧
      (∀ x y, s.plain.machine.screen.look x y = .ok (s.machine.screen.pixel x y)) ∧
      s.plain.machine.stack.live = .ok s.machine.stack.toList ∧
      ∀ program : Array UInt8, program.size ≤ longestProgram →
        (PlainDisassembly.lines <$> PlainDisassembly.ofProgram program)
          = .ok (Disassembly.ofProgram program).lines := by
  intro s
  refine ⟨?_, ?_, ?_, ?_⟩
  · rw [PlainSession.powerOn_eq, ok_bind]
    exact PlainSession.moves_plain (countable_powerOn random) list
  · exact s.machine.screen.look_eq
  · exact PlainStack.live_plain s.machine.stack
  · intro program hsize
    rw [PlainDisassembly.ofProgram_eq hsize, ← PlainDisassembly.lines_plain]
    rfl

/-- A host that runs a program which calls itself without end. -/
def overflowing : List Move :=
  [.act (.machine (.load #[0x22, 0x00])), .renew 100, .act .run]

/-- When the call stack is full the next call fails, and nothing is stored behind its slots. -/
theorem moves_within_domain_overflowing :
    (PlainSession.powerOn (.ofSeed 0) >>= fun start => start.moves overflowing)
        = .ok ((powerOn (.ofSeed 0)).moves overflowing).plain ∧
      (PlainDisassembly.lines <$> PlainDisassembly.ofProgram #[0x22, 0x00])
        = .ok ["off_0200:", "\tCALL off_0200"] := by
  obtain ⟨hmoves, -, -, hlisting⟩ := moves_within_domain (.ofSeed 0) overflowing
  exact ⟨hmoves, (hlisting #[0x22, 0x00] (by decide)).trans (congrArg Except.ok (by decide))⟩

end Session

end ChipEight
