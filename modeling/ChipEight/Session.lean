import Std.Data.ExtTreeSet
import ChipEight.Machine.Step

/-!
# Sessions

A session drives a machine through bounded runs with breakpoints. A run executes
instructions until the program halts, waits for a key, reaches a breakpoint, fails, or has
used up the budget of instructions.

A run stops in front of the instruction at a breakpoint. So that the next run does not stop
there again, the session remembers where it stopped last; executing an instruction
clears that memory, unless the instruction is a key wait that stays where it is.

## Main definitions

- `Settings`, `Session`: the budget and seed, and the machine with its breakpoints
- `Outcome`, `Report`: why a run stopped, and after how many instructions
- `Session.run`: one run
- `Run.messages`: the log of a run
-/

namespace ChipEight

/-- What a session is set up with: how many instructions one run may execute, and the seed
of the random source, if it is not left to the host. -/
structure Settings where
  maxSteps : Nat := 1000000
  seed? : Option UInt64 := none
  deriving DecidableEq

/-- Why a run stopped. -/
inductive Outcome where
  | halted
  | budgetExhausted
  | waitingForKey
  -- The instruction at this address was not executed.
  | breakpoint (address : Word)
  deriving DecidableEq, Repr

def Outcome.text : Outcome → String
  | .halted => "halted"
  | .budgetExhausted => "instruction budget exhausted"
  | .waitingForKey => "waiting for a key"
  | .breakpoint address => "hit breakpoint at 0x" ++ Hex.padded 3 address.toNat

/-- Why a run stopped, and how many instructions it executed. -/
structure Report where
  outcome : Outcome
  steps : Nat
  deriving DecidableEq, Repr

def Report.message (r : Report) : Message :=
  ⟨.debug, "run stopped after " ++ toString r.steps ++ " instructions: " ++ r.outcome.text⟩

/-- A machine with the settings and breakpoints of its runs. -/
structure Session where
  machine : Machine
  settings : Settings
  breakpoints : Std.ExtTreeSet Word := ∅
  -- The breakpoint at which a run stopped last, until an instruction is executed.
  lastStop? : Option Word := none

/-- What one run yields: a report or a fault, the session after it, and what the machine
reported on the way. -/
structure Run where
  verdict : Except Fault Report
  session : Session
  events : Array Event

/-- The log of a run: what the machine reported, and why a successful run stopped. -/
def Run.messages (r : Run) : List Message :=
  r.events.toList.map Event.message ++
    match r.verdict with
    | .ok report => [report.message]
    | .error _ => []

namespace Session

/-- A session for a program. The random source is the one of the seed, or the given one if
the settings have no seed. -/
def start (program : Array UInt8) (settings : Settings) (entropy : RandomSource) :
    Except Fault Session := do
  let random := (settings.seed?.map RandomSource.ofSeed).getD entropy
  let loaded := (Machine.powerOn random).load program
  loaded.verdict
  return { machine := loaded.machine, settings := settings }

/-! ## Breakpoints -/

def addBreakpoint (s : Session) (address : Word) : Session :=
  { s with breakpoints := s.breakpoints.insert address }

def removeBreakpoint (s : Session) (address : Word) : Session :=
  { s with breakpoints := s.breakpoints.erase address }

def clearBreakpoints (s : Session) : Session := { s with breakpoints := ∅ }

/-- Whether a run has to stop in front of the next instruction. -/
def mustStop (s : Session) : Bool :=
  s.breakpoints.contains s.machine.pc && s.lastStop? != some s.machine.pc

/-! ## Runs -/

/-- Goes on with a run that has executed `steps` instructions, reported `events`, and may
execute `budget` more. That the machine has halted is noticed before anything else, so also
without a budget. -/
def runFor (s : Session) (steps : Nat) (events : Array Event) : (budget : Nat) → Run
  | 0 => ⟨.ok ⟨if s.machine.halted then .halted else .budgetExhausted, steps⟩, s, events⟩
  | budget + 1 =>
    if s.machine.halted then
      ⟨.ok ⟨.halted, steps⟩, s, events⟩
    else if s.mustStop then
      let address := s.machine.pc
      ⟨.ok ⟨.breakpoint address, steps⟩, { s with lastStop? := some address }, events⟩
    else
      let done := s.machine.step
      let events := events ++ done.events
      match done.verdict with
      | .error fault => ⟨.error fault, { s with machine := done.machine }, events⟩
      -- A key wait has not left its place, so the memory of the last stop is kept.
      | .ok .waiting =>
        ⟨.ok ⟨.waitingForKey, steps + 1⟩, { s with machine := done.machine }, events⟩
      | .ok .halted =>
        ⟨.ok ⟨.halted, steps + 1⟩,
          { s with machine := done.machine, lastStop? := none }, events⟩
      | .ok .continued =>
        runFor { s with machine := done.machine, lastStop? := none } (steps + 1) events budget

def run (s : Session) : Run := s.runFor 0 #[] s.settings.maxSteps

end Session

end ChipEight
