import ChipEight.CommandLine
import ChipEight.Listing

/-!
# What the command line answers

A command that succeeds prints lines and exits with zero. One that fails prints nothing,
explains itself on the error stream, first in general and then with the cause, and exits
with one.

After a run the state of the machine is shown: the program counter, the index register and
the timers, the registers, the live return addresses, and the picture with one character a
pixel.

## Main definitions

- `Machine.summary`: the state of the machine in lines
- `Response`: exit code and lines
- `Command.respond`: the answer to a command, given the file it works on
-/

namespace ChipEight

namespace Machine

def registerText (m : Machine) (r : Nibble) : String :=
  Instruction.registerName r ++ "=" ++ Hex.padded 2 (m.register r).toNat

def pictureRow (m : Machine) (y : Nat) : String :=
  String.ofList ((List.range Screen.width).map fun x => if m.screen.pixel x y then '#' else '.')

/-- The state of the machine in lines. -/
def summary (m : Machine) : List String :=
  [ "PC=" ++ Hex.padded 4 m.pc.toNat ++ " I=" ++ Hex.padded 4 m.index.toNat
      ++ " DT=" ++ Hex.padded 2 m.delay.toNat ++ " ST=" ++ Hex.padded 2 m.sound.toNat,
    " ".intercalate ((List.finRange 16).map m.registerText),
    "stack: [" ++ ", ".intercalate (m.stack.toList.map fun a => Hex.padded 4 a.toNat) ++ "]" ]
    ++ (List.range Screen.height).map m.pictureRow

end Machine

/-- Exit code and lines of a command. -/
structure Response where
  exitCode : Nat
  output : List String := []
  errors : List String := []
  deriving DecidableEq

namespace Response

def success (lines : List String) : Response := { exitCode := 0, output := lines }

/-- The answer of a command that failed in some `context` for a `cause`. -/
def failure (context cause : String) : Response :=
  { exitCode := 1
    errors := ["Error: " ++ context, "", "Caused by:", "    " ++ cause] }

end Response

namespace Command

/-- The answer to a run of a program. -/
def respondRun (program : Array UInt8) (settings : Settings) (breakpoints : List Word)
    (entropy : RandomSource) : Response :=
  match Session.start program settings entropy with
  | .error fault => .failure "Failed to load ROM into CHIP-8 memory" fault.message
  | .ok session =>
    let run := (breakpoints.foldl Session.addBreakpoint session).run
    match run.verdict with
    | .error fault => .failure "Chip8 Execution error" fault.message
    | .ok report =>
      .success ((report.outcome.text ++ " after " ++ toString report.steps ++ " instructions")
        :: run.session.machine.summary)

/-- The answer to a command. The file is given by its contents or by the reason why it
cannot be read; `entropy` serves runs without a seed. -/
def respond (c : Command) (file : Except String (Array UInt8)) (entropy : RandomSource) :
    Response :=
  match file with
  | .error cause => .failure ("Failed to read ROM file " ++ c.path) cause
  | .ok program =>
    match c with
    | .run _ settings breakpoints => respondRun program settings breakpoints entropy
    | .disassemble _ => .success (Disassembly.ofProgram program).lines

end Command

end ChipEight
