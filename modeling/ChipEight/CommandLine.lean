import ChipEight.CommandLine.Numeral
import ChipEight.Session

/-!
# The command line

Two commands, each on a program file: `run` (or `r`) executes it and `disasm` (or `d`) lists
it. The command stands first. After it come, in any order, the path of the file and, for
`run`, settings: `--max-steps` and `--seed` at most once, `--break` as often as wanted. The
value of a setting is the next argument or follows an equals sign. After `--` every argument
is a path.

## Main definitions

- `Argument`, `Argument.scan`: paths and settings told apart
- `Command`, `Command.parse?`: what is asked for
-/

namespace ChipEight

/-- An argument after the command. -/
inductive Argument where
  | path (text : String)
  | setting (name value : String)
  deriving DecidableEq, Repr

namespace Argument

/-- Whether an argument can be a path or a value: it does not start with a dash, or is a
dash alone. -/
def isPlain (text : String) : Bool :=
  match text.toList with
  | '-' :: _ :: _ => false
  | _ => true

/-- Parts an argument at its first equals sign. -/
def splitValue (cs : List Char) : String × Option String :=
  let name := String.ofList (cs.takeWhile (· != '='))
  match cs.dropWhile (· != '=') with
  | [] => (name, none)
  | _ :: value => (name, some (String.ofList value))

/-- Tells paths and settings apart. Fails on a setting that is not among the known names or
has no value. -/
def scan (known : List String) : List String → Option (List Argument)
  | [] => some []
  | "--" :: rest => some (rest.map .path)
  | text :: rest =>
    if isPlain text then
      (scan known rest).map (.path text :: ·)
    else
      match splitValue text.toList, rest with
      | (name, some value), rest =>
        if known.contains name then (scan known rest).map (.setting name value :: ·) else none
      | (name, none), value :: rest =>
        if known.contains name && isPlain value then
          (scan known rest).map (.setting name value :: ·)
        else none
      | (_, none), [] => none

def paths (as : List Argument) : List String :=
  as.filterMap fun
    | .path text => some text
    | .setting _ _ => none

/-- The values given to a setting, in order. -/
def values (as : List Argument) (wanted : String) : List String :=
  as.filterMap fun
    | .path _ => none
    | .setting name value => if name == wanted then some value else none

/-- The only path among some arguments, which must not be empty. -/
def onlyPath? (as : List Argument) : Option String :=
  match paths as with
  | [file] => if file.isEmpty then none else some file
  | _ => none

/-- Reads a setting that is given at most once. Fails if it is given twice or is not
readable. -/
def optional? (as : List Argument) (wanted : String) (read : String → Option Nat) :
    Option (Option Nat) :=
  match values as wanted with
  | [] => some none
  | [value] => (read value).map some
  | _ => none

end Argument

/-- What is asked for: to execute the program at a path, or to list it. -/
inductive Command where
  | run (path : String) (settings : Settings) (breakpoints : List Word)
  | disassemble (path : String)
  deriving DecidableEq

namespace Command

/-- The command that follows from the arguments after `run`. -/
def parseRun? (args : List String) : Option Command := do
  let as ← Argument.scan ["--max-steps", "--seed", "--break"] args
  let path ← Argument.onlyPath? as
  let maxSteps? ← Argument.optional? as "--max-steps" (Numeral.decimalOrHex? UInt64.size)
  let seed? ← Argument.optional? as "--seed" (Numeral.decimal? UInt64.size)
  let breakpoints ← (Argument.values as "--break").mapM (Numeral.decimalOrHex? UInt16.size)
  let defaults : Settings := {}
  let settings : Settings :=
    { maxSteps := maxSteps?.getD defaults.maxSteps, seed? := seed?.map UInt64.ofNat }
  return .run path settings (breakpoints.map UInt16.ofNat)

/-- The command that follows from the arguments after `disasm`. -/
def parseDisassemble? (args : List String) : Option Command := do
  let as ← Argument.scan [] args
  return .disassemble (← Argument.onlyPath? as)

/-- The command that some arguments ask for; none if they are not understood. -/
def parse? : List String → Option Command
  | "run" :: args => parseRun? args
  | "r" :: args => parseRun? args
  | "disasm" :: args => parseDisassemble? args
  | "d" :: args => parseDisassemble? args
  | _ => none

def path : Command → String
  | .run path _ _ => path
  | .disassemble path => path

end Command

end ChipEight
