import ChipEight.CommandLine.Response

/-!
# The program

Reads the command line and the program file, and prints the answer. Nothing is decided here
but how an unreadable file is described and where random bytes come from when no seed is
given.
-/

namespace ChipEight

/-- Why a file cannot be read, as the operating system puts it. -/
def readFailure : IO.Error → String
  | .noFileOrDirectory .. => "No such file or directory (os error 2)"
  | .permissionDenied .. => "Permission denied (os error 13)"
  | .inappropriateType .. => "Is a directory (os error 21)"
  | other => toString other

def readProgram (path : String) : IO (Except String (Array UInt8)) := do
  try
    let bytes ← IO.FS.readBinFile path
    return .ok bytes.data
  catch failure =>
    return .error (readFailure failure)

/-- A random source whose key the operating system provides. -/
def systemSource : IO RandomSource := do
  let bytes ← IO.getRandomBytes 32
  let keyByte := fun (i : Nat) => (bytes.data[i]?.getD 0).toUInt32
  let key := Vector.ofFn fun i : Fin 8 =>
    keyByte (4 * i.val) ||| keyByte (4 * i.val + 1) <<< 8
      ||| keyByte (4 * i.val + 2) <<< 16 ||| keyByte (4 * i.val + 3) <<< 24
  return { key := key, drawn := 0 }

def printResponse (response : Response) : IO UInt32 := do
  for line in response.output do
    IO.println line
  for line in response.errors do
    IO.eprintln line
  return UInt32.ofNat response.exitCode

end ChipEight

open ChipEight in
/-- Runs the command that the arguments ask for. Arguments that are not understood are
refused with exit code two. -/
def main (args : List String) : IO UInt32 := do
  match Command.parse? args with
  | none =>
    IO.eprintln "usage: run PATH [--max-steps N] [--seed N] [--break ADDRESS] | disasm PATH"
    return 2
  | some command =>
    let file ← readProgram command.path
    printResponse (command.respond file (← systemSource))
