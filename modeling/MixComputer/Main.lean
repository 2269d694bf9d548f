import MixComputer.CommandLine

/-!
The program: `mix <file.mixal>`. Settings come from the environment.
-/
open MixComputer

def reasonOf : IO.Error → String
  | .noFileOrDirectory .. => CommandLine.noSuchFile
  | .permissionDenied .. => "Permission denied (os error 13)"
  | .inappropriateType .. => "Is a directory (os error 21)"
  | error => toString error

def readInput : List String → IO CommandLine.Input
  | [] => return .nothing
  | path :: _ => do
    try return .file path (← IO.FS.readBinFile path)
    catch error => return .unreadable path (reasonOf error)

/-- Runs with more and more fuel until there is a report. -/
partial def reportWithin (config : Configuration) (fuel : Nat) (input : CommandLine.Input) :
    CommandLine.Report :=
  match CommandLine.run config fuel input with
  | some report => report
  | none => reportWithin config (fuel * fuel) input

def main (args : List String) : IO UInt32 := do
  let config := Configuration.ofSettings (← IO.getEnv "MIX_MEMORY_SIZE")
    (← IO.getEnv "MIX_FIELD_ERRORS") (← IO.getEnv "MIX_STEP_LIMIT")
  let report := reportWithin config 0x4000000000000000 (← readInput args)
  IO.print report.output
  IO.eprint report.errors
  return UInt32.ofNat report.status
