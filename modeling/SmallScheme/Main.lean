import SmallScheme.Batch.Runner

/-! # The command

Reads what the batch runner asks for and prints what it reports.
-/

namespace SmallScheme

/-- More steps than any machine will take. -/
def ampleFuel : Nat := 2 ^ 62

/-- The system's words for why a file cannot be read. -/
def reason : IO.Error → String
  | .noFileOrDirectory .. => "No such file or directory (os error 2)"
  | .permissionDenied .. => "Permission denied (os error 13)"
  | .inappropriateType .. => "Is a directory (os error 21)"
  | e => toString e

/-- The only file that a run may read, with its bytes or the reason why there are none. -/
def readInputs (options : Batch.Options) : IO Batch.Inputs := do
  let file ←
    match options.file with
    | none => pure (.error "")
    | some path =>
      try
        .ok <$> IO.FS.readBinFile path
      catch e => pure (.error (reason e))
  let standardInput ←
    if options.file.isNone && options.expressions.isEmpty then (← IO.getStdin).readBinToEnd
    else pure .empty
  return ⟨fun _ => file, standardInput⟩

def runCommand : Batch.Command → IO UInt32
  | .misuse => do
    IO.eprintln s!"usage: {Batch.programName} [-q] [--trace] [--max-stack-depth N] [-e EXPR] [FILE]"
    return 2
  | .version => do
    IO.println s!"{Batch.programName} {Batch.version}"
    return 0
  | .run options => do
    match Batch.run ampleFuel options (← readInputs options) false with
    | none => return 1
    | some report =>
      IO.print report.output
      IO.eprint report.errors
      return report.status.toUInt32

end SmallScheme

def main (arguments : List String) : IO UInt32 :=
  SmallScheme.runCommand (SmallScheme.Batch.Command.ofArguments arguments)
