import FlatScript.CommandLine
import FlatScript.Shell.Execution

open FlatScript FlatScript.CommandLine

def readScript (path : String) : IO (Except FileError String) := do
  try
    return textOfFile (← IO.FS.readBinFile path)
  catch e =>
    return .error <|
      match e with
      | .noFileOrDirectory .. => .notFound
      | .inappropriateType .. => .isDirectory
      | e => .other (toString e)

def main (args : List String) : IO UInt32 := do
  let debug ← IO.getEnv debugVariable
  let stdout ← IO.getStdout
  match Request.ofArguments debug args with
  | .help =>
    stdout.putStr (helpText debug)
    return 0
  | .version =>
    stdout.putStr versionText
    return 0
  | .misuse e =>
    IO.eprint (usageText e)
    return 2
  | .run options path =>
    let behavior := (options.runFile Shell.execute (← readScript path)).behavior
    stdout.write behavior.output
    stdout.flush
    IO.eprint behavior.errors
    return behavior.status.toUInt32
