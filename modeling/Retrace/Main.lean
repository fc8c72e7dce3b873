import Retrace.Cli.Response

/-!
# The program

Reads the file a command names, prints the response and ends with its exit code.
-/

namespace Retrace

/-- The number of a system error, which may be handed over with its sign changed. -/
def systemCode (code : UInt32) : UInt32 :=
  min code (0 - code)

/-- The reason behind a failed read. -/
def ReadError.ofIO : IO.Error → ReadError
  | .noFileOrDirectory .. => .notFound
  | .inappropriateType _ code details =>
    if systemCode code = 20 then .notDirectory
    else if systemCode code = 21 then .isDirectory
    else .other details
  | e => .other e.toString

/-- The content of the file with this path. -/
def readContent (path : String) : IO FileContent := do
  try
    return .ok (← IO.FS.readBinFile path)
  catch e =>
    return .error (.ofIO e)

/-- Prints a response. -/
def Response.print (r : Response) : IO UInt32 := do
  IO.print r.stdout
  IO.eprint r.stderr
  return UInt32.ofNat r.code

/-- Carries out a command. -/
def Command.execute : Command → IO UInt32
  | .onFile task file => do
    let content ← readContent file
    (task.respond file content).print
  | .catalog mnemonic => (respondCatalog mnemonic).print
  | .help => (Response.success Cli.helpPage).print

end Retrace

def main (arguments : List String) : IO UInt32 :=
  match Retrace.Cli.parse arguments with
  | .error e => do
    IO.eprintln e.message
    return 1
  | .ok command => command.execute
