import TemplateTrace.CommandLine.Directory

open TemplateTrace.CommandLine

namespace TemplateTrace.CommandLine

/-- Why the system refuses a file. -/
def reasonOf : IO.Error → String
  | .noFileOrDirectory .. => Directory.noSuchFile
  | .inappropriateType .. => Directory.isDirectory
  | error => toString error

def readContents (path : String) : IO (Except FileError ByteArray) := do
  match ← (IO.FS.Handle.mk path .read).toBaseIO with
  | .error error => return .error (.cannotOpen (reasonOf error))
  | .ok handle =>
    let contents ← handle.readBinToEnd.toBaseIO
    return contents.mapError (fun error => .cannotRead (reasonOf error))

def writeContents (path contents : String) : IO (Except String Unit) := do
  let written ← (IO.FS.writeFile path contents).toBaseIO
  return written.mapError reasonOf

def readEnvironment : IO Environment := do
  return { columns := ← IO.getEnv "COLUMNS"
           width := ← IO.getEnv "METATRACE_WIDTH"
           noColor := ← IO.getEnv "NO_COLOR"
           forceColor := ← IO.getEnv "CLICOLOR_FORCE" }

/-- What is said of arguments that break the rules. -/
def usage : String :=
  "usage: templatetrace --events PATH [--width N] [--no-color] COMMAND\n" ++
  "commands: forwardtrace [NAME], trace, backtrace [NAME], step [--count N], continue, frame,\n" ++
  "  export [--format FORMAT] --output PATH\n"

end TemplateTrace.CommandLine

def main (arguments : List String) : IO UInt32 := do
  match Invocation.ofArguments? arguments with
  | none =>
    IO.eprint usage
    return 2
  | some invocation =>
    let environment ← readEnvironment
    let outcome ← match invocation.plan environment (← readContents invocation.events) with
      | .done outcome => pure outcome
      | .save path contents => pure (Plan.saved path contents (← writeContents path contents))
    IO.print (outcome.output environment)
    IO.eprint outcome.complaint
    return UInt32.ofNat outcome.exit
