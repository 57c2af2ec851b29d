import Accumulator.CommandLine

/-!
# The program

The outer layer of the command line: it reads the files, prints the report and writes the memory
image. All decisions are made in `Accumulator.CommandLine`, with the standard libraries.
-/

namespace Accumulator.CommandLine

def usage : String :=
  "usage: accumulator <program-image> <memory-image> [--debug] [--verbose]"

def levelLabel : Level → String
  | .error => "ERROR"
  | .warning => "WARN"
  | .info => "INFO"
  | .debug => "DEBUG"

def readBytes (path : String) : IO (Option ByteArray) :=
  try
    return some (← IO.FS.readBinFile path)
  catch _ => return none

/-- Writes a text to a file; tells whether that was possible. -/
def writeText (path text : String) : IO Bool :=
  try
    IO.FS.writeFile path text
    return true
  catch _ => return false

/-- Prints a report and gives the exit status as a number. -/
def printReport (r : Report) : IO UInt32 := do
  for e in r.log do
    IO.println (levelLabel e.level ++ " " ++ e.message)
  if let some e := r.error then
    IO.eprintln e.message
    if let some cause := e.cause? then
      IO.eprintln cause.message
  return UInt32.ofNat r.status.code

/-- Executes on the files that the options name. -/
def executeFiles (libraries : Libraries) (o : Options) : IO UInt32 := do
  let e := o.execute libraries (← readBytes o.program) (← readBytes o.memory)
  match e.memory with
  | none => printReport e.report
  | some m =>
    if ← writeText o.memory m.toText then printReport e.report
    else printReport (e.report.failed (.unwritableMemory o.memory))

end Accumulator.CommandLine

open Accumulator.CommandLine in
def main (arguments : List String) : IO UInt32 :=
  match Libraries.standard.parse arguments with
  | .error _ => do
    IO.eprintln usage
    return UInt32.ofNat ExitStatus.usage.code
  | .ok .help => do
    IO.println usage
    return UInt32.ofNat ExitStatus.success.code
  | .ok (.run o) => executeFiles .standard o
