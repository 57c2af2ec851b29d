import Accumulator.Image.File
import Accumulator.Machine.Run

/-!
# The command line

An invocation names a program image and a memory image. The program is run on the memory, and the
memory image is written back however the run ended; if an image cannot be loaded, nothing is run
and nothing written. `Options.execute` does the work between reading the files and writing one back,
and `Directory.invoke` puts it all together on a directory. How arguments are read and which events
the log keeps is no part of that: it is taken from `Libraries`, for which `parse` and `Level.keeps`
can stand (`Libraries.standard`).
-/

namespace Accumulator.CommandLine

/-! ## Arguments -/

structure Options where
  program : String
  /-- The path of the memory image, which is read and written. -/
  memory : String
  debug : Bool
  /-- Whether the log is kept in full. -/
  verbose : Bool
  deriving DecidableEq, Repr

inductive Request where
  | help
  | run (options : Options)
  deriving DecidableEq, Repr

/-- What is wrong with a list of arguments. -/
inductive UsageError where
  | unknownFlag (argument : String)
  | repeatedFlag (argument : String)
  | emptyPath
  | tooManyPaths (argument : String)
  | missingPath
  deriving DecidableEq, Repr

structure Arguments where
  paths : List String
  debug : Bool
  verbose : Bool
  /-- Whether all further arguments are paths. -/
  flagsEnded : Bool
  deriving DecidableEq, Repr

def Arguments.none : Arguments := ⟨[], false, false, false⟩

/-- Tells whether an argument is a flag: it begins with a hyphen and is longer than that. -/
def isFlag (argument : String) : Bool :=
  argument.toList.head? = some '-' && argument ≠ "-"

/-- Tells whether an argument asks for help. Behind `-h` nothing is read. -/
def isHelp (argument : String) : Bool :=
  argument = "--help" || argument.toList.take 2 = ['-', 'h']

def Arguments.addPath (a : Arguments) (path : String) : Except UsageError Arguments :=
  if path = "" then .error .emptyPath
  else if 2 ≤ a.paths.length then .error (.tooManyPaths path)
  else .ok { a with paths := a.paths ++ [path] }

/-- Takes one more flag, which may be set once. -/
def Arguments.addFlag (a : Arguments) (flag : String) : Except UsageError Arguments :=
  match flag with
  | "--" => .ok { a with flagsEnded := true }
  | "--debug" => if a.debug then .error (.repeatedFlag flag) else .ok { a with debug := true }
  | "--verbose" =>
    if a.verbose then .error (.repeatedFlag flag) else .ok { a with verbose := true }
  | _ => .error (.unknownFlag flag)

/-- Reads the arguments from left to right. The first error counts, and so does a call for help
before any error. -/
def parseFrom (a : Arguments) : List String → Except UsageError Request
  | [] =>
    match a.paths with
    | [program, memory] => .ok (.run ⟨program, memory, a.debug, a.verbose⟩)
    | _ => .error .missingPath
  | argument :: rest =>
    if a.flagsEnded || !isFlag argument then
      (a.addPath argument).bind fun a => parseFrom a rest
    else if isHelp argument then .ok .help
    else (a.addFlag argument).bind fun a => parseFrom a rest

def parse (arguments : List String) : Except UsageError Request :=
  parseFrom .none arguments

/-! ## Libraries -/

structure Libraries where
  parse : List String → Except UsageError Request
  /-- Whether an event of a level is logged when a least level is set. -/
  keeps : (least : Level) → (level : Level) → Bool

def Libraries.standard : Libraries := ⟨CommandLine.parse, Level.keeps⟩

/-- To set a level is to keep what is at least as severe, and nothing else. -/
def Libraries.KeepsBySeverity (libraries : Libraries) : Prop :=
  ∀ least level, libraries.keeps least level = true ↔ level.rank ≤ least.rank

theorem keepsBySeverity_standard : Libraries.standard.KeepsBySeverity :=
  fun _ _ => decide_eq_true_iff

/-! ## Execution -/

inductive ExitStatus where
  | success
  /-- The run ended with a fault, or a file or its contents made it impossible. -/
  | failure
  | usage
  deriving DecidableEq, Repr

def ExitStatus.code : ExitStatus → Nat
  | success => 0
  | failure => 1
  | usage => 2

structure Report where
  status : ExitStatus
  log : Log
  error : Option FileError
  deriving DecidableEq, Repr

/-- The report of an invocation with its memory image still to be written, if it ran. -/
structure Execution where
  report : Report
  memory : Option (Memory Memory.standardSize)
  deriving DecidableEq, Repr

def Options.level (o : Options) : Level :=
  if o.verbose then .debug else .info

/-- The machine that an image is run on. -/
def Options.machine (o : Options) (image : LoadedProgram)
    (memory : Memory Memory.standardSize) : Machine Memory.standardSize :=
  .fresh { Config.standard with tracing := o.debug || image.tracing } memory

def ExitStatus.ofOutcome : Outcome → ExitStatus
  | .halted _ => success
  | .faulted _ => failure

/-- Loads the two images from the bytes of their files and runs the program. -/
def Options.execute (o : Options) (libraries : Libraries) (program memory : Option ByteArray) :
    Execution :=
  let keeps := libraries.keeps o.level
  let image := LoadedProgram.ofFile o.program program
  match image.value with
  | .error e => ⟨⟨.failure, image.log.kept keeps, some e⟩, none⟩
  | .ok i =>
    let cells := Memory.ofFile Memory.standardSize o.memory memory
    match cells.value with
    | .error e => ⟨⟨.failure, Log.kept keeps (image.log ++ cells.log), some e⟩, none⟩
    | .ok m =>
      let run := (o.machine i m).run i.program
      { report :=
          { status := .ofOutcome run.outcome
            log := Log.kept keeps (image.log ++ cells.log ++ m.listing ++ run.log)
            error := none }
        memory := some run.machine.memory }

/-- The report of an invocation that failed only when its memory image was to be written. -/
def Report.failed (r : Report) (e : FileError) : Report :=
  { r with status := .failure, error := some e }

end Accumulator.CommandLine

namespace Accumulator.Directory

open CommandLine

/-- Executes on the files of a directory, and writes the memory image back. -/
def execute (d : Directory) (libraries : Libraries) (o : Options) : Report × Directory :=
  let e := o.execute libraries (d.read o.program) (d.read o.memory)
  match e.memory with
  | none => (e.report, d)
  | some m =>
    match m.save d o.memory with
    | .ok d => (e.report, d)
    | .error error => (e.report.failed error, d)

/-- Carries out an invocation with the given arguments in a directory. -/
def invoke (d : Directory) (libraries : Libraries) (arguments : List String) :
    Report × Directory :=
  match libraries.parse arguments with
  | .error _ => (⟨.usage, [], none⟩, d)
  | .ok .help => (⟨.success, [], none⟩, d)
  | .ok (.run o) => d.execute libraries o

end Accumulator.Directory
