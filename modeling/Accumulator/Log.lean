import Accumulator.Image.Error
import Accumulator.Outcome
import Accumulator.Text.Decimal
import Accumulator.Trace

/-!
# The log

What the machine and its loaders report, as a list of events in the order in which they happen.
An event has a level and a text; `Log.kept` leaves the events out whose level is not kept.
-/

namespace Accumulator

inductive Level where
  | error | warning | info | debug
  deriving DecidableEq, Repr

/-- The place of a level in the order of severity; the most severe has 0. -/
def Level.rank : Level → Nat
  | error => 0
  | warning => 1
  | info => 2
  | debug => 3

/-- Tells whether an event of a level is kept where everything at least as severe as `least` is. -/
def Level.keeps (least level : Level) : Bool := level.rank ≤ least.rank

inductive Event where
  /-- A line of a program image was kept although it is not an instruction word. -/
  | malformedLine (error : ImageError)
  /-- A line of a memory image was refused. -/
  | refusedLine (error : ImageError)
  /-- A memory image had a wrong number of lines, and a memory of zeros took its place. -/
  | zeroedMemory (size : Nat)
  | cell (address : Nat) (value : Word)
  /-- An instruction retired as the `count`-th of its run. -/
  | retired (count : Nat) (instruction : Instruction)
  /-- The trace line of a retired instruction. -/
  | traced (entry : TraceEntry)
  | stopReached
  | faulted (fault : Fault)
  /-- The run ended normally after `count` instructions. -/
  | terminated (halt : Halt) (count : Nat)
  deriving DecidableEq, Repr

namespace Event

def level : Event → Level
  | malformedLine _ => .warning
  | refusedLine _ => .error
  | zeroedMemory _ => .warning
  | cell _ _ => .debug
  | retired _ _ => .debug
  | traced _ => .info
  | stopReached => .info
  | faulted _ => .error
  | terminated _ _ => .debug

def message : Event → String
  | malformedLine error => error.message
  | refusedLine error => error.message
  | zeroedMemory size =>
    "MEMORY ERROR: size is not " ++ size.repr ++ ". Using memory initialized to all 0."
  | cell address value => "mem[" ++ Text.column 3 address ++ "] = " ++ value.toInt.repr
  | retired count instruction => "[" ++ count.repr ++ "] " ++ instruction.render
  | traced entry => entry.render
  | stopReached => "STOP instruction reached."
  | faulted fault => "ERROR: " ++ fault.message ++ ". Ending execution."
  | terminated halt count =>
    "Program terminated (" ++ halt.name ++ ") after " ++ count.repr ++ " instructions"

end Event

/-- Events in the order in which they happened. -/
abbrev Log := List Event

/-- The events whose level is kept. -/
def Log.kept (keeps : Level → Bool) (log : Log) : Log := log.filter fun e => keeps e.level

structure Logged (α : Type) where
  value : α
  log : Log
  deriving DecidableEq, Repr

end Accumulator
