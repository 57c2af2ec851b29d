import Accumulator.Instruction

/-!
# How a run ends

A run halts normally or with a fault. The status of a machine records whether it still runs and,
if not, how it ended.
-/

namespace Accumulator

inductive Halt where
  /-- A `STOP` instruction was fetched. -/
  | stop
  /-- The program counter left the program. -/
  | endOfProgram
  deriving DecidableEq, Repr

inductive Fault where
  /-- The fetched line of the program has no readable opcode; `opcode` is its beginning. -/
  | unreadableOpcode (opcode : String)
  /-- The fetched line of the program has an opcode but is not a word. -/
  | unreadableWord (line : String)
  /-- The operand of the instruction is not valid for its opcode. -/
  | invalidOperand (instruction : Instruction)
  /-- More than `limit` instructions retired. -/
  | limitExceeded (limit : Nat)
  deriving DecidableEq, Repr

def Fault.message : Fault → String
  | unreadableOpcode opcode => "instruction '" ++ opcode ++ "' not recognized"
  | unreadableWord line => "malformed instruction word '" ++ line ++ "'"
  | invalidOperand i =>
    "operand out of range for '" ++ i.opcode.mnemonic ++ " " ++ i.operand.toNat.repr ++ "'"
  | limitExceeded limit => "instruction count limit of " ++ limit.repr ++ " exceeded"

def Halt.name : Halt → String
  | stop => "Stop"
  | endOfProgram => "EndOfProgram"

inductive Outcome where
  | halted (halt : Halt)
  | faulted (fault : Fault)
  deriving DecidableEq, Repr

inductive Status where
  | running
  | ended (outcome : Outcome)
  deriving DecidableEq, Repr

end Accumulator
