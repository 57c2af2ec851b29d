import Accumulator.Instruction
import Accumulator.Registers

/-!
# Traces

When a run is traced, every instruction that retires leaves an entry: the instruction, the
registers after it and the address of the next fetch.
-/

namespace Accumulator

structure TraceEntry where
  instruction : Instruction
  registers : Registers
  /-- The address of the next fetch. -/
  pc : Int
  deriving DecidableEq, Repr

def TraceEntry.render (t : TraceEntry) : String :=
  t.instruction.render ++ " \t| " ++ t.instruction.opcode.description ++ "\t| " ++
    t.registers.render ++ ",\t PC = " ++ t.pc.repr

end Accumulator
