import Accumulator.Machine.Core
import Accumulator.Program
import Mathlib.Data.Int.Bitwise

/-!
# The exact machine

A machine whose registers and cells are integers, with no width and nothing that wraps around. It
is what the arithmetic of the machine is measured against, so it shares no arithmetic with it: an
instruction is first resolved to an effect, and the effect is then applied. A run is one recursion
over the program, and collects the values that it writes to registers.
-/

namespace Accumulator.Exact

variable {size : Nat}

structure Core (size : Nat) where
  general : Vector Int 8
  active : Fin 8
  target : Int
  pc : Int
  cells : Vector Int size
  deriving DecidableEq, Repr

/-- What an instruction does once its operand is known to be valid. -/
inductive Effect (size : Nat) where
  | select (r : Fin 8)
  /-- Writes to the active register. -/
  | assign (value : Int)
  | store (a : Fin size)
  | stage (address : Int)
  | branch
  | nothing
  deriving DecidableEq, Repr

/-- The values that an effect writes to registers. -/
def Effect.written : Effect size → List Int
  | assign value => [value]
  | _ => []

/-- The number that an immediate operand stands for, if it is in range. -/
def immediate? (field : Byte) : Option Int :=
  let z : Int := if 3 < field.toNat then field.toNat - 8 else field.toNat
  if -4 ≤ z ∧ z ≤ 3 then some z else none

namespace Core

def accumulator (c : Core size) : Int := c.general.get c.active

/-- The number in the register that an operand field names, if it names one. -/
def operand? (c : Core size) (field : Byte) : Option Int :=
  (registerNumber? field).map fun r => c.general.get r

def amount? (c : Core size) (field : Byte) : Option Nat :=
  (c.operand? field).bind fun k => if 0 ≤ k then some k.toNat else none

def cell? (c : Core size) (field : Byte) : Option (Fin size) :=
  (c.operand? field).bind fun a =>
    if h : 0 ≤ a ∧ a < size then some ⟨a.toNat, by omega⟩ else none

/-- The effect of an instruction, if its operand is valid. -/
def effect? (c : Core size) (i : Instruction) : Option (Effect size) :=
  match i.opcode with
  | .sar => (registerNumber? i.operand).map .select
  | .add => (c.operand? i.operand).map fun v => .assign (c.accumulator + v)
  | .mov => (c.operand? i.operand).map fun v => .assign v
  | .nand => (c.operand? i.operand).map fun v => .assign (-1 - Int.land c.accumulator v)
  | .sll => (c.amount? i.operand).map fun k => .assign (c.accumulator * 2 ^ k)
  | .srl => (c.amount? i.operand).map fun k => .assign (c.accumulator.fdiv (2 ^ k))
  | .load => (c.cell? i.operand).map fun a => .assign (c.cells.get a)
  | .stor => (c.cell? i.operand).map fun a => .store a
  | .sub => (c.operand? i.operand).map fun v => .assign (c.accumulator - v)
  | .mlt => (c.operand? i.operand).map fun v => .assign (c.accumulator * v)
  | .bslt => (c.operand? i.operand).map fun v => if c.accumulator < v then .branch else .nothing
  | .movi => (immediate? i.operand).map fun v => .assign v
  | .addi => (immediate? i.operand).map fun v => .assign (c.accumulator + v)
  | .spc => (c.operand? i.operand).map fun v => .stage (c.pc + v)
  | .b => some .branch
  | .stop => some .nothing

def apply (c : Core size) : Effect size → Core size
  | .select r => { c with active := r }
  | .assign value => { c with general := c.general.set c.active value }
  | .store a => { c with cells := c.cells.set a c.accumulator a.isLt }
  | .stage address => { c with target := address }
  | .branch => { c with pc := c.target }
  | .nothing => c

def advance (c : Core size) : Core size := { c with pc := c.pc + 1 }

end Core

/-- What a run comes to, with the values that it wrote to registers on the way. -/
structure Run (size : Nat) where
  outcome : Outcome
  core : Core size
  retired : Nat
  written : List Int
  deriving DecidableEq, Repr

/-- Carries on with `retired` instructions behind. -/
def runFrom (p : Program) (limit : Nat) (c : Core size) (retired : Nat) : Run size :=
  match p.instruction? c.pc with
  | none => ⟨.halted .endOfProgram, c, retired, []⟩
  | some (.error f) => ⟨.faulted f, c, retired, []⟩
  | some (.ok i) =>
    if i.opcode = .stop then ⟨.halted .stop, c, retired, []⟩
    else
      match c.effect? i with
      | none => ⟨.faulted (.invalidOperand i), c, retired, []⟩
      | some e =>
        let next := (c.apply e).advance
        if limit < retired + 1 then
          ⟨.faulted (.limitExceeded limit), next, retired + 1, e.written⟩
        else
          let r := runFrom p limit next (retired + 1)
          { r with written := e.written ++ r.written }
termination_by limit + 1 - retired

def run (p : Program) (limit : Nat) (c : Core size) : Run size := runFrom p limit c 0

end Accumulator.Exact
