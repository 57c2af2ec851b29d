import Accumulator.Log
import Accumulator.Machine.Core
import Accumulator.Program

/-!
# The machine

A machine adds to its core the bookkeeping of a run: how many instructions have retired, the
recorded status, the settings and the last trace line. `step` fetches one instruction of a
program and carries it out; on a machine whose run has ended it only repeats how it ended.
-/

namespace Accumulator

structure Config where
  /-- Whether each retired instruction leaves a trace line. -/
  tracing : Bool
  /-- How many instructions may retire; one more is a fault. -/
  limit : Nat
  deriving DecidableEq, Repr

def Config.standardLimit : Nat := 1024

def Config.standard : Config := ⟨false, Config.standardLimit⟩

structure Machine (size : Nat) extends Core size where
  /-- The number of instructions that have retired in the current run. -/
  retired : Nat
  status : Status
  config : Config
  /-- The trace line of the last step, if it retired an instruction and tracing was on. -/
  lastTrace : Option TraceEntry
  deriving DecidableEq, Repr

/-- What comes of an action on a machine: its outcome, the machine after it and what it
reported. -/
structure Reply (size : Nat) (α : Type) where
  outcome : α
  machine : Machine size
  log : Log
  deriving DecidableEq, Repr

namespace Machine

variable {size : Nat}

def fresh (config : Config) (memory : Memory size) : Machine size where
  toCore := { Core.cleared size with memory := memory }
  retired := 0
  status := .running
  config := config
  lastTrace := none

/-- The trace line of an instruction on the machine as it is, if tracing is on. -/
def trace (m : Machine size) (i : Instruction) : Option TraceEntry :=
  if m.config.tracing then some ⟨i, m.registers, m.pc⟩ else none

/-- Carries out one instruction outside any program: nothing is counted and nothing recorded. -/
def execute (m : Machine size) (i : Instruction) : Reply size (Except Fault Unit) :=
  match Core.handle i m.toCore with
  | .ok _ c => ⟨.ok (), { m with toCore := c }, []⟩
  | .error f c => ⟨.error f, { m with toCore := c }, []⟩

/-- Counts an instruction that has taken its effect, moves on to the next address and reports
it. An instruction beyond the limit still counts, and is a fault. -/
def retire (m : Machine size) (i : Instruction) : Reply size Status :=
  let m := { m with toCore := m.advance, retired := m.retired + 1 }
  let m := { m with lastTrace := m.trace i }
  { outcome :=
      if m.config.limit < m.retired then .ended (.faulted (.limitExceeded m.config.limit))
      else .running
    machine := m
    log := .retired m.retired i :: (m.lastTrace.map Event.traced).toList }

def untraced (m : Machine size) : Machine size := { m with lastTrace := none }

/-- Fetches an instruction of the program and carries it out. The status is left alone. -/
def cycle (p : Program) (m : Machine size) : Reply size Status :=
  match p.instruction? m.pc with
  | none => ⟨.ended (.halted .endOfProgram), m.untraced, []⟩
  | some (.error f) => ⟨.ended (.faulted f), m.untraced, []⟩
  | some (.ok i) =>
    if i.opcode = .stop then ⟨.ended (.halted .stop), m.untraced, [.stopReached]⟩
    else
      match Core.handle i m.toCore with
      | .error f c => ⟨.ended (.faulted f), { m with toCore := c }.untraced, []⟩
      | .ok _ c => { m with toCore := c }.retire i

/-- Records the outcome of a cycle as the status of the machine, and reports a fault. -/
def record (r : Reply size Status) : Reply size Status where
  outcome := r.outcome
  machine := { r.machine with status := r.outcome }
  log := r.log ++
    match r.outcome with
    | .ended (.faulted f) => [.faulted f]
    | _ => []

/-- One step of a run. Once the run has ended, a step repeats its outcome and changes nothing. -/
def step (p : Program) (m : Machine size) : Reply size Status :=
  match m.status with
  | .running => record (m.cycle p)
  | .ended o => ⟨.ended o, m, []⟩

/-! ## Instructions that fail -/

theorem execute_of_core (m : Machine size) (i : Instruction) :
    m.execute i =
      match m.toCore.execute i with
      | .ok c => ⟨.ok (), { m with toCore := c }, []⟩
      | .error f => ⟨.error f, m, []⟩ := by
  unfold execute
  rw [Core.handle_eq]
  cases m.toCore.execute i <;> rfl

theorem cycle_eq (p : Program) (m : Machine size) :
    m.cycle p =
      match p.instruction? m.pc with
      | none => ⟨.ended (.halted .endOfProgram), m.untraced, []⟩
      | some (.error f) => ⟨.ended (.faulted f), m.untraced, []⟩
      | some (.ok i) =>
        if i.opcode = .stop then ⟨.ended (.halted .stop), m.untraced, [.stopReached]⟩
        else
          match m.toCore.execute i with
          | .error f => ⟨.ended (.faulted f), m.untraced, []⟩
          | .ok c => { m with toCore := c }.retire i := by
  simp only [cycle, Core.handle_eq]
  cases p.instruction? m.pc with
  | none => rfl
  | some fetched =>
    cases fetched with
    | error f => rfl
    | ok i =>
      dsimp only
      cases m.toCore.execute i <;> rfl

end Machine

end Accumulator
