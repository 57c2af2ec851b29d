import Accumulator.Instruction
import Accumulator.Memory
import Accumulator.Outcome
import Accumulator.Registers

/-!
# What an instruction does

The core is the part of the machine that instructions read and change: the registers, the program
counter and the memory. `Core.handle` holds the handler of every opcode. A handler may fail at any
point and then leaves the core as it is there; that each resolves its operand before it changes
anything, so that an instruction takes its whole effect or none, is `Core.handle_eq`. With that,
`Core.execute` is the instruction as a function, and `Core.execute_eq` the table of these functions.
-/

namespace Accumulator

/-- The general register that an operand field names, if there is one. -/
def registerNumber? (field : Byte) : Option (Fin 8) :=
  if h : field.toNat < 8 then some ⟨field.toNat, h⟩ else none

structure Core (size : Nat) where
  registers : Registers
  /-- The address of the instruction to be fetched next, or of the one being carried out. -/
  pc : Int
  memory : Memory size
  deriving DecidableEq, Repr

namespace Core

variable {size : Nat}

/-- All registers, the program counter and all cells zero. -/
def cleared (size : Nat) : Core size := ⟨.cleared, 0, .zeroed size⟩

def select (c : Core size) (r : Fin 8) : Core size :=
  { c with registers := { c.registers with active := r } }

def setAccumulator (c : Core size) (v : Word) : Core size :=
  { c with registers := c.registers.setAccumulator v }

def store (c : Core size) (a : Fin size) : Core size :=
  { c with memory := c.memory.write a c.registers.accumulator }

def setTarget (c : Core size) (address : Int) : Core size :=
  { c with registers := { c.registers with target := address } }

def branch (c : Core size) : Core size := { c with pc := c.registers.target }

def advance (c : Core size) : Core size := { c with pc := c.pc + 1 }

/-- The shift amount in the register that an operand field names, if there is such a register and
its value is not negative. -/
def shiftAmount? (c : Core size) (field : Byte) : Option Nat :=
  (registerNumber? field).bind fun r =>
    if 0 ≤ (c.registers.get r).toInt then some (c.registers.get r).toInt.toNat else none

/-- The memory cell whose address is in the register that an operand field names, if there are
such a register and such a cell. -/
def cell? (c : Core size) (field : Byte) : Option (Fin size) :=
  (registerNumber? field).bind fun r => Memory.cellAt? size (c.registers.get r)

/-! ## The handlers -/

/-- An action on a core. If it fails, it leaves the core as it has made it up to there. -/
abbrev Handler (size : Nat) := EStateM Fault (Core size)

namespace Handler

/-- The operand of an instruction, or a fault if it is not valid. -/
def operand {α : Type} (i : Instruction) (find : Core size → Option α) : Handler size α := do
  match find (← get) with
  | some v => return v
  | none => throw (.invalidOperand i)

def register (i : Instruction) : Handler size (Fin 8) :=
  operand i fun _ => registerNumber? i.operand

def shiftAmount (i : Instruction) : Handler size Nat :=
  operand i fun c => c.shiftAmount? i.operand

def cell (i : Instruction) : Handler size (Fin size) :=
  operand i fun c => c.cell? i.operand

def immediate (i : Instruction) : Handler size Word :=
  operand i fun _ => immediate? i.operand

end Handler

/-- Carries out an instruction. Arithmetic wraps around at 16 bits. A branch goes to the target,
and as the program counter is advanced afterwards, it leads to the address behind the target. -/
def handle (i : Instruction) : Handler size Unit :=
  match i.opcode with
  | .sar => do
    let r ← Handler.register i
    modify fun c => c.select r
  | .add => do
    let r ← Handler.register i
    modify fun c => c.setAccumulator (c.registers.accumulator + c.registers.get r)
  | .mov => do
    let r ← Handler.register i
    modify fun c => c.setAccumulator (c.registers.get r)
  | .nand => do
    let r ← Handler.register i
    modify fun c => c.setAccumulator (~~~(c.registers.accumulator &&& c.registers.get r))
  | .sll => do
    let n ← Handler.shiftAmount i
    modify fun c => c.setAccumulator (Word.shiftLeft c.registers.accumulator n)
  | .srl => do
    let n ← Handler.shiftAmount i
    modify fun c => c.setAccumulator (Word.shiftRight c.registers.accumulator n)
  | .load => do
    let a ← Handler.cell i
    modify fun c => c.setAccumulator (c.memory.read a)
  | .stor => do
    let a ← Handler.cell i
    modify fun c => c.store a
  | .sub => do
    let r ← Handler.register i
    modify fun c => c.setAccumulator (c.registers.accumulator - c.registers.get r)
  | .mlt => do
    let r ← Handler.register i
    modify fun c => c.setAccumulator (c.registers.accumulator * c.registers.get r)
  | .bslt => do
    let r ← Handler.register i
    modify fun c =>
      if c.registers.accumulator.toInt < (c.registers.get r).toInt then c.branch else c
  | .movi => do
    let v ← Handler.immediate i
    modify fun c => c.setAccumulator v
  | .addi => do
    let v ← Handler.immediate i
    modify fun c => c.setAccumulator (c.registers.accumulator + v)
  | .spc => do
    let r ← Handler.register i
    modify fun c => c.setTarget (c.pc + (c.registers.get r).toInt)
  | .b => modify fun c => c.branch
  | .stop => return ()

/-- What an instruction comes to: the core after it, or its fault. -/
def execute (c : Core size) (i : Instruction) : Except Fault (Core size) :=
  match handle i c with
  | .ok _ d => .ok d
  | .error f _ => .error f

/-! ## Instructions as functions -/

/-- The effect of an instruction on its operand, or a fault if the operand is not valid. -/
def withOperand {α : Type} (i : Instruction) (operand : Option α) (effect : α → Core size) :
    Except Fault (Core size) :=
  match operand with
  | some v => .ok (effect v)
  | none => .error (.invalidOperand i)

/-- How an instruction leaves a core that it changes only if it does not fail. -/
def settled (c : Core size) : Except Fault (Core size) → EStateM.Result Fault (Core size) Unit
  | .ok d => .ok () d
  | .error f => .error f c

/-- An operand is looked for before anything is changed. -/
theorem operand_bind_modify {α : Type} (i : Instruction) (find : Core size → Option α)
    (effect : α → Core size → Core size) (c : Core size) :
    (Handler.operand i find >>= fun v => modify (effect v)) c =
      c.settled (withOperand i (find c) fun v => effect v c) := by
  show EStateM.bind (Handler.operand i find) (fun v => modify (effect v)) c = _
  have hfind : Handler.operand i find c =
      match find c with
      | some v => .ok v c
      | none => .error (.invalidOperand i) c := by
    show (match find c with
      | some v => pure v
      | none => throw (.invalidOperand i) : Handler size α) c = _
    cases find c <;> rfl
  unfold EStateM.bind
  rw [hfind]
  cases find c <;> rfl

theorem execute_of_handle {c : Core size} {i : Instruction} {result : Except Fault (Core size)}
    (h : handle i c = c.settled result) : c.execute i = result := by
  unfold execute
  rw [h]
  cases result <;> rfl

/-- An instruction that fails leaves the core as it was. -/
theorem handle_eq (c : Core size) (i : Instruction) : handle i c = c.settled (c.execute i) := by
  have hsettled : ∃ result, handle i c = c.settled result := by
    obtain ⟨op, field⟩ := i
    cases op with
    | b => exact ⟨.ok c.branch, rfl⟩
    | stop => exact ⟨.ok c, rfl⟩
    | _ => exact ⟨_, operand_bind_modify _ _ _ c⟩
  obtain ⟨result, hresult⟩ := hsettled
  rw [execute_of_handle hresult, hresult]

/-- What the instructions come to, in one equation. -/
theorem execute_eq (c : Core size) (i : Instruction) :
    c.execute i =
      match i.opcode with
      | .sar => withOperand i (registerNumber? i.operand) fun r => c.select r
      | .add => withOperand i (registerNumber? i.operand) fun r =>
        c.setAccumulator (c.registers.accumulator + c.registers.get r)
      | .mov => withOperand i (registerNumber? i.operand) fun r =>
        c.setAccumulator (c.registers.get r)
      | .nand => withOperand i (registerNumber? i.operand) fun r =>
        c.setAccumulator (~~~(c.registers.accumulator &&& c.registers.get r))
      | .sll => withOperand i (c.shiftAmount? i.operand) fun n =>
        c.setAccumulator (c.registers.accumulator <<< n)
      | .srl => withOperand i (c.shiftAmount? i.operand) fun n =>
        c.setAccumulator (c.registers.accumulator.sshiftRight n)
      | .load => withOperand i (c.cell? i.operand) fun a => c.setAccumulator (c.memory.read a)
      | .stor => withOperand i (c.cell? i.operand) fun a => c.store a
      | .sub => withOperand i (registerNumber? i.operand) fun r =>
        c.setAccumulator (c.registers.accumulator - c.registers.get r)
      | .mlt => withOperand i (registerNumber? i.operand) fun r =>
        c.setAccumulator (c.registers.accumulator * c.registers.get r)
      | .bslt => withOperand i (registerNumber? i.operand) fun r =>
        if c.registers.accumulator.toInt < (c.registers.get r).toInt then c.branch else c
      | .movi => withOperand i (immediate? i.operand) fun v => c.setAccumulator v
      | .addi => withOperand i (immediate? i.operand) fun v =>
        c.setAccumulator (c.registers.accumulator + v)
      | .spc => withOperand i (registerNumber? i.operand) fun r =>
        c.setTarget (c.pc + (c.registers.get r).toInt)
      | .b => .ok c.branch
      | .stop => .ok c := by
  obtain ⟨op, field⟩ := i
  cases op with
  | b | stop => rfl
  | sll =>
    simp only [← Word.shiftLeft_eq]
    exact execute_of_handle (operand_bind_modify ⟨.sll, field⟩ _ _ c)
  | srl =>
    simp only [← Word.shiftRight_eq]
    exact execute_of_handle (operand_bind_modify ⟨.srl, field⟩ _ _ c)
  | _ => exact execute_of_handle (operand_bind_modify _ _ _ c)

theorem withOperand_eq_ok_iff {α : Type} {i : Instruction} {operand : Option α}
    {effect : α → Core size} {c : Core size} :
    withOperand i operand effect = .ok c ↔ ∃ v, operand = some v ∧ effect v = c := by
  cases operand <;> simp [withOperand]

theorem withOperand_eq_error_iff {α : Type} {i : Instruction} {operand : Option α}
    {effect : α → Core size} {f : Fault} :
    withOperand i operand effect = .error f ↔ operand = none ∧ f = .invalidOperand i := by
  cases operand with
  | none => simp [withOperand, eq_comm]
  | some v => simp [withOperand]

theorem eq_invalidOperand_of_execute {c : Core size} {i : Instruction} {f : Fault}
    (h : c.execute i = .error f) : f = .invalidOperand i := by
  rw [execute_eq] at h
  split at h
  case h_15 => cases h
  case h_16 => cases h
  all_goals exact (withOperand_eq_error_iff.1 h).2

end Core

end Accumulator
