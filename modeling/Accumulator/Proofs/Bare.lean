import Accumulator.Proofs.Bounds
import Mathlib.Algebra.Group.Int.Defs
import Mathlib.Algebra.Group.Nat.Defs

/-!
# The bare machine

The bare machine has nothing in its types that keeps it from going wrong. Its register and cell
numbers are looked up unchecked, its addresses have 32 bits and its count has 64, and where an
access or a sum does not fit, it traps: the result is `none`. `Core.execute_bare` and `step_bare`
say that within the bounds it does not trap, and does what the machine does. The bounds hold of
every machine that calls go through, so it never traps at all.
-/

namespace Accumulator.Bare

/-- An address, if it has 32 bits. -/
def address (z : Int) : Option Int :=
  if -2 ^ 31 ≤ z ∧ z ≤ 2 ^ 31 - 1 then some z else none

/-- A count, if it has 64 bits. -/
def count (n : Nat) : Option Nat :=
  if n ≤ 2 ^ 64 - 1 then some n else none

/-- The registers, the program counter and the memory, with nothing known of the numbers. -/
structure Core (size : Nat) where
  general : Vector Word 8
  active : Nat
  target : Int
  pc : Int
  cells : Vector Word size

namespace Core

variable {size : Nat}

def get (c : Core size) (r : Nat) : Option Word := c.general[r]?

def accumulator (c : Core size) : Option Word := c.get c.active

def setAccumulator (c : Core size) (v : Word) : Option (Core size) :=
  if h : c.active < 8 then some { c with general := c.general.set c.active v } else none

def read (c : Core size) (a : Nat) : Option Word := c.cells[a]?

def write (c : Core size) (a : Nat) (v : Word) : Option (Core size) :=
  if h : a < size then some { c with cells := c.cells.set a v } else none

/-- An effect on the register number in the operand. Here and below, the operand is checked as the
machine checks it, and only what stands behind the checks can trap. -/
def withRegister (i : Instruction) (effect : Nat → Option (Core size)) :
    Option (Except Fault (Core size)) :=
  if i.operand.toNat < 8 then (effect i.operand.toNat).map .ok
  else some (.error (.invalidOperand i))

/-- An effect on the shift amount in the register that the operand names. -/
def withAmount (c : Core size) (i : Instruction) (effect : Nat → Option (Core size)) :
    Option (Except Fault (Core size)) :=
  if i.operand.toNat < 8 then
    (c.get i.operand.toNat).bind fun v =>
      if v.toInt < 0 then some (.error (.invalidOperand i)) else (effect v.toInt.toNat).map .ok
  else some (.error (.invalidOperand i))

/-- An effect on the cell number in the register that the operand names. -/
def withCell (c : Core size) (i : Instruction) (effect : Nat → Option (Core size)) :
    Option (Except Fault (Core size)) :=
  if i.operand.toNat < 8 then
    (c.get i.operand.toNat).bind fun v =>
      if 0 ≤ v.toInt ∧ v.toInt < size then (effect v.toInt.toNat).map .ok
      else some (.error (.invalidOperand i))
  else some (.error (.invalidOperand i))

def withImmediate (i : Instruction) (effect : Word → Option (Core size)) :
    Option (Except Fault (Core size)) :=
  match immediate? i.operand with
  | some v => (effect v).map .ok
  | none => some (.error (.invalidOperand i))

def execute (c : Core size) (i : Instruction) : Option (Except Fault (Core size)) :=
  match i.opcode with
  | .sar => withRegister i fun r => some { c with active := r }
  | .add => withRegister i fun r => do c.setAccumulator ((← c.accumulator) + (← c.get r))
  | .mov => withRegister i fun r => do c.setAccumulator (← c.get r)
  | .nand => withRegister i fun r => do
    c.setAccumulator (~~~((← c.accumulator) &&& (← c.get r)))
  | .sll => c.withAmount i fun n => do c.setAccumulator ((← c.accumulator) <<< n)
  | .srl => c.withAmount i fun n => do c.setAccumulator ((← c.accumulator).sshiftRight n)
  | .load => c.withCell i fun a => do c.setAccumulator (← c.read a)
  | .stor => c.withCell i fun a => do c.write a (← c.accumulator)
  | .sub => withRegister i fun r => do c.setAccumulator ((← c.accumulator) - (← c.get r))
  | .mlt => withRegister i fun r => do c.setAccumulator ((← c.accumulator) * (← c.get r))
  | .bslt => withRegister i fun r => do
    if (← c.accumulator).toInt < (← c.get r).toInt then some { c with pc := c.target } else some c
  | .movi => withImmediate i fun v => c.setAccumulator v
  | .addi => withImmediate i fun v => do c.setAccumulator ((← c.accumulator) + v)
  | .spc => withRegister i fun r => do
    some { c with target := ← address (c.pc + (← c.get r).toInt) }
  | .b => some (.ok { c with pc := c.target })
  | .stop => some (.ok c)

end Core

/-- The bare core with what a run needs of the bookkeeping. -/
structure Machine (size : Nat) extends Core size where
  retired : Nat
  status : Status
  limit : Nat

namespace Machine

variable {size : Nat}

def cycle (p : Program) (b : Machine size) : Option (Status × Machine size) :=
  match p.instruction? b.pc with
  | none => some (.ended (.halted .endOfProgram), b)
  | some (.error f) => some (.ended (.faulted f), b)
  | some (.ok i) =>
    if i.opcode = .stop then some (.ended (.halted .stop), b)
    else
      (b.toCore.execute i).bind fun
        | .error f => some (.ended (.faulted f), b)
        | .ok c => do
          let pc ← address (c.pc + 1)
          let retired ← count (b.retired + 1)
          some
            (if b.limit < retired then .ended (.faulted (.limitExceeded b.limit)) else .running,
              { b with toCore := { c with pc := pc }, retired := retired })

def step (p : Program) (b : Machine size) : Option (Status × Machine size) :=
  match b.status with
  | .running => (b.cycle p).map fun (s, b) => (s, { b with status := s })
  | .ended o => some (.ended o, b)

end Machine

end Accumulator.Bare

namespace Accumulator.Core

variable {size : Nat} {i : Instruction}

def bare (c : Core size) : Bare.Core size where
  general := c.registers.general
  active := c.registers.active
  target := c.registers.target
  pc := c.pc
  cells := c.memory.cells

@[simp]
theorem get_bare (c : Core size) (r : Fin 8) : c.bare.get r = some (c.registers.get r) :=
  Vector.getElem?_eq_getElem r.isLt

@[simp]
theorem accumulator_bare (c : Core size) : c.bare.accumulator = some c.registers.accumulator :=
  c.get_bare c.registers.active

@[simp]
theorem setAccumulator_bare (c : Core size) (v : Word) :
    c.bare.setAccumulator v = some (c.setAccumulator v).bare :=
  dif_pos c.registers.active.isLt

@[simp]
theorem read_bare (c : Core size) (a : Fin size) : c.bare.read a = some (c.memory.read a) :=
  Vector.getElem?_eq_getElem a.isLt

@[simp]
theorem write_bare (c : Core size) (a : Fin size) (v : Word) :
    c.bare.write a v = some { c with memory := c.memory.write a v }.bare :=
  dif_pos a.isLt

/-! ## Operands -/

theorem withRegister_eq {bareEffect : Nat → Option (Bare.Core size)} {effect : Fin 8 → Core size}
    (heffect : ∀ r : Fin 8, bareEffect r = some (effect r).bare) :
    Bare.Core.withRegister i bareEffect =
      some ((withOperand i (registerNumber? i.operand) effect).map bare) := by
  unfold Bare.Core.withRegister registerNumber?
  by_cases hr : i.operand.toNat < 8
  · rw [if_pos hr, dif_pos hr, heffect ⟨_, hr⟩]
    rfl
  · rw [if_neg hr, dif_neg hr]
    rfl

theorem withAmount_eq {c : Core size} {bareEffect : Nat → Option (Bare.Core size)}
    {effect : Nat → Core size} (heffect : ∀ n, bareEffect n = some (effect n).bare) :
    c.bare.withAmount i bareEffect =
      some ((withOperand i (c.shiftAmount? i.operand) effect).map bare) := by
  unfold Bare.Core.withAmount shiftAmount? registerNumber?
  by_cases hr : i.operand.toNat < 8
  · rw [if_pos hr, dif_pos hr, c.get_bare ⟨_, hr⟩, Option.bind_some, Option.bind_some]
    by_cases hv : (c.registers.get ⟨_, hr⟩).toInt < 0
    · rw [if_pos hv, if_neg (by omega)]
      rfl
    · rw [if_neg hv, if_pos (by omega), heffect]
      rfl
  · rw [if_neg hr, dif_neg hr]
    rfl

theorem withCell_eq {c : Core size} {bareEffect : Nat → Option (Bare.Core size)}
    {effect : Fin size → Core size} (heffect : ∀ a : Fin size, bareEffect a = some (effect a).bare) :
    c.bare.withCell i bareEffect =
      some ((withOperand i (c.cell? i.operand) effect).map bare) := by
  unfold Bare.Core.withCell cell? registerNumber? Memory.cellAt?
  by_cases hr : i.operand.toNat < 8
  · rw [if_pos hr, dif_pos hr, c.get_bare ⟨_, hr⟩, Option.bind_some, Option.bind_some]
    by_cases hv : 0 ≤ (c.registers.get ⟨_, hr⟩).toInt ∧ (c.registers.get ⟨_, hr⟩).toInt < size
    · rw [if_pos hv, dif_pos hv, heffect ⟨_, by omega⟩]
      rfl
    · rw [if_neg hv, dif_neg hv]
      rfl
  · rw [if_neg hr, dif_neg hr]
    rfl

theorem withImmediate_eq {bareEffect : Word → Option (Bare.Core size)} {effect : Word → Core size}
    (heffect : ∀ v, bareEffect v = some (effect v).bare) :
    Bare.Core.withImmediate i bareEffect =
      some ((withOperand i (immediate? i.operand) effect).map bare) := by
  unfold Bare.Core.withImmediate
  cases hv : immediate? i.operand with
  | none => rfl
  | some v =>
    show (bareEffect v).map Except.ok = _
    rw [heffect]
    rfl

/-! ## Instructions -/

/-- An instruction traps on no core where the program counter and a register have a 32-bit sum. -/
theorem execute_bare (c : Core size) (i : Instruction)
    (hsum : ∀ r, Bare.address (c.pc + (c.registers.get r).toInt) =
      some (c.pc + (c.registers.get r).toInt)) :
    c.bare.execute i = some ((c.execute i).map bare) := by
  obtain ⟨op, field⟩ := i
  -- The kind of operand decides which of the four lemmas applies; their effects are left to show.
  cases op
  all_goals simp only [Bare.Core.execute, execute_eq]
  case sar => exact withRegister_eq fun r => rfl
  case add => exact withRegister_eq fun r => by simp
  case mov => exact withRegister_eq fun r => by simp
  case nand => exact withRegister_eq fun r => by simp
  case sll => exact withAmount_eq fun n => by simp
  case srl => exact withAmount_eq fun n => by simp
  case load => exact withCell_eq fun a => by simp
  case stor => exact withCell_eq fun a => by simp [store]
  case sub => exact withRegister_eq fun r => by simp
  case mlt => exact withRegister_eq fun r => by simp
  case bslt =>
    apply withRegister_eq
    intro r
    simp only [accumulator_bare, get_bare, Option.bind_eq_bind, Option.bind_some]
    split <;> rfl
  case movi => exact withImmediate_eq fun v => by simp
  case addi => exact withImmediate_eq fun v => by simp
  case spc =>
    apply withRegister_eq
    intro r
    simp only [get_bare, Option.bind_eq_bind, Option.bind_some]
    rw [show c.bare.pc = c.pc from rfl, hsum]
    rfl
  case b => rfl
  case stop => rfl

end Accumulator.Core

namespace Accumulator.Machine

variable {size : Nat} {p : Program} {m : Machine size}

def bare (m : Machine size) : Bare.Machine size where
  toCore := m.toCore.bare
  retired := m.retired
  status := m.status
  limit := m.config.limit

theorem cycle_bare_of_ends {o : Outcome} (h : m.toCore.fate p = .ends o)
    (hexecute : ∀ i, p.instruction? m.pc = some (.ok i) →
      m.toCore.bare.execute i = some ((m.toCore.execute i).map Core.bare)) :
    m.bare.cycle p = some (.ended o, m.bare) := by
  unfold Bare.Machine.cycle
  rw [show m.bare.pc = m.pc from rfl, show m.bare.toCore = m.toCore.bare from rfl]
  rcases Core.fate_eq_ends_iff.1 h with
    ⟨hi, rfl⟩ | ⟨f, hi, rfl⟩ | ⟨i, hi, hstop, rfl⟩ | ⟨i, f, hi, hstop, he, rfl⟩
  · simp only [hi]
  · simp only [hi]
  · simp only [hi, if_pos hstop]
  · simp only [hi, if_neg hstop, hexecute i hi, he]
    rfl

theorem cycle_bare_of_retires {i : Instruction} {after : Core size}
    (h : m.toCore.fate p = .retires i after)
    (hexecute : m.toCore.bare.execute i = some ((m.toCore.execute i).map Core.bare))
    (hpc : Bare.address (after.pc + 1) = some (after.pc + 1))
    (hcount : Bare.count (m.retired + 1) = some (m.retired + 1)) :
    m.bare.cycle p =
      some
        (if m.config.limit < m.retired + 1 then
            .ended (.faulted (.limitExceeded m.config.limit))
          else .running,
          (m.retiredTo i after).bare) := by
  obtain ⟨hi, hstop, he⟩ := Core.fate_eq_retires_iff.1 h
  unfold Bare.Machine.cycle
  rw [show m.bare.pc = m.pc from rfl]
  simp only [hi]
  rw [if_neg hstop, show m.bare.toCore = m.toCore.bare from rfl, hexecute, he]
  show (Bare.address (after.pc + 1)).bind (fun pc =>
    (Bare.count (m.retired + 1)).bind fun retired => some _) = _
  rw [hpc, hcount]
  rfl

/-! ## Steps and calls -/

theorem execute_bare_of_fetched (hsize : p.size ≤ 2 ^ 31 - 32768) {i : Instruction}
    (hi : p.instruction? m.pc = some (.ok i)) :
    m.toCore.bare.execute i = some ((m.toCore.execute i).map Core.bare) := by
  apply Core.execute_bare
  intro r
  -- What is fetched stands within the program, so the sum that `SPC` forms is a target in bounds.
  have hsum := Core.add_register_bounds (Core.pc_mem_of_instruction? hi) (m.registers.get r)
  apply if_pos
  omega

theorem address_of_bounded {c : Core size} (h : c.Bounded p) (hsize : p.size ≤ 2 ^ 31 - 32768) :
    Bare.address c.pc = some c.pc := by
  have hge := h.pc_ge
  have hle := h.pc_le
  apply if_pos
  omega

/-- Within the bounds, the bare machine does not trap and steps as the machine does. -/
theorem step_bare (hb : m.toCore.Bounded p) (hacc : m.Accounted)
    (hsize : p.size ≤ 2 ^ 31 - 32768) (hlimit : m.config.limit < 2 ^ 64 - 1) :
    m.bare.step p = some ((m.step p).outcome, (m.step p).machine.bare) := by
  have hcycle : ∀ i after, m.status = .running → m.toCore.fate p = .retires i after →
      m.bare.cycle p = some
        (if m.config.limit < m.retired + 1 then
            .ended (.faulted (.limitExceeded m.config.limit))
          else .running,
          (m.retiredTo i after).bare) := by
    intro i after hs hf
    have hi := (Core.fate_eq_retires_iff.1 hf).1
    have hpc := address_of_bounded (hb.advance_of_retires hf) hsize
    have hcount : Bare.count (m.retired + 1) = some (m.retired + 1) := by
      have hretired := hacc.of_running hs
      apply if_pos
      omega
    exact cycle_bare_of_retires hf (execute_bare_of_fetched hsize hi) hpc hcount
  unfold Bare.Machine.step
  rw [show m.bare.status = m.status from rfl]
  -- The bare step depends on the status alone, and its cycle is known in each case.
  refine step_cases (motive := fun r => _ = some (r.outcome, r.machine.bare)) p m ?_ ?_ ?_ ?_
  · intro o hs
    simp only [hs]
  · intro o hs hf
    have hended := cycle_bare_of_ends hf fun i hi => execute_bare_of_fetched hsize hi
    simp only [hs, hended]
    rfl
  · intro i after hs hf hl
    simp only [hs, hcycle i after hs hf, if_neg (show ¬m.config.limit < m.retired + 1 by omega)]
    show some (Status.running, { (m.retiredTo i after).bare with status := .running }) =
      some (Status.running, { (m.retiredTo i after).bare with status := m.status })
    rw [hs]
  · intro i after hs hf hl
    simp only [hs, hcycle i after hs hf, if_pos (show m.config.limit < m.retired + 1 by omega)]
    rfl

/-- Wherever a sequence of steps and runs leads a fresh machine, in the middle of a run or after
its end, all registers and addresses are in bounds, and the next step of the bare machine traps at
no access and no sum but does what the machine does. -/
theorem visits_never_trap {config : Config} {memory : Memory size} {calls : List Call}
    (hsize : p.size ≤ 2 ^ 31 - 32768) (hlimit : config.limit < 2 ^ 64 - 1)
    (h : Visits p (fresh config memory) calls m) :
    m.bare.active ≤ 7 ∧
      (-32768 ≤ m.bare.target ∧ m.bare.target ≤ p.size + 32766) ∧
      (-32767 ≤ m.bare.pc ∧ m.bare.pc ≤ p.size + 32767) ∧
      m.bare.retired ≤ config.limit + 1 ∧
      m.bare.step p = some ((m.step p).outcome, (m.step p).machine.bare) := by
  have hconfig : m.config = config :=
    h.preserves (P := fun d => d.config = config) (fun d hd => (config_step p d).trans hd)
      (fun d hd => hd) rfl
  have hb : m.toCore.Bounded p :=
    h.preserves (P := fun d => d.toCore.Bounded p) (fun _ => bounded_step) (fun _ hd => hd)
      (.of_cleared p memory)
  have hacc : m.Accounted :=
    h.preserves (fun _ => Accounted.step) (fun d _ => .restart d) (.fresh config memory)
  have hactive : m.bare.active < 8 := m.registers.active.isLt
  refine ⟨by omega, ⟨hb.target_ge, hb.target_le⟩, ⟨hb.pc_ge, hb.pc_le⟩, ?_, ?_⟩
  · rw [← hconfig]
    exact hacc.retired_le
  · rw [← hconfig] at hlimit
    exact step_bare hb hacc hsize hlimit

/-- A branch before the program ends the first run, and the second run starts from there. -/
theorem visits_never_trap_before_the_program :
    let p := Program.ofWords [0b10110100, 0b11010000, 0b11100000]
    let start := fresh ⟨true, 5⟩ (Memory.zeroed 2)
    let m := ((start.run p).machine.restart.steps p 1).machine
    p.size ≤ 2 ^ 31 - 32768 ∧ start.config.limit < 2 ^ 64 - 1 ∧
      Visits p start [.run, .run] m ∧ m.bare.pc = -2 ∧
      m.bare.step p = some (.ended (.halted .endOfProgram), m.bare) := by
  intro p start m
  have hvisits : Visits p start [.run, .run] m := .afterRun (.inRun _ 1 [])
  obtain ⟨-, -, -, -, hstep⟩ := visits_never_trap (p := p) (by decide) (by decide) hvisits
  refine ⟨by decide, by decide, hvisits, ?_, ?_⟩
  · decide +kernel
  · rw [hstep]
    have hs : m.status = .ended (.halted .endOfProgram) := by decide +kernel
    rw [step_of_ended hs]

end Accumulator.Machine
