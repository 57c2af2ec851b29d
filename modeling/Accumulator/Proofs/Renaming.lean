import Accumulator.Proofs.Operands
import Accumulator.Proofs.Translation
import Accumulator.Proofs.Unfetched
import Mathlib.Logic.Equiv.Defs

/-!
# Registers under other names

No instruction treats one general register differently from another: each comes to a register by its
operand, or because it is the active one. So the registers can change places, if the operands that name
registers, and only these, are renamed along with them. Which operands these are is what the opcode table
says (`Instruction.renamed`), and `execute_renamed` shows for each opcode that it reads its operand in
that way.
-/

namespace Accumulator

variable {size : Nat} (π : Equiv.Perm (Fin 8))

/-! ## What is renamed -/

/-- The field that names the register `π r` for one that names the register `r`. A field that names no
register stays. -/
def renamedField (field : Byte) : Byte :=
  match registerNumber? field with
  | some r => BitVec.ofNat 8 (π r)
  | none => field

/-- The instruction with its register renamed, if by the opcode table its operand is the number of one. -/
def Instruction.renamed (i : Instruction) : Instruction :=
  match i.opcode.operandKind with
  | .register | .shift | .memory => { i with operand := renamedField π i.operand }
  | .immediate | .control => i

def Slot.renamed : Slot → Slot
  | encoded word => encoded ((Instruction.decode word).renamed π).encode
  | malformed line => malformed line

def Program.renamed (p : Program) : Program := ⟨p.slots.map (Slot.renamed π)⟩

/-- What register `r` holds is moved to register `π r`, and with the active register its number. -/
def Registers.renamed (r : Registers) : Registers where
  general := Vector.ofFn fun i => r.get (π.symm i)
  active := π r.active
  target := r.target

def Translation.renamed : Translation size size where
  registers r := r.renamed π
  memory := id
  instruction i := i.renamed π
  opcode_instruction i := by
    unfold Instruction.renamed
    split <;> rfl

/-! ## Registers and operands -/

namespace Registers

variable (r : Registers)

theorem get_renamed (i : Fin 8) : (r.renamed π).get i = r.get (π.symm i) :=
  Vector.getElem_ofFn ..

@[simp]
theorem get_renamed_apply (i : Fin 8) : (r.renamed π).get (π i) = r.get i := by
  rw [get_renamed, Equiv.symm_apply_apply]

@[simp]
theorem accumulator_renamed : (r.renamed π).accumulator = r.accumulator :=
  r.get_renamed_apply π r.active

theorem setAccumulator_renamed (v : Word) :
    (r.renamed π).setAccumulator v = (r.setAccumulator v).renamed π := by
  refine ext_get (fun i => ?_) rfl rfl
  rw [get_setAccumulator, get_renamed, get_renamed, get_setAccumulator]
  simp only [Equiv.eq_symm_apply]
  rfl

end Registers

variable {π} {field : Byte}

@[simp]
theorem registerNumber?_renamedField :
    registerNumber? (renamedField π field) = (registerNumber? field).map π := by
  unfold renamedField
  cases h : registerNumber? field with
  | none => exact h
  | some r =>
    rw [Option.map_some, registerNumber?_eq_some_iff, BitVec.toNat_ofNat]
    omega

theorem renamedField_lt (h : field.toNat < 16) : (renamedField π field).toNat < 16 := by
  unfold renamedField
  split
  · rw [BitVec.toNat_ofNat]
    omega
  · exact h

@[simp]
theorem Registers.operand?_renamed (r : Registers) (field : Byte) :
    (r.renamed π).operand? (renamedField π field) = r.operand? field := by
  unfold operand?
  rw [registerNumber?_renamedField, Option.map_map]
  simp only [Function.comp_def, get_renamed_apply]

theorem Instruction.operand_renamed_lt {i : Instruction} (h : i.operand.toNat < 16) :
    (i.renamed π).operand.toNat < 16 := by
  unfold renamed
  split
  · exact renamedField_lt h
  · exact renamedField_lt h
  · exact renamedField_lt h
  · exact h
  · exact h

theorem Instruction.decode_encode_renamed (word : Byte) :
    decode ((decode word).renamed π).encode = (decode word).renamed π :=
  decode_encode (operand_renamed_lt (operand_decode_lt word))

namespace Translation

variable {c : Core size} {p : Program}

theorem shiftAmount?_renamed :
    ((renamed π).core c).shiftAmount? (renamedField π field) = c.shiftAmount? field := by
  ext n
  rw [Core.shiftAmount?_eq_some_iff, Core.shiftAmount?_eq_some_iff]
  show (c.registers.renamed π).operand? _ = _ ↔ _
  rw [Registers.operand?_renamed]

theorem cell?_renamed :
    ((renamed π).core c).cell? (renamedField π field) = c.cell? field := by
  ext a
  rw [Core.cell?_eq_some_iff, Core.cell?_eq_some_iff]
  show (c.registers.renamed π).operand? _ = _ ↔ _
  rw [Registers.operand?_renamed]

@[simp]
theorem accumulator_core_renamed :
    ((renamed π).core c).registers.accumulator = c.registers.accumulator :=
  c.registers.accumulator_renamed π

@[simp]
theorem get_core_renamed (r : Fin 8) :
    ((renamed π).core c).registers.get (π r) = c.registers.get r :=
  c.registers.get_renamed_apply π r

theorem setAccumulator_core_renamed (v : Word) :
    ((renamed π).core c).setAccumulator v = (renamed π).core (c.setAccumulator v) :=
  congrArg (Core.mk · c.pc c.memory) (c.registers.setAccumulator_renamed π v)

/-! ## Instructions -/

/-- An instruction that assigns to the active register assigns to the renamed one, if the word to be
assigned is the same. -/
theorem assign_renamed {α β : Type} {i : Instruction} {operand : Option α} {operand' : Option β}
    {word : α → Word} {word' : β → Word} {value : α → β} (hoperand : operand' = operand.map value)
    (hword : ∀ v, word' (value v) = word v) :
    Core.withOperand (i.renamed π) operand' (fun v => ((renamed π).core c).setAccumulator (word' v)) =
      (renamed π).result (Core.withOperand i operand fun v => c.setAccumulator (word v)) := by
  refine withOperand_eq_result (t := renamed π) hoperand fun v => ?_
  rw [hword, setAccumulator_core_renamed]

/-- Every opcode reads its operand as its row of the opcode table announces, and treats all registers
alike. -/
theorem execute_renamed (c : Core size) (i : Instruction) :
    ((renamed π).core c).execute (i.renamed π) = (renamed π).result (c.execute i) := by
  obtain ⟨op, field⟩ := i
  have hregister : registerNumber? (renamedField π field) = (registerNumber? field).map π :=
    registerNumber?_renamedField
  -- The number of a register is renamed; amounts, cells and immediates are the same.
  have hsame {α : Type} (operand : Option α) : operand = operand.map id := Option.map_id'.symm
  rw [Core.execute_eq, Core.execute_eq c]
  cases op with
  | add | mov | nand | sub | mlt =>
    exact assign_renamed (i := ⟨_, field⟩) hregister fun _ => by simp
  | sll | srl =>
    exact assign_renamed (i := ⟨_, field⟩) (shiftAmount?_renamed.trans (hsame _)) fun _ => by simp
  | load => exact assign_renamed (i := ⟨.load, field⟩) (cell?_renamed.trans (hsame _)) fun _ => rfl
  | movi => exact assign_renamed (i := ⟨.movi, field⟩) (hsame _) fun _ => rfl
  | addi => exact assign_renamed (i := ⟨.addi, field⟩) (hsame _) fun _ => by simp
  | sar => exact withOperand_eq_result (t := renamed π) (i := ⟨.sar, field⟩) hregister fun _ => rfl
  | stor =>
    refine withOperand_eq_result (t := renamed π) (i := ⟨.stor, field⟩)
      (cell?_renamed.trans (hsame _)) fun a => ?_
    exact congrArg (fun v => Core.mk _ c.pc (c.memory.write a v)) accumulator_core_renamed
  | bslt =>
    refine withOperand_eq_result (t := renamed π) (i := ⟨.bslt, field⟩) hregister fun r => ?_
    rw [accumulator_core_renamed, get_core_renamed, apply_ite (renamed π).core]
    rfl
  | spc =>
    refine withOperand_eq_result (t := renamed π) (i := ⟨.spc, field⟩) hregister fun r => ?_
    rw [get_core_renamed]
    rfl
  | b | stop => rfl

/-! ## Programs -/

theorem decode_renamed (s : Slot) :
    (s.renamed π).decode = (renamed π : Translation size size).fetched s.decode := by
  cases s with
  | encoded word => exact congrArg Except.ok (Instruction.decode_encode_renamed word)
  | malformed line =>
    show Except.error _ = Except.error ((renamed π : Translation size size).fault _)
    rw [apply_ite (renamed π : Translation size size).fault]
    rfl

theorem instruction?_renamed (p : Program) (address : Int) :
    (p.renamed π).instruction? address =
      (p.instruction? address).map (renamed π : Translation size size).fetched := by
  unfold Program.instruction? Program.renamed
  rw [Program.fetch_map, Option.map_map, Option.map_map]
  congr 1
  funext slot
  exact decode_renamed slot

theorem fate_renamed : ((renamed π).core c).fate (p.renamed π) = (renamed π).fate (c.fate p) :=
  fate_core (instruction?_renamed p c.pc) fun i _ _ => execute_renamed c i

end Translation

/-! ## Runs -/

/-- The outcome with the registers renamed in the instruction that a fault tells of. -/
def Outcome.renamed (π : Equiv.Perm (Fin 8)) : Outcome → Outcome
  | faulted (.invalidOperand i) => faulted (.invalidOperand (i.renamed π))
  | o => o

theorem Translation.outcome_renamed (o : Outcome) :
    (renamed π : Translation size size).outcome o = o.renamed π := by
  cases o with
  | halted => rfl
  | faulted f => cases f <;> rfl

/-- The machine with its registers under other names. -/
def Machine.renamed (π : Equiv.Perm (Fin 8)) (m : Machine size) : Machine size :=
  { m with registers := m.registers.renamed π }

/-- The registers can change places. Under other names for its registers, in the processor and in the
operands that name registers, a program runs as before, and all that it ends with and reports has the
other names. The outcome has them only in the instruction of an operand that is out of range. Program
counter, branch target, count and memory are the same; what register `j` would hold is in register `π j`,
and the active register is renamed like all others. -/
theorem Machine.registers_are_interchangeable (π : Equiv.Perm (Fin 8)) (p : Program)
    (m : Machine size) :
    let r := m.run p
    let r' := (m.renamed π).run (p.renamed π)
    r' = (Translation.renamed π).reply r ∧
      r'.outcome = r.outcome.renamed π ∧
      r'.machine.pc = r.machine.pc ∧
      r'.machine.registers.target = r.machine.registers.target ∧
      r'.machine.retired = r.machine.retired ∧
      r'.machine.memory = r.machine.memory ∧
      (∀ j, r'.machine.registers.get (π j) = r.machine.registers.get j) ∧
      r'.machine.registers.active = π r.machine.registers.active := by
  intro r r'
  have hrun : r' = (Translation.renamed π).reply r :=
    Translation.run_withCore (P := fun _ => True) (fun _ _ => Translation.fate_renamed)
      (fun _ _ _ => trivial) trivial
  rw [hrun]
  exact ⟨rfl, Translation.outcome_renamed r.outcome, rfl, rfl, rfl, rfl,
    r.machine.registers.get_renamed_apply π, rfl⟩

end Accumulator
