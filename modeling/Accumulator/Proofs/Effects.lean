import Accumulator.Proofs.Operands

/-!
# What an instruction changes

`Change` lists what an instruction can do to the core: it changes one part, and each part has its
own instructions. The active register is chosen by `SAR`, the branch target is moved by `SPC`, the
program counter by a branch that is taken, and the memory by `STOR`; of the general registers, only
the active one is ever assigned to. The lemmas come in pairs, one for the instructions that change a
part and one for all others.
-/

namespace Accumulator.Core

variable {size : Nat} {c after : Core size} {i : Instruction}

/-- The instruction is a branch that is taken: `B`, or `BSLT` when the accumulator is less than its
operand. -/
def Branches (c : Core size) (i : Instruction) : Prop :=
  i.opcode = .b ∨
    i.opcode = .bslt ∧
      ∃ k, c.registers.operand? i.operand = some k ∧ c.registers.accumulator.toInt < k

theorem branches_bslt_iff {field : Byte} {r : Fin 8} (hr : registerNumber? field = some r) :
    c.Branches ⟨.bslt, field⟩ ↔
      c.registers.accumulator.toInt < (c.registers.get r).toInt := by
  simp [Branches, Registers.operand?_of_register hr]

/-- What an instruction can make of the core. -/
inductive Change (c : Core size) (i : Instruction) : Core size → Prop
  | select (hop : i.opcode = .sar) (r : Fin 8) : Change c i (c.select r)
  | assign (v : Word) : Change c i (c.setAccumulator v)
  | store (hop : i.opcode = .stor) (a : Fin size) : Change c i (c.store a)
  | stage (hop : i.opcode = .spc) (address : Int) : Change c i (c.setTarget address)
  | branch (hb : c.Branches i) : Change c i c.branch
  | keep : Change c i c

theorem change_of_execute (h : c.execute i = .ok after) : c.Change i after := by
  obtain ⟨op, field⟩ := i
  rw [execute_eq] at h
  cases op with
  | sar =>
    obtain ⟨r, -, rfl⟩ := withOperand_eq_ok_iff.1 h
    exact .select rfl r
  | stor =>
    obtain ⟨a, -, rfl⟩ := withOperand_eq_ok_iff.1 h
    exact .store rfl a
  | bslt =>
    obtain ⟨r, hr, rfl⟩ := withOperand_eq_ok_iff.1 h
    split
    · rename_i hlt
      exact .branch ((branches_bslt_iff hr).2 hlt)
    · exact .keep
  | spc =>
    obtain ⟨r, -, rfl⟩ := withOperand_eq_ok_iff.1 h
    exact .stage rfl _
  | b =>
    cases h
    exact .branch (.inl rfl)
  | stop =>
    cases h
    exact .keep
  | _ =>
    obtain ⟨v, -, rfl⟩ := withOperand_eq_ok_iff.1 h
    exact .assign _

/-! ## The general registers -/

theorem get_of_ne_active {j : Fin 8} (h : c.execute i = .ok after) (hj : j ≠ c.registers.active) :
    after.registers.get j = c.registers.get j := by
  cases change_of_execute h with
  | assign v =>
    refine (Registers.get_setAccumulator _ _ _).trans ?_
    rw [if_neg hj.symm]
  | _ => rfl

theorem active_of_sar (h : c.execute i = .ok after) (hop : i.opcode = .sar) :
    i.operand.toNat = after.registers.active := by
  obtain ⟨op, field⟩ := i
  rw [execute_eq] at h
  cases hop
  obtain ⟨r, hr, rfl⟩ := withOperand_eq_ok_iff.1 h
  exact registerNumber?_eq_some_iff.1 hr

theorem active_of_ne_sar (h : c.execute i = .ok after) (hop : i.opcode ≠ .sar) :
    after.registers.active = c.registers.active := by
  cases change_of_execute h with
  | select hsar => exact absurd hsar hop
  | _ => rfl

/-! ## The program counter -/

theorem pc_of_branches (h : c.execute i = .ok after) (hb : c.Branches i) :
    after.pc = c.registers.target := by
  obtain ⟨op, field⟩ := i
  rw [execute_eq] at h
  rcases hb with hop | ⟨hop, k, hk, hlt⟩
  · cases hop
    cases h
    rfl
  · cases hop
    obtain ⟨r, hr, rfl⟩ := withOperand_eq_ok_iff.1 h
    rw [Registers.operand?_of_register hr, Option.some_inj] at hk
    subst hk
    rw [if_pos hlt]
    rfl

theorem pc_of_not_branches (h : c.execute i = .ok after) (hb : ¬c.Branches i) :
    after.pc = c.pc := by
  cases change_of_execute h with
  | branch htaken => exact absurd htaken hb
  | _ => rfl

/-! ## The branch target -/

theorem target_of_spc (h : c.execute i = .ok after) (hop : i.opcode = .spc) :
    ∃ k, c.registers.operand? i.operand = some k ∧ after.registers.target = c.pc + k := by
  obtain ⟨op, field⟩ := i
  rw [execute_eq] at h
  cases hop
  obtain ⟨r, hr, rfl⟩ := withOperand_eq_ok_iff.1 h
  exact ⟨_, Registers.operand?_of_register hr, rfl⟩

theorem target_of_ne_spc (h : c.execute i = .ok after) (hop : i.opcode ≠ .spc) :
    after.registers.target = c.registers.target := by
  cases change_of_execute h with
  | stage hspc => exact absurd hspc hop
  | _ => rfl

/-! ## The memory -/

theorem memory_of_stor (h : c.execute i = .ok after) (hop : i.opcode = .stor) :
    ∃ a : Fin size, c.registers.operand? i.operand = some (a : Int) ∧
      after.memory = c.memory.write a c.registers.accumulator := by
  obtain ⟨op, field⟩ := i
  rw [execute_eq] at h
  cases hop
  obtain ⟨a, ha, rfl⟩ := withOperand_eq_ok_iff.1 h
  exact ⟨a, cell?_eq_some_iff.1 ha, rfl⟩

theorem memory_of_ne_stor (h : c.execute i = .ok after) (hop : i.opcode ≠ .stor) :
    after.memory = c.memory := by
  cases change_of_execute h with
  | store hstor => exact absurd hstor hop
  | _ => rfl

theorem accumulator_of_load (h : c.execute i = .ok after) (hop : i.opcode = .load) :
    ∃ a : Fin size, c.registers.operand? i.operand = some (a : Int) ∧
      after.registers.accumulator = c.memory.read a := by
  obtain ⟨op, field⟩ := i
  rw [execute_eq] at h
  cases hop
  obtain ⟨a, ha, rfl⟩ := withOperand_eq_ok_iff.1 h
  exact ⟨a, cell?_eq_some_iff.1 ha, Registers.accumulator_setAccumulator _ _⟩

end Accumulator.Core
