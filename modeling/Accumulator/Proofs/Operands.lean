import Accumulator.Machine.Core

/-!
# Valid operands

Which operands an instruction accepts, said by the kind of its operand and the numbers in the
registers. `Core.execute_eq_error_iff` says that these are exactly the operands with which it can
be carried out, so each opcode resolves its operand as its row of the opcode table announces.
-/

namespace Accumulator

/-- The number in the register that an operand field names, if it names one. -/
def Registers.operand? (r : Registers) (field : Byte) : Option Int :=
  (registerNumber? field).map fun i => (r.get i).toInt

/-- Tells whether an instruction accepts its operand. Only a shift and an access to memory, of
`size` cells, depend on what the registers hold. -/
def Registers.Accepts (r : Registers) (size : Nat) (i : Instruction) : Prop :=
  match i.opcode.operandKind with
  | .register => i.operand.toNat < 8
  | .shift => ∃ k, r.operand? i.operand = some k ∧ 0 ≤ k
  | .memory => ∃ k, r.operand? i.operand = some k ∧ 0 ≤ k ∧ k < size
  | .immediate => i.operand.toNat ≤ 11
  | .control => True

theorem registerNumber?_eq_none_iff {field : Byte} :
    registerNumber? field = none ↔ ¬field.toNat < 8 := by
  unfold registerNumber?
  split <;> simp [*]

theorem registerNumber?_eq_some_iff {field : Byte} {r : Fin 8} :
    registerNumber? field = some r ↔ field.toNat = r.val := by
  unfold registerNumber?
  split
  · rw [Option.some_inj, Fin.ext_iff]
  · simp only [reduceCtorEq, false_iff]
    omega

theorem immediate?_eq_none_iff {field : Byte} : immediate? field = none ↔ ¬field.toNat ≤ 11 := by
  rw [← immediate?_isSome_iff, Option.not_isSome_iff_eq_none]

namespace Registers

variable {r : Registers} {field : Byte}

theorem operand?_eq_some_iff {k : Int} :
    r.operand? field = some k ↔ ∃ i, registerNumber? field = some i ∧ (r.get i).toInt = k :=
  Option.map_eq_some_iff

theorem operand?_of_register {i : Fin 8} (h : registerNumber? field = some i) :
    r.operand? field = some (r.get i).toInt :=
  operand?_eq_some_iff.2 ⟨i, h, rfl⟩

end Registers

namespace Core

variable {size : Nat} {c : Core size} {field : Byte}

theorem shiftAmount?_eq_some_iff {n : Nat} :
    c.shiftAmount? field = some n ↔ c.registers.operand? field = some (n : Int) := by
  unfold shiftAmount? Registers.operand?
  cases registerNumber? field with
  | none => simp
  | some r =>
    simp only [Option.bind_some, Option.map_some, Option.some_inj]
    split
    · rw [Option.some_inj]
      omega
    · simp only [reduceCtorEq, false_iff]
      omega

theorem shiftAmount?_eq_none_iff :
    c.shiftAmount? field = none ↔ ¬∃ k, c.registers.operand? field = some k ∧ 0 ≤ k := by
  rw [Option.eq_none_iff_forall_ne_some]
  constructor
  · rintro hnone ⟨k, hk, hpos⟩
    apply hnone k.toNat
    rw [shiftAmount?_eq_some_iff, hk, Int.toNat_of_nonneg hpos]
  · intro hnone n hn
    exact hnone ⟨n, shiftAmount?_eq_some_iff.1 hn, Int.natCast_nonneg n⟩

theorem cell?_eq_some_iff {a : Fin size} :
    c.cell? field = some a ↔ c.registers.operand? field = some (a : Int) := by
  unfold cell? Registers.operand?
  cases registerNumber? field with
  | none => simp
  | some r => simp only [Option.bind_some, Option.map_some, Option.some_inj,
      Memory.cellAt?_eq_some_iff]

theorem cell?_eq_none_iff :
    c.cell? field = none ↔
      ¬∃ k, c.registers.operand? field = some k ∧ 0 ≤ k ∧ k < size := by
  rw [Option.eq_none_iff_forall_ne_some]
  constructor
  · rintro hnone ⟨k, hk, hpos, hlt⟩
    apply hnone ⟨k.toNat, by omega⟩
    rw [cell?_eq_some_iff, hk, Int.toNat_of_nonneg hpos]
  · intro hnone a ha
    exact hnone ⟨a, cell?_eq_some_iff.1 ha, by omega, by omega⟩

theorem withOperand_of_some {α : Type} {i : Instruction} {operand : Option α}
    {effect : α → Core size} {v : α} (h : operand = some v) :
    withOperand i operand effect = .ok (effect v) :=
  withOperand_eq_ok_iff.2 ⟨v, h, rfl⟩

/-- If each effect of an operand is an image, so is the effect of the instruction. -/
theorem withOperand_eq_map {α : Type} {size' : Nat} {i : Instruction} {operand : Option α}
    {effect : α → Core size} {effect' : α → Core size'} {f : Core size → Core size'}
    (h : ∀ v, effect' v = f (effect v)) :
    withOperand i operand effect' = (withOperand i operand effect).map f := by
  cases operand with
  | none => rfl
  | some v => exact congrArg Except.ok (h v)

/-- An instruction fails exactly if it does not accept its operand, and says so. -/
theorem execute_eq_error_iff {i : Instruction} {f : Fault} :
    c.execute i = .error f ↔ ¬c.registers.Accepts size i ∧ f = .invalidOperand i := by
  obtain ⟨op, field⟩ := i
  rw [execute_eq]
  -- The opcodes of one kind resolve their operand in one way.
  cases op with
  | sll | srl => exact withOperand_eq_error_iff.trans (and_congr_left' shiftAmount?_eq_none_iff)
  | load | stor => exact withOperand_eq_error_iff.trans (and_congr_left' cell?_eq_none_iff)
  | movi | addi => exact withOperand_eq_error_iff.trans (and_congr_left' immediate?_eq_none_iff)
  | b | stop => exact ⟨nofun, fun h => absurd trivial h.1⟩
  | _ => exact withOperand_eq_error_iff.trans (and_congr_left' registerNumber?_eq_none_iff)

end Core

end Accumulator
