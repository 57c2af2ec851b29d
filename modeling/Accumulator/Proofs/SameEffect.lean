import Accumulator.Proofs.Aliases
import Accumulator.Proofs.Refusal

/-!
# Instructions with the same effect

Two instructions of one opcode have the same effect from every state exactly if they have the same
canonical form (`Instruction.canonical_eq_iff`). If one of them is refused somewhere, its fault shows the
operand. Otherwise they are told apart by their effect: two immediates where the accumulator is zero, and
two registers in a core in which one of them holds -1 and the other 1 (`Core.eq_of_execute_opposed`).
-/

namespace Accumulator

/-! ## Immediate operands -/

/-- Fields that stand for the same number have the same least field. -/
theorem leastField_eq_of_signedOperand_eq {field field' : Byte}
    (h : signedOperand field = signedOperand field') : leastField field = leastField field' := by
  apply BitVec.eq_of_toNat_eq
  unfold signedOperand greatestImmediate at h
  unfold leastField
  split at h <;> split at h <;> split <;> split <;> bv_omega

theorem signedOperand_of_immediate? {field : Byte} {v : Word} (h : immediate? field = some v) :
    signedOperand field = v.toInt := by
  unfold immediate? at h
  split at h
  · exact (Word.ofInt?_eq_some_iff.1 h).symm
  · cases h

namespace Core

variable {size : Nat} {c : Core size} {op : Opcode} {field field' : Byte}

/-! ## Faults -/

/-- An instruction that is refused is told from all others by its fault. -/
theorem operand_eq_of_refuses (h : c.registers.Refuses size ⟨op, field⟩)
    (heq : c.execute ⟨op, field⟩ = c.execute ⟨op, field'⟩) : field = field' := by
  have hfails : c.execute ⟨op, field⟩ = .error (.invalidOperand ⟨op, field⟩) :=
    execute_eq_error_iff.2 ⟨Registers.refuses_iff.1 h, rfl⟩
  rw [heq] at hfails
  cases eq_invalidOperand_of_execute hfails
  rfl

/-! ## Effects -/

theorem effect_eq_of_withOperand_eq {α : Type} {i i' : Instruction} {operand operand' : Option α}
    {effect : α → Core size} {v v' : α} (hv : operand = some v) (hv' : operand' = some v')
    (heq : withOperand i operand effect = withOperand i' operand' effect) : effect v = effect v' := by
  rw [withOperand_of_some hv, withOperand_of_some hv'] at heq
  exact Except.ok.inj heq

theorem setAccumulator_injective {v v' : Word} (h : c.setAccumulator v = c.setAccumulator v') :
    v = v' := by
  have haccumulator := congrArg (fun d : Core size => d.registers.accumulator) h
  simpa [setAccumulator] using haccumulator

/-- A core without memory in which register `r` is active and holds -1, and all others hold 1. A branch
that is taken shows, as it leads away. -/
def opposed (r : Fin 8) : Core 0 where
  registers := ⟨Vector.ofFn fun i => if i = r then -1 else 1, r, 1⟩
  pc := 0
  memory := .zeroed 0

theorem get_opposed (r i : Fin 8) :
    (opposed r).registers.get i = if i = r then -1 else 1 :=
  Vector.getElem_ofFn ..

/-- An operand that is the number of register `r` is told from those that are the number of another. -/
theorem eq_of_execute_opposed {r r' : Fin 8} (hkind : op.operandKind = .register)
    (hr : registerNumber? field = some r) (hr' : registerNumber? field' = some r')
    (heq : (opposed r).execute ⟨op, field⟩ = (opposed r).execute ⟨op, field'⟩) : r' = r := by
  refine Classical.byContradiction fun hne => ?_
  have hget : (opposed r).registers.get r = -1 := (get_opposed r r).trans (if_pos rfl)
  have hget' : (opposed r).registers.get r' = 1 := (get_opposed r r').trans (if_neg hne)
  have haccumulator : (opposed r).registers.accumulator = -1 := hget
  rw [execute_eq, execute_eq _ ⟨op, field'⟩] at heq
  -- With -1 in the accumulator, no operation gives the same for the operands -1 and 1.
  cases op with
  | add | nand | sub | mlt =>
    have hafter := effect_eq_of_withOperand_eq hr hr' heq
    have hword := setAccumulator_injective hafter
    rw [haccumulator, hget, hget'] at hword
    exact absurd hword (by decide)
  | mov =>
    have hafter := effect_eq_of_withOperand_eq hr hr' heq
    have hword := setAccumulator_injective hafter
    rw [hget, hget'] at hword
    exact absurd hword (by decide)
  | sar =>
    have hafter := effect_eq_of_withOperand_eq hr hr' heq
    exact hne (congrArg (fun d : Core 0 => d.registers.active) hafter).symm
  | bslt =>
    have hafter := effect_eq_of_withOperand_eq hr hr' heq
    rw [haccumulator, hget, hget', if_neg (by decide), if_pos (by decide)] at hafter
    exact absurd (congrArg Core.pc hafter) (show (0 : Int) ≠ 1 by decide)
  | spc =>
    have hafter := effect_eq_of_withOperand_eq hr hr' heq
    rw [hget, hget'] at hafter
    have htarget := congrArg (fun d : Core 0 => d.registers.target) hafter
    exact absurd htarget (show (0 + -1 : Int) ≠ 0 + 1 by decide)
  | _ => cases hkind

/-- A shift by -1 is refused, and where there is no memory, every access to it. -/
theorem operand_eq_of_execute_opposed {r r' : Fin 8}
    (hkind : op.operandKind ∈ [.register, .shift, .memory]) (hr : registerNumber? field = some r)
    (hr' : registerNumber? field' = some r')
    (heq : (opposed r).execute ⟨op, field⟩ = (opposed r).execute ⟨op, field'⟩) : field = field' := by
  have hvalue : (opposed r).registers.operand? field = some (-1) := by
    rw [Registers.operand?_of_register hr, get_opposed, if_pos rfl]
    rfl
  cases hop : op.operandKind with
  | register =>
    apply BitVec.eq_of_toNat_eq
    rw [registerNumber?_eq_some_iff.1 hr, registerNumber?_eq_some_iff.1 hr',
      eq_of_execute_opposed hop hr hr' heq]
  | shift => exact operand_eq_of_refuses (.negativeAmount hop hvalue (by decide)) heq
  | memory => exact operand_eq_of_refuses (.noCell hop hvalue (by decide)) heq
  | immediate | control => simp [hop] at hkind

/-- Where the operand names a register, no two operands have the same effect in all cores. -/
theorem operand_eq_of_forall_execute_eq (hkind : op.operandKind ∈ [.register, .shift, .memory])
    (h : ∀ c : Core 0, c.execute ⟨op, field⟩ = c.execute ⟨op, field'⟩) : field = field' := by
  cases hr : registerNumber? field with
  | none =>
    have hlarge := Nat.not_lt.1 (registerNumber?_eq_none_iff.1 hr)
    exact operand_eq_of_refuses (.noRegister hkind hlarge) (h (cleared 0))
  | some r =>
    cases hr' : registerNumber? field' with
    | none =>
      have hlarge := Nat.not_lt.1 (registerNumber?_eq_none_iff.1 hr')
      exact (operand_eq_of_refuses (.noRegister hkind hlarge) (h (cleared 0)).symm).symm
    | some r' => exact operand_eq_of_execute_opposed hkind hr hr' (h (opposed r))

/-- Immediates that have the same effect where the accumulator is zero are the same number. -/
theorem leastField_eq_of_execute_cleared (hkind : op.operandKind = .immediate)
    (h : (cleared 0).execute ⟨op, field⟩ = (cleared 0).execute ⟨op, field'⟩) :
    leastField field = leastField field' := by
  cases hv : immediate? field with
  | none =>
    have hlarge := Nat.not_le.1 (immediate?_eq_none_iff.1 hv)
    rw [operand_eq_of_refuses (.noImmediate hkind hlarge) h]
  | some v =>
    cases hv' : immediate? field' with
    | none =>
      have hlarge := Nat.not_le.1 (immediate?_eq_none_iff.1 hv')
      rw [operand_eq_of_refuses (.noImmediate hkind hlarge) h.symm]
    | some v' =>
      have hword : v = v' := by
        rw [execute_eq, execute_eq _ ⟨op, field'⟩] at h
        cases op with
        | movi =>
          have hafter := effect_eq_of_withOperand_eq hv hv' h
          exact setAccumulator_injective hafter
        | addi =>
          have hafter := effect_eq_of_withOperand_eq hv hv' h
          exact (BitVec.add_right_inj _).1 (setAccumulator_injective hafter)
        | _ => cases hkind
      apply leastField_eq_of_signedOperand_eq
      rw [signedOperand_of_immediate? hv, signedOperand_of_immediate? hv', hword]

end Core

/-! ## Canonical instructions -/

/-- A machine does with its core what the instruction does, and tells so. -/
theorem Machine.execute_toCore {size : Nat} (m : Machine size) (i : Instruction) :
    m.toCore.execute i = (m.execute i).outcome.map fun _ => (m.execute i).machine.toCore := by
  cases h : m.toCore.execute i with
  | ok c =>
    rw [execute_of_ok h]
    rfl
  | error f =>
    rw [execute_of_error h]
    rfl

namespace Instruction

/-- Carried out by whatever machine, the instructions have the same outcome and leave the same machine,
with the same memory. -/
def SameEffect (i i' : Instruction) : Prop :=
  ∀ (size : Nat) (m : Machine size), m.execute i = m.execute i'

variable {i i' : Instruction}

theorem SameEffect.execute_eq {size : Nat} (h : i.SameEffect i') (c : Core size) :
    c.execute i = c.execute i' := by
  let m : Machine size := { Machine.fresh Config.standard c.memory with toCore := c }
  show m.toCore.execute i = m.toCore.execute i'
  rw [m.execute_toCore, h, ← m.execute_toCore]

theorem sameEffect_canonical (i : Instruction) : i.canonical.SameEffect i := by
  intro size m
  rw [Machine.execute_of_core, m.toCore.execute_canonical, ← Machine.execute_of_core]

/-- Instructions have the same canonical form exactly if they have the same opcode and the same effect. -/
theorem canonical_eq_iff : i.canonical = i'.canonical ↔ i.opcode = i'.opcode ∧ i.SameEffect i' := by
  constructor
  · intro h
    refine ⟨?_, fun size m => ?_⟩
    · rw [← i.opcode_canonical, h, i'.opcode_canonical]
    · rw [← i.sameEffect_canonical size m, h, i'.sameEffect_canonical]
  · rintro ⟨hop, h⟩
    obtain ⟨op, field⟩ := i
    obtain ⟨_, field'⟩ := i'
    cases hop
    cases op with
    | b | stop => rfl
    | movi | addi =>
      exact congrArg (Instruction.mk _) (Core.leastField_eq_of_execute_cleared rfl (h.execute_eq _))
    | _ => rw [Core.operand_eq_of_forall_execute_eq (by decide) fun c => h.execute_eq c]

end Instruction

end Accumulator
