import Accumulator.Machine.Basic
import Accumulator.Proofs.Operands

/-!
# Refused operands

What can be wrong with an operand, kind by kind (`Registers.Refuses`). Nothing else can keep a
machine from carrying out an instruction, and then no part of it is done: neither the core nor the
bookkeeping of the machine changes, and nothing is reported.
-/

namespace Accumulator

/-- The operand of an instruction is not valid in a machine with a memory of `size` cells. -/
inductive Registers.Refuses (r : Registers) (size : Nat) (i : Instruction) : Prop
  /-- A register is to be read, and none has that number. -/
  | noRegister (hkind : i.opcode.operandKind ∈ [.register, .shift, .memory])
      (hfield : 7 < i.operand.toNat)
  /-- The register for a shift amount holds a negative number. -/
  | negativeAmount {k : Int} (hkind : i.opcode.operandKind = .shift)
      (hvalue : r.operand? i.operand = some k) (hneg : k < 0)
  /-- The register for an address holds one outside the memory. -/
  | noCell {a : Int} (hkind : i.opcode.operandKind = .memory)
      (hvalue : r.operand? i.operand = some a) (hout : a < 0 ∨ size ≤ a)
  /-- The field does not encode an immediate. -/
  | noImmediate (hkind : i.opcode.operandKind = .immediate) (hfield : 11 < i.operand.toNat)

namespace Registers

variable {r : Registers} {size : Nat} {i : Instruction}

theorem operand?_eq_none_iff {field : Byte} : r.operand? field = none ↔ 7 < field.toNat := by
  rw [operand?, Option.map_eq_none_iff, registerNumber?_eq_none_iff]
  omega

theorem not_accepts_of_refuses (h : r.Refuses size i) : ¬r.Accepts size i := by
  unfold Accepts
  intro haccepts
  cases h with
  | noRegister hkind hfield =>
    have hnone : ∀ k, r.operand? i.operand ≠ some k := by simp [operand?_eq_none_iff.2 hfield]
    cases h : i.opcode.operandKind with
    | register =>
      simp only [h] at haccepts
      omega
    | shift | memory =>
      simp only [h] at haccepts
      obtain ⟨k, hk, -⟩ := haccepts
      exact hnone k hk
    | immediate | control => simp [h] at hkind
  | negativeAmount hkind hvalue hneg =>
    simp only [hkind, hvalue, Option.some_inj] at haccepts
    obtain ⟨_, rfl, hpos⟩ := haccepts
    omega
  | noCell hkind hvalue hout =>
    simp only [hkind, hvalue, Option.some_inj] at haccepts
    obtain ⟨_, rfl, hpos, hlt⟩ := haccepts
    omega
  | noImmediate hkind hfield =>
    simp only [hkind] at haccepts
    omega

theorem refuses_of_not_accepts (h : ¬r.Accepts size i) : r.Refuses size i := by
  unfold Accepts at h
  cases hkind : i.opcode.operandKind with
  | register =>
    simp only [hkind] at h
    exact .noRegister (by simp [hkind]) (by omega)
  | shift =>
    simp only [hkind] at h
    cases hvalue : r.operand? i.operand with
    | none => exact .noRegister (by simp [hkind]) (operand?_eq_none_iff.1 hvalue)
    | some k => exact .negativeAmount hkind hvalue (Int.not_le.1 fun hpos => h ⟨k, hvalue, hpos⟩)
  | memory =>
    simp only [hkind] at h
    cases hvalue : r.operand? i.operand with
    | none => exact .noRegister (by simp [hkind]) (operand?_eq_none_iff.1 hvalue)
    | some a =>
      have hout : ¬(0 ≤ a ∧ a < size) := fun hin => h ⟨a, hvalue, hin⟩
      exact .noCell hkind hvalue (by omega)
  | immediate =>
    simp only [hkind] at h
    exact .noImmediate hkind (by omega)
  | control => simp [hkind] at h

theorem refuses_iff : r.Refuses size i ↔ ¬r.Accepts size i :=
  ⟨not_accepts_of_refuses, refuses_of_not_accepts⟩

end Registers

namespace Machine

variable {size : Nat} {m : Machine size} {i : Instruction}

theorem execute_of_ok {c : Core size} (h : m.toCore.execute i = .ok c) :
    m.execute i = ⟨.ok (), { m with toCore := c }, []⟩ := by
  rw [execute_of_core, h]

theorem execute_of_error {f : Fault} (h : m.toCore.execute i = .error f) :
    m.execute i = ⟨.error f, m, []⟩ := by
  rw [execute_of_core, h]

theorem execute_of_refuses (h : m.registers.Refuses size i) :
    m.execute i = ⟨.error (.invalidOperand i), m, []⟩ :=
  execute_of_error (Core.execute_eq_error_iff.2 ⟨Registers.refuses_iff.1 h, rfl⟩)

theorem execute_of_not_refuses (h : ¬m.registers.Refuses size i) :
    (m.execute i).outcome = .ok () := by
  cases hcore : m.toCore.execute i with
  | ok c => rw [execute_of_ok hcore]
  | error f => exact absurd (Registers.refuses_iff.2 (Core.execute_eq_error_iff.1 hcore).1) h

/-- Nothing is wrong with the operand of an instruction that does not read it. -/
theorem not_refuses_of_control {r : Registers} (h : i.opcode.operandKind = .control) :
    ¬r.Refuses size i := by
  rw [Registers.refuses_iff, Registers.Accepts, h]
  exact not_not_intro trivial

/-- A machine refuses an instruction exactly if its operand is not valid, and `B` and `STOP` never.
It then names the instruction with its operand as given, and stays as it was in all of its parts. -/
theorem execute_fails_iff_refused (m : Machine size) (i : Instruction) :
    ((∃ f, (m.execute i).outcome = .error f) ↔ m.registers.Refuses size i) ∧
    (∀ f, (m.execute i).outcome = .error f →
      f = .invalidOperand i ∧ (m.execute i).machine = m ∧ (m.execute i).log = []) ∧
    (i.opcode = .b ∨ i.opcode = .stop → (m.execute i).outcome = .ok ()) := by
  have hrefused : ∀ f, (m.execute i).outcome = .error f → m.registers.Refuses size i := by
    intro f hf
    refine Classical.byContradiction fun h => ?_
    rw [execute_of_not_refuses h] at hf
    cases hf
  refine ⟨⟨fun ⟨f, hf⟩ => hrefused f hf, fun h => ?_⟩, fun f hf => ?_, fun h => ?_⟩
  · exact ⟨_, congrArg Reply.outcome (execute_of_refuses h)⟩
  · have hexecute := execute_of_refuses (hrefused f hf)
    rw [hexecute] at hf ⊢
    cases hf
    exact ⟨rfl, rfl, rfl⟩
  · apply execute_of_not_refuses (not_refuses_of_control _)
    rcases h with h | h <;> rw [h] <;> rfl

/-- Without memory, every address is outside; and `B` runs with an operand that names nothing. -/
theorem execute_fails_iff_refused_without_memory :
    let m := fresh Config.standard (Memory.zeroed 0)
    let load : Instruction := ⟨.load, 3⟩
    m.registers.Refuses 0 load ∧ m.execute load = ⟨.error (.invalidOperand load), m, []⟩ ∧
      (m.execute ⟨.b, 255⟩).outcome = .ok () := by
  intro m load
  have hfails := execute_fails_iff_refused m load
  have hload : (m.execute load).outcome = .error (.invalidOperand load) := rfl
  obtain ⟨-, hmachine, hlog⟩ := hfails.2.1 _ hload
  refine ⟨hfails.1.1 ⟨_, hload⟩, ?_, (execute_fails_iff_refused m ⟨.b, 255⟩).2.2 (.inl rfl)⟩
  rw [← hload, ← hlog]
  exact congrArg (Reply.mk _ · _) hmachine

end Machine

end Accumulator
