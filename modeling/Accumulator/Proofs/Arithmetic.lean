import Accumulator.Proofs.Operands
import Accumulator.Proofs.WordArithmetic
import Mathlib.Data.Rat.Floor

/-!
# The arithmetic of the opcodes

What the arithmetic instructions make of the numbers in their registers. Where the exact result may
be out of range, the accumulator gets the one word that is congruent to it (`Word.Represents`). The
operand register may be the accumulator itself, and a shift amount may be beyond the width of a
word.
-/

namespace Accumulator

theorem toInt_of_immediate? {field : Byte} {v : Word} (h : immediate? field = some v) :
    v.toInt = signedOperand field := by
  unfold immediate? at h
  split at h
  · exact Word.ofInt?_eq_some_iff.1 h
  · cases h

/-- An arithmetic shift to the right divides by a power of two and rounds down. -/
theorem Word.toInt_sshiftRight_eq_floor (a : Word) (k : Nat) :
    (a.sshiftRight k).toInt = ⌊(a.toInt : ℚ) / 2 ^ k⌋ := by
  have hfloor := Rat.floor_intCast_div_natCast a.toInt (2 ^ k)
  push_cast at hfloor
  rw [hfloor, toInt_sshiftRight, Int.fdiv_eq_ediv_of_nonneg _ (Int.pow_nonneg (by decide))]

/-- A bit is set exactly if not both operands have it. -/
theorem Word.getLsbD_nand (a b : Word) {k : Nat} (hk : k < 16) :
    (~~~(a &&& b)).getLsbD k = !(a.getLsbD k && b.getLsbD k) := by
  rw [BitVec.getLsbD_not, BitVec.getLsbD_and, decide_eq_true hk, Bool.true_and]

namespace Core

variable {size : Nat}

/-- The accumulator has a value with the property, and nothing else has changed. -/
structure Assigned (c : Core size) (P : Word → Prop) (d : Core size) : Prop where
  accumulator : P (d.registers.get c.registers.active)
  others : ∀ r, r ≠ c.registers.active → d.registers.get r = c.registers.get r
  active : d.registers.active = c.registers.active
  target : d.registers.target = c.registers.target
  pc : d.pc = c.pc
  memory : d.memory = c.memory

/-- The instruction can be carried out, and all it does is to put a word with the property into the
accumulator. -/
def Assigns (c : Core size) (i : Instruction) (P : Word → Prop) : Prop :=
  ∃ d, c.execute i = .ok d ∧ c.Assigned P d

theorem assigned_setAccumulator (c : Core size) {P : Word → Prop} {v : Word} (h : P v) :
    c.Assigned P (c.setAccumulator v) where
  accumulator := by
    rw [setAccumulator, Registers.get_setAccumulator, if_pos rfl]
    exact h
  others r hr := by
    rw [setAccumulator, Registers.get_setAccumulator, if_neg hr.symm]
  active := rfl
  target := rfl
  pc := rfl
  memory := rfl

theorem assigns_of_execute {c : Core size} {i : Instruction} {P : Word → Prop} {v : Word}
    (he : c.execute i = .ok (c.setAccumulator v)) (h : P v) : c.Assigns i P :=
  ⟨_, he, c.assigned_setAccumulator h⟩

/-- The arithmetic of the instructions, for any accumulator and any valid operand. Sums,
differences, products and shifts to the left are congruent to the exact ones modulo 2 to the 16.
`NAND` negates the conjunction bit by bit, a shift to the right rounds down, and `BSLT` compares
exactly and changes nothing but the program counter. -/
theorem arithmetic_of_words (c : Core size) (field : Byte) :
    let a := c.registers.accumulator
    (∀ r, registerNumber? field = some r →
      let b := c.registers.get r
      c.Assigns ⟨.add, field⟩ (fun v => v.Represents (a.toInt + b.toInt)) ∧
      c.Assigns ⟨.sub, field⟩ (fun v => v.Represents (a.toInt - b.toInt)) ∧
      c.Assigns ⟨.mlt, field⟩ (fun v => v.Represents (a.toInt * b.toInt)) ∧
      c.Assigns ⟨.nand, field⟩ (fun v =>
        (∀ k < 16, v.getLsbD k = !(a.getLsbD k && b.getLsbD k)) ∧
          v.toInt = -1 - Int.land a.toInt b.toInt) ∧
      (∀ k : Nat, b.toInt = k →
        c.Assigns ⟨.sll, field⟩ (fun v => v.Represents (a.toInt * 2 ^ k)) ∧
        c.Assigns ⟨.srl, field⟩ (fun v => v.toInt = ⌊(a.toInt : ℚ) / 2 ^ k⌋)) ∧
      ∃ d, c.execute ⟨.bslt, field⟩ = .ok d ∧
        d.pc = (if a.toInt < b.toInt then c.registers.target else c.pc) ∧
        d.registers = c.registers ∧ d.memory = c.memory) ∧
    (field.toNat ≤ 11 →
      c.Assigns ⟨.addi, field⟩ (fun v => v.Represents (a.toInt + signedOperand field))) := by
  intro a
  refine ⟨fun r hr => ?_, fun hfield => ?_⟩
  · intro b
    refine ⟨?_, ?_, ?_, ?_, fun k hk => ?_, ?_⟩
    · exact assigns_of_execute ((execute_eq ..).trans (withOperand_of_some hr))
        (Word.represents_add a b)
    · exact assigns_of_execute ((execute_eq ..).trans (withOperand_of_some hr))
        (Word.represents_sub a b)
    · exact assigns_of_execute ((execute_eq ..).trans (withOperand_of_some hr))
        (Word.represents_mul a b)
    · exact assigns_of_execute ((execute_eq ..).trans (withOperand_of_some hr))
        ⟨fun _ => Word.getLsbD_nand a b, Word.toInt_nand a b⟩
    · have hamount : c.shiftAmount? field = some k := by
        rw [shiftAmount?_eq_some_iff, Registers.operand?_of_register hr, ← hk]
      constructor
      · exact assigns_of_execute ((execute_eq ..).trans (withOperand_of_some hamount))
          (Word.represents_shiftLeft a k)
      · exact assigns_of_execute ((execute_eq ..).trans (withOperand_of_some hamount))
          (a.toInt_sshiftRight_eq_floor k)
    · refine ⟨_, (execute_eq ..).trans (withOperand_of_some hr), ?_⟩
      -- The effect is one of two cores, and which of them is what the condition says.
      show (if a.toInt < b.toInt then c.branch else c).pc = _ ∧ _
      split
      · exact ⟨rfl, rfl, rfl⟩
      · exact ⟨rfl, rfl, rfl⟩
  · obtain ⟨v, hv⟩ := Option.isSome_iff_exists.1 ((immediate?_isSome_iff field).2 hfield)
    refine assigns_of_execute ((execute_eq ..).trans (withOperand_of_some hv)) ?_
    rw [← toInt_of_immediate? hv]
    exact Word.represents_add a v

/-- Amounts beyond the width, for a negative accumulator and where amount and value are in one
register, and a branch that is taken only as -5 is less than 17. -/
theorem arithmetic_of_words_beyond_width :
    let c : Core 0 := ⟨⟨#v[-5, 17, 0, 0, 0, 0, 0, 0], 0, 40⟩, 2, .zeroed 0⟩
    (∃ d, c.execute ⟨.srl, 1⟩ = .ok d ∧ (d.registers.get 0).toInt = -1 ∧
      (d.registers.get 1).toInt = 17) ∧
    (∃ d, (c.select 1).execute ⟨.sll, 1⟩ = .ok d ∧ (d.registers.get 1).toInt = 0 ∧
      (d.registers.get 0).toInt = -5) ∧
    (∃ d, c.execute ⟨.addi, 4⟩ = .ok d ∧ (d.registers.get 0).toInt = -9) ∧
    ∃ d, c.execute ⟨.bslt, 1⟩ = .ok d ∧ d.pc = 40 ∧ d.registers = c.registers := by
  intro c
  have hregister : registerNumber? 1 = some 1 := rfl
  obtain ⟨-, -, -, -, hshift, dbranch, hbranch, hpc, hkept, -⟩ :=
    (arithmetic_of_words c 1).1 1 hregister
  obtain ⟨-, -, -, -, hown, -⟩ := (arithmetic_of_words (c.select 1) 1).1 1 hregister
  obtain ⟨dright, hright, hfloor⟩ := (hshift 17 (by decide)).2
  obtain ⟨dleft, hleft, hproduct⟩ := (hown 17 (by decide)).1
  obtain ⟨dsum, hsum, hplus⟩ := (arithmetic_of_words c 4).2 (by decide)
  refine ⟨⟨dright, hright, ?_, ?_⟩, ⟨dleft, hleft, ?_, ?_⟩, ⟨dsum, hsum, ?_⟩,
    dbranch, hbranch, hpc, hkept⟩
  · have hvalue : (dright.registers.get 0).toInt = ⌊((-5 : Int) : ℚ) / 2 ^ 17⌋ := hfloor.accumulator
    rw [hvalue]
    norm_num
  · rw [hfloor.others 1 (by decide)]
    rfl
  · exact (hproduct.accumulator.unique 0 (by decide) (by decide)).symm
  · rw [hproduct.others 0 (by decide)]
    rfl
  · exact (hplus.accumulator.unique (-9) (by decide) (by decide)).symm

end Core

end Accumulator
