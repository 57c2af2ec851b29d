import Accumulator.Proofs.Exact
import Accumulator.Proofs.Steps
import Accumulator.Proofs.WordArithmetic

/-!
# Words in place of integers

A core of words stands for the exact core of their values. An instruction keeps the two in step as
long as the value that the exact one writes is the value of a word (`Core.simulates_execute`), and
so a run agrees with the exact run in every respect, if all that the exact run writes to registers
are values of words. Nothing need be known of memory, which is only written from registers, nor of
addresses, which are integers on both sides.
-/

namespace Accumulator

variable {size : Nat}

/-- The exact core that a core of words stands for. -/
def Core.exact (c : Core size) : Exact.Core size where
  general := c.registers.general.map BitVec.toInt
  active := c.registers.active
  target := c.registers.target
  pc := c.pc
  cells := c.memory.cells.map BitVec.toInt

/-! ## Operands -/

namespace Core

variable {c : Core size} {i : Instruction}

theorem accumulator_exact (c : Core size) :
    c.exact.accumulator = c.registers.accumulator.toInt :=
  Vector.getElem_map ..

theorem operand?_exact (c : Core size) (field : Byte) :
    c.exact.operand? field = (registerNumber? field).map fun r => (c.registers.get r).toInt := by
  unfold Exact.Core.operand?
  congr 1
  funext r
  exact Vector.getElem_map ..

theorem amount?_exact (c : Core size) (field : Byte) :
    c.exact.amount? field = (c.shiftAmount? field).map id := by
  rw [Exact.Core.amount?, operand?_exact, shiftAmount?, Option.map_id]
  cases registerNumber? field <;> rfl

theorem cell?_exact (c : Core size) (field : Byte) :
    c.exact.cell? field = (c.cell? field).map id := by
  rw [Exact.Core.cell?, operand?_exact, cell?, Option.map_id]
  cases registerNumber? field <;> rfl

theorem immediate?_exact (field : Byte) :
    Exact.immediate? field = (immediate? field).map BitVec.toInt := by
  revert field
  decide

/-! ## Instructions -/

/-- The exact core follows an instruction, as long as it writes values of words only. -/
def Simulates (c : Core size) (i : Instruction) : Except Fault (Core size) → Prop
  | .ok after => ∃ e, c.exact.effect? i = some e ∧
      ((∀ v ∈ e.written, Word.Fits v) → c.exact.apply e = after.exact)
  | .error f => c.exact.effect? i = none ∧ f = .invalidOperand i

section Operand

-- An operand, and what the exact machine makes of it.
variable {α β : Type} {operand : Option α} {value : α → β} {exactOperand : Option β}

theorem simulates_withOperand {effect : α → Core size} {exactEffect : β → Exact.Effect size}
    (hoperand : exactOperand = operand.map value)
    (heffect : c.exact.effect? i = exactOperand.map exactEffect)
    (happly : ∀ v, (∀ z ∈ (exactEffect (value v)).written, Word.Fits z) →
      c.exact.apply (exactEffect (value v)) = (effect v).exact) :
    c.Simulates i (withOperand i operand effect) := by
  subst hoperand
  cases operand with
  | none => exact ⟨heffect, rfl⟩
  | some v => exact ⟨exactEffect (value v), heffect, happly v⟩

/-- An instruction that writes a word to the active register, where the exact machine writes its
value. -/
theorem simulates_assign {word : α → Word} {exactValue : β → Int}
    (hoperand : exactOperand = operand.map value)
    (heffect : c.exact.effect? i = exactOperand.map fun v => .assign (exactValue v))
    (hvalue : ∀ v, Word.Fits (exactValue (value v)) →
      (word v).toInt = exactValue (value v)) :
    c.Simulates i (withOperand i operand fun v => c.setAccumulator (word v)) := by
  apply simulates_withOperand hoperand heffect
  intro v hfits
  rw [← hvalue v (hfits _ (List.mem_singleton.2 rfl))]
  simp only [Exact.Core.apply, exact, setAccumulator, Registers.setAccumulator, Registers.set]
  congr 1
  exact Vector.map_set.symm

end Operand

theorem simulates_execute (c : Core size) (i : Instruction) : c.Simulates i (c.execute i) := by
  have hacc := accumulator_exact c
  obtain ⟨op, field⟩ := i
  have hoperand := operand?_exact c field
  have hamount := amount?_exact c field
  have hcell := cell?_exact c field
  have himmediate := immediate?_exact field
  rw [execute_eq]
  cases op with
  | sar => exact simulates_withOperand (congrFun Option.map_id _).symm rfl fun r _ => rfl
  | add =>
    refine simulates_assign hoperand rfl fun r hfits => ?_
    rw [hacc] at hfits ⊢
    exact Word.toInt_add_of_fits hfits
  | mov => exact simulates_assign hoperand rfl fun r _ => rfl
  | nand =>
    refine simulates_assign hoperand rfl fun r _ => ?_
    rw [hacc]
    exact Word.toInt_nand _ _
  | sll =>
    refine simulates_assign hamount rfl fun k hfits => ?_
    rw [hacc] at hfits ⊢
    exact Word.toInt_shiftLeft_of_fits hfits
  | srl =>
    refine simulates_assign hamount rfl fun k _ => ?_
    rw [hacc]
    exact Word.toInt_sshiftRight _ _
  | load => exact simulates_assign hcell rfl fun a _ => (Vector.getElem_map ..).symm
  | stor =>
    refine simulates_withOperand hcell rfl fun a _ => ?_
    simp only [Exact.Core.apply, hacc]
    simp only [exact, store, Memory.write]
    congr 1
    exact Vector.map_set.symm
  | sub =>
    refine simulates_assign hoperand rfl fun r hfits => ?_
    rw [hacc] at hfits ⊢
    exact Word.toInt_sub_of_fits hfits
  | mlt =>
    refine simulates_assign hoperand rfl fun r hfits => ?_
    rw [hacc] at hfits ⊢
    exact Word.toInt_mul_of_fits hfits
  | bslt =>
    refine simulates_withOperand hoperand rfl fun r _ => ?_
    rw [hacc]
    split <;> rfl
  | movi => exact simulates_assign himmediate rfl fun v _ => rfl
  | addi =>
    refine simulates_assign himmediate rfl fun v hfits => ?_
    rw [hacc] at hfits ⊢
    exact Word.toInt_add_of_fits hfits
  | spc => exact simulates_withOperand hoperand rfl fun r _ => rfl
  | b => exact ⟨.branch, rfl, fun _ => rfl⟩
  | stop => exact ⟨.nothing, rfl, fun _ => rfl⟩

end Core

/-! ## Runs -/

namespace Exact

variable {p : Program} {limit retired : Nat} {c after : Accumulator.Core size}

theorem runFrom_of_ends {o : Outcome} (h : c.fate p = .ends o) :
    runFrom p limit c.exact retired = ⟨o, c.exact, retired, []⟩ := by
  rw [runFrom, show c.exact.pc = c.pc from rfl]
  rcases Core.fate_eq_ends_iff.1 h with
    ⟨hi, rfl⟩ | ⟨f, hi, rfl⟩ | ⟨i, hi, hstop, rfl⟩ | ⟨i, f, hi, hstop, he, rfl⟩
  · simp only [hi]
  · simp only [hi]
  · simp only [hi, if_pos hstop]
  · have hsim := c.simulates_execute i
    rw [he] at hsim
    obtain ⟨heffect, rfl⟩ := hsim
    simp only [hi, if_neg hstop, heffect]

/-- The exact run takes an instruction that retires along, if all that it writes are values of
words. -/
theorem runFrom_of_retires {i : Instruction} (h : c.fate p = .retires i after)
    (hfits : ∀ v ∈ (runFrom p limit c.exact retired).written, Word.Fits v) :
    ∃ written, runFrom p limit c.exact retired =
      if limit < retired + 1 then
        ⟨.faulted (.limitExceeded limit), after.advance.exact, retired + 1, written⟩
      else
        let r := runFrom p limit after.advance.exact (retired + 1)
        { r with written := written ++ r.written } := by
  obtain ⟨hi, hstop, he⟩ := Core.fate_eq_retires_iff.1 h
  have hsim := c.simulates_execute i
  rw [he] at hsim
  obtain ⟨e, heffect, happly⟩ := hsim
  have hrun : runFrom p limit c.exact retired =
      if limit < retired + 1 then
        ⟨.faulted (.limitExceeded limit), (c.exact.apply e).advance, retired + 1, e.written⟩
      else
        let r := runFrom p limit (c.exact.apply e).advance (retired + 1)
        { r with written := e.written ++ r.written } := by
    rw [runFrom, show c.exact.pc = c.pc from rfl]
    simp only [hi, if_neg hstop, heffect]
  have hwritten : ∀ v ∈ e.written, Word.Fits v := by
    intro v hv
    apply hfits
    rw [hrun]
    split
    · exact hv
    · exact List.mem_append_left _ hv
  have hnext : (c.exact.apply e).advance = after.advance.exact := by
    rw [happly hwritten]
    rfl
  rw [hnext] at hrun
  exact ⟨e.written, hrun⟩

end Exact

namespace Machine

variable {p : Program} {m : Machine size}

/-- What a run on words and an exact run have to agree on. -/
structure Agrees (reply : Reply size Outcome) (r : Exact.Run size) : Prop where
  outcome : reply.outcome = r.outcome
  core : reply.machine.toCore.exact = r.core
  retired : reply.machine.retired = r.retired

theorem resume_agrees (hs : m.status = .running)
    (hfits : ∀ v ∈ (Exact.runFrom p m.config.limit m.toCore.exact m.retired).written,
      Word.Fits v) :
    Agrees (m.resume p) (Exact.runFrom p m.config.limit m.toCore.exact m.retired) := by
  induction m using run_induction p with
  | last m o ho =>
    rw [resume_of_ended ho]
    cases hf : m.toCore.fate p with
    | ends o' =>
      rw [step_of_ends hs hf] at ho ⊢
      cases ho
      rw [Exact.runFrom_of_ends hf]
      exact ⟨rfl, rfl, rfl⟩
    | retires i after =>
      by_cases hl : m.retired < m.config.limit
      · rw [step_of_retires hs hf hl] at ho
        cases ho
      · obtain ⟨written, hrun⟩ := Exact.runFrom_of_retires hf hfits
        rw [step_of_retires_beyond hs hf (by omega)] at ho ⊢
        cases ho
        rw [hrun, if_pos (by omega)]
        exact ⟨rfl, rfl, rfl⟩
  | later m hr ih =>
    obtain ⟨i, after, hf, hl⟩ := retires_of_running hr
    obtain ⟨written, hrun⟩ := Exact.runFrom_of_retires hf hfits
    rw [if_neg (by omega)] at hrun
    rw [resume_of_running hr]
    rw [step_of_retires hs hf hl] at ih ⊢
    rw [hrun] at hfits ⊢
    have hrest := ih hs fun v hv => hfits v (List.mem_append_right _ hv)
    exact ⟨hrest.outcome, hrest.core, hrest.retired⟩

/-- If all that the exact run writes to registers are values of words, then the run on words has
the same outcome and the same count, and leaves registers, branch target, program counter and
memory as the exact run does. -/
theorem run_refines_exact (p : Program) (m : Machine size)
    (hfits : ∀ v ∈ (Exact.run p m.config.limit m.toCore.exact).written, Word.Fits v) :
    Agrees (m.run p) (Exact.run p m.config.limit m.toCore.exact) :=
  resume_agrees (m := m.restart) rfl hfits

/-- A negative number is shifted to the right by more than the width of a word. -/
theorem run_refines_exact_beyond_width :
    let p := Program.ofWords
      [0b10110011, 0b01000000, 0b00000001, 0b10110101, 0b01010000, 0b11110000]
    let m := fresh Config.standard (Memory.zeroed 2)
    let r := Exact.run p 1024 m.toCore.exact
    (∀ v ∈ r.written, Word.Fits v) ∧ r.written = [3, 24, -3, -1] ∧ Agrees (m.run p) r := by
  intro p m r
  have hwritten : r.written = [3, 24, -3, -1] := by decide +kernel
  have hfits : ∀ v ∈ r.written, Word.Fits v := by
    rw [hwritten]
    decide
  exact ⟨hfits, hwritten, run_refines_exact p m hfits⟩

end Machine

end Accumulator
