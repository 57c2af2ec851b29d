import Accumulator.Proofs.Accounting
import Accumulator.Proofs.Operands

/-!
# Reading the outcome off the final state

A run that the limit does not cut off stops in front of what stopped it: the core is the one that
the last step found. `Explains` says what each outcome looks like at the program counter, with
nothing but the program, the registers and the size of the memory to look at. The word there is
judged afresh, so nothing of the failing instruction can have had an effect.
-/

namespace Accumulator

/-! ## What stands at an address -/

namespace Program

variable {p : Program} {address : Int}

theorem instruction?_eq_none_iff :
    p.instruction? address = none ↔ ¬(0 ≤ address ∧ address < p.size) := by
  rw [instruction?, Option.map_eq_none_iff, fetch_eq_none_iff]
  omega

theorem instruction?_eq_ok_iff {i : Instruction} :
    p.instruction? address = some (.ok i) ↔
      ∃ word, p.fetch address = some (.encoded word) ∧ .decode word = i := by
  rw [instruction?, Option.map_eq_some_iff]
  constructor
  · rintro ⟨s, hs, hi⟩
    cases s with
    | encoded word =>
      cases hi
      exact ⟨word, hs, rfl⟩
    | malformed line => cases hi
  · rintro ⟨word, hw, rfl⟩
    exact ⟨.encoded word, hw, rfl⟩

theorem instruction?_eq_error_iff {f : Fault} :
    p.instruction? address = some (.error f) ↔
      ∃ line, p.fetch address = some (.malformed line) ∧
        f = if (Slot.malformed line).opcodeReadable then .unreadableWord line
          else .unreadableOpcode (Slot.malformed line).opcodePart := by
  rw [instruction?, Option.map_eq_some_iff]
  constructor
  · rintro ⟨s, hs, hf⟩
    cases s with
    | encoded word => cases hf
    | malformed line => exact ⟨line, hs, (Except.error.inj hf).symm⟩
  · rintro ⟨line, hl, hf⟩
    exact ⟨.malformed line, hl, congrArg Except.error hf.symm⟩

end Program

/-- The line begins with the four binary digits of an opcode. -/
def BeginsWithOpcode (line : String) : Prop :=
  ∃ code : BitVec 4, line.toList.take 4 = Text.digits code

theorem opcodeReadable_malformed_iff {line : String} :
    (Slot.malformed line).opcodeReadable = true ↔ BeginsWithOpcode line := by
  rw [Slot.opcodeReadable, Option.isSome_iff_exists]
  simp only [Slot.opcodePart, String.toList_ofList, Text.bits?_eq_some_iff]
  rfl

theorem opcode_decode_eq_stop_iff {word : Byte} :
    (Instruction.decode word).opcode = .stop ↔ word.extractLsb' 4 4 = 0b1111 := by
  show Opcode.ofCode (word.extractLsb' 4 4) = .stop ↔ _
  constructor
  · intro h
    rw [← Opcode.code_ofCode (word.extractLsb' 4 4), h]
    rfl
  · intro h
    rw [h]
    rfl

/-! ## What ends a run in its place -/

namespace Core

variable {size : Nat} {p : Program} {c : Core size}

theorem fate_eq_endOfProgram_iff :
    c.fate p = .ends (.halted .endOfProgram) ↔ ¬(0 ≤ c.pc ∧ c.pc < p.size) := by
  rw [fate_eq_ends_iff, ← Program.instruction?_eq_none_iff]
  simp

theorem fate_eq_stop_iff :
    c.fate p = .ends (.halted .stop) ↔
      ∃ word, p.fetch c.pc = some (.encoded word) ∧ word.extractLsb' 4 4 = 0b1111 := by
  have hfate : c.fate p = .ends (.halted .stop) ↔
      ∃ i, p.instruction? c.pc = some (.ok i) ∧ i.opcode = .stop := by
    simp [fate_eq_ends_iff]
  rw [hfate]
  constructor
  · rintro ⟨i, hi, hstop⟩
    obtain ⟨word, hw, rfl⟩ := Program.instruction?_eq_ok_iff.1 hi
    exact ⟨word, hw, opcode_decode_eq_stop_iff.1 hstop⟩
  · rintro ⟨word, hw, hstop⟩
    exact ⟨.decode word, Program.instruction?_eq_ok_iff.2 ⟨word, hw, rfl⟩,
      opcode_decode_eq_stop_iff.2 hstop⟩

theorem fate_eq_faulted_iff {f : Fault} :
    c.fate p = .ends (.faulted f) ↔
      p.instruction? c.pc = some (.error f) ∨
      ∃ i, p.instruction? c.pc = some (.ok i) ∧ i.opcode ≠ .stop ∧
        ¬c.registers.Accepts size i ∧ f = .invalidOperand i := by
  simp [fate_eq_ends_iff, execute_eq_error_iff]

theorem fate_eq_unreadableWord_iff {w : String} :
    c.fate p = .ends (.faulted (.unreadableWord w)) ↔
      p.fetch c.pc = some (.malformed w) ∧ BeginsWithOpcode w := by
  rw [fate_eq_faulted_iff, Program.instruction?_eq_error_iff]
  constructor
  · rintro (⟨line, hl, hf⟩ | ⟨i, -, -, -, hf⟩)
    · split at hf
      · rename_i hread
        cases hf
        exact ⟨hl, opcodeReadable_malformed_iff.1 hread⟩
      · cases hf
    · cases hf
  · rintro ⟨hl, hread⟩
    refine .inl ⟨w, hl, ?_⟩
    rw [if_pos (opcodeReadable_malformed_iff.2 hread)]

theorem fate_eq_unreadableOpcode_iff {s : String} :
    c.fate p = .ends (.faulted (.unreadableOpcode s)) ↔
      ∃ line, p.fetch c.pc = some (.malformed line) ∧ ¬BeginsWithOpcode line ∧
        s = String.ofList (line.toList.take 4) := by
  rw [fate_eq_faulted_iff, Program.instruction?_eq_error_iff]
  constructor
  · rintro (⟨line, hl, hf⟩ | ⟨i, -, -, -, hf⟩)
    · split at hf
      · cases hf
      · rename_i hread
        cases hf
        exact ⟨line, hl, fun h => hread (opcodeReadable_malformed_iff.2 h), rfl⟩
    · cases hf
  · rintro ⟨line, hl, hread, rfl⟩
    refine .inl ⟨line, hl, ?_⟩
    rw [if_neg fun h => hread (opcodeReadable_malformed_iff.1 h)]
    rfl

theorem fate_eq_invalidOperand_iff {i : Instruction} :
    c.fate p = .ends (.faulted (.invalidOperand i)) ↔
      ∃ word, p.fetch c.pc = some (.encoded word) ∧ .decode word = i ∧ i.opcode ≠ .stop ∧
        ¬c.registers.Accepts size i := by
  rw [fate_eq_faulted_iff, Program.instruction?_eq_error_iff]
  constructor
  · rintro (⟨line, -, hf⟩ | ⟨j, hj, hstop, hinvalid, hf⟩)
    · split at hf <;> cases hf
    · cases hf
      obtain ⟨word, hw, hi⟩ := Program.instruction?_eq_ok_iff.1 hj
      exact ⟨word, hw, hi, hstop, hinvalid⟩
  · rintro ⟨word, hw, hi, hstop, hinvalid⟩
    exact .inr ⟨i, Program.instruction?_eq_ok_iff.2 ⟨word, hw, hi⟩, hstop, hinvalid, rfl⟩

end Core

/-- What an outcome says of the word at the program counter, with registers `r` and a memory of
`size` cells. The outcome is each of the five that the limit has no part in exactly if the word
calls for it, and it is one of them. -/
structure Explains (p : Program) (size : Nat) (pc : Int) (r : Registers) (o : Outcome) :
    Prop where
  endOfProgram : o = .halted .endOfProgram ↔ ¬(0 ≤ pc ∧ pc < p.size)
  stop : o = .halted .stop ↔
    ∃ word, p.fetch pc = some (.encoded word) ∧ word.extractLsb' 4 4 = 0b1111
  unreadableWord : ∀ w, o = .faulted (.unreadableWord w) ↔
    p.fetch pc = some (.malformed w) ∧ BeginsWithOpcode w
  unreadableOpcode : ∀ s, o = .faulted (.unreadableOpcode s) ↔
    ∃ line, p.fetch pc = some (.malformed line) ∧ ¬BeginsWithOpcode line ∧
      s = String.ofList (line.toList.take 4)
  invalidOperand : ∀ i, o = .faulted (.invalidOperand i) ↔
    ∃ word, p.fetch pc = some (.encoded word) ∧ .decode word = i ∧ i.opcode ≠ .stop ∧
      ¬r.Accepts size i
  not_limitExceeded : ∀ limit, o ≠ .faulted (.limitExceeded limit)

namespace Machine

variable {size : Nat} {p : Program} {m : Machine size}

theorem explains_of_ends {c : Core size} {o : Outcome} (h : c.fate p = .ends o) :
    Explains p size c.pc c.registers o := by
  have heq : ∀ o', o = o' ↔ c.fate p = .ends o' := by
    intro o'
    rw [h, Fate.ends.injEq]
  constructor
  · rw [heq, Core.fate_eq_endOfProgram_iff]
  · rw [heq, Core.fate_eq_stop_iff]
  · intro w
    rw [heq, Core.fate_eq_unreadableWord_iff]
  · intro s
    rw [heq, Core.fate_eq_unreadableOpcode_iff]
  · intro i
    rw [heq, Core.fate_eq_invalidOperand_iff]
  · rintro limit rfl
    cases Core.isCut_of_ends h

/-- A step that ends a run, but not for the limit, leaves all but the status and the trace. -/
theorem step_of_not_isCut {o : Outcome} (hs : m.status = .running)
    (ho : (m.step p).outcome = .ended o) (hcut : o.isCut = false) :
    m.toCore.fate p = .ends o ∧ (m.step p).machine = m.endedWith o := by
  cases hf : m.toCore.fate p with
  | ends o' =>
    rw [step_of_ends hs hf] at ho ⊢
    cases ho
    exact ⟨rfl, rfl⟩
  | retires i after =>
    by_cases hl : m.retired < m.config.limit
    · rw [step_of_retires hs hf hl] at ho
      cases ho
    · rw [step_of_retires_beyond hs hf (by omega)] at ho
      cases ho
      cases hcut

/-- A run that is not cut off has come to a core that calls for its outcome. -/
theorem fate_resume (hs : m.status = .running) (hcut : (m.resume p).outcome.isCut = false) :
    (m.resume p).machine.toCore.fate p = .ends (m.resume p).outcome := by
  induction m using run_induction p with
  | last m o ho =>
    rw [resume_of_ended ho] at hcut ⊢
    obtain ⟨hf, hm⟩ := step_of_not_isCut hs ho hcut
    rw [hm]
    exact hf
  | later m hr ih =>
    rw [resume_of_running hr] at hcut ⊢
    exact ih ((status_step p m).trans hr) hcut

/-- If the count exceeds the limit, the run was cut off. Otherwise the outcome can be read off the
program counter and the registers at the end of the run: the step that ended it changed neither,
nor the count and the memory. -/
theorem final_state_explains_outcome (p : Program) (m : Machine size) :
    ((m.run p).machine.retired = m.config.limit + 1 →
      (m.run p).outcome = .faulted (.limitExceeded m.config.limit)) ∧
    ((m.run p).machine.retired ≠ m.config.limit + 1 →
      (m.run p).machine.retired ≤ m.config.limit ∧
      Explains p size (m.run p).machine.pc (m.run p).machine.registers (m.run p).outcome) ∧
    ∀ (d : Machine size) (f : Fault), d.status = .running →
      (d.step p).outcome = .ended (.faulted f) → (∀ limit, f ≠ .limitExceeded limit) →
      (d.step p).machine.toCore = d.toCore ∧
      (d.step p).machine.retired = d.retired ∧
      (d.step p).machine.lastTrace = none ∧
      (∃ slot, p.fetch (d.step p).machine.pc = some slot) ∧
      Explains p size (d.step p).machine.pc (d.step p).machine.registers (.faulted f) := by
  have hacc : (m.run p).machine.Accounted := (Accounted.restart m).resume
  have hend : (m.run p).machine.status = .ended (m.run p).outcome := status_resume p m.restart
  rw [← show (m.run p).machine.config = m.config from config_resume p m.restart]
  refine ⟨(hacc.retired_eq_iff hend).1, ?_, ?_⟩
  · intro hne
    rcases hacc.of_ended _ hend with ⟨hle, hcut⟩ | ⟨heq, -⟩
    · exact ⟨hle, explains_of_ends (fate_resume rfl hcut)⟩
    · exact absurd heq hne
  · intro d f hs ho hlimit
    have hcut : (Outcome.faulted f).isCut = false := by
      cases f with
      | limitExceeded limit => exact absurd rfl (hlimit limit)
      | _ => rfl
    obtain ⟨hf, hm⟩ := step_of_not_isCut hs ho hcut
    rw [hm]
    have hexplains := explains_of_ends hf
    -- Leaving the program is no fault, so something was fetched.
    have hfetched : p.fetch d.pc ≠ none := by
      intro hnone
      have hout : ¬(0 ≤ d.pc ∧ d.pc < p.size) := by
        have houtside := Program.fetch_eq_none_iff.1 hnone
        omega
      cases hexplains.endOfProgram.2 hout
    exact ⟨rfl, rfl, rfl, Option.ne_none_iff_exists'.1 hfetched, hexplains⟩

/-- `LOAD` finds a negative number where it needs an address. -/
theorem final_state_explains_negative_address :
    let p := Program.ofWords [0b10110111, 0b01100000, 0b11110000]
    let m := fresh Config.standard (Memory.zeroed 4)
    let d := (m.step p).machine
    (m.run p).machine.retired ≠ 1025 ∧
      ((m.run p).outcome = .faulted (.invalidOperand ⟨.load, 0⟩) ↔
        ∃ word, p.fetch (m.run p).machine.pc = some (.encoded word) ∧
          .decode word = (⟨.load, 0⟩ : Instruction) ∧ Opcode.load ≠ .stop ∧
          ¬(m.run p).machine.registers.Accepts 4 ⟨.load, 0⟩) ∧
      (m.run p).outcome = .faulted (.invalidOperand ⟨.load, 0⟩) ∧
      d.status = .running ∧ (d.step p).outcome = .ended (.faulted (.invalidOperand ⟨.load, 0⟩)) ∧
      (d.step p).machine.toCore = d.toCore := by
  intro p m d
  have hne : (m.run p).machine.retired ≠ 1025 := by decide +kernel
  have hs : d.status = .running := by decide
  have ho : (d.step p).outcome = .ended (.faulted (.invalidOperand ⟨.load, 0⟩)) := by decide
  obtain ⟨-, hrun, hstep⟩ := final_state_explains_outcome p m
  have hiff := (hrun hne).2.invalidOperand ⟨.load, 0⟩
  exact ⟨hne, hiff, by decide +kernel, hs, ho, (hstep d _ hs ho (nofun)).1⟩

end Machine

end Accumulator
