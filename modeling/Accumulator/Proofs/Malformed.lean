import Accumulator.Proofs.Fetching
import Accumulator.Proofs.ProgramImage

/-!
# Runs of program images

A slot of a loaded program stands for one line of its image (`LoadedProgram.LineAt`), so that a run
of the program fetches lines (`Machine.FetchesLine`). A line that is not an instruction is reported
when the image is loaded, and ends a run only if the run fetches it.
-/

namespace Accumulator

theorem beginsWithOpcode_iff {line : String} :
    BeginsWithOpcode line ↔ Text.IsBinary 4 (line.toList.take 4) := by
  rw [← Text.isSome_bits?_iff, Option.isSome_iff_exists]
  simp only [Text.bits?_eq_some_iff]
  rfl

theorem Slot.malformed_of_not_isBinary {line : String} (hword : ¬Text.IsBinary 8 line.toList)
    (hopcode : ¬Text.IsBinary 4 (line.toList.take 4)) : Slot.Malformed line := by
  refine ⟨hword, fun hstop => hopcode ?_⟩
  rw [hstop]
  decide

namespace LoadedProgram

variable {text line : String} {address : Int}

/-- The line of the program in an image that stands at an address. -/
def LineAt (text : String) (address : Int) (line : String) : Prop :=
  ∃ i : Nat, address = i ∧ (programLines text)[i]? = some line

theorem lineAt_natCast {i : Nat} : LineAt text i line ↔ (programLines text)[i]? = some line := by
  constructor
  · rintro ⟨j, hij, hline⟩
    cases Int.ofNat_inj.1 hij
    exact hline
  · intro hline
    exact ⟨i, rfl, hline⟩

theorem fetch_eq_some_iff {slot : Slot} :
    (parse text).value.program.fetch address = some slot ↔
      ∃ line, LineAt text address line ∧ Slot.ofLine line = slot := by
  have hslots : ∀ i : Nat, (parse text).value.program.fetch i =
      (programLines text)[i]?.map Slot.ofLine := by
    intro i
    rw [Program.fetch_natCast]
    simp only [parse, List.getElem?_toArray, List.getElem?_map]
  constructor
  · intro h
    have hmem : 0 ≤ address := by
      rcases Int.lt_or_le address 0 with hneg | hnonneg
      · rw [Program.fetch_eq_none_iff.2 (.inl hneg)] at h
        cases h
      · exact hnonneg
    obtain ⟨i, rfl⟩ := Int.eq_ofNat_of_zero_le hmem
    rw [hslots, Option.map_eq_some_iff] at h
    obtain ⟨line, hline, hslot⟩ := h
    exact ⟨line, ⟨i, rfl, hline⟩, hslot⟩
  · rintro ⟨line, ⟨i, rfl, hline⟩, hslot⟩
    rw [hslots, hline, Option.map_some, hslot]

theorem fetch_eq_malformed_iff :
    (parse text).value.program.fetch address = some (.malformed line) ↔
      LineAt text address line ∧ Slot.Malformed line := by
  rw [fetch_eq_some_iff]
  constructor
  · rintro ⟨line', hat, hslot⟩
    obtain ⟨rfl, hmalformed⟩ := Slot.ofLine_eq_malformed_iff.1 hslot
    exact ⟨hat, hmalformed⟩
  · rintro ⟨hat, hmalformed⟩
    exact ⟨line, hat, Slot.ofLine_of_malformed hmalformed⟩

/-- The lines of the program come first in its image. -/
theorem Layout.getElem?_eq {lines program : List String} {tracing : Bool} {i : Nat}
    (h : Layout lines program tracing) (hline : program[i]? = some line) :
    lines[i]? = some line := by
  have hi := (List.getElem?_eq_some_iff.1 hline).1
  cases h with
  | plain hlines => rw [hlines, List.getElem?_append_left hi, hline]
  | marked hlines => rw [hlines, List.getElem?_append_left hi, hline]

theorem level_of_mem_log {e : Event} (h : e ∈ (parse text).log) : e.level = .warning := by
  rw [log_parse] at h
  obtain ⟨_, -, rfl⟩ := List.mem_map.1 h
  rfl

end LoadedProgram

namespace Machine

open LoadedProgram

variable {size : Nat} {text line : String} {m : Machine size}

/-- The run of the program in an image fetches the line. -/
def FetchesLine (text : String) (m : Machine size) (line : String) : Prop :=
  ∃ address, Fetches (parse text).value.program m.restart address ∧ LineAt text address line

theorem fetchesLine_iff :
    m.FetchesLine text line ↔
      ∃ c, Reaches (parse text).value.program m.restart c ∧ LineAt text c.pc line := by
  constructor
  · rintro ⟨_, ⟨c, hc, rfl⟩, hline⟩
    exact ⟨c, hc, hline⟩
  · rintro ⟨c, hc, hline⟩
    exact ⟨c.pc, ⟨c, hc, rfl⟩, hline⟩

theorem outcome_eq_unreadableWord_iff :
    (m.run (parse text).value.program).outcome = .faulted (.unreadableWord line) ↔
      m.FetchesLine text line ∧ Slot.Malformed line ∧ BeginsWithOpcode line := by
  rw [run, outcome_resume_eq_iff rfl rfl, fetchesLine_iff]
  simp only [Core.fate_eq_unreadableWord_iff, fetch_eq_malformed_iff]
  constructor
  · rintro ⟨c, hc, ⟨hline, hmalformed⟩, hopcode⟩
    exact ⟨⟨c, hc, hline⟩, hmalformed, hopcode⟩
  · rintro ⟨⟨c, hc, hline⟩, hmalformed, hopcode⟩
    exact ⟨c, hc, ⟨hline, hmalformed⟩, hopcode⟩

theorem outcome_eq_unreadableOpcode_iff {opcode : String} :
    (m.run (parse text).value.program).outcome = .faulted (.unreadableOpcode opcode) ↔
      ∃ line, m.FetchesLine text line ∧ Slot.Malformed line ∧ ¬BeginsWithOpcode line ∧
        opcode = String.ofList (line.toList.take 4) := by
  rw [run, outcome_resume_eq_iff rfl rfl]
  simp only [Core.fate_eq_unreadableOpcode_iff, fetch_eq_malformed_iff, fetchesLine_iff]
  constructor
  · rintro ⟨c, hc, line, ⟨hline, hmalformed⟩, hopcode⟩
    exact ⟨line, ⟨c, hc, hline⟩, hmalformed, hopcode⟩
  · rintro ⟨line, ⟨c, hc, hline⟩, hmalformed, hopcode⟩
    exact ⟨c, hc, line, ⟨hline, hmalformed⟩, hopcode⟩

theorem outcome_of_stop_line (h : m.FetchesLine text line)
    (hstop : line.toList.take 4 = ['1', '1', '1', '1']) :
    (m.run (parse text).value.program).outcome = .halted .stop := by
  obtain ⟨c, hc, hline⟩ := fetchesLine_iff.1 h
  obtain ⟨word, hword, hopcode⟩ := Slot.exists_stop_of_begins hstop
  rw [run, outcome_resume_eq_iff rfl rfl]
  exact ⟨c, hc, Core.fate_eq_stop_iff.2
    ⟨word, fetch_eq_some_iff.2 ⟨line, hline, hword⟩, hopcode⟩⟩

theorem fetch_ofWords_ne_malformed (words : List Byte) (address : Int) :
    (Program.ofWords words).fetch address ≠ some (.malformed line) := by
  intro h
  unfold Program.fetch Program.ofWords at h
  split at h
  · cases h
  · simp at h

/-- A program of words has no line that could be unreadable. -/
theorem outcome_run_ofWords (words : List Byte) (m : Machine size) (s : String) :
    (m.run (.ofWords words)).outcome ≠ .faulted (.unreadableOpcode s) ∧
      (m.run (.ofWords words)).outcome ≠ .faulted (.unreadableWord s) := by
  constructor
  · intro h
    obtain ⟨c, -, hf⟩ := (outcome_resume_eq_iff rfl rfl).1 h
    obtain ⟨_, hline, -⟩ := Core.fate_eq_unreadableOpcode_iff.1 hf
    exact fetch_ofWords_ne_malformed words c.pc hline
  · intro h
    obtain ⟨c, -, hf⟩ := (outcome_resume_eq_iff rfl rfl).1 h
    exact fetch_ofWords_ne_malformed words c.pc (Core.fate_eq_unreadableWord_iff.1 hf).1

/-- The slots of a loaded program are the lines of its image in order, without what the layout leaves
out. A run ends with an unreadable word exactly if it fetches a line that has not eight binary digits
but begins with four, other than those of `STOP`, and with an unreadable opcode exactly if it fetches
a line that does not even do that. A line that begins with the opcode of `STOP` stops the run that
fetches it. Loading reports each malformed line once, as a warning with its number in the image. A
program of words has no such line. -/
theorem malformed_lines_end_runs (text : String) (m : Machine size) :
    let lines := (Text.lines text).map Text.trimEnd
    let program := programLines text
    let image := (parse text).value
    let outcome := (m.run image.program).outcome
    Layout lines program image.tracing ∧
    (∀ (i : Nat) line, program[i]? = some line → lines[i]? = some line) ∧
    (∀ (i : Nat) word, image.program.fetch i = some (.encoded word) ↔
      ∃ line, program[i]? = some line ∧ (line.toList = Text.digits word ∨
        ¬Text.IsBinary 8 line.toList ∧ line.toList.take 4 = ['1', '1', '1', '1'] ∧
          word = Instruction.encode ⟨.stop, 0⟩)) ∧
    (∀ (i : Nat) line, image.program.fetch i = some (.malformed line) ↔
      program[i]? = some line ∧ Slot.Malformed line) ∧
    (∀ opcode, outcome = .faulted (.unreadableOpcode opcode) ↔
      ∃ line, m.FetchesLine text line ∧ ¬Text.IsBinary 8 line.toList ∧
        ¬Text.IsBinary 4 (line.toList.take 4) ∧ opcode = String.ofList (line.toList.take 4)) ∧
    (∀ line, outcome = .faulted (.unreadableWord line) ↔
      m.FetchesLine text line ∧ ¬Text.IsBinary 8 line.toList ∧
        Text.IsBinary 4 (line.toList.take 4) ∧ line.toList.take 4 ≠ ['1', '1', '1', '1']) ∧
    (∀ line, m.FetchesLine text line → line.toList.take 4 = ['1', '1', '1', '1'] →
      outcome = .halted .stop) ∧
    (parse text).log = (program.zipIdx.filter fun (line, _) => Slot.Malformed line).map
      (fun (line, i) => .malformedLine (.badInstruction (i + 1) line)) ∧
    (∀ e ∈ (parse text).log, e.level = .warning) ∧
    ∀ (words : List Byte) (s : String),
      (m.run (.ofWords words)).outcome ≠ .faulted (.unreadableOpcode s) ∧
      (m.run (.ofWords words)).outcome ≠ .faulted (.unreadableWord s) := by
  intro lines program image outcome
  have hlayout : Layout lines program image.tracing := layout_programLines text
  have hat : ∀ (i : Nat) line, LineAt text i line ↔ program[i]? = some line :=
    fun _ _ => lineAt_natCast
  refine ⟨hlayout, fun i line => hlayout.getElem?_eq, ?_, ?_, ?_, ?_, ?_, log_parse text,
    fun e => level_of_mem_log, fun words => outcome_run_ofWords words m⟩
  · intro i word
    rw [fetch_eq_some_iff]
    simp only [hat, Slot.ofLine_eq_encoded_iff]
  · intro i line
    rw [fetch_eq_malformed_iff, hat]
  · intro opcode
    simp only [outcome, image, outcome_eq_unreadableOpcode_iff, beginsWithOpcode_iff]
    constructor
    · rintro ⟨line, hfetches, ⟨hword, -⟩, hopcode⟩
      exact ⟨line, hfetches, hword, hopcode⟩
    · rintro ⟨line, hfetches, hword, hopcode, rfl⟩
      exact ⟨line, hfetches, Slot.malformed_of_not_isBinary hword hopcode, hopcode, rfl⟩
  · intro line
    simp only [outcome, image, outcome_eq_unreadableWord_iff, beginsWithOpcode_iff]
    constructor
    · rintro ⟨hfetches, ⟨hword, hstop⟩, hopcode⟩
      exact ⟨hfetches, hword, hopcode, hstop⟩
    · rintro ⟨hfetches, hword, hopcode, hstop⟩
      exact ⟨hfetches, ⟨hword, hstop⟩, hopcode⟩
  · intro line
    exact outcome_of_stop_line

/-- The second line stops the run whatever it goes on with; the third one is never fetched. -/
theorem malformed_line_behind_stop :
    let text := "10110001\n1111 x\n1011\n\n"
    let m := fresh Config.standard (Memory.zeroed 4)
    m.FetchesLine text "1111 x" ∧
      (m.run (parse text).value.program).outcome = .halted .stop ∧
      (parse text).value.program.fetch 2 = some (.malformed "1011") ∧
      (parse text).log = [.malformedLine (.badInstruction 3 "1011")] := by
  intro text m
  obtain ⟨-, -, -, hslot, -, -, hstop, hlog, -⟩ := malformed_lines_end_runs text m
  have hfetches : m.FetchesLine text "1111 x" :=
    ⟨1, ⟨_, ⟨1, by decide +kernel, rfl⟩, by decide +kernel⟩, ⟨1, rfl, by decide +kernel⟩⟩
  refine ⟨hfetches, hstop _ hfetches (by decide), (hslot 2 "1011").2 ?_, ?_⟩
  · exact ⟨by decide +kernel, by decide⟩
  · rw [hlog]
    decide +kernel

end Machine

end Accumulator
