import Accumulator.Proofs.Lines
import Accumulator.Proofs.PostMortem
import Accumulator.Proofs.ProgramImage
import Accumulator.Proofs.Tracing

/-!
# The tracing mark

The mark is no part of the program, but it is a line that is not blank: the blank lines in front of it
are no longer the last ones of the image. Behind a program that the image ends with, they do not count;
behind a program and in front of the mark, each is a malformed line of its own. `Program.padded` is the
program with such lines, and `Machine.resume_padded` says what they do to a run: only one that leaves
the program for one of them ends in another way.
-/

namespace Accumulator

namespace Program

variable {p : Program} {n : Nat} {address : Int}

/-- The program with malformed empty lines behind it. -/
def padded (p : Program) (n : Nat) : Program :=
  ⟨p.slots ++ Array.replicate n (.malformed "")⟩

theorem size_padded (p : Program) (n : Nat) : (p.padded n).size = p.size + n := by
  simp [padded, size]

theorem padded_eq_self_iff : p.padded n = p ↔ n = 0 := by
  constructor
  · intro h
    have hsize := congrArg size h
    rw [size_padded] at hsize
    omega
  · rintro rfl
    simp [padded]

theorem fetch_padded_of_padding (hle : p.size ≤ address) (hlt : address < p.size + n) :
    (p.padded n).fetch address = some (.malformed "") := by
  obtain ⟨i, rfl⟩ := Int.eq_ofNat_of_zero_le (show 0 ≤ address by omega)
  rw [fetch_natCast, padded]
  unfold size at hle hlt
  rw [Array.getElem?_append_right (by omega), Array.getElem?_replicate, if_pos (by omega)]

theorem fetch_padded (h : ¬(p.size ≤ address ∧ address < p.size + n)) :
    (p.padded n).fetch address = p.fetch address := by
  by_cases hout : address < 0 ∨ (p.size : Int) ≤ address
  · rw [fetch_eq_none_iff.2 hout, fetch_eq_none_iff, size_padded]
    omega
  · obtain ⟨i, rfl⟩ := Int.eq_ofNat_of_zero_le (show 0 ≤ address by omega)
    rw [fetch_natCast, fetch_natCast, padded]
    unfold size at hout
    rw [Array.getElem?_append_left (by omega)]

end Program

namespace LoadedProgram

variable {text : String}

/-- An image without the mark ends with some number of blank lines, and with the mark behind them
they are lines of the program. -/
theorem parse_append_mark (hend : ∀ c, text.toList.getLast? = some c → c = '\n')
    (hmark : (parse text).value.tracing = false) :
    ∃ n, (Text.lines text).map Text.trimEnd = programLines text ++ List.replicate n "" ∧
      (programLines text).getLast? ≠ some "" ∧
      (parse (text ++ "debug\n")).value = ⟨(parse text).value.program.padded n, true⟩ := by
  have hlayout := layout_programLines text
  rw [hmark] at hlayout
  cases hlayout with
  | @plain blanks hlines hblanks hlast hnomark =>
    rw [List.eq_replicate_of_mem hblanks] at hlines
    refine ⟨blanks.length, hlines, hlast, ?_⟩
    have hall : (Text.lines (text ++ "debug\n")).map Text.trimEnd =
        (programLines text ++ List.replicate blanks.length "") ++ ["debug"] := by
      rw [Text.lines_append hend, List.map_append, hlines]
      rfl
    have hvalue : (parse text).value.program.slots =
        ((programLines text).map Slot.ofLine).toArray := rfl
    have hempty : Slot.ofLine "" = .malformed "" := Slot.ofLine_of_malformed (by decide)
    rw [parse_of_layout (.marked hall (by simp)), Program.padded, hvalue, List.map_append,
      List.map_replicate, hempty]
    simp

end LoadedProgram

theorem not_beginsWithOpcode_empty : ¬BeginsWithOpcode "" := by
  rintro ⟨code, hcode⟩
  have hlength := congrArg List.length hcode
  rw [Text.length_digits] at hlength
  cases hlength

namespace Machine

variable {size : Nat} {p : Program} {m : Machine size} {n : Nat}

/-- Lines behind a program change a run only if it leaves the program for one of them. -/
theorem resume_padded (hs : m.status = .running) (n : Nat) :
    (m.resume (p.padded n)).machine.toCore = (m.resume p).machine.toCore ∧
    (m.resume (p.padded n)).machine.retired = (m.resume p).machine.retired ∧
    (m.resume (p.padded n)).outcome =
      if (m.resume p).outcome = .halted .endOfProgram ∧ p.size ≤ (m.resume p).machine.pc ∧
        (m.resume p).machine.pc < p.size + n then .faulted (.unreadableOpcode "")
      else (m.resume p).outcome := by
  induction m using run_induction p with
  | last m o ho =>
    by_cases hpadding : p.size ≤ m.pc ∧ m.pc < p.size + n
    · have hf : m.toCore.fate p = .ends (.halted .endOfProgram) :=
        Core.fate_eq_endOfProgram_iff.2 (by omega)
      have hf' : m.toCore.fate (p.padded n) = .ends (.faulted (.unreadableOpcode "")) :=
        Core.fate_eq_unreadableOpcode_iff.2 ⟨"",
          Program.fetch_padded_of_padding hpadding.1 hpadding.2, not_beginsWithOpcode_empty, rfl⟩
      have hstep := step_of_ends hs hf
      have hstep' := step_of_ends hs hf'
      rw [resume_of_ended (congrArg Reply.outcome hstep),
        resume_of_ended (congrArg Reply.outcome hstep'), hstep, hstep']
      exact ⟨rfl, rfl, (if_pos ⟨rfl, hpadding⟩).symm⟩
    · have hstep : m.step (p.padded n) = m.step p := step_congr (Program.fetch_padded hpadding)
      rw [resume_of_ended ho, resume_of_ended (hstep ▸ ho), hstep]
      refine ⟨rfl, rfl, (if_neg ?_).symm⟩
      rintro ⟨rfl, hpc⟩
      rw [(step_of_not_isCut hs ho rfl).2] at hpc
      exact hpadding hpc
  | later m hr ih =>
    -- The step retired an instruction of `p`, so it did not look behind `p`.
    obtain ⟨i, after, hf, -⟩ := retires_of_running hr
    have hpc := (Core.pc_mem_of_retires hf).2
    have hstep : m.step (p.padded n) = m.step p := step_congr (Program.fetch_padded (by omega))
    rw [resume_of_running hr, resume_of_running (hstep ▸ hr), hstep]
    exact ih ((status_step p m).trans hr)

/-- The mark switches tracing on and makes lines of the program of the blank lines in front of it. If
there are none, the program is the same; if there are, they are malformed, and a run that leaves the
program for one of them ends there with a fault. Otherwise a run comes to the same outcome, and it
always comes to the same core and count. -/
theorem tracing_mark_keeps_blank_lines (text : String)
    (hend : text = "" ∨ text.toList.getLast? = some '\n')
    (hmark : (LoadedProgram.parse text).value.tracing = false) (m : Machine size) (tracing : Bool)
    (lastTrace : Option TraceEntry) :
    let image := (LoadedProgram.parse text).value
    let marked := (LoadedProgram.parse (text ++ "debug\n")).value
    let other : Machine size :=
      { m with config := { m.config with tracing := tracing }, lastTrace := lastTrace }
    let r := m.run image.program
    let r' := other.run marked.program
    ∃ n,
      (Text.lines text).map Text.trimEnd =
        LoadedProgram.programLines text ++ List.replicate n "" ∧
      (LoadedProgram.programLines text).getLast? ≠ some "" ∧
      marked.tracing = true ∧ marked.program = image.program.padded n ∧
      (marked.program = image.program ↔ n = 0) ∧
      r'.machine.toCore = r.machine.toCore ∧ r'.machine.retired = r.machine.retired ∧
      r'.outcome =
        if r.outcome = .halted .endOfProgram ∧ image.program.size ≤ r.machine.pc ∧
          r.machine.pc < image.program.size + n then .faulted (.unreadableOpcode "")
        else r.outcome := by
  intro image marked other r r'
  have hlast : ∀ c, text.toList.getLast? = some c → c = '\n' := by
    intro c hc
    rcases hend with rfl | hend
    · cases hc
    · exact Option.some_inj.1 (hc.symm.trans hend)
  obtain ⟨n, hlines, hblank, hparse⟩ := LoadedProgram.parse_append_mark hlast hmark
  have hprogram : marked.program = image.program.padded n := congrArg LoadedProgram.program hparse
  have hquiet : r'.quiet = (m.run marked.program).quiet :=
    (run_quiet marked.program other).symm.trans (run_quiet marked.program m)
  obtain ⟨houtcome, hcore, hretired, -⟩ := Reply.eq_of_quiet hquiet
  obtain ⟨hcore', hretired', houtcome'⟩ := resume_padded (p := image.program) (m := m.restart) rfl n
  rw [hprogram] at houtcome hcore hretired
  refine ⟨n, hlines, hblank, congrArg LoadedProgram.tracing hparse, hprogram, ?_,
    hcore.trans hcore', hretired.trans hretired', houtcome.trans houtcome'⟩
  rw [hprogram]
  exact Program.padded_eq_self_iff

/-- Two blank lines, one of them with a space, become the second and the third slot. -/
theorem tracing_mark_keeps_two_blank_lines :
    let text := "10110001\n \n\n"
    let image := (LoadedProgram.parse text).value
    let marked := (LoadedProgram.parse (text ++ "debug\n")).value
    let m := fresh Config.standard (Memory.zeroed 4)
    text.toList.getLast? = some '\n' ∧ image.tracing = false ∧
      marked.program = image.program.padded 2 ∧
      (m.run image.program).outcome = .halted .endOfProgram ∧
      (m.run marked.program).outcome = .faulted (.unreadableOpcode "") := by
  intro text image marked m
  have hend : text.toList.getLast? = some '\n' := by decide
  have hmark : image.tracing = false := by decide +kernel
  obtain ⟨n, hlines, -, -, hprogram, -, -, -, houtcome⟩ :=
    tracing_mark_keeps_blank_lines text (.inr hend) hmark m false none
  have hn : n = 2 := by
    have hlength := congrArg List.length hlines
    rw [List.length_append, List.length_replicate] at hlength
    have hall : ((Text.lines text).map Text.trimEnd).length = 3 := by decide +kernel
    have hkept : (LoadedProgram.programLines text).length = 1 := by decide +kernel
    omega
  subst hn
  have hrun : (m.run image.program).outcome = .halted .endOfProgram := by decide +kernel
  refine ⟨hend, hmark, hprogram, hrun, houtcome.trans (if_pos ⟨hrun, ?_⟩)⟩
  decide +kernel

/-- The mark behind a blank line changes the program and how its run ends. -/
theorem tracing_mark_behind_blank_line :
    let text := "00000000\n\n"
    let image := (LoadedProgram.parse text).value
    let marked := (LoadedProgram.parse (text ++ "debug\n")).value
    let m := fresh Config.standard (Memory.zeroed 4)
    text.toList.getLast? = some '\n' ∧ image.tracing = false ∧ marked.tracing = true ∧
      image.program.size = 1 ∧ marked.program.size = 2 ∧ marked.program ≠ image.program ∧
      (m.run image.program).outcome = .halted .endOfProgram ∧
      (m.run marked.program).outcome = .faulted (.unreadableOpcode "") := by
  decide +kernel

end Machine

end Accumulator
