import Accumulator.Proofs.Lines
import Accumulator.Proofs.ProgramImage
import Accumulator.Proofs.Record
import Accumulator.Proofs.Unfetched

/-!
# Operand fields that mean the same

`B` and `STOP` do not read their operand, and the immediate operands from 8 to 11 stand for the same
numbers as those from 0 to 3. `Instruction.canonical` takes the least of the fields that mean the same.
Neither the effect of an instruction nor its fault nor its listing tells it from its canonical form, so
that to make a program canonical is only to make canonical what its run reports (`resume_canonical`). In
an image, what follows the opcode of `STOP` makes no difference to the canonical program
(`canonical_ofLine`).
-/

namespace Accumulator

/-! ## Canonical instructions -/

/-- The least field that stands for the same number when it is read as signed. -/
def leastField (field : Byte) : Byte :=
  if 8 ≤ field.toNat ∧ field.toNat ≤ 11 then field - 8 else field

theorem signedOperand_leastField (field : Byte) :
    signedOperand (leastField field) = signedOperand field := by
  revert field
  decide

theorem immediate?_leastField (field : Byte) : immediate? (leastField field) = immediate? field := by
  unfold immediate?
  rw [signedOperand_leastField]

/-- A field that is not valid stands for its number alone. -/
theorem leastField_of_immediate?_eq_none {field : Byte} (h : immediate? field = none) :
    leastField field = field := by
  have hnot : ¬field.toNat ≤ 11 := by
    rw [← immediate?_isSome_iff, h]
    simp
  exact if_neg fun hmem => hnot hmem.2

theorem leastField_le (field : Byte) : (leastField field).toNat ≤ field.toNat := by
  revert field
  decide

theorem leastField_leastField (field : Byte) : leastField (leastField field) = leastField field := by
  revert field
  decide

namespace Instruction

/-- The instruction with the least operand field that means the same: zero where the operand is not
read, and the least field for an immediate. -/
def canonical (i : Instruction) : Instruction :=
  match i.opcode with
  | .b | .stop => { i with operand := 0 }
  | .movi | .addi => { i with operand := leastField i.operand }
  | _ => i

@[simp]
theorem opcode_canonical (i : Instruction) : i.canonical.opcode = i.opcode := by
  unfold canonical
  split <;> rfl

theorem canonical_canonical (i : Instruction) : i.canonical.canonical = i.canonical := by
  obtain ⟨op, field⟩ := i
  cases op with
  | movi | addi => simp only [canonical, leastField_leastField]
  | _ => rfl

theorem operand_canonical_le (i : Instruction) : i.canonical.operand.toNat ≤ i.operand.toNat := by
  unfold canonical
  split
  · exact Nat.zero_le _
  · exact Nat.zero_le _
  · exact leastField_le _
  · exact leastField_le _
  · exact Nat.le_refl _

/-- A listing shows an immediate as the number that it stands for, and no operand that is not read. -/
theorem render_canonical (i : Instruction) : i.canonical.render = i.render := by
  obtain ⟨op, field⟩ := i
  cases op with
  | movi | addi =>
    show _ ++ " " ++ (signedOperand (leastField field)).repr = _
    rw [signedOperand_leastField]
    rfl
  | _ => rfl

/-- The instruction word with the least operand field that means the same. -/
def canonicalWord (word : Byte) : Byte := (decode word).canonical.encode

theorem decode_canonicalWord (word : Byte) :
    decode (canonicalWord word) = (decode word).canonical := by
  refine decode_encode ?_
  have hle := operand_canonical_le (decode word)
  have hlt := operand_decode_lt word
  omega

theorem canonicalWord_canonicalWord (word : Byte) :
    canonicalWord (canonicalWord word) = canonicalWord word := by
  rw [canonicalWord, decode_canonicalWord, canonical_canonical]
  rfl

/-- All words with the opcode of `STOP` have one canonical form. -/
theorem canonicalWord_of_stop {word : Byte} (h : word.extractLsb' 4 4 = 0b1111) :
    canonicalWord word = encode ⟨.stop, 0⟩ := by
  have hstop : (decode word).opcode = .stop := by
    show Opcode.ofCode (word.extractLsb' 4 4) = .stop
    rw [h]
    rfl
  unfold canonicalWord canonical
  rw [hstop]

end Instruction

theorem Core.execute_canonical {size : Nat} (c : Core size) (i : Instruction) :
    c.execute i.canonical = c.execute i := by
  -- The fault of an instruction shows its operand as it is, but then that is the least field.
  have himmediate : ∀ (op : Opcode) (field : Byte) (effect : Word → Core size),
      withOperand ⟨op, leastField field⟩ (immediate? (leastField field)) effect =
        withOperand ⟨op, field⟩ (immediate? field) effect := by
    intro op field effect
    rw [immediate?_leastField]
    cases h : immediate? field with
    | none => rw [leastField_of_immediate?_eq_none h]
    | some v => rfl
  obtain ⟨op, field⟩ := i
  rw [execute_eq, execute_eq c ⟨op, field⟩]
  cases op with
  | movi => exact himmediate .movi field _
  | addi => exact himmediate .addi field _
  | _ => rfl

/-! ## Canonical programs -/

namespace Slot

def canonical : Slot → Slot
  | encoded word => encoded (Instruction.canonicalWord word)
  | malformed line => malformed line

theorem canonical_canonical (s : Slot) : s.canonical.canonical = s.canonical := by
  cases s with
  | encoded word => exact congrArg encoded (Instruction.canonicalWord_canonicalWord word)
  | malformed line => rfl

theorem decode_canonical (s : Slot) : s.canonical.decode = s.decode.map Instruction.canonical := by
  cases s with
  | encoded word => exact congrArg Except.ok (Instruction.decode_canonicalWord word)
  | malformed line => rfl

end Slot

namespace Program

/-- The program with every instruction word made canonical. -/
def canonical (p : Program) : Program := ⟨p.slots.map Slot.canonical⟩

/-- The program with the instruction words at the chosen addresses made canonical. -/
def canonicalAt (p : Program) (chosen : Nat → Bool) : Program :=
  p.edit fun i slot => if chosen i then slot.canonical else slot

theorem canonical_canonicalAt (p : Program) (chosen : Nat → Bool) :
    (p.canonicalAt chosen).canonical = p.canonical := by
  refine congrArg Program.mk (Array.ext_getElem? fun i => ?_)
  rw [Array.getElem?_map, Array.getElem?_map, canonicalAt, edit, Array.getElem?_mapIdx, Option.map_map]
  congr 1
  funext slot
  show (if chosen i then slot.canonical else slot).canonical = slot.canonical
  split
  · exact slot.canonical_canonical
  · rfl

theorem instruction?_canonical (p : Program) (address : Int) :
    p.canonical.instruction? address =
      (p.instruction? address).map fun r => r.map Instruction.canonical := by
  unfold instruction? canonical
  rw [fetch_map, Option.map_map, Option.map_map]
  congr 1
  funext slot
  exact slot.decode_canonical

/-- Malformed lines are not touched. -/
theorem malformedLines_canonical (p : Program) : p.canonical.malformedLines = p.malformedLines := by
  unfold malformedLines canonical
  rw [Array.toList_map, List.zipIdx_map, List.filterMap_map]
  congr 1
  funext (slot, i)
  cases slot <;> rfl

end Program

variable {size : Nat}

def Fate.canonical : Fate size → Fate size
  | ends o => ends o
  | retires i after => retires i.canonical after

theorem Core.fate_canonical (p : Program) (c : Core size) :
    c.fate p.canonical = (c.fate p).canonical := by
  unfold fate
  rw [p.instruction?_canonical]
  cases p.instruction? c.pc with
  | none => rfl
  | some r =>
    cases r with
    | error f => rfl
    | ok i =>
      dsimp only [Option.map_some, Except.map]
      rw [i.opcode_canonical, c.execute_canonical]
      split
      · rfl
      · cases c.execute i <;> rfl

/-! ## Canonical reports -/

def TraceEntry.canonical (t : TraceEntry) : TraceEntry :=
  { t with instruction := t.instruction.canonical }

theorem TraceEntry.render_canonical (t : TraceEntry) : t.canonical.render = t.render := by
  unfold render canonical
  rw [Instruction.render_canonical, Instruction.opcode_canonical]

/-- The event with the instruction that it tells of made canonical. A fault tells of an operand that is
not valid, and is kept. -/
def Event.canonical : Event → Event
  | retired count i => .retired count i.canonical
  | traced t => .traced t.canonical
  | e => e

def Log.canonical (log : Log) : Log := log.map Event.canonical

theorem Log.canonical_append (log₁ log₂ : Log) :
    Log.canonical (log₁ ++ log₂) = Log.canonical log₁ ++ Log.canonical log₂ :=
  List.map_append

/-- What is printed does not show whether it is canonical. -/
theorem Log.lines_canonical (log : Log) : Log.lines log.canonical = Log.lines log := by
  unfold lines canonical
  rw [List.map_map]
  refine List.map_congr_left fun e _ => ?_
  cases e with
  | retired count i =>
    show (Level.debug, "[" ++ count.repr ++ "] " ++ i.canonical.render) = _
    rw [i.render_canonical]
    rfl
  | traced t => exact congrArg (Prod.mk Level.info) t.render_canonical
  | _ => rfl

def Machine.canonical (m : Machine size) : Machine size :=
  { m with lastTrace := m.lastTrace.map TraceEntry.canonical }

def Reply.canonical {α : Type} (r : Reply size α) : Reply size α :=
  ⟨r.outcome, r.machine.canonical, r.log.canonical⟩

/-- Nobody can tell the replies apart: they have the same outcome, core, count, status and settings, and
the log and the last trace line read the same. -/
structure Reply.Alike {α : Type} (r r' : Reply size α) : Prop where
  outcome : r'.outcome = r.outcome
  core : r'.machine.toCore = r.machine.toCore
  retired : r'.machine.retired = r.machine.retired
  status : r'.machine.status = r.machine.status
  config : r'.machine.config = r.machine.config
  lines : Log.lines r'.log = Log.lines r.log
  trace : r'.machine.lastTrace.map TraceEntry.render = r.machine.lastTrace.map TraceEntry.render

theorem Machine.render_lastTrace_canonical (m : Machine size) :
    m.canonical.lastTrace.map TraceEntry.render = m.lastTrace.map TraceEntry.render := by
  unfold canonical
  rw [Option.map_map]
  congr 1
  funext t
  exact t.render_canonical

theorem Reply.alike_of_canonical {α : Type} {r r' : Reply size α}
    (h : r'.canonical = r.canonical) : r.Alike r' := by
  have hmachine : r'.machine.canonical = r.machine.canonical := congrArg Reply.machine h
  exact {
    outcome := (congrArg Reply.outcome h :)
    core := (congrArg Machine.toCore hmachine :)
    retired := (congrArg Machine.retired hmachine :)
    status := (congrArg Machine.status hmachine :)
    config := (congrArg Machine.config hmachine :)
    lines := by
      have hlog : r'.log.canonical = r.log.canonical := congrArg Reply.log h
      rw [← Log.lines_canonical r'.log, hlog, Log.lines_canonical]
    trace := by
      rw [← r'.machine.render_lastTrace_canonical, hmachine, r.machine.render_lastTrace_canonical] }

namespace Machine

variable {p q : Program} {m : Machine size}

/-! ## Steps and runs -/

theorem retiredTo_canonical (m : Machine size) (i : Instruction) (after : Core size) :
    m.canonical.retiredTo i.canonical after = (m.retiredTo i after).canonical := by
  unfold retiredTo canonical
  cases m.config.tracing <;> rfl

theorem retirementNotice_canonical (m : Machine size) (i : Instruction) :
    m.canonical.retirementNotice i.canonical = (m.retirementNotice i).canonical := by
  unfold retirementNotice canonical
  cases m.lastTrace <;> rfl

theorem canonical_notice (o : Outcome) : o.notice.canonical = o.notice := by
  rcases o with (_ | _) | _ <;> rfl

theorem canonical_closing (n : Nat) (o : Outcome) : (closing n o).canonical = closing n o := by
  cases o <;> rfl

theorem step_canonical (p : Program) (m : Machine size) :
    m.canonical.step p.canonical = (m.step p).canonical := by
  have hfate : m.canonical.toCore.fate p.canonical = (m.toCore.fate p).canonical :=
    m.toCore.fate_canonical p
  refine step_cases (motive := fun r => m.canonical.step p.canonical = r.canonical) p m ?_ ?_ ?_ ?_
  · intro o hs
    rw [step_of_ended (m := m.canonical) hs]
    rfl
  · intro o hs hf
    rw [hf] at hfate
    rw [step_of_ends (m := m.canonical) hs hfate, Reply.canonical, canonical_notice]
    rfl
  · intro i after hs hf hl
    rw [hf] at hfate
    rw [step_of_retires (m := m.canonical) hs hfate hl, retiredTo_canonical,
      retirementNotice_canonical]
    rfl
  · intro i after hs hf hl
    rw [hf] at hfate
    rw [step_of_retires_beyond (m := m.canonical) hs hfate hl, retiredTo_canonical,
      retirementNotice_canonical, Reply.canonical, Log.canonical_append]
    rfl

/-- To run the canonical program is to run the program and to make canonical what it reports. -/
theorem resume_canonical (p : Program) (m : Machine size) :
    m.canonical.resume p.canonical = (m.resume p).canonical :=
  resume_commutes (step_canonical p) Log.canonical_append (fun m => canonical_closing m.retired) m

theorem run_alike (h : q.canonical = p.canonical) (m : Machine size) : (m.run p).Alike (m.run q) := by
  refine Reply.alike_of_canonical ?_
  have hp := resume_canonical p m.restart
  have hq := resume_canonical q m.restart
  rw [h] at hq
  exact hq.symm.trans hp

end Machine

/-! ## Lines that begin with the opcode of `STOP` -/

namespace Text

/-- The second line is the first, or both begin with the opcode of `STOP`. -/
def BeginAlike (l k : List Char) : Prop :=
  k = l ∨ ∃ tail tail', l = ['1', '1', '1', '1'] ++ tail ∧ k = ['1', '1', '1', '1'] ++ tail'

/-- The line without what follows the opcode of `STOP`. -/
def withoutTail (line : String) : String :=
  if line.toList.take 4 = ['1', '1', '1', '1'] then "1111" else line

theorem withoutTail_eq_iff {line other : String} (h : other.toList.take 4 ≠ ['1', '1', '1', '1']) :
    withoutTail line = other ↔ line = other := by
  unfold withoutTail
  split
  · rename_i hbegins
    constructor
    · rintro rfl
      exact absurd rfl h
    · rintro rfl
      exact absurd hbegins h
  · rfl

/-- The blanks at the end of a line do not reach into the opcode of `STOP`. -/
theorem withoutTail_trimEnd (tail : List Char) :
    withoutTail (trimEnd (String.ofList (['1', '1', '1', '1'] ++ tail))) = "1111" := by
  have htrim : (trimEnd (String.ofList (['1', '1', '1', '1'] ++ tail))).toList =
      ['1', '1', '1', '1'] ++ dropEndWhile isBlank tail := by
    rw [trimEnd, String.toList_ofList, String.toList_ofList]
    exact dropEndWhile_append_cons_of_neg ['1', '1', '1'] tail (by decide)
  unfold withoutTail
  rw [htrim]
  rfl

theorem withoutTail_of_beginAlike {l k : List Char} (h : BeginAlike l k) :
    withoutTail (trimEnd (String.ofList l)) = withoutTail (trimEnd (String.ofList k)) := by
  rcases h with rfl | ⟨tail, tail', rfl, rfl⟩
  · rfl
  · rw [withoutTail_trimEnd, withoutTail_trimEnd]

end Text

namespace LoadedProgram

open Text

variable {text text' : String}

/-- Neither a blank line nor the mark begins with the opcode of `STOP`. -/
theorem withoutTail_significantLines (text : String) :
    (significantLines text).map withoutTail =
      dropEndWhile (· = "") ((lines text).map (withoutTail ∘ trimEnd)) := by
  have hblank : (fun line => decide (line = "")) ∘ withoutTail = fun line => decide (line = "") := by
    funext line
    exact decide_eq_decide.2 (withoutTail_eq_iff (by decide))
  rw [← List.map_map, dropEndWhile_map, hblank]
  rfl

theorem getLast?_significantLines_iff (text : String) :
    (significantLines text).getLast? = some tracingMark ↔
      ((significantLines text).map withoutTail).getLast? = some tracingMark := by
  rw [List.getLast?_map, Option.map_eq_some_iff]
  constructor
  · intro h
    exact ⟨tracingMark, h, rfl⟩
  · rintro ⟨line, h, hline⟩
    rw [h, (withoutTail_eq_iff (by decide)).1 hline]

theorem withoutTail_programLines (text : String) :
    (programLines text).map withoutTail =
      let kept := (significantLines text).map withoutTail
      if kept.getLast? = some tracingMark then kept.dropLast else kept := by
  unfold programLines
  dsimp only
  by_cases h : (significantLines text).getLast? = some tracingMark
  · rw [if_pos h, if_pos ((getLast?_significantLines_iff text).1 h), List.map_dropLast]
  · rw [if_neg h, if_neg (mt (getLast?_significantLines_iff text).2 h)]

theorem canonical_ofLine (line : String) :
    (Slot.ofLine (withoutTail line)).canonical = (Slot.ofLine line).canonical := by
  unfold withoutTail
  split
  · rename_i hbegins
    obtain ⟨word, hword, hstop⟩ := Slot.exists_stop_of_begins hbegins
    rw [hword, Slot.canonical, Instruction.canonicalWord_of_stop hstop]
    decide
  · rfl

theorem canonical_parse (text : String) :
    (parse text).value.program.canonical =
      ⟨(((programLines text).map withoutTail).map
        fun line => (Slot.ofLine line).canonical).toArray⟩ := by
  show Program.mk (((programLines text).map Slot.ofLine).toArray.map Slot.canonical) = _
  rw [List.map_toArray, List.map_map, List.map_map]
  simp only [Function.comp_def, canonical_ofLine]

/-- What follows the opcode of `STOP` does not reach the canonical program, the mark or the report of
malformed lines. -/
theorem parse_of_linewise (h : Linewise BeginAlike text.toList text'.toList) :
    (parse text').value.program.canonical = (parse text).value.program.canonical ∧
      (parse text').value.tracing = (parse text).value.tracing ∧
      (parse text').log = (parse text).log := by
  have hlines : (lines text).map (withoutTail ∘ trimEnd) =
      (lines text').map (withoutTail ∘ trimEnd) := by
    refine h.map_lines (fun l => ?_) fun l k hlk => ?_
    · rw [Function.comp_apply, Function.comp_apply, trimEnd_dropFinal_return]
    · rw [Function.comp_apply, Function.comp_apply, withoutTail_of_beginAlike hlk]
  have hkept : (significantLines text').map withoutTail = (significantLines text).map withoutTail := by
    rw [withoutTail_significantLines, withoutTail_significantLines, hlines]
  have hprogram : (programLines text').map withoutTail = (programLines text).map withoutTail := by
    rw [withoutTail_programLines, withoutTail_programLines, hkept]
  have hcanonical :
      (parse text').value.program.canonical = (parse text).value.program.canonical := by
    rw [canonical_parse, canonical_parse, hprogram]
  have hmark : (significantLines text').getLast? = some tracingMark ↔
      (significantLines text).getLast? = some tracingMark := by
    rw [getLast?_significantLines_iff, getLast?_significantLines_iff, hkept]
  have hmalformed :
      (parse text').value.program.malformedLines = (parse text).value.program.malformedLines := by
    rw [← Program.malformedLines_canonical, hcanonical, Program.malformedLines_canonical]
  refine ⟨hcanonical, ?_, ?_⟩
  · unfold parse
    simp only [hmark]
  · rw [log_parse_eq_map, log_parse_eq_map, hmalformed]

end LoadedProgram

namespace Machine

/-- Operand bits that are ignored, or that spell a number in a second way, never matter. A run cannot be
told from the run of the same program with any of its instruction words made canonical. And whatever
stands behind the opcode of `STOP` in the lines of an image can be replaced without any effect on the
runs of the program, on whether they are traced, and on the report of malformed lines. -/
theorem operand_aliases_run_alike (p : Program) (chosen : Nat → Bool) (m : Machine size) :
    (m.run p).Alike (m.run (p.canonicalAt chosen)) ∧
    ∀ text text' : String, Text.Linewise Text.BeginAlike text.toList text'.toList →
      let image := LoadedProgram.parse text
      let image' := LoadedProgram.parse text'
      image'.value.tracing = image.value.tracing ∧ image'.log = image.log ∧
        (m.run image.value.program).Alike (m.run image'.value.program) := by
  refine ⟨run_alike (p.canonical_canonicalAt chosen) m, ?_⟩
  intro text text' h image image'
  obtain ⟨hcanonical, htracing, hlog⟩ := LoadedProgram.parse_of_linewise h
  exact ⟨htracing, hlog, run_alike hcanonical m⟩

/-- `MOVI 9` is listed and traced as `MOVI 1`, and the operands of `B` and `STOP` are not listed. The
`STOP` of the first image is spelled as a word in the second one. -/
theorem operand_aliases_run_alike_when_traced :
    let p := Program.ofWords [0b10111001, 0b11100110, 0b11110011]
    let q := Program.ofWords [0b10110001, 0b11100000, 0b11110011]
    let m := fresh ⟨true, 2⟩ (Memory.zeroed 4)
    let text := "10110001\n1111 stop\n"
    let text' := "10110001\n11110101\n"
    p.canonicalAt (fun i => i < 2) = q ∧ (m.run p).Alike (m.run q) ∧ (m.run p).log ≠ (m.run q).log ∧
      Text.Linewise Text.BeginAlike text.toList text'.toList ∧
      (LoadedProgram.parse text').value.program ≠ (LoadedProgram.parse text).value.program ∧
      (m.run (LoadedProgram.parse text).value.program).Alike
        (m.run (LoadedProgram.parse text').value.program) := by
  intro p q m text text'
  obtain ⟨halike, htexts⟩ := operand_aliases_run_alike p (fun i => i < 2) m
  have hq : p.canonicalAt (fun i => i < 2) = q := by decide
  have hlinewise : Text.Linewise Text.BeginAlike text.toList text'.toList := by
    have htext : text.toList =
        "10110001".toList ++ '\n' :: (['1', '1', '1', '1'] ++ " stop".toList ++ '\n' :: []) := by
      decide
    have htext' : text'.toList =
        "10110001".toList ++ '\n' :: (['1', '1', '1', '1'] ++ "0101".toList ++ '\n' :: []) := by
      decide
    rw [htext, htext']
    exact .line (by decide) (by decide) (.inl rfl)
      (.line (by decide) (by decide) (.inr ⟨_, _, rfl, rfl⟩) .done)
  rw [hq] at halike
  exact ⟨hq, halike, by decide +kernel, hlinewise, by decide +kernel, (htexts _ _ hlinewise).2.2⟩

end Machine

end Accumulator
