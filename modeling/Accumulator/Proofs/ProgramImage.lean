import Accumulator.Image.Program

/-!
# Program images line by line

`LoadedProgram.Layout` says how the lines of an image are laid out: the program, perhaps the mark that
asks for trace lines, and blank lines. Every text has a layout (`layout_programLines`), and the layout
is all that counts (`parse_of_layout`). What becomes of a line of the program is decided by its first
characters: `Slot.ofLine_eq_malformed_iff` and `Slot.exists_stop_of_begins` say how, and `log_parse`
says which lines are reported.
-/

namespace Accumulator

namespace Text

/-- Exactly `n` binary digits. -/
def IsBinary (n : Nat) (cs : List Char) : Prop :=
  cs.length = n ∧ ∀ c ∈ cs, c = '0' ∨ c = '1'

theorem isSome_bits?_iff {n : Nat} {cs : List Char} :
    (bits? n cs).isSome = true ↔ IsBinary n cs := by
  have hdigits : cs.all isBitDigit = true ↔ ∀ c ∈ cs, c = '0' ∨ c = '1' := by
    simp [isBitDigit]
  unfold bits? IsBinary
  rw [← hdigits]
  split <;> simp_all

instance (n : Nat) (cs : List Char) : Decidable (IsBinary n cs) :=
  decidable_of_iff ((bits? n cs).isSome = true) isSome_bits?_iff

theorem bits?_eq_none_iff {n : Nat} {cs : List Char} : bits? n cs = none ↔ ¬IsBinary n cs := by
  rw [← isSome_bits?_iff, Option.not_isSome_iff_eq_none]

/-- A word begins with the digits of its high bits. -/
theorem take_digits (w : Byte) : (digits w).take 4 = digits (w.extractLsb' 4 4) := by
  refine List.ext_getElem (by simp) fun i _ hi => ?_
  rw [length_digits] at hi
  have hbit : w.getMsbD i = (w.extractLsb' 4 4).getMsbD i := by
    simp only [BitVec.getMsbD, BitVec.getLsbD_extractLsb', decide_eq_true hi, Bool.true_and,
      decide_eq_true (show i < 8 by omega), decide_eq_true (show 4 - 1 - i < 4 by omega)]
    congr 1
    omega
  simp [digits, hbit]

theorem digits_injective {n : Nat} {v w : BitVec n} (h : digits v = digits w) : v = w := by
  rw [← Option.some_inj, ← bits?_digits v, h, bits?_digits]

/-! ## Dropping at the end -/

theorem dropEndWhile_append_dropped {α : Type} (q : α → Bool) (l : List α) :
    ∃ dropped, l = dropEndWhile q l ++ dropped ∧ ∀ x ∈ dropped, q x = true := by
  refine ⟨(l.reverse.takeWhile q).reverse, ?_, fun x hx => ?_⟩
  · rw [dropEndWhile, ← List.reverse_append, List.takeWhile_append_dropWhile, List.reverse_reverse]
  · exact List.all_eq_true.1 List.all_takeWhile x (List.mem_reverse.1 hx)

theorem neg_of_getLast?_dropEndWhile {α : Type} {q : α → Bool} {l : List α} {x : α}
    (h : (dropEndWhile q l).getLast? = some x) : q x = false := by
  rw [dropEndWhile, List.getLast?_reverse] at h
  have hhead := List.head?_dropWhile_not q l.reverse
  rw [h] at hhead
  simpa using hhead

/-- What is dropped at the end does not reach beyond an element that is kept. -/
theorem dropEndWhile_append_cons_of_neg {α : Type} {q : α → Bool} (l tail : List α) {x : α}
    (h : ¬q x = true) : dropEndWhile q (l ++ x :: tail) = l ++ x :: dropEndWhile q tail := by
  unfold dropEndWhile
  rw [List.reverse_append, List.reverse_cons, List.append_assoc, List.dropWhile_append]
  split
  · rename_i hempty
    simp [List.isEmpty_iff.1 hempty, h]
  · simp

theorem dropEndWhile_map {α β : Type} (q : β → Bool) (f : α → β) (l : List α) :
    dropEndWhile q (l.map f) = (dropEndWhile (q ∘ f) l).map f := by
  unfold dropEndWhile
  rw [← List.map_reverse, List.dropWhile_map, List.map_reverse]

end Text

namespace LoadedProgram

/-! ## Layouts -/

/-- How lines without blanks at their ends are laid out: those of the program, the mark if there is
one, and blank lines. A blank line in front of the mark is one of the program. -/
inductive Layout (lines : List String) : List String → Bool → Prop
  | plain {program blanks : List String} :
      lines = program ++ blanks → (∀ line ∈ blanks, line = "") →
      program.getLast? ≠ some "" → program.getLast? ≠ some "debug" → Layout lines program false
  | marked {program blanks : List String} :
      lines = program ++ "debug" :: blanks → (∀ line ∈ blanks, line = "") →
      Layout lines program true

variable {text : String} {program : List String} {tracing : Bool}

theorem significantLines_eq {kept blanks : List String}
    (hlines : (Text.lines text).map Text.trimEnd = kept ++ blanks)
    (hblanks : ∀ line ∈ blanks, line = "") (hlast : kept.getLast? ≠ some "") :
    significantLines text = kept := by
  rw [significantLines, hlines,
    Text.dropEndWhile_append kept fun line hline => decide_eq_true (hblanks line hline)]
  rcases List.eq_nil_or_concat kept with rfl | ⟨init, last, rfl⟩
  · rfl
  · rw [List.concat_eq_append] at hlast ⊢
    refine Text.dropEndWhile_concat_of_neg init ?_
    simpa using hlast

theorem layout_programLines (text : String) :
    Layout ((Text.lines text).map Text.trimEnd) (programLines text) (parse text).value.tracing := by
  obtain ⟨blanks, hlines, hblanks⟩ :=
    Text.dropEndWhile_append_dropped (· = "") ((Text.lines text).map Text.trimEnd)
  have hblanks : ∀ line ∈ blanks, line = "" := by simpa using hblanks
  change _ = significantLines text ++ blanks at hlines
  have hlast : (significantLines text).getLast? ≠ some "" := by
    intro h
    have hneg := Text.neg_of_getLast?_dropEndWhile h
    simp at hneg
  have htracing : (parse text).value.tracing =
      decide ((significantLines text).getLast? = some tracingMark) := rfl
  rw [htracing]
  unfold programLines
  split
  · rename_i hmark
    obtain ⟨init, hinit⟩ := List.getLast?_eq_some_iff.1 hmark
    rw [hmark, hinit, List.dropLast_concat, decide_eq_true rfl]
    rw [hinit, List.append_assoc] at hlines
    exact .marked hlines hblanks
  · rename_i hmark
    rw [decide_eq_false hmark]
    exact .plain hlines hblanks hlast hmark

/-- The layout of an image is all that counts. -/
theorem parse_of_layout (h : Layout ((Text.lines text).map Text.trimEnd) program tracing) :
    (parse text).value = ⟨⟨(program.map Slot.ofLine).toArray⟩, tracing⟩ := by
  have hvalue : (parse text).value = ⟨⟨((programLines text).map Slot.ofLine).toArray⟩,
      decide ((significantLines text).getLast? = some tracingMark)⟩ := rfl
  rw [hvalue]
  unfold programLines
  cases h with
  | plain hlines hblanks hlast hmark =>
    change program.getLast? ≠ some tracingMark at hmark
    rw [significantLines_eq hlines hblanks hlast, if_neg hmark, decide_eq_false hmark]
  | @marked blanks hlines hblanks =>
    have hsplit : (Text.lines text).map Text.trimEnd = (program ++ ["debug"]) ++ blanks := by
      rw [hlines, List.append_assoc]
      rfl
    have hmark : (program ++ ["debug"]).getLast? = some tracingMark := by simp [tracingMark]
    rw [significantLines_eq hsplit hblanks (by simp), if_pos hmark, decide_eq_true hmark,
      List.dropLast_concat]

end LoadedProgram

namespace Slot

variable {line : String}

/-- The line is no instruction: it does not have eight binary digits, and it does not begin with the
opcode of `STOP`. -/
def Malformed (line : String) : Prop :=
  ¬Text.IsBinary 8 line.toList ∧ line.toList.take 4 ≠ ['1', '1', '1', '1']

instance (line : String) : Decidable (Malformed line) :=
  inferInstanceAs (Decidable (_ ∧ _))

theorem ofLine_of_malformed (h : Malformed line) : ofLine line = .malformed line := by
  unfold ofLine
  rw [Text.bits?_eq_none_iff.2 h.1]
  exact if_neg h.2

theorem exists_encoded_of_not_malformed (h : ¬Malformed line) :
    ∃ word, ofLine line = .encoded word := by
  unfold ofLine
  cases hbits : Text.bits? 8 line.toList with
  | some word => exact ⟨word, rfl⟩
  | none =>
    have hstop : line.toList.take 4 = ['1', '1', '1', '1'] := by
      by_cases hstop : line.toList.take 4 = ['1', '1', '1', '1']
      · exact hstop
      · exact absurd ⟨Text.bits?_eq_none_iff.1 hbits, hstop⟩ h
    exact ⟨_, if_pos hstop⟩

theorem ofLine_eq_malformed_iff {l : String} :
    ofLine line = .malformed l ↔ l = line ∧ Malformed line := by
  by_cases h : Malformed line
  · simp [ofLine_of_malformed h, h, eq_comm]
  · obtain ⟨word, hword⟩ := exists_encoded_of_not_malformed h
    simp [hword, h]

/-- A line holds the word that it is written as, or `STOP` if that is all that it is. -/
theorem ofLine_eq_encoded_iff {word : Byte} :
    ofLine line = .encoded word ↔ line.toList = Text.digits word ∨
      ¬Text.IsBinary 8 line.toList ∧ line.toList.take 4 = ['1', '1', '1', '1'] ∧
        word = Instruction.encode ⟨.stop, 0⟩ := by
  rw [← Text.bits?_eq_none_iff, ← Text.bits?_eq_some_iff]
  unfold ofLine
  cases hbits : Text.bits? 8 line.toList with
  | some word' => simp
  | none =>
    by_cases hstop : line.toList.take 4 = ['1', '1', '1', '1']
    · simp [hstop, eq_comm]
    · simp [hstop]

/-- A line that begins with the opcode of `STOP` is an instruction with that opcode. -/
theorem exists_stop_of_begins (h : line.toList.take 4 = ['1', '1', '1', '1']) :
    ∃ word, ofLine line = .encoded word ∧ word.extractLsb' 4 4 = 0b1111 := by
  unfold ofLine
  cases hbits : Text.bits? 8 line.toList with
  | some word =>
    refine ⟨word, rfl, Text.digits_injective ?_⟩
    rw [← Text.take_digits, ← Text.bits?_eq_some_iff.1 hbits, h]
    decide
  | none =>
    dsimp only
    rw [if_pos h]
    exact ⟨_, rfl, by decide⟩

end Slot

namespace LoadedProgram

/-! ## The report of malformed lines -/

theorem malformedLines_ofLine (lines : List String) :
    (Program.mk (lines.map Slot.ofLine).toArray).malformedLines =
      (lines.zipIdx.filter fun (line, _) => Slot.Malformed line).map
        fun (line, i) => .badInstruction (i + 1) line := by
  simp only [Program.malformedLines, List.zipIdx_map, List.filterMap_map]
  rw [← List.filterMap_eq_map, List.filterMap_filter]
  congr 1
  funext (line, i)
  by_cases h : Slot.Malformed line
  · simp [Slot.ofLine_of_malformed h, h]
  · obtain ⟨word, hword⟩ := Slot.exists_encoded_of_not_malformed h
    simp [hword, h]

theorem log_parse_eq_map (text : String) :
    (parse text).log = (parse text).value.program.malformedLines.map Event.malformedLine := by
  unfold parse
  dsimp only

/-- Each malformed line of the program is reported once, in order, with its number in the image. -/
theorem log_parse (text : String) :
    (parse text).log =
      ((programLines text).zipIdx.filter fun (line, _) => Slot.Malformed line).map
        fun (line, i) => .malformedLine (.badInstruction (i + 1) line) := by
  unfold parse
  dsimp only
  rw [malformedLines_ofLine, List.map_map]
  simp only [Function.comp_def]

end LoadedProgram

end Accumulator
