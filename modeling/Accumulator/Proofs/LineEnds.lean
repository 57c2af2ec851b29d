import Accumulator.Proofs.Lines
import Accumulator.Proofs.MemoryImage
import Accumulator.Proofs.ProgramImage
import Mathlib.Data.List.TakeWhile

/-!
# Blanks at the ends of lines

Neither kind of image tells a line from the same line with more blanks at its end. The readers see a
line only through `trimEnd` or `trim` (`LoadedProgram.significantLines`, `Memory.parse_congr`), and
neither of these sees blanks at the end (`trimEnd_append`, `trim_append`). A carriage return is a
blank like any other here: it may be part of a line ending, stand alone or be put in front of a
newline (`linewise_withReturns`).
-/

namespace Accumulator

namespace Text

/-! ## Lines with more blanks -/

/-- The second line is the first one with blanks put in at its end. If the first one ends with a
carriage return, they may also stand in front of that. -/
def PaddedTo (l k : List Char) : Prop :=
  ∃ body blanks ending, l = body ++ ending ∧ k = body ++ blanks ++ ending ∧
    (∀ c ∈ blanks, isBlank c = true) ∧ (ending = [] ∨ ending = ['\r'])

variable {l k cs ds : List Char} {text text' : String}

theorem paddedTo_append (l : List Char) {blanks : List Char} (h : ∀ c ∈ blanks, isBlank c = true) :
    PaddedTo l (l ++ blanks) :=
  ⟨l, blanks, [], (List.append_nil l).symm, (List.append_nil _).symm, h, .inl rfl⟩

theorem paddedTo_self (l : List Char) : PaddedTo l l :=
  ⟨l, [], [], (List.append_nil l).symm, by simp, by simp, .inl rfl⟩

theorem PaddedTo.cons (h : PaddedTo l k) (c : Char) : PaddedTo (c :: l) (c :: k) := by
  obtain ⟨body, blanks, ending, rfl, rfl, hblanks, hending⟩ := h
  exact ⟨c :: body, blanks, ending, rfl, rfl, hblanks, hending⟩

/-- What does not see blanks at the end of a line is the same all along two texts that differ only in
these. -/
theorem Linewise.map_lines_of_padded {α : Type} {f : String → α}
    (h : Linewise PaddedTo text.toList text'.toList)
    (hf : ∀ l blanks : List Char, (∀ c ∈ blanks, isBlank c = true) →
      f (String.ofList (l ++ blanks)) = f (String.ofList l)) :
    (lines text).map f = (lines text').map f := by
  have hreturn : ∀ c ∈ ['\r'], isBlank c = true := List.all_eq_true.1 (by decide)
  refine h.map_lines (fun l => ?_) fun l k hlk => ?_
  · unfold dropFinal
    split
    · rename_i hlast
      obtain ⟨init, rfl⟩ := List.getLast?_eq_some_iff.1 hlast
      rw [List.dropLast_concat, hf init ['\r'] hreturn]
    · rfl
  · obtain ⟨body, blanks, ending, rfl, rfl, hblanks, hending⟩ := hlk
    have hending : ∀ c ∈ ending, isBlank c = true := by
      rcases hending with rfl | rfl
      · simp
      · exact hreturn
    have hall : ∀ c ∈ blanks ++ ending, isBlank c = true := fun c hc =>
      (List.mem_append.1 hc).elim (hblanks c) (hending c)
    rw [List.append_assoc, hf body _ hall, hf body _ hending]

theorem trimEnd_append (l blanks : List Char) (h : ∀ c ∈ blanks, isBlank c = true) :
    trimEnd (String.ofList (l ++ blanks)) = trimEnd (String.ofList l) := by
  unfold trimEnd
  rw [String.toList_ofList, String.toList_ofList, dropEndWhile_append l h]

theorem trim_append (l blanks : List Char) (h : ∀ c ∈ blanks, isBlank c = true) :
    trim (String.ofList (l ++ blanks)) = trim (String.ofList l) := by
  unfold trim
  rw [String.toList_ofList, String.toList_ofList, List.dropWhile_append]
  split
  · -- The line is blank, and what is put in at its end is dropped from the front.
    rename_i hempty
    rw [List.isEmpty_iff.1 hempty, List.dropWhile_eq_nil_iff.2 h]
  · rw [dropEndWhile_append _ h]

/-! ## Carriage returns in front of newlines -/

/-- The text with a carriage return put in front of each newline whose position is chosen. -/
def withReturns (chosen : Nat → Bool) (text : String) : String :=
  String.ofList (text.toList.zipIdx.flatMap fun (c, i) =>
    if c = '\n' ∧ chosen i = true then ['\r', '\n'] else [c])

theorem Linewise.padded_cons (h : Linewise PaddedTo cs ds) {c : Char} (hc : ¬c = '\n') :
    Linewise PaddedTo (c :: cs) (c :: ds) := by
  have hmem : ∀ {l : List Char}, '\n' ∉ l → '\n' ∉ c :: l := fun hl hm =>
    (List.mem_cons.1 hm).elim (fun e => hc e.symm) hl
  cases h with
  | done =>
    exact .last (hmem List.not_mem_nil) (hmem List.not_mem_nil) (by simp) (by simp)
      (paddedTo_self _)
  | last hl hk _ _ hpadded =>
    exact .last (hmem hl) (hmem hk) (by simp) (by simp) (hpadded.cons c)
  | line hl hk hpadded hrest => exact .line (hmem hl) (hmem hk) (hpadded.cons c) hrest

theorem linewise_withReturns (chosen : Nat → Bool) (text : String) :
    Linewise PaddedTo text.toList (withReturns chosen text).toList := by
  unfold withReturns
  rw [String.toList_ofList]
  -- The positions go on along the text.
  generalize 0 = n, text.toList = cs
  induction cs generalizing n with
  | nil => exact .done
  | cons c cs ih =>
    have ih := ih (n + 1)
    rw [List.zipIdx_cons, List.flatMap_cons]
    dsimp only
    by_cases hc : c = '\n'
    · subst hc
      by_cases hchosen : chosen n = true
      · rw [if_pos ⟨rfl, hchosen⟩]
        exact .line (k := ['\r']) List.not_mem_nil (by decide)
          (paddedTo_append [] (List.all_eq_true.1 (by decide))) ih
      · rw [if_neg fun h => hchosen h.2]
        exact .line List.not_mem_nil List.not_mem_nil (paddedTo_self []) ih
    · rw [if_neg fun h => hc h.1]
      exact ih.padded_cons hc

end Text

/-! ## What the readers see of a line -/

theorem LoadedProgram.parse_congr {text text' : String}
    (h : significantLines text' = significantLines text) : parse text' = parse text := by
  unfold parse programLines
  rw [h]

namespace Memory

variable {size : Nat} {lines lines' : List String} {text text' : String}

theorem map_wordOfLine?_congr (h : lines'.map Text.trim = lines.map Text.trim) :
    lines'.map wordOfLine? = lines.map wordOfLine? := by
  have htrim : ∀ ls : List String, ls.map wordOfLine? =
      (ls.map Text.trim).map fun t => (Text.integer? t.toList).bind Word.ofInt? := by
    intro ls
    rw [List.map_map]
    refine List.map_congr_left fun line _ => ?_
    rw [wordOfLine?, Function.comp_apply]
  rw [htrim, htrim, h]

/-- A bad line is reported without the blanks around it. -/
theorem badLines_congr (h : lines'.map Text.trim = lines.map Text.trim) :
    badLines lines' = badLines lines := by
  have htrim : ∀ ls : List String, badLines ls = (ls.map Text.trim).zipIdx.filterMap fun entry =>
      if ((Text.integer? entry.1.toList).bind Word.ofInt?).isSome then none
      else some (.badNumber (entry.2 + 1) entry.1) := by
    intro ls
    rw [List.zipIdx_map, List.filterMap_map, badLines]
    refine congrFun (congrArg List.filterMap (funext fun entry => ?_)) _
    rw [Function.comp_apply, Prod.map_fst, Prod.map_snd, id_eq]
    unfold wordOfLine?
    rfl
  rw [htrim, htrim, h]

theorem parse_congr
    (h : (Text.lines text').map Text.trim = (Text.lines text).map Text.trim) :
    parse size text' = parse size text := by
  have hcount : (Text.lines text').length = (Text.lines text).length := by
    simpa using congrArg List.length h
  rcases heldBy_or_badLines_or_length_ne size text with ⟨m, hm⟩ | ⟨hlength, e, es, hbad⟩ | hlength
  · have hm' : m.HeldBy text' := (map_wordOfLine?_congr h).trans hm
    rw [parse_of_heldBy hm, parse_of_heldBy hm']
  · have hbad' := (badLines_congr h).trans hbad
    rw [parse_of_badLines hlength hbad, parse_of_badLines (hcount.trans hlength) hbad']
  · rw [parse_of_length_ne hlength, parse_of_length_ne (hcount ▸ hlength), hcount]

end Memory

/-! ## Texts that read alike -/

/-- The texts are the same to every reader of images: the results, the errors and the reports. -/
structure ReadAlike (text text' : String) : Prop where
  program : LoadedProgram.parse text' = LoadedProgram.parse text
  memory : ∀ size, Memory.parse size text' = Memory.parse size text
  ofText : ∀ size, Memory.ofText size text' = Memory.ofText size text
  ofTextLenient : ∀ size, Memory.ofTextLenient size text' = Memory.ofTextLenient size text

theorem readAlike_of_padded {text text' : String}
    (h : Text.Linewise Text.PaddedTo text.toList text'.toList) : ReadAlike text text' := by
  have hmemory : ∀ size, Memory.parse size text' = Memory.parse size text := fun _ =>
    Memory.parse_congr (h.map_lines_of_padded Text.trim_append).symm
  exact {
    program := LoadedProgram.parse_congr <| by
      rw [LoadedProgram.significantLines, LoadedProgram.significantLines,
        h.map_lines_of_padded Text.trimEnd_append]
    memory := hmemory
    ofText := fun size => by unfold Memory.ofText; rw [hmemory]
    ofTextLenient := fun size => by unfold Memory.ofTextLenient; rw [hmemory] }

namespace Text

/-- Line endings and blanks at the ends of lines do not count, in program images and in memory images,
whether or not the text is a good image: two texts that differ only in these read alike. In particular
any newline may be turned into a carriage return and a newline. -/
theorem line_ends_do_not_count :
    (∀ text text' : String, Linewise PaddedTo text.toList text'.toList → ReadAlike text text') ∧
      ∀ (chosen : Nat → Bool) (text : String), ReadAlike text (withReturns chosen text) :=
  ⟨fun _ _ => readAlike_of_padded, fun chosen text =>
    readAlike_of_padded (linewise_withReturns chosen text)⟩

/-- Blanks behind a line that is no instruction, in front of a line ending of two characters, in a
blank line, and behind the mark in a last line without an ending. -/
theorem line_ends_do_not_count_in_bad_images :
    let text := "1 7\n-x\r\n\ndebug"
    let text' := "1 7 \t\n-x\t\r\n \r\ndebug\r"
    Linewise PaddedTo text.toList text'.toList ∧ ReadAlike text text' ∧
      (LoadedProgram.parse text').value.tracing = true ∧
      (LoadedProgram.parse text').log = [.malformedLine (.badInstruction 1 "1 7"),
        .malformedLine (.badInstruction 2 "-x"), .malformedLine (.badInstruction 3 "")] ∧
      (Memory.ofText 4 text').log = [.refusedLine (.badNumber 1 "1 7"),
        .refusedLine (.badNumber 2 "-x"), .refusedLine (.badNumber 3 ""),
        .refusedLine (.badNumber 4 "debug")] ∧
      withReturns (fun i => i = 3 ∨ i = 7) text = "1 7\r\n-x\r\r\n\ndebug" := by
  intro text text'
  have hpadded : Linewise PaddedTo text.toList text'.toList := by
    have htext : text.toList = "1 7".toList ++ '\n' :: (("-x".toList ++ ['\r']) ++ '\n' ::
        ([] ++ '\n' :: "debug".toList)) := by decide
    have htext' : text'.toList = ("1 7".toList ++ " \t".toList) ++ '\n' ::
        (("-x".toList ++ ['\t'] ++ ['\r']) ++ '\n' ::
          (([] ++ " \r".toList) ++ '\n' :: ("debug".toList ++ ['\r']))) := by decide
    rw [htext, htext']
    exact .line (by decide) (by decide) (paddedTo_append _ (List.all_eq_true.1 (by decide)))
      (.line (by decide) (by decide)
        ⟨"-x".toList, ['\t'], ['\r'], rfl, rfl, List.all_eq_true.1 (by decide), .inr rfl⟩
        (.line (by decide) (by decide) (paddedTo_append _ (List.all_eq_true.1 (by decide)))
          (.last (by decide) (by decide) (by decide) (by decide)
            (paddedTo_append _ (List.all_eq_true.1 (by decide))))))
  exact ⟨hpadded, line_ends_do_not_count.1 _ _ hpadded, by decide +kernel, by decide +kernel,
    by decide +kernel, by decide +kernel⟩

end Text

end Accumulator
