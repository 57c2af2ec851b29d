import Accumulator.Proofs.LineEnds

/-!
# Program images written and read

Instruction words are read back from the image that they are written to, one line of digits for each,
with or without the mark, and whatever blank lines follow. `layout_imageLines` gives the layout of such
an image, and `parse_append_newline` says that it does not matter whether its last line is ended.
-/

namespace Accumulator

namespace Text

/-! ## Lines of digits -/

theorem not_isBlank_of_mem_digits {n : Nat} {v : BitVec n} {c : Char} (h : c ∈ digits v) :
    isBlank c = false := by
  have hdigit : ∀ b, isBlank (bitDigit b) = false := by decide
  obtain ⟨i, -, rfl⟩ := List.mem_map.1 h
  exact hdigit _

theorem trimEnd_digits {n : Nat} (v : BitVec n) :
    trimEnd (String.ofList (digits v)) = String.ofList (digits v) := by
  rw [trimEnd, String.toList_ofList,
    dropEndWhile_of_forall_neg fun _ hc => not_isBlank_of_mem_digits hc]

theorem newline_not_mem_digits {n : Nat} (v : BitVec n) : '\n' ∉ digits v :=
  fun h => absurd (not_isBlank_of_mem_digits h) (by decide)

theorem trimEnd_of_forall_isBlank {l : List Char} (h : ∀ c ∈ l, isBlank c = true) :
    trimEnd (String.ofList l) = "" :=
  trimEnd_append [] l h

/-! ## Texts of given lines -/

/-- The lines one below the other. Each ends with a newline, but the last one only on demand. -/
def unlines (ls : List (List Char)) (ended : Bool) : String :=
  let text := ls.flatMap (· ++ ['\n'])
  String.ofList (if ended then text else dropFinal '\n' text)

theorem map_trimEnd_lines_unlines {ls : List (List Char)} (h : ∀ l ∈ ls, '\n' ∉ l) :
    (lines (unlines ls true)).map trimEnd = ls.map fun l => trimEnd (String.ofList l) := by
  unfold lines unlines
  simp only [if_true, String.toList_ofList]
  rw [pieces_flatMap_newline h, List.map_map, List.map_map]
  refine List.map_congr_left fun l _ => ?_
  rw [Function.comp_apply, Function.comp_apply, dropEnding_append_newline, trimEnd_dropFinal_return]

theorem unlines_true_eq_or (ls : List (List Char)) :
    unlines ls true = unlines ls false ∨ unlines ls true = unlines ls false ++ "\n" := by
  unfold unlines
  generalize ls.flatMap (· ++ ['\n']) = cs
  simp only [if_true, Bool.false_eq_true, if_false]
  unfold dropFinal
  split
  · rename_i hlast
    obtain ⟨init, rfl⟩ := List.getLast?_eq_some_iff.1 hlast
    rw [List.dropLast_concat, String.ofList_append]
    exact .inr rfl
  · exact .inl rfl

/-! ## A last line without its ending -/

/-- A text is made of whole lines and what is left behind the last newline. -/
theorem exists_append_not_mem_newline (text : String) :
    ∃ (whole : String) (last : List Char), text = whole ++ String.ofList last ∧
      (∀ c, whole.toList.getLast? = some c → c = '\n') ∧ '\n' ∉ last := by
  obtain ⟨last, hsplit, hlast⟩ := dropEndWhile_append_dropped (fun c => c ≠ '\n') text.toList
  refine ⟨String.ofList (dropEndWhile (fun c => c ≠ '\n') text.toList), last, ?_, ?_, ?_⟩
  · rw [← String.ofList_append, ← hsplit, String.ofList_toList]
  · intro c hc
    rw [String.toList_ofList] at hc
    simpa using neg_of_getLast?_dropEndWhile hc
  · intro hmem
    simpa using hlast '\n' hmem

theorem lines_ofList {l : List Char} (h : '\n' ∉ l) (hl : l ≠ []) :
    lines (String.ofList l) = [String.ofList l] := by
  unfold lines
  rw [String.toList_ofList, pieces_of_not_mem l h hl, List.map_singleton, dropEnding_of_not_mem h]

theorem lines_ofList_newline {l : List Char} (h : '\n' ∉ l) :
    lines (String.ofList l ++ "\n") = [String.ofList (dropFinal '\r' l)] := by
  unfold lines
  rw [String.toList_append, String.toList_ofList]
  show (pieces (l ++ '\n' :: [])).map _ = _
  rw [pieces_append_newline l [] h, pieces_nil, List.map_singleton, dropEnding_append_newline]

end Text

namespace LoadedProgram

open Text

theorem significantLines_append_newline (text : String) :
    significantLines (text ++ "\n") = significantLines text := by
  obtain ⟨whole, last, rfl, hwhole, hlast⟩ := exists_append_not_mem_newline text
  unfold significantLines
  rw [String.append_assoc, lines_append hwhole, lines_append hwhole, lines_ofList_newline hlast,
    List.map_append, List.map_append, List.map_singleton, trimEnd_dropFinal_return]
  by_cases hempty : last = []
  · -- There is one more line, and it is blank.
    subst hempty
    rw [dropEndWhile_append _ (by decide), show lines (String.ofList []) = [] from rfl,
      List.map_nil, List.append_nil]
  · rw [lines_ofList hlast hempty, List.map_singleton]

/-- It does not matter to a program image whether its last line is ended. -/
theorem parse_append_newline (text : String) : parse (text ++ "\n") = parse text :=
  parse_congr (significantLines_append_newline text)

theorem parse_unlines (ls : List (List Char)) (ended : Bool) :
    parse (unlines ls ended) = parse (unlines ls true) := by
  cases ended with
  | true => rfl
  | false =>
    rcases unlines_true_eq_or ls with h | h
    · rw [h]
    · rw [h, parse_append_newline]

/-! ## Images of words -/

/-- The lines of an image of the words: their digits, the mark on demand, and blank lines. -/
def imageLines (words : List Byte) (mark : Bool) (blanks : List (List Char)) : List (List Char) :=
  words.map digits ++ (if mark then ["debug".toList] else []) ++ blanks

variable {words : List Byte} {blanks : List (List Char)}

theorem newline_not_mem_imageLines (words : List Byte) (mark : Bool)
    (hblanks : ∀ line ∈ blanks, ∀ c ∈ line, isBlank c = true ∧ c ≠ '\n') :
    ∀ line ∈ imageLines words mark blanks, '\n' ∉ line := by
  intro line hline
  rw [imageLines, List.mem_append, List.mem_append] at hline
  rcases hline with (hline | hline) | hline
  · obtain ⟨word, -, rfl⟩ := List.mem_map.1 hline
    exact newline_not_mem_digits word
  · cases mark with
    | false => cases hline
    | true =>
      rw [List.mem_singleton.1 hline]
      decide
  · exact fun hmem => (hblanks line hline '\n' hmem).2 rfl

/-- Only a line of eight characters can be the last one of the words. -/
theorem getLast?_digits_ne {line : String} (h : line.toList.length ≠ 8) :
    (words.map fun word => String.ofList (digits word)).getLast? ≠ some line := by
  intro hlast
  obtain ⟨word, -, rfl⟩ := List.mem_map.1 (List.mem_of_getLast? hlast)
  exact h (by rw [String.toList_ofList, length_digits])

theorem layout_imageLines (words : List Byte) (mark : Bool)
    (hblanks : ∀ line ∈ blanks, ∀ c ∈ line, isBlank c = true ∧ c ≠ '\n') :
    Layout ((imageLines words mark blanks).map fun line => trimEnd (String.ofList line))
      (words.map fun word => String.ofList (digits word)) mark := by
  have hempty : ∀ line ∈ blanks.map fun line => trimEnd (String.ofList line), line = "" := by
    intro line hline
    obtain ⟨blank, hblank, rfl⟩ := List.mem_map.1 hline
    exact trimEnd_of_forall_isBlank fun c hc => (hblanks blank hblank c hc).1
  have hwords : (words.map digits).map (fun line => trimEnd (String.ofList line)) =
      words.map fun word => String.ofList (digits word) := by
    rw [List.map_map]
    exact List.map_congr_left fun word _ => trimEnd_digits word
  unfold imageLines
  rw [List.map_append, List.map_append, hwords]
  cases mark with
  | false =>
    refine .plain (congrArg (· ++ _) (List.append_nil _)) hempty ?_ ?_
    · exact getLast?_digits_ne (by decide)
    · exact getLast?_digits_ne (by decide)
  | true =>
    refine .marked ?_ hempty
    rw [List.append_assoc]
    rfl

theorem map_ofLine_digits (words : List Byte) :
    (words.map fun word => String.ofList (digits word)).map Slot.ofLine =
      words.map Slot.encoded := by
  rw [List.map_map]
  refine List.map_congr_left fun word _ => ?_
  rw [Function.comp_apply]
  exact Slot.ofLine_eq_encoded_iff.2 (.inl String.toList_ofList)

end LoadedProgram

namespace Program

/-- A program of words has nothing to report. -/
theorem malformedLines_ofWords (words : List Byte) : (ofWords words).malformedLines = [] := by
  unfold malformedLines ofWords
  rw [List.zipIdx_map, List.filterMap_map, List.filterMap_eq_nil_iff]
  exact fun _ _ => rfl

theorem fetch_ofWords {words : List Byte} {i : Nat} (h : i < words.length) :
    (ofWords words).fetch i = some (.encoded words[i]) := by
  rw [fetch_natCast]
  simp [ofWords, h]

theorem size_ofWords (words : List Byte) : (ofWords words).size = words.length := by
  simp [ofWords, size]

theorem fetch_ofWords_eq_none {words : List Byte} {address : Int}
    (h : ¬(0 ≤ address ∧ address < words.length)) : (ofWords words).fetch address = none := by
  rw [fetch_eq_none_iff, size_ofWords]
  omega

end Program

namespace LoadedProgram

theorem parse_imageLines (words : List Byte) (mark ended : Bool) {blanks : List (List Char)}
    (hblanks : ∀ line ∈ blanks, ∀ c ∈ line, Text.isBlank c = true ∧ c ≠ '\n') :
    parse (Text.unlines (imageLines words mark blanks) ended) = ⟨⟨.ofWords words, mark⟩, []⟩ := by
  rw [parse_unlines]
  generalize htext : Text.unlines (imageLines words mark blanks) true = text
  have hlayout := layout_imageLines words mark hblanks
  rw [← Text.map_trimEnd_lines_unlines (newline_not_mem_imageLines words mark hblanks), htext]
    at hlayout
  have hvalue : (parse text).value = ⟨.ofWords words, mark⟩ := by
    rw [parse_of_layout hlayout, map_ofLine_digits, Program.ofWords]
  have hlog : (parse text).log = [] := by
    rw [log_parse_eq_map, hvalue, Program.malformedLines_ofWords, List.map_nil]
  cases hparse : parse text with
  | mk value log =>
    rw [hparse] at hvalue hlog
    cases hvalue
    cases hlog
    rfl

/-- Instruction words are read back from their image. The mark is found if it is there, and nothing is
reported, whatever blank lines follow and whether or not the last line is ended. The words are fetched
at their places in the list, and there is nothing at any other address. -/
theorem written_words_are_read_back (words : List Byte) (mark ended : Bool)
    (blanks : List (List Char))
    (hblanks : ∀ line ∈ blanks, ∀ c ∈ line, Text.isBlank c = true ∧ c ≠ '\n') :
    let image := parse (Text.unlines (imageLines words mark blanks) ended)
    image = ⟨⟨.ofWords words, mark⟩, []⟩ ∧
      (∀ (i : Nat) (h : i < words.length),
        image.value.program.fetch i = some (.encoded words[i])) ∧
      ∀ address : Int, ¬(0 ≤ address ∧ address < words.length) →
        image.value.program.fetch address = none := by
  intro image
  have himage : image = ⟨⟨.ofWords words, mark⟩, []⟩ := parse_imageLines words mark ended hblanks
  rw [himage]
  exact ⟨rfl, fun _ => Program.fetch_ofWords, fun _ => Program.fetch_ofWords_eq_none⟩

/-- A `STOP` with operand bits stays the word that it is. An image without words may be only the
mark. -/
theorem written_words_are_read_back_behind_blank_lines :
    let words : List Byte := [0b10110011, 0b11110101]
    let image := parse "10110011\n11110101\ndebug\n\n \t"
    image = ⟨⟨.ofWords words, true⟩, []⟩ ∧
      image.value.program.fetch 1 = some (.encoded 0b11110101) ∧
      image.value.program.fetch 2 = none ∧ image.value.program.fetch (-1) = none ∧
      parse "debug" = ⟨⟨.ofWords [], true⟩, []⟩ := by
  have htext : Text.unlines (imageLines [0b10110011, 0b11110101] true [[], [' ', '\t']]) false =
      "10110011\n11110101\ndebug\n\n \t" := by decide
  have hmark : Text.unlines (imageLines [] true []) false = "debug" := by decide
  have hblanks : ∀ line ∈ [[], [' ', '\t']], ∀ c ∈ line, Text.isBlank c = true ∧ c ≠ '\n' := by
    simp [Text.isBlank, Text.blankRanges]
  obtain ⟨himage, hfetch, hnone⟩ :=
    written_words_are_read_back [0b10110011, 0b11110101] true false [[], [' ', '\t']] hblanks
  obtain ⟨hempty, -, -⟩ := written_words_are_read_back [] true false [] (by simp)
  rw [htext] at himage hfetch hnone
  rw [hmark] at hempty
  exact ⟨himage, hfetch 1 (by decide), hnone 2 (by decide), hnone (-1) (by decide), hempty⟩

end LoadedProgram

end Accumulator
