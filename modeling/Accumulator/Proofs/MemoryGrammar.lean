import Accumulator.Proofs.RoundTrip
import Mathlib.Data.List.Induction

/-!
# The grammar of memory images

`Text.Numeral` is the grammar of the numbers in an image, with the number that each numeral writes.
A text is a memory image if it has one line for each cell, and each line without its blanks is the
numeral of a word. `Memory.ErrorsOf` says which errors any other text of that many lines has. A
text with another number of lines has only that error, whatever its lines are. As a memory file, a text
of the right number of lines with a bad one is `Memory.Refused`; every other text stands for a memory
(`Memory.TakenFrom`), which is the one that the lenient reader gives.
-/

namespace Accumulator

namespace Text

variable {cs : List Char} {n : Nat} {z : Int}

/-! ## Numerals -/

/-- One or more ASCII digits, read from the first one on, write the number. -/
inductive Digits : List Char → Nat → Prop
  | single (d : Fin 10) : Digits [d.val.digitChar] d
  | snoc {cs : List Char} {n : Nat} (h : Digits cs n) (d : Fin 10) :
      Digits (cs ++ [d.val.digitChar]) (10 * n + d)

/-- Digits, which may have a sign before them, write the number. -/
inductive Numeral : List Char → Int → Prop
  | unsigned {cs : List Char} {n : Nat} (h : Digits cs n) : Numeral cs n
  | plus {cs : List Char} {n : Nat} (h : Digits cs n) : Numeral ('+' :: cs) n
  | minus {cs : List Char} {n : Nat} (h : Digits cs n) : Numeral ('-' :: cs) (-n)

theorem isDigit_digitChar (d : Fin 10) : d.val.digitChar.isDigit = true := by
  revert d
  decide

theorem exists_digitChar_of_isDigit {c : Char} (h : c.isDigit = true) :
    ∃ d : Fin 10, c = d.val.digitChar := by
  obtain ⟨d, rfl⟩ := exists_digit_of_isDigit h
  exact ⟨d, by revert d; decide⟩

theorem ofDigitChars_concat (cs : List Char) (d : Fin 10) :
    Nat.ofDigitChars 10 (cs ++ [d.val.digitChar]) 0 = 10 * Nat.ofDigitChars 10 cs 0 + d := by
  have hvalue : ∀ d : Fin 10, d.val.digitChar.toNat - '0'.toNat = d := by decide
  rw [Nat.ofDigitChars_append, Nat.ofDigitChars_cons, hvalue]
  rfl

theorem natural?_eq_some_iff : natural? cs = some n ↔
    cs ≠ [] ∧ (∀ c ∈ cs, c.isDigit = true) ∧ Nat.ofDigitChars 10 cs 0 = n := by
  unfold natural?
  rw [Option.ite_none_right_eq_some, Option.some_inj, List.all_eq_true, and_assoc]

theorem natural?_of_digits (h : Digits cs n) : natural? cs = some n := by
  rw [natural?_eq_some_iff]
  induction h with
  | single d =>
    refine ⟨by simp, ?_, ?_⟩
    · simp [isDigit_digitChar d]
    · simpa using ofDigitChars_concat [] d
  | snoc h d ih =>
    obtain ⟨-, hdigits, rfl⟩ := ih
    refine ⟨by simp, ?_, ofDigitChars_concat _ d⟩
    intro c hc
    rcases List.mem_append.1 hc with hc | hc
    · exact hdigits c hc
    · rw [List.mem_singleton.1 hc]
      exact isDigit_digitChar d

theorem digits_ofDigitChars (hne : cs ≠ []) (h : ∀ c ∈ cs, c.isDigit = true) :
    Digits cs (Nat.ofDigitChars 10 cs 0) := by
  induction cs using List.reverseRecOn with
  | nil => exact absurd rfl hne
  | append_singleton cs c ih =>
    obtain ⟨d, rfl⟩ := exists_digitChar_of_isDigit (h c (by simp))
    rw [ofDigitChars_concat]
    by_cases hcs : cs = []
    · subst hcs
      simpa using Digits.single d
    · exact .snoc (ih hcs fun c hc => h c (List.mem_append_left _ hc)) d

/-- The natural numbers are read off one or more digits. -/
theorem natural?_eq_some_iff_digits : natural? cs = some n ↔ Digits cs n := by
  refine ⟨fun h => ?_, natural?_of_digits⟩
  obtain ⟨hne, hdigits, rfl⟩ := natural?_eq_some_iff.1 h
  exact digits_ofDigitChars hne hdigits

theorem numeral_of_integer? (h : integer? cs = some z) : Numeral cs z := by
  cases cs with
  | nil => cases h
  | cons c cs =>
    rw [integer?] at h
    split at h
    · rename_i hc
      obtain ⟨n, hn, rfl⟩ := Option.map_eq_some_iff.1 h
      exact hc ▸ .minus (natural?_eq_some_iff_digits.1 hn)
    · split at h
      · rename_i hc
        obtain ⟨n, hn, rfl⟩ := Option.map_eq_some_iff.1 h
        exact hc ▸ .plus (natural?_eq_some_iff_digits.1 hn)
      · obtain ⟨n, hn, rfl⟩ := Option.map_eq_some_iff.1 h
        exact .unsigned (natural?_eq_some_iff_digits.1 hn)

theorem integer?_of_digits (h : Digits cs n) : integer? cs = some n := by
  have hnatural := natural?_of_digits h
  obtain ⟨hne, hdigits, -⟩ := natural?_eq_some_iff.1 hnatural
  cases cs with
  | nil => exact absurd rfl hne
  | cons c cs =>
    -- A sign is no digit.
    have hsign : ∀ s : Char, s.isDigit = false → c ≠ s := by
      rintro s hs rfl
      rw [hdigits c List.mem_cons_self] at hs
      cases hs
    rw [integer?, if_neg (hsign '-' (by decide)), if_neg (hsign '+' (by decide)), hnatural]
    rfl

theorem integer?_of_numeral (h : Numeral cs z) : integer? cs = some z := by
  cases h with
  | unsigned h => exact integer?_of_digits h
  | plus h => rw [integer?, if_neg (by decide), if_pos rfl, natural?_of_digits h]; rfl
  | minus h => rw [integer?, if_pos rfl, natural?_of_digits h]; rfl

theorem integer?_eq_some_iff : integer? cs = some z ↔ Numeral cs z :=
  ⟨numeral_of_integer?, integer?_of_numeral⟩

end Text

namespace Memory

variable {size : Nat} {text line : String} {lines : List String}

/-! ## Lines -/

/-- The line, without the blanks around it, is the numeral of a number in the range of words. -/
def IsNumber (line : String) : Prop :=
  ∃ z, Text.Numeral (Text.trim line).toList z ∧ Word.least ≤ z ∧ z ≤ Word.greatest

theorem wordOfLine?_eq_some_iff {v : Word} :
    wordOfLine? line = some v ↔ Text.Numeral (Text.trim line).toList v.toInt := by
  unfold wordOfLine?
  rw [Option.bind_eq_some_iff]
  constructor
  · rintro ⟨z, hz, hv⟩
    rw [Word.ofInt?_eq_some_iff.1 hv]
    exact Text.integer?_eq_some_iff.1 hz
  · intro h
    exact ⟨v.toInt, Text.integer?_eq_some_iff.2 h, Word.ofInt?_toInt v⟩

theorem isSome_wordOfLine?_iff : (wordOfLine? line).isSome = true ↔ IsNumber line := by
  rw [Option.isSome_iff_exists]
  constructor
  · rintro ⟨v, hv⟩
    exact ⟨v.toInt, wordOfLine?_eq_some_iff.1 hv, v.toInt_bounds⟩
  · rintro ⟨z, hz, hrange⟩
    refine ⟨BitVec.ofInt 16 z, wordOfLine?_eq_some_iff.2 ?_⟩
    rwa [Word.toInt_ofInt hrange]

/-! ## Accepted texts -/

/-- A text holds a memory if it has one line for each cell, with a numeral of the number in the
cell. -/
theorem heldBy_iff {m : Memory size} : m.HeldBy text ↔
    (Text.lines text).length = size ∧ ∀ (i : Fin size) (line : String),
      (Text.lines text)[i.val]? = some line →
        Text.Numeral (Text.trim line).toList (m.read i).toInt := by
  have hcell : ∀ i : Fin size, (m.cells.toList.map some)[i.val]? = some (some (m.read i)) := by
    simp [read]
  simp only [← wordOfLine?_eq_some_iff]
  constructor
  · intro h
    refine ⟨length_of_heldBy h, fun i line hline => ?_⟩
    rw [← Option.some_inj, ← hcell i, ← h, List.getElem?_map, hline, Option.map_some]
  · rintro ⟨hlength, hlines⟩
    apply List.ext_getElem?
    intro i
    by_cases hi : i < size
    · have hline : (Text.lines text)[i]? = some (Text.lines text)[i] :=
        List.getElem?_eq_getElem (by omega)
      rw [hcell ⟨i, hi⟩, List.getElem?_map, hline, Option.map_some, hlines ⟨i, hi⟩ _ hline]
    · simp [hlength, Nat.not_lt.1 hi]

/-- The texts that are accepted have one line for each cell, and each line is a number. -/
theorem exists_heldBy_iff : (∃ m : Memory size, m.HeldBy text) ↔
    (Text.lines text).length = size ∧ ∀ line ∈ Text.lines text, IsNumber line := by
  simp only [← isSome_wordOfLine?_iff]
  constructor
  · rintro ⟨m, h⟩
    exact ⟨length_of_heldBy h, isSome_of_heldBy h⟩
  · rintro ⟨hlength, hgood⟩
    exact exists_heldBy hlength hgood

/-! ## Memory files -/

/-- The text has the right number of lines, but one of them is no number. -/
def Refused (size : Nat) (text : String) : Prop :=
  (Text.lines text).length = size ∧ ∃ line ∈ Text.lines text, ¬IsNumber line

/-- The memory that a text stands for as a memory file: if there is one line for each cell, each line
writes the number in its cell, and if the number of lines is wrong, all cells are zero. -/
def TakenFrom (m : Memory size) (text : String) : Prop :=
  ((Text.lines text).length = size ∧ ∀ (i : Fin size) (line : String),
    (Text.lines text)[i.val]? = some line →
      Text.Numeral (Text.trim line).toList (m.read i).toInt) ∨
  (Text.lines text).length ≠ size ∧ ∀ i, m.read i = 0

theorem ofTextLenient_of_refused (h : Refused size text) :
    ∃ e log, ofTextLenient size text = ⟨.error e, log⟩ := by
  obtain ⟨hlength, line, hline, hbad⟩ := h
  have hne : badLines (Text.lines text) ≠ [] := fun hnil =>
    hbad (isSome_wordOfLine?_iff.1 (badLines_eq_nil_iff.1 hnil line hline))
  obtain ⟨e, es, hbad⟩ := List.exists_cons_of_ne_nil hne
  exact ⟨e, _, ofTextLenient_of_badLines hlength hbad⟩

theorem ofTextLenient_of_takenFrom {m : Memory size} (h : m.TakenFrom text) :
    ∃ log, ofTextLenient size text = ⟨.ok m, log⟩ := by
  rcases h with h | ⟨hlength, hzero⟩
  · exact ⟨[], ofTextLenient_of_heldBy (heldBy_iff.2 h)⟩
  · have hzeroed : m = zeroed size := ext_read fun i => (hzero i).trans (read_zeroed i).symm
    rw [hzeroed]
    exact ⟨[.zeroedMemory size], ofTextLenient_of_length_ne hlength⟩

/-- A text that is not refused stands for a memory. -/
theorem exists_takenFrom (h : ¬Refused size text) : ∃ m : Memory size, m.TakenFrom text := by
  by_cases hlength : (Text.lines text).length = size
  · have hgood : ∀ line ∈ Text.lines text, IsNumber line := fun line hline =>
      Classical.byContradiction fun hbad => h ⟨hlength, line, hline, hbad⟩
    obtain ⟨m, hm⟩ := exists_heldBy_iff.2 ⟨hlength, hgood⟩
    exact ⟨m, .inl (heldBy_iff.1 hm)⟩
  · exact ⟨zeroed size, .inr ⟨hlength, read_zeroed⟩⟩

/-! ## Errors -/

/-- The errors of the lines that are no numbers: one for each of them, from the first line on, that
names the line, counted from 1, and what stands there. -/
structure ErrorsOf (lines : List String) (errors : List ImageError) : Prop where
  increasing : errors.Pairwise fun e e' => e.line < e'.line
  mem_iff : ∀ e, e ∈ errors ↔ ∃ i line, lines[i]? = some line ∧ ¬IsNumber line ∧
    e = .badNumber (i + 1) (Text.trim line)

theorem badLine_eq_some_iff {i : Nat} {e : ImageError} :
    (if (wordOfLine? line).isSome then none else some (.badNumber (i + 1) (Text.trim line))) =
      some e ↔ ¬IsNumber line ∧ e = .badNumber (i + 1) (Text.trim line) := by
  rw [Option.ite_none_left_eq_some, isSome_wordOfLine?_iff, Option.some_inj, eq_comm (a := e)]

theorem errorsOf_badLines (lines : List String) : ErrorsOf lines (badLines lines) where
  increasing := by
    rw [badLines, List.pairwise_filterMap, List.pairwise_iff_getElem]
    intro i j hi hj hij e he e' he'
    rw [List.getElem_zipIdx] at he he'
    rw [(badLine_eq_some_iff.1 he).2, (badLine_eq_some_iff.1 he').2]
    simp only [ImageError.line]
    omega
  mem_iff := by
    intro e
    rw [badLines, List.mem_filterMap]
    constructor
    · rintro ⟨⟨line, i⟩, hmem, he⟩
      exact ⟨i, line, List.mem_zipIdx_iff_getElem?.1 hmem, badLine_eq_some_iff.1 he⟩
    · rintro ⟨i, line, hline, he⟩
      exact ⟨⟨line, i⟩, List.mem_zipIdx_iff_getElem?.2 hline, badLine_eq_some_iff.2 he⟩

/-! ## Readers -/

theorem ofText_of_error {e : ImageErrors} (h : (parse size text).value = .error e) :
    ofText size text = ⟨.error e.first, (parse size text).log⟩ := by
  simp only [ofText, h]
  rfl

theorem ofTextLenient_of_length_eq (hlength : (Text.lines text).length = size) :
    ofTextLenient size text = ofText size text := by
  rcases heldBy_or_badLines_or_length_ne size text with ⟨m, h⟩ | ⟨-, e, es, hbad⟩ | hne
  · rw [ofTextLenient_of_heldBy h, ofText_of_heldBy h]
  · have hparse := parse_of_badLines hlength hbad
    rw [ofTextLenient_of_badLines hlength hbad, ofText_of_error (congrArg Logged.value hparse),
      hparse]
  · exact absurd hlength hne

theorem errorsOf_of_error {e : ImageErrors} (hlength : (Text.lines text).length = size)
    (he : (parse size text).value = .error e) :
    ErrorsOf (Text.lines text) e.toList ∧ (parse size text).log = e.toList.map .refusedLine := by
  rcases heldBy_or_badLines_or_length_ne size text with ⟨m, h⟩ | ⟨-, e', es, hbad⟩ | hne
  · rw [parse_of_heldBy h] at he
    cases he
  · rw [parse_of_badLines hlength hbad] at he ⊢
    cases he
    have herrors := errorsOf_badLines (Text.lines text)
    rw [hbad] at herrors
    exact ⟨herrors, rfl⟩
  · exact absurd hlength hne

theorem level_of_mem_log_parse {event : Event} (h : event ∈ (parse size text).log) :
    event.level = .error := by
  rcases heldBy_or_badLines_or_length_ne size text with ⟨m, hm⟩ | ⟨hlength, e, es, hbad⟩ | hlength
  · simp [parse_of_heldBy hm] at h
  · rw [parse_of_badLines hlength hbad] at h
    obtain ⟨e', -, rfl⟩ := List.mem_map.1 h
    rfl
  · simp [parse_of_length_ne hlength] at h

/-- The lenient reader warns of a wrong number of lines, and of nothing else. -/
theorem warnings_ofTextLenient (size : Nat) (text : String) :
    (ofTextLenient size text).log.filter (fun event => event.level = .warning) =
      if (Text.lines text).length = size then [] else [.zeroedMemory size] := by
  split
  · rename_i hlength
    rw [ofTextLenient_of_length_eq hlength, List.filter_eq_nil_iff]
    intro event hevent
    simp [level_of_mem_log_parse hevent]
  · rename_i hlength
    rw [ofTextLenient_of_length_ne hlength]
    rfl

/-- A text is accepted as a memory if it has one line for each cell, and each line is a numeral of a
word; the cells then hold what the lines write. If there are bad lines, all of them are reported, in
their order, and nothing else. If the number of lines is wrong, that is the only error. The strict
reader gives the first error. The lenient one takes zeros for a wrong number of lines and warns, and
for all other texts does what the strict one does. -/
theorem parse_accepts_its_grammar (size : Nat) (text : String) :
    let lines := Text.lines text
    let parsed := parse size text
    let strict := ofText size text
    let lenient := ofTextLenient size text
    ((∃ m, parsed.value = .ok m) ↔ lines.length = size ∧ ∀ line ∈ lines, IsNumber line) ∧
    (∀ m, parsed.value = .ok m ↔ lines.length = size ∧
      ∀ (i : Fin size) (line : String), lines[i.val]? = some line →
        Text.Numeral (Text.trim line).toList (m.read i).toInt) ∧
    (∀ m, parsed.value = .ok m → parsed.log = [] ∧ strict = ⟨.ok m, []⟩) ∧
    (∀ e, parsed.value = .error e → e.toList ≠ [] ∧ strict = ⟨.error e.first, parsed.log⟩) ∧
    (lines.length = size →
      (∀ e, parsed.value = .error e →
        ErrorsOf lines e.toList ∧ parsed.log = e.toList.map .refusedLine) ∧
      lenient = strict) ∧
    (lines.length ≠ size →
      parsed = ⟨.error ⟨.wrongLineCount size lines.length, []⟩, []⟩ ∧
      lenient = ⟨.ok (zeroed size), [.zeroedMemory size]⟩) ∧
    (∀ event ∈ parsed.log, event.level = .error) ∧
    lenient.log.filter (fun event => event.level = .warning) =
      if lines.length = size then [] else [.zeroedMemory size] := by
  intro lines parsed strict lenient
  refine ⟨?_, fun m => value_parse_eq_ok_iff.trans heldBy_iff, fun m hm => ?_,
    fun e he => ?_, ?_, ?_, fun event => level_of_mem_log_parse, warnings_ofTextLenient size text⟩
  · rw [← exists_heldBy_iff]
    exact exists_congr fun m => value_parse_eq_ok_iff
  · have hheld := value_parse_eq_ok_iff.1 hm
    exact ⟨congrArg Logged.log (parse_of_heldBy hheld), ofText_of_heldBy hheld⟩
  · exact ⟨by simp [ImageErrors.toList], ofText_of_error he⟩
  · intro hlength
    exact ⟨fun e => errorsOf_of_error hlength, ofTextLenient_of_length_eq hlength⟩
  · intro hlength
    exact ⟨parse_of_length_ne hlength, ofTextLenient_of_length_ne hlength⟩

/-- Three lines of which two are bad, as an image of three cells and of two; and an image of one
cell. -/
theorem parse_accepts_its_grammar_of_bad_lines :
    let text := "12\n - 5\n\n"
    let errors : ImageErrors := ⟨.badNumber 2 "- 5", [.badNumber 3 ""]⟩
    ErrorsOf (Text.lines text) errors.toList ∧
      ofText 3 text = ⟨.error errors.first, errors.toList.map .refusedLine⟩ ∧
      ofTextLenient 3 text = ofText 3 text ∧
      ofTextLenient 2 text = ⟨.ok (zeroed 2), [.zeroedMemory 2]⟩ ∧
      ofText 1 "+00032767" = ⟨.ok ⟨#v[32767]⟩, []⟩ := by
  intro text errors
  have hlength : (Text.lines text).length = 3 := by decide +kernel
  have hparse : parse 3 text = ⟨.error errors, errors.toList.map .refusedLine⟩ :=
    parse_of_badLines hlength (by decide +kernel)
  obtain ⟨-, -, -, hfirst, hbad, -⟩ := parse_accepts_its_grammar 3 text
  obtain ⟨-, -, -, -, -, hwrong, -⟩ := parse_accepts_its_grammar 2 text
  obtain ⟨-, -, hok, -⟩ := parse_accepts_its_grammar 1 "+00032767"
  have herror : (parse 3 text).value = .error errors := by rw [hparse]
  obtain ⟨herrors, hlenient⟩ := hbad hlength
  refine ⟨(herrors errors herror).1, ?_, hlenient, (hwrong (by omega)).2, (hok _ ?_).2⟩
  · rw [(hfirst errors herror).2, hparse]
  · exact value_parse_eq_ok_iff.2 (by decide +kernel)

end Memory

end Accumulator
