import Accumulator.Image.Memory

/-!
# Memory images written and read

`Memory.parse_toText` says that a memory is read back from its image. `Memory.HeldBy` says which text
holds which memory, line by line in the order of the cells. A text that holds none has bad lines or a
wrong number of lines (`heldBy_or_badLines_or_length_ne`), and each of the readers has one way to take
each of the three.
-/

namespace Accumulator.Text

/-! ## Lines that are written one below the other -/

theorem pieces_flatMap_newline {ls : List (List Char)} (h : ∀ l ∈ ls, '\n' ∉ l) :
    pieces (ls.flatMap (· ++ ['\n'])) = ls.map (· ++ ['\n']) := by
  induction ls with
  | nil => rfl
  | cons l ls ih =>
    have hrest : ∀ k ∈ ls, '\n' ∉ k := fun k hk => h k (List.mem_cons_of_mem _ hk)
    rw [List.flatMap_cons, List.append_assoc, List.singleton_append,
      pieces_append_newline _ _ (h l List.mem_cons_self), ih hrest]
    rfl

theorem dropFinal_of_not_mem {c : Char} {l : List Char} (h : c ∉ l) : dropFinal c l = l := by
  unfold dropFinal
  rw [if_neg fun hl => h (List.mem_of_getLast? hl)]

theorem lines_flatMap_newline {ls : List (List Char)} (h : ∀ l ∈ ls, '\n' ∉ l ∧ '\r' ∉ l) :
    lines (String.ofList (ls.flatMap (· ++ ['\n']))) = ls.map String.ofList := by
  unfold lines
  rw [String.toList_ofList, pieces_flatMap_newline fun l hl => (h l hl).1, List.map_map]
  refine List.map_congr_left fun l hl => ?_
  show String.ofList (dropEnding (l ++ ['\n'])) = _
  rw [dropEnding_append_newline, dropFinal_of_not_mem (h l hl).2]

/-! ## Numerals have no blanks -/

theorem isDigit_or_minus_of_mem_repr {z : Int} {c : Char} (h : c ∈ z.repr.toList) :
    c.isDigit = true ∨ c = '-' := by
  have hdigits : ∀ n : Nat, c ∈ n.repr.toList → c.isDigit = true := by
    intro n hn
    rw [toList_repr] at hn
    exact Nat.isDigit_of_mem_toDigits (by decide) (by decide) hn
  rw [Int.repr_eq_if] at h
  split at h
  · exact .inl (hdigits _ h)
  · rw [String.toList_append, List.mem_append] at h
    rcases h with h | h
    · exact .inr (List.mem_singleton.1 h)
    · exact .inl (hdigits _ h)

theorem not_isBlank_of_isDigit {c : Char} (h : c.isDigit = true) : isBlank c = false := by
  have hbounds : 48 ≤ c.toNat ∧ c.toNat ≤ 57 := by
    simpa [Char.isDigit, UInt32.le_iff_toNat_le] using h
  simp only [isBlank, blankRanges, List.any_cons, List.any_nil, Bool.or_false,
    Bool.or_eq_false_iff, Bool.and_eq_false_iff, decide_eq_false_iff_not]
  omega

theorem not_isBlank_of_mem_repr {z : Int} {c : Char} (h : c ∈ z.repr.toList) :
    isBlank c = false := by
  rcases isDigit_or_minus_of_mem_repr h with hc | rfl
  · exact not_isBlank_of_isDigit hc
  · decide

theorem dropWhile_of_forall_neg {α : Type} {q : α → Bool} {l : List α} (h : ∀ x ∈ l, q x = false) :
    l.dropWhile q = l := by
  cases l with
  | nil => rfl
  | cons x l => rw [List.dropWhile_cons_of_neg (by simp [h x List.mem_cons_self])]

theorem dropEndWhile_of_forall_neg {α : Type} {q : α → Bool} {l : List α}
    (h : ∀ x ∈ l, q x = false) : dropEndWhile q l = l := by
  have hreverse : ∀ x ∈ l.reverse, q x = false := fun x hx => h x (List.mem_reverse.1 hx)
  rw [dropEndWhile, dropWhile_of_forall_neg hreverse, List.reverse_reverse]

theorem trim_of_forall_not_isBlank {text : String} (h : ∀ c ∈ text.toList, isBlank c = false) :
    trim text = text := by
  rw [trim, dropWhile_of_forall_neg h, dropEndWhile_of_forall_neg h, String.ofList_toList]

end Accumulator.Text

namespace Accumulator.Memory

variable {size : Nat}

theorem wordOfLine?_repr (v : Word) : wordOfLine? v.toInt.repr = some v := by
  unfold wordOfLine?
  rw [Text.trim_of_forall_not_isBlank fun c => Text.not_isBlank_of_mem_repr, Text.integer?_repr,
    Option.bind_some, Word.ofInt?_toInt]

theorem lines_toText (m : Memory size) :
    Text.lines m.toText = m.cells.toList.map fun v => v.toInt.repr := by
  have hrepr : m.toText =
      String.ofList ((m.cells.toList.map fun v => v.toInt.repr.toList).flatMap (· ++ ['\n'])) := by
    rw [toText, List.flatMap_map]
  rw [hrepr, Text.lines_flatMap_newline, List.map_map]
  · refine List.map_congr_left fun v _ => ?_
    exact String.ofList_toList
  · intro l hl
    obtain ⟨v, -, rfl⟩ := List.mem_map.1 hl
    constructor
    all_goals exact fun hc => absurd (Text.not_isBlank_of_mem_repr hc) (by decide)

/-! ## What a text holds -/

/-- The text has one line for each cell of the memory, and each is the number in its cell. -/
def HeldBy (m : Memory size) (text : String) : Prop :=
  (Text.lines text).map wordOfLine? = m.cells.toList.map some

theorem heldBy_toText (m : Memory size) : m.HeldBy m.toText := by
  unfold HeldBy
  rw [lines_toText, List.map_map]
  refine List.map_congr_left fun v _ => ?_
  rw [Function.comp_apply, wordOfLine?_repr]

theorem length_of_heldBy {m : Memory size} {text : String} (h : m.HeldBy text) :
    (Text.lines text).length = size := by
  have hlength := congrArg List.length h
  simpa using hlength

theorem isSome_of_heldBy {m : Memory size} {text : String} (h : m.HeldBy text) :
    ∀ line ∈ Text.lines text, (wordOfLine? line).isSome = true := by
  intro line hline
  have hmem : wordOfLine? line ∈ (Text.lines text).map wordOfLine? := List.mem_map_of_mem hline
  rw [h] at hmem
  obtain ⟨v, -, hv⟩ := List.mem_map.1 hmem
  rw [← hv]
  rfl

/-- A text without bad lines holds a memory. -/
theorem exists_heldBy {text : String} (hlength : (Text.lines text).length = size)
    (hgood : ∀ line ∈ Text.lines text, (wordOfLine? line).isSome = true) :
    ∃ m : Memory size, m.HeldBy text := by
  refine ⟨⟨⟨((Text.lines text).map fun line => (wordOfLine? line).getD 0).toArray, by
    simp [hlength]⟩⟩, ?_⟩
  show (Text.lines text).map wordOfLine? =
    ((Text.lines text).map fun line => (wordOfLine? line).getD 0).map some
  rw [List.map_map]
  refine List.map_congr_left fun line hline => ?_
  obtain ⟨v, hv⟩ := Option.isSome_iff_exists.1 (hgood line hline)
  rw [Function.comp_apply, hv]
  rfl

/-! ## The ways to take a text -/

theorem badLines_eq_nil_iff {lines : List String} :
    badLines lines = [] ↔ ∀ line ∈ lines, (wordOfLine? line).isSome = true := by
  unfold badLines
  rw [List.filterMap_eq_nil_iff]
  constructor
  · intro h line hline
    obtain ⟨i, hi⟩ := List.mem_iff_getElem?.1 hline
    have hnone := h (line, i) (List.mem_zipIdx_iff_getElem?.2 hi)
    simpa [Option.isSome_iff_ne_none] using hnone
  · rintro h ⟨line, i⟩ hmem
    exact if_pos (h line (List.fst_mem_of_mem_zipIdx hmem))

theorem exists_badNumber_of_mem_badLines {lines : List String} {e : ImageError}
    (h : e ∈ badLines lines) : ∃ n text, e = .badNumber n text := by
  obtain ⟨⟨line, i⟩, -, hsome⟩ := List.mem_filterMap.1 h
  dsimp only at hsome
  split at hsome
  · cases hsome
  · exact ⟨_, _, (Option.some_inj.1 hsome).symm⟩

theorem parse_of_heldBy {m : Memory size} {text : String} (h : m.HeldBy text) :
    parse size text = ⟨.ok m, []⟩ := by
  have hlength := length_of_heldBy h
  have hbad := badLines_eq_nil_iff.2 (isSome_of_heldBy h)
  -- The cells that are read are those of `m`, as the lines are the numbers in them.
  have hcells : ((Text.lines text).map fun line => (wordOfLine? line).getD 0) = m.cells.toList := by
    have hget := congrArg (List.map fun v : Option Word => v.getD 0) h
    simpa only [List.map_map, Function.comp_def, Option.getD_some, List.map_id'] using hget
  unfold parse
  simp only [dif_pos hlength, hbad]
  congr 2
  obtain ⟨⟨cells, hsize⟩⟩ := m
  congr 2
  exact congrArg List.toArray hcells

/-- A memory is read back from its image, and nothing is reported. -/
theorem parse_toText (m : Memory size) : parse size m.toText = ⟨.ok m, []⟩ :=
  parse_of_heldBy (heldBy_toText m)

theorem ofTextLenient_of_heldBy {m : Memory size} {text : String} (h : m.HeldBy text) :
    ofTextLenient size text = ⟨.ok m, []⟩ := by
  simp only [ofTextLenient, parse_of_heldBy h]

theorem parse_of_length_ne {text : String} (h : (Text.lines text).length ≠ size) :
    parse size text = ⟨.error ⟨.wrongLineCount size (Text.lines text).length, []⟩, []⟩ :=
  dif_neg h

theorem ofTextLenient_of_length_ne {text : String} (h : (Text.lines text).length ≠ size) :
    ofTextLenient size text = ⟨.ok (zeroed size), [.zeroedMemory size]⟩ := by
  simp only [ofTextLenient, parse_of_length_ne h, List.nil_append]

theorem parse_of_badLines {text : String} (h : (Text.lines text).length = size) {e : ImageError}
    {es : List ImageError} (hbad : badLines (Text.lines text) = e :: es) :
    parse size text = ⟨.error ⟨e, es⟩, (e :: es).map Event.refusedLine⟩ := by
  unfold parse
  simp only [dif_pos h, hbad]

/-- The errors of bad lines are never passed over. -/
theorem ofTextLenient_of_badLines {text : String} (h : (Text.lines text).length = size)
    {e : ImageError} {es : List ImageError} (hbad : badLines (Text.lines text) = e :: es) :
    ofTextLenient size text = ⟨.error e, (e :: es).map Event.refusedLine⟩ := by
  obtain ⟨n, t, rfl⟩ := exists_badNumber_of_mem_badLines (hbad ▸ List.mem_cons_self)
  simp only [ofTextLenient, parse_of_badLines h hbad]

/-- What can be the matter with a text: nothing, some of its lines, or how many there are. -/
theorem heldBy_or_badLines_or_length_ne (size : Nat) (text : String) :
    (∃ m : Memory size, m.HeldBy text) ∨
      (Text.lines text).length = size ∧ (∃ e es, badLines (Text.lines text) = e :: es) ∨
      (Text.lines text).length ≠ size := by
  by_cases hlength : (Text.lines text).length = size
  · cases hbad : badLines (Text.lines text) with
    | nil => exact .inl (exists_heldBy hlength (badLines_eq_nil_iff.1 hbad))
    | cons e es => exact .inr (.inl ⟨hlength, e, es, rfl⟩)
  · exact .inr (.inr hlength)

end Accumulator.Memory
