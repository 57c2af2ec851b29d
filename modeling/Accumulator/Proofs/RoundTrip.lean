import Accumulator.Proofs.Lines
import Accumulator.Proofs.MemoryImage

/-!
# Memory images there and back

A memory is read back from its image, by each of the readers. The other way round, a text that is
accepted is the image of its memory only if it is written as images are: each line is a numeral with
nothing to spare and ends with a bare newline. `Text.Canonical` says what such a numeral is, digit by
digit; `Text.canonical_iff` says that these are the texts that numbers are written as.
-/

namespace Accumulator

namespace Text

/-! ## Numerals with nothing to spare -/

/-- A decimal numeral without a plus sign, without leading zeros and without blanks, and not a zero
with a minus sign. -/
inductive Canonical : List Char → Prop
  | zero : Canonical ['0']
  | positive {c : Char} {cs : List Char} :
      (∀ d ∈ c :: cs, d.isDigit = true) → c ≠ '0' → Canonical (c :: cs)
  | negative {c : Char} {cs : List Char} :
      (∀ d ∈ c :: cs, d.isDigit = true) → c ≠ '0' → Canonical ('-' :: c :: cs)

/-- The ten digits by their code points. -/
theorem exists_digit_of_isDigit {c : Char} (h : c.isDigit = true) :
    ∃ n : Fin 10, c = Char.ofNat (48 + n) := by
  have hbounds : 48 ≤ c.toNat ∧ c.toNat ≤ 57 := by
    simpa [Char.isDigit, UInt32.le_iff_toNat_le] using h
  refine ⟨⟨c.toNat - 48, by omega⟩, ?_⟩
  rw [show 48 + (c.toNat - 48) = c.toNat by omega, Char.ofNat_toNat]

theorem toDigits_of_isDigit {c : Char} (h : c.isDigit = true) :
    c.toNat - '0'.toNat < 10 ∧ Nat.toDigits 10 (c.toNat - '0'.toNat) = [c] := by
  obtain ⟨n, rfl⟩ := exists_digit_of_isDigit h
  revert n
  decide

theorem value_pos_of_isDigit {c : Char} (h : c.isDigit = true) (hlead : c ≠ '0') :
    0 < c.toNat - '0'.toNat := by
  obtain ⟨n, rfl⟩ := exists_digit_of_isDigit h
  revert n
  decide

/-- Digits read behind a number that is not zero are written behind it. -/
theorem toDigits_ofDigitChars_of_pos {cs : List Char} {n : Nat} (hn : 0 < n)
    (h : ∀ d ∈ cs, d.isDigit = true) :
    Nat.toDigits 10 (Nat.ofDigitChars 10 cs n) = Nat.toDigits 10 n ++ cs := by
  induction cs generalizing n with
  | nil => simp
  | cons c cs ih =>
    obtain ⟨hlt, hc⟩ := toDigits_of_isDigit (h c List.mem_cons_self)
    rw [Nat.ofDigitChars_cons, ih (by omega) fun d hd => h d (List.mem_cons_of_mem _ hd),
      ← Nat.toDigits_append_toDigits (by decide) hn hlt, hc]
    simp

/-- Digits without a leading zero are what their value is written as. -/
theorem toDigits_ofDigitChars {c : Char} {cs : List Char}
    (h : ∀ d ∈ c :: cs, d.isDigit = true) (hlead : c ≠ '0') :
    Nat.toDigits 10 (Nat.ofDigitChars 10 (c :: cs) 0) = c :: cs := by
  have hc : c.isDigit = true := h c List.mem_cons_self
  have hpos := value_pos_of_isDigit hc hlead
  rw [Nat.ofDigitChars_cons, Nat.mul_zero, Nat.zero_add,
    toDigits_ofDigitChars_of_pos hpos fun d hd => h d (List.mem_cons_of_mem _ hd),
    (toDigits_of_isDigit hc).2]
  rfl

theorem ofDigitChars_pos {c : Char} {cs : List Char} (h : ∀ d ∈ c :: cs, d.isDigit = true)
    (hlead : c ≠ '0') : 0 < Nat.ofDigitChars 10 (c :: cs) 0 := by
  rcases Nat.eq_zero_or_pos (Nat.ofDigitChars 10 (c :: cs) 0) with hzero | hpos
  · have hdigits := toDigits_ofDigitChars h hlead
    rw [hzero] at hdigits
    cases hdigits
    exact absurd rfl hlead
  · exact hpos

/-- A number that is not zero is written without a leading zero. -/
theorem exists_toDigits_of_pos {n : Nat} (hn : 0 < n) :
    ∃ c cs, Nat.toDigits 10 n = c :: cs ∧ c ≠ '0' := by
  induction n using Nat.strongRecOn with
  | ind n ih =>
    by_cases hlt : n < 10
    · refine ⟨n.digitChar, [], Nat.toDigits_of_lt_base hlt, ?_⟩
      have hall : ∀ k : Fin 10, 0 < k.val → k.val.digitChar ≠ '0' := by decide
      exact hall ⟨n, hlt⟩ hn
    · obtain ⟨c, cs, hcs, hc⟩ := ih (n / 10) (by omega) (by omega)
      refine ⟨c, cs ++ [(n % 10).digitChar], ?_, hc⟩
      rw [Nat.toDigits_of_base_le (by decide) (by omega), hcs]
      rfl

theorem isDigit_of_mem_toDigits {n : Nat} {c : Char} (h : c ∈ Nat.toDigits 10 n) :
    c.isDigit = true :=
  Nat.isDigit_of_mem_toDigits (by decide) (by decide) h

theorem toList_repr_natCast (n : Nat) : (n : Int).repr.toList = Nat.toDigits 10 n := by
  rw [Int.repr_eq_if, if_pos (Int.natCast_nonneg n), Int.toNat_natCast, toList_repr]

theorem toList_repr_neg {n : Nat} (hn : 0 < n) :
    (-(n : Int)).repr.toList = '-' :: Nat.toDigits 10 n := by
  rw [Int.repr_eq_if, if_neg (by omega), Int.neg_neg, Int.toNat_natCast, String.toList_append,
    toList_repr]
  rfl

/-- The numerals with nothing to spare are what numbers are written as. -/
theorem canonical_iff {l : List Char} : Canonical l ↔ ∃ z : Int, l = z.repr.toList := by
  constructor
  · intro h
    cases h with
    | zero => exact ⟨0, rfl⟩
    | @positive c cs hdigits hlead =>
      refine ⟨Nat.ofDigitChars 10 (c :: cs) 0, ?_⟩
      rw [toList_repr_natCast, toDigits_ofDigitChars hdigits hlead]
    | @negative c cs hdigits hlead =>
      refine ⟨-(Nat.ofDigitChars 10 (c :: cs) 0 : Nat), ?_⟩
      rw [toList_repr_neg (ofDigitChars_pos hdigits hlead), toDigits_ofDigitChars hdigits hlead]
  · rintro ⟨z, rfl⟩
    rcases Int.lt_or_le z 0 with hneg | hnonneg
    · obtain ⟨n, rfl⟩ : ∃ n : Nat, z = -(n : Int) := ⟨(-z).toNat, by omega⟩
      have hn : 0 < n := by omega
      obtain ⟨c, cs, hcs, hc⟩ := exists_toDigits_of_pos hn
      rw [toList_repr_neg hn, hcs]
      exact .negative (fun d hd => isDigit_of_mem_toDigits (hcs ▸ hd)) hc
    · obtain ⟨n, rfl⟩ := Int.eq_ofNat_of_zero_le hnonneg
      rw [toList_repr_natCast]
      by_cases hn : n = 0
      · rw [hn]
        exact .zero
      · obtain ⟨c, cs, hcs, hc⟩ := exists_toDigits_of_pos (show 0 < n by omega)
        rw [hcs]
        exact .positive (fun d hd => isDigit_of_mem_toDigits (hcs ▸ hd)) hc

theorem newline_not_mem_repr (z : Int) : '\n' ∉ z.repr.toList :=
  fun h => absurd (not_isBlank_of_mem_repr h) (by decide)

theorem dropEnding_repr (z : Int) : dropEnding (z.repr.toList ++ ['\n']) = z.repr.toList := by
  rw [dropEnding_append_newline, dropFinal_of_not_mem]
  exact fun h => absurd (not_isBlank_of_mem_repr h) (by decide)

end Text

namespace Memory

variable {size : Nat} {m : Memory size} {text : String}

/-! ## Accepted texts -/

instance (m : Memory size) (text : String) : Decidable (m.HeldBy text) :=
  inferInstanceAs (Decidable (_ = _))

/-- The texts that are accepted as a memory are those that hold it. -/
theorem value_parse_eq_ok_iff : (parse size text).value = .ok m ↔ m.HeldBy text := by
  constructor
  · intro h
    rcases heldBy_or_badLines_or_length_ne size text with ⟨m', hm'⟩ | ⟨hlength, e, es, hbad⟩ | hne
    · rw [parse_of_heldBy hm'] at h
      cases h
      exact hm'
    · rw [parse_of_badLines hlength hbad] at h
      cases h
    · rw [parse_of_length_ne hne] at h
      cases h
  · intro h
    rw [parse_of_heldBy h]

theorem ofText_of_heldBy (h : m.HeldBy text) : ofText size text = ⟨.ok m, []⟩ := by
  simp only [ofText, parse_of_heldBy h]
  rfl

theorem wordOfLine?_repr_eq (z : Int) : wordOfLine? z.repr = Word.ofInt? z := by
  unfold wordOfLine?
  rw [Text.trim_of_forall_not_isBlank fun c => Text.not_isBlank_of_mem_repr, Text.integer?_repr,
    Option.bind_some]

/-- Of the lines that stand for a word, one is a numeral with nothing to spare. -/
theorem canonical_iff_of_word {line : String} {v : Word} (h : wordOfLine? line = some v) :
    Text.Canonical line.toList ↔ line = v.toInt.repr := by
  constructor
  · intro hline
    obtain ⟨z, hz⟩ := Text.canonical_iff.1 hline
    obtain rfl : line = z.repr := String.toList_inj.1 hz
    rw [wordOfLine?_repr_eq] at h
    rw [Word.ofInt?_eq_some_iff.1 h]
  · intro hline
    exact Text.canonical_iff.2 ⟨v.toInt, congrArg String.toList hline⟩

/-! ## Canonical images -/

/-- Each line of the text is a numeral with nothing to spare, and a newline alone ends it. -/
def Canonical (text : String) : Prop :=
  ∀ piece ∈ Text.pieces text.toList, ∃ l, Text.Canonical l ∧ piece = l ++ ['\n']

theorem pieces_toText (m : Memory size) :
    Text.pieces m.toText.toList = m.cells.toList.map fun v => v.toInt.repr.toList ++ ['\n'] := by
  have hflat : m.toText.toList =
      (m.cells.toList.map fun v => v.toInt.repr.toList).flatMap (· ++ ['\n']) := by
    rw [toText, String.toList_ofList, List.flatMap_map]
  rw [hflat, Text.pieces_flatMap_newline, List.map_map]
  · rfl
  · intro l hl
    obtain ⟨v, -, rfl⟩ := List.mem_map.1 hl
    exact Text.newline_not_mem_repr v.toInt

theorem canonical_toText (m : Memory size) : Canonical m.toText := by
  intro piece hpiece
  rw [pieces_toText] at hpiece
  obtain ⟨v, -, rfl⟩ := List.mem_map.1 hpiece
  exact ⟨v.toInt.repr.toList, Text.canonical_iff.2 ⟨v.toInt, rfl⟩, rfl⟩

/-- A piece of a canonical image is written for the word that its line stands for. -/
theorem piece_eq_of_canonical (h : m.HeldBy text) (hcanonical : Canonical text)
    {piece : List Char} (hpiece : piece ∈ Text.pieces text.toList) :
    piece = ((wordOfLine? (String.ofList (Text.dropEnding piece))).getD 0).toInt.repr.toList ++
      ['\n'] := by
  have hsome := isSome_of_heldBy h _ (List.mem_map_of_mem hpiece)
  obtain ⟨l, hl, rfl⟩ := hcanonical piece hpiece
  obtain ⟨z, rfl⟩ := Text.canonical_iff.1 hl
  rw [Text.dropEnding_repr, String.ofList_toList, wordOfLine?_repr_eq] at hsome ⊢
  obtain ⟨v, hv⟩ := Option.isSome_iff_exists.1 hsome
  rw [hv, Option.getD_some, Word.ofInt?_eq_some_iff.1 hv]

/-- A text that holds a memory is the image of that memory exactly if it is canonical. -/
theorem toText_eq_iff (h : m.HeldBy text) : m.toText = text ↔ Canonical text := by
  constructor
  · rintro rfl
    exact canonical_toText m
  · intro hcanonical
    let write : Option Word → List Char := fun v => (v.getD 0).toInt.repr.toList ++ ['\n']
    have hpieces : Text.pieces m.toText.toList = Text.pieces text.toList := calc
      Text.pieces m.toText.toList = (m.cells.toList.map some).map write := by
        rw [pieces_toText, List.map_map]
        rfl
      _ = ((Text.lines text).map wordOfLine?).map write := by rw [h]
      _ = (Text.pieces text.toList).map
          fun p => write (wordOfLine? (String.ofList (Text.dropEnding p))) := by
        rw [Text.lines, List.map_map, List.map_map]
        rfl
      _ = (Text.pieces text.toList).map id :=
        List.map_congr_left fun p hp => (piece_eq_of_canonical h hcanonical hp).symm
      _ = Text.pieces text.toList := List.map_id _
    rw [← String.toList_inj, ← Text.flatten_pieces m.toText.toList, hpieces, Text.flatten_pieces]

/-- Every reader takes the image of a memory for that memory, and reports nothing. A text that is
accepted as a memory can be replaced by the image of the memory, and is that image exactly if it is
canonical: each line is the numeral that the word it stands for is written as, with a newline behind
it. -/
theorem images_round_trip (size : Nat) :
    (∀ m : Memory size,
      parse size m.toText = ⟨.ok m, []⟩ ∧ ofText size m.toText = ⟨.ok m, []⟩ ∧
        ofTextLenient size m.toText = ⟨.ok m, []⟩) ∧
    (∀ (text : String) (m : Memory size), (parse size text).value = .ok m →
      (parse size m.toText).value = .ok m ∧ (m.toText = text ↔ Canonical text)) ∧
    ∀ (line : String) (v : Word), wordOfLine? line = some v →
      (Text.Canonical line.toList ↔ line = v.toInt.repr) := by
  refine ⟨fun m => ?_, fun text m h => ?_, fun line v => canonical_iff_of_word⟩
  · have hheld := heldBy_toText m
    exact ⟨parse_of_heldBy hheld, ofText_of_heldBy hheld, ofTextLenient_of_heldBy hheld⟩
  · rw [parse_toText]
    exact ⟨rfl, toText_eq_iff (value_parse_eq_ok_iff.1 h)⟩

/-- A sign, zeros, blanks and a carriage return are read over and not written again. -/
theorem images_round_trip_of_spare_characters :
    let text := " -32768\n+007\r\n"
    let m : Memory 2 := ⟨#v[-32768, 7]⟩
    (parse 2 text).value = .ok m ∧ (parse 2 m.toText).value = .ok m ∧
      m.toText = "-32768\n7\n" ∧ ¬Canonical text ∧ Canonical "-32768\n7\n" ∧
      wordOfLine? "+007\r" = some 7 ∧ ¬Text.Canonical "+007\r".toList := by
  intro text m
  have hparse : (parse 2 text).value = .ok m := value_parse_eq_ok_iff.2 (by decide +kernel)
  have hparse' : (parse 2 "-32768\n7\n").value = .ok m :=
    value_parse_eq_ok_iff.2 (by decide +kernel)
  have himage : m.toText = "-32768\n7\n" := by decide +kernel
  have hline : wordOfLine? "+007\r" = some 7 := by decide +kernel
  obtain ⟨-, htexts, hlines⟩ := images_round_trip 2
  obtain ⟨hagain, hiff⟩ := htexts text m hparse
  refine ⟨hparse, hagain, himage, ?_, (htexts _ m hparse').2.1 himage, hline, ?_⟩
  · rw [← hiff]
    decide +kernel
  · rw [hlines _ 7 hline]
    decide +kernel

end Memory

end Accumulator
