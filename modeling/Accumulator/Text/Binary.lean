/-!
# Binary numbers

A word of `w` bits is written with exactly `w` binary digits, the most significant first.
`bits?_eq_some_iff` says that a text is read as a word exactly if it is what the word is
written as.
-/

namespace Accumulator.Text

def bitDigit (b : Bool) : Char :=
  if b then '1' else '0'

def isBitDigit (c : Char) : Bool :=
  c = '0' || c = '1'

/-- The digits of a word, the most significant first. -/
def digits {w : Nat} (v : BitVec w) : List Char :=
  (List.range w).map fun i => bitDigit (v.getMsbD i)

/-- The word written by exactly `w` binary digits. -/
def bits? (w : Nat) (cs : List Char) : Option (BitVec w) :=
  if h : cs.length = w ∧ cs.all isBitDigit = true then
    some ((BitVec.ofBoolListBE (cs.map (· = '1'))).cast (by rw [List.length_map, h.1]))
  else none

@[simp]
theorem length_digits {w : Nat} (v : BitVec w) : (digits v).length = w := by
  simp [digits]

theorem isBitDigit_bitDigit (b : Bool) : isBitDigit (bitDigit b) = true := by
  cases b <;> decide

theorem all_isBitDigit_digits {w : Nat} (v : BitVec w) : (digits v).all isBitDigit = true := by
  rw [List.all_eq_true]
  intro c hc
  obtain ⟨i, -, rfl⟩ := List.mem_map.1 hc
  exact isBitDigit_bitDigit _

theorem bitDigit_eq_one (b : Bool) : decide (bitDigit b = '1') = b := by
  cases b <;> decide

theorem bitDigit_of_isBitDigit {c : Char} (h : isBitDigit c = true) :
    bitDigit (decide (c = '1')) = c := by
  simp only [isBitDigit, Bool.or_eq_true, decide_eq_true_eq] at h
  rcases h with rfl | rfl <;> decide

theorem bits?_digits {w : Nat} (v : BitVec w) : bits? w (digits v) = some v := by
  unfold bits?
  rw [dif_pos ⟨length_digits v, all_isBitDigit_digits v⟩, Option.some_inj]
  refine BitVec.eq_of_getMsbD_eq fun i hi => ?_
  rw [BitVec.getMsbD_cast, BitVec.getMsbD_ofBoolListBE]
  simp [digits, hi, bitDigit_eq_one]

theorem digits_of_bits? {w : Nat} {cs : List Char} {v : BitVec w} (h : bits? w cs = some v) :
    digits v = cs := by
  unfold bits? at h
  split at h
  · rename_i hcs
    cases h
    refine List.ext_getElem (by rw [length_digits, hcs.1]) fun i _ hi => ?_
    have hc := List.all_eq_true.1 hcs.2 _ (List.getElem_mem hi)
    simp only [digits, List.getElem_map, List.getElem_range, BitVec.getMsbD_cast,
      BitVec.getMsbD_ofBoolListBE, List.getD_eq_getElem?_getD, List.getElem?_map,
      List.getElem?_eq_getElem hi, Option.map_some, Option.getD_some]
    exact bitDigit_of_isBitDigit hc
  · cases h

theorem bits?_eq_some_iff {w : Nat} {cs : List Char} {v : BitVec w} :
    bits? w cs = some v ↔ cs = digits v :=
  ⟨fun h => (digits_of_bits? h).symm, fun h => h ▸ bits?_digits v⟩

end Accumulator.Text
