/-!
# Words and bytes

Registers and memory cells hold 16-bit words, read as signed numbers in two's complement.
Instructions are written in 8-bit words. `Word.ofInt?` finds the word of a number, and
`Word.ofInt?_eq_some_iff` says that it is the only one with that value. Words are shifted by amounts
below their width only; `shiftLeft_eq` and `shiftRight_eq` say that what stands in for a shift by
more is what the shift comes to.
-/

namespace Accumulator

/-- The contents of a register or a memory cell; `BitVec.toInt` reads it as a signed number. -/
abbrev Word := BitVec 16

abbrev Byte := BitVec 8

namespace Word

def least : Int := -32768

def greatest : Int := 32767

/-- The word whose signed value is `z`, if `z` is in range. -/
def ofInt? (z : Int) : Option Word :=
  if least ≤ z ∧ z ≤ greatest then some (BitVec.ofInt 16 z) else none

/-- The word shifted to the left, if the amount is below the width. -/
def shiftLeft? (w : Word) (amount : Nat) : Option Word :=
  if amount < 16 then some (w <<< amount) else none

/-- The word shifted to the right with copies of its sign moved in, if the amount is below the
width. -/
def shiftRight? (w : Word) (amount : Nat) : Option Word :=
  if amount < 16 then some (w.sshiftRight amount) else none

def shiftLeft (w : Word) (amount : Nat) : Word := (w.shiftLeft? amount).getD 0

/-- The word shifted to the right. If nothing of it is left, there are only copies of its sign. -/
def shiftRight (w : Word) (amount : Nat) : Word :=
  (w.shiftRight? amount).getD (if w.toInt < 0 then -1 else 0)

theorem toInt_bounds (w : Word) : least ≤ w.toInt ∧ w.toInt ≤ greatest := by
  have h₁ := BitVec.le_toInt w
  have h₂ := BitVec.toInt_lt (x := w)
  simp only [least, greatest]
  omega

theorem toInt_ofInt {z : Int} (h : least ≤ z ∧ z ≤ greatest) :
    (BitVec.ofInt 16 z).toInt = z := by
  simp only [least, greatest] at h
  rw [BitVec.toInt_ofInt, Int.bmod_eq_of_le] <;> omega

theorem ofInt?_eq_some_iff {z : Int} {w : Word} : ofInt? z = some w ↔ w.toInt = z := by
  unfold ofInt?
  constructor
  · intro h
    split at h
    · rename_i hz
      cases h
      exact toInt_ofInt hz
    · cases h
  · intro h
    subst h
    rw [if_pos (toInt_bounds w), BitVec.ofInt_toInt]

theorem ofInt?_toInt (w : Word) : ofInt? w.toInt = some w :=
  ofInt?_eq_some_iff.2 rfl

/-! ## Shifts -/

theorem shiftLeft_eq (w : Word) (amount : Nat) : w.shiftLeft amount = w <<< amount := by
  unfold shiftLeft shiftLeft?
  split
  · rfl
  · rw [BitVec.shiftLeft_eq_zero (by omega)]
    rfl

/-- A shift to the right by the width or more leaves the sign in every bit. -/
theorem sshiftRight_of_le {amount : Nat} (h : 16 ≤ amount) (w : Word) :
    w.sshiftRight amount = if w.toInt < 0 then -1 else 0 := by
  apply BitVec.eq_of_getLsbD_eq
  intro k hk
  have hbeyond : ¬amount + k < 16 := by omega
  rw [BitVec.getLsbD_sshiftRight, if_neg hbeyond, BitVec.msb_eq_toInt, decide_eq_false (by omega)]
  split
  · rename_i hneg
    rw [decide_eq_true hneg, show (-1 : Word) = BitVec.allOnes 16 from rfl, BitVec.getLsbD_allOnes,
      decide_eq_true hk]
    rfl
  · rename_i hneg
    rw [decide_eq_false hneg, BitVec.ofNat_eq_ofNat, BitVec.getLsbD_zero]
    rfl

theorem shiftRight_eq (w : Word) (amount : Nat) : w.shiftRight amount = w.sshiftRight amount := by
  unfold shiftRight shiftRight?
  split
  · rfl
  · rw [sshiftRight_of_le (by omega)]
    rfl

end Word

end Accumulator
