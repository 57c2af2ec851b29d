import Accumulator.Word
import Mathlib.Data.Int.Bitwise
import Mathlib.Data.Int.ModEq

/-!
# Words and exact arithmetic

What the operations on words compute, as numbers. Sums, differences and products are the exact ones
modulo 2 to the 16, and so are shifts to the left, by any amount. The complement of a conjunction
and the shift to the right are exact themselves: they never leave the range of words.
-/

namespace Accumulator.Word

/-- The number is the value of a word. -/
def Fits (z : Int) : Prop := least ≤ z ∧ z ≤ greatest

instance (z : Int) : Decidable (Fits z) := inferInstanceAs (Decidable (_ ∧ _))

/-- The value of the word is the only one of a word that is congruent to `z`, modulo 2 to the 16. -/
structure Represents (w : Word) (z : Int) : Prop where
  fits : Fits w.toInt
  congruent : w.toInt ≡ z [ZMOD 2 ^ 16]
  unique : ∀ x, Fits x → x ≡ z [ZMOD 2 ^ 16] → x = w.toInt

theorem represents_of_bmod {w : Word} {z : Int} (h : w.toInt = z.bmod (2 ^ 16)) :
    w.Represents z := by
  have hfits : Fits w.toInt := toInt_bounds w
  have hcongruent : w.toInt ≡ z [ZMOD 2 ^ 16] := by
    rw [h]
    exact Int.bmod_emod
  refine ⟨hfits, hcongruent, fun x hx hxz => ?_⟩
  -- Two numbers in the range of words are less than the modulus apart.
  have hsame : x ≡ w.toInt [ZMOD 2 ^ 16] := hxz.trans hcongruent.symm
  simp only [Int.ModEq, Fits, least, greatest] at hsame hx hfits
  omega

theorem represents_add (a b : Word) : (a + b).Represents (a.toInt + b.toInt) :=
  represents_of_bmod (BitVec.toInt_add a b)

theorem represents_sub (a b : Word) : (a - b).Represents (a.toInt - b.toInt) :=
  represents_of_bmod BitVec.toInt_sub

theorem represents_mul (a b : Word) : (a * b).Represents (a.toInt * b.toInt) :=
  represents_of_bmod (BitVec.toInt_mul a b)

theorem bmod_of_fits {z : Int} (h : Fits z) : z.bmod (2 ^ 16) = z := by
  simp only [Fits, least, greatest] at h
  rw [Int.bmod_eq_of_le] <;> omega

theorem toInt_add_of_fits {a b : Word} (h : Fits (a.toInt + b.toInt)) :
    (a + b).toInt = a.toInt + b.toInt := by
  rw [BitVec.toInt_add, bmod_of_fits h]

theorem toInt_sub_of_fits {a b : Word} (h : Fits (a.toInt - b.toInt)) :
    (a - b).toInt = a.toInt - b.toInt := by
  rw [BitVec.toInt_sub, bmod_of_fits h]

theorem toInt_mul_of_fits {a b : Word} (h : Fits (a.toInt * b.toInt)) :
    (a * b).toInt = a.toInt * b.toInt := by
  rw [BitVec.toInt_mul, bmod_of_fits h]

/-! ## Shifts -/

theorem toInt_shiftLeft (a : Word) (k : Nat) :
    (a <<< k).toInt = (a.toInt * 2 ^ k).bmod (2 ^ 16) := by
  rw [BitVec.toInt_shiftLeft, BitVec.toInt_eq_toNat_bmod, Int.bmod_mul_bmod, Nat.shiftLeft_eq]
  push_cast
  rfl

theorem represents_shiftLeft (a : Word) (k : Nat) : Represents (a <<< k) (a.toInt * 2 ^ k) :=
  represents_of_bmod (toInt_shiftLeft a k)

theorem toInt_shiftLeft_of_fits {a : Word} {k : Nat} (h : Fits (a.toInt * 2 ^ k)) :
    (a <<< k).toInt = a.toInt * 2 ^ k := by
  rw [toInt_shiftLeft, bmod_of_fits h]

theorem toInt_sshiftRight (a : Word) (k : Nat) :
    (a.sshiftRight k).toInt = a.toInt.fdiv (2 ^ k) := by
  have hpow : (0 : Int) ≤ 2 ^ k := Int.pow_nonneg (by decide)
  rw [BitVec.toInt_sshiftRight, Int.shiftRight_eq_div_pow, Int.fdiv_eq_ediv_of_nonneg _ hpow,
    Int.natCast_pow]
  rfl

/-! ## Bits -/

theorem toInt_not (a : Word) : (~~~a).toInt = -1 - a.toInt := by
  have ha := a.isLt
  simp only [BitVec.toInt_eq_toNat_cond, BitVec.toNat_not]
  split <;> split <;> omega

theorem toInt_of_nonneg {a : Word} (h : 0 ≤ a.toInt) : a.toInt = a.toNat :=
  BitVec.toInt_eq_toNat_of_lt (BitVec.toInt_pos_iff.1 h)

/-- A negative word is the complement of a number that is not negative. -/
theorem toInt_of_neg {a : Word} (h : a.toInt < 0) : a.toInt = Int.negSucc (~~~a).toNat := by
  have hcompl := toInt_not a
  rw [toInt_of_nonneg (a := ~~~a) (by omega)] at hcompl
  rw [Int.negSucc_eq]
  omega

theorem toInt_and_neg_iff {a b : Word} : (a &&& b).toInt < 0 ↔ a.toInt < 0 ∧ b.toInt < 0 := by
  have h := BitVec.msb_and (x := a) (y := b)
  simp only [BitVec.msb_eq_toInt] at h
  rw [← Bool.decide_and, decide_eq_decide] at h
  exact h

theorem ldiff_toNat_not (a b : Word) : Nat.ldiff a.toNat (~~~b).toNat = (a &&& b).toNat := by
  apply Nat.eq_of_testBit_eq
  intro k
  rw [Nat.testBit_ldiff]
  simp only [BitVec.testBit_toNat, BitVec.getLsbD_and, BitVec.getLsbD_not]
  -- Where the complement has no bits any more, `a` has none either.
  by_cases hk : k < 16
  · simp [hk]
  · simp [hk, BitVec.getLsbD_of_ge a k (Nat.not_lt.1 hk)]

theorem toInt_and (a b : Word) : (a &&& b).toInt = Int.land a.toInt b.toInt := by
  have hsign := toInt_and_neg_iff (a := a) (b := b)
  by_cases ha : a.toInt < 0 <;> by_cases hb : b.toInt < 0
  · rw [toInt_of_neg (hsign.2 ⟨ha, hb⟩), toInt_of_neg ha, toInt_of_neg hb, BitVec.not_and,
      BitVec.toNat_or]
    rfl
  · rw [toInt_of_nonneg (a := a &&& b) (by omega), toInt_of_neg ha, toInt_of_nonneg (by omega),
      BitVec.and_comm, ← ldiff_toNat_not]
    rfl
  · rw [toInt_of_nonneg (a := a &&& b) (by omega), toInt_of_nonneg (a := a) (by omega),
      toInt_of_neg hb, ← ldiff_toNat_not]
    rfl
  · rw [toInt_of_nonneg (a := a &&& b) (by omega), toInt_of_nonneg (a := a) (by omega),
      toInt_of_nonneg (a := b) (by omega), BitVec.toNat_and]
    rfl

theorem toInt_nand (a b : Word) : (~~~(a &&& b)).toInt = -1 - Int.land a.toInt b.toInt := by
  rw [toInt_not, toInt_and]

end Accumulator.Word
