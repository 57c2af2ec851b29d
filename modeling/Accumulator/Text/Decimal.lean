/-!
# Decimal numbers

Numbers are written with `Nat.repr` and `Int.repr`: the fewest digits, and a minus sign for
negative ones. They are read more freely: a sign of either kind and leading zeros are allowed.
`integer?_repr` says that what is written is read back.
-/

namespace Accumulator.Text

/-- The number written by one or more ASCII digits. -/
def natural? (cs : List Char) : Option Nat :=
  if cs ≠ [] ∧ cs.all Char.isDigit = true then some (Nat.ofDigitChars 10 cs 0) else none

/-- The number written by an optional sign and one or more ASCII digits. -/
def integer? : List Char → Option Int
  | [] => none
  | c :: cs =>
    if c = '-' then (natural? cs).map fun n : Nat => -(n : Int)
    else if c = '+' then (natural? cs).map Int.ofNat
    else (natural? (c :: cs)).map Int.ofNat

/-- A number set right in a column of the given width, which a longer number exceeds. -/
def column (width n : Nat) : String :=
  String.ofList (n.repr.toList.leftpad width ' ')

theorem toList_repr (n : Nat) : n.repr.toList = Nat.toDigits 10 n := by
  rw [Nat.repr_eq_ofList_toDigits, String.toList_ofList]

theorem natural?_toDigits (n : Nat) : natural? (Nat.toDigits 10 n) = some n := by
  unfold natural?
  rw [if_pos, Nat.ofDigitChars_ten_toDigits]
  refine ⟨Nat.toDigits_ne_nil, List.all_eq_true.2 fun c hc => ?_⟩
  exact Nat.isDigit_of_mem_toDigits (by decide) (by decide) hc

theorem integer?_repr (z : Int) : integer? z.repr.toList = some z := by
  rw [Int.repr_eq_if]
  split
  · rename_i hz
    rw [toList_repr]
    have hd := natural?_toDigits z.toNat
    cases hcs : Nat.toDigits 10 z.toNat with
    | nil => exact absurd hcs Nat.toDigits_ne_nil
    | cons c cs =>
      have hc : c.isDigit = true :=
        Nat.isDigit_of_mem_toDigits (by decide) (by decide) (hcs ▸ List.mem_cons_self)
      have hm : ¬c = '-' := fun e => by rw [e] at hc; exact absurd hc (by decide)
      have hp : ¬c = '+' := fun e => by rw [e] at hc; exact absurd hc (by decide)
      rw [hcs] at hd
      simp only [integer?, if_neg hm, if_neg hp, hd, Option.map_some]
      exact congrArg some (Int.toNat_of_nonneg hz)
  · rename_i hz
    rw [String.toList_append, toList_repr]
    show (natural? (Nat.toDigits 10 (-z).toNat)).map (fun n : Nat => -(n : Int)) = some z
    rw [natural?_toDigits, Option.map_some]
    congr 1
    omega

theorem toList_repr_inj {z z' : Int} : z.repr.toList = z'.repr.toList ↔ z = z' := by
  constructor
  · intro h
    rw [← Option.some_inj, ← integer?_repr, h, integer?_repr]
  · rintro rfl
    rfl

end Accumulator.Text
