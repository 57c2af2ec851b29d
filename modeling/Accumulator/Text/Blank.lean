/-!
# Blank characters

A character is blank if it has the Unicode property `White_Space`: 25 characters, six of them in
ASCII. `trim` takes them off both ends of a text and `trimEnd` off its end.
-/

namespace Accumulator.Text

/-- The code points with the property `White_Space`, as ranges with both ends included. -/
def blankRanges : List (Nat × Nat) :=
  [(0x09, 0x0D), (0x20, 0x20), (0x85, 0x85), (0xA0, 0xA0), (0x1680, 0x1680), (0x2000, 0x200A),
    (0x2028, 0x2029), (0x202F, 0x202F), (0x205F, 0x205F), (0x3000, 0x3000)]

def isBlank (c : Char) : Bool :=
  blankRanges.any fun (first, last) => first ≤ c.toNat && c.toNat ≤ last

/-- The list without the elements at its end for which `p` holds. -/
def dropEndWhile {α : Type} (p : α → Bool) (l : List α) : List α :=
  (l.reverse.dropWhile p).reverse

/-- The text without the blank characters at its end. -/
def trimEnd (text : String) : String :=
  String.ofList (dropEndWhile isBlank text.toList)

def trim (text : String) : String :=
  String.ofList (dropEndWhile isBlank (text.toList.dropWhile isBlank))

@[simp]
theorem dropEndWhile_nil {α : Type} (p : α → Bool) : dropEndWhile p [] = [] := rfl

/-- What is dropped at the end does not count. -/
theorem dropEndWhile_append {α : Type} {p : α → Bool} (l : List α) {dropped : List α}
    (h : ∀ x ∈ dropped, p x = true) : dropEndWhile p (l ++ dropped) = dropEndWhile p l := by
  unfold dropEndWhile
  rw [List.reverse_append, List.dropWhile_append_of_pos]
  intro x hx
  exact h x (List.mem_reverse.1 hx)

theorem dropEndWhile_concat_of_neg {α : Type} {p : α → Bool} (l : List α) {x : α}
    (h : ¬p x = true) : dropEndWhile p (l ++ [x]) = l ++ [x] := by
  simp [dropEndWhile, h]

end Accumulator.Text
