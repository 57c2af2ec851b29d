/-!
# Lines of a text

A line ends with a newline, or with a carriage return and a newline; the last line may lack its
ending. `lines` gives the lines without their endings. `pieces_append_newline` says that the
text behind a newline is read on its own, whatever stands before it.
-/

namespace Accumulator.Text

/-- The text cut behind every newline: each piece but perhaps the last ends with its newline. -/
def pieces (cs : List Char) : List (List Char) :=
  cs.foldr (fun c rest =>
    if c = '\n' then [c] :: rest
    else match rest with
      | [] => [[c]]
      | p :: ps => (c :: p) :: ps) []

/-- The characters without a final `c`. -/
def dropFinal (c : Char) (cs : List Char) : List Char :=
  if cs.getLast? = some c then cs.dropLast else cs

/-- A piece without its line ending. A carriage return is part of the ending only right before
the newline. -/
def dropEnding (cs : List Char) : List Char :=
  if cs.getLast? = some '\n' then dropFinal '\r' cs.dropLast else cs

def lines (text : String) : List String :=
  (pieces text.toList).map fun p => String.ofList (dropEnding p)

@[simp]
theorem pieces_nil : pieces [] = [] := rfl

theorem pieces_newline (cs : List Char) : pieces ('\n' :: cs) = ['\n'] :: pieces cs := rfl

theorem pieces_append_newline (l cs : List Char) (h : '\n' ∉ l) :
    pieces (l ++ '\n' :: cs) = (l ++ ['\n']) :: pieces cs := by
  induction l with
  | nil => rfl
  | cons c l ih =>
    rw [List.mem_cons, not_or] at h
    have hc : ¬c = '\n' := fun e => h.1 e.symm
    have ih := ih h.2
    simp only [pieces] at ih ⊢
    simp only [List.cons_append, List.foldr_cons, if_neg hc, ih]

theorem pieces_of_not_mem (l : List Char) (h : '\n' ∉ l) (hl : l ≠ []) : pieces l = [l] := by
  induction l with
  | nil => exact absurd rfl hl
  | cons c l ih =>
    rw [List.mem_cons, not_or] at h
    have hc : ¬c = '\n' := fun e => h.1 e.symm
    cases l with
    | nil => simp [pieces, hc]
    | cons d l =>
      have ih := ih h.2 (List.cons_ne_nil d l)
      simp only [pieces] at ih ⊢
      rw [List.foldr_cons, if_neg hc, ih]

theorem dropEnding_append_newline (l : List Char) :
    dropEnding (l ++ ['\n']) = dropFinal '\r' l := by
  simp [dropEnding]

theorem dropEnding_of_not_mem {l : List Char} (h : '\n' ∉ l) : dropEnding l = l := by
  unfold dropEnding
  rw [if_neg fun hl => h (List.mem_of_getLast? hl)]

end Accumulator.Text
