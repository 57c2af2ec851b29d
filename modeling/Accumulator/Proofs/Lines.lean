import Accumulator.Text.Blank
import Accumulator.Text.Line

/-!
# Texts cut into lines

Nothing of a text is lost when it is cut behind its newlines (`flatten_pieces`), and a text that ends
with a newline is read on its own, whatever stands behind it (`lines_append`). `Linewise` compares two
texts line by line: what is the same for each pair of lines is the same for the lines of the texts
(`Linewise.map_lines`).
-/

namespace Accumulator.Text

theorem pieces_cons {c : Char} {l piece : List Char} {rest : List (List Char)} (hc : ¬c = '\n')
    (h : pieces l = piece :: rest) : pieces (c :: l) = (c :: piece) :: rest := by
  simp only [pieces] at h ⊢
  rw [List.foldr_cons, if_neg hc, h]

theorem pieces_eq_nil {l : List Char} (h : pieces l = []) : l = [] := by
  cases l with
  | nil => rfl
  | cons c l =>
    simp only [pieces, List.foldr_cons] at h
    split at h
    · cases h
    · split at h <;> cases h

/-- The pieces of a text, put together again, are the text. -/
theorem flatten_pieces (cs : List Char) : (pieces cs).flatten = cs := by
  induction cs with
  | nil => rfl
  | cons c cs ih =>
    by_cases hc : c = '\n'
    · rw [hc, pieces_newline, List.flatten_cons, ih]
      rfl
    · cases hpieces : pieces cs with
      | nil =>
        rw [pieces_eq_nil hpieces, pieces_of_not_mem [c] (by simpa using Ne.symm hc) (by simp)]
        rfl
      | cons piece rest =>
        rw [hpieces] at ih
        rw [pieces_cons hc hpieces, List.flatten_cons, List.cons_append, ← List.flatten_cons, ih]

theorem pieces_append {l : List Char} (h : ∀ c, l.getLast? = some c → c = '\n') (cs : List Char) :
    pieces (l ++ cs) = pieces l ++ pieces cs := by
  induction l with
  | nil => rfl
  | cons c l ih =>
    by_cases hl : l = []
    · subst hl
      cases h c rfl
      rfl
    · have ih := ih fun d hd => h d (by rw [List.getLast?_cons_of_ne_nil hl, hd])
      by_cases hc : c = '\n'
      · rw [hc, List.cons_append, pieces_newline, pieces_newline, ih, List.cons_append]
      · -- The first piece goes on into `l`, which is not empty.
        obtain ⟨piece, rest, hpieces⟩ := List.exists_cons_of_ne_nil fun h => hl (pieces_eq_nil h)
        rw [hpieces, List.cons_append] at ih
        rw [List.cons_append, pieces_cons hc ih, pieces_cons hc hpieces, List.cons_append]

/-- A text that is empty or ends with a newline is read on its own, whatever stands behind it. -/
theorem lines_append {text : String} (h : ∀ c, text.toList.getLast? = some c → c = '\n')
    (rest : String) : lines (text ++ rest) = lines text ++ lines rest := by
  unfold lines
  rw [String.toList_append, pieces_append h, List.map_append]

/-- A carriage return that is dropped at the end anyway need not be taken off before. -/
theorem dropEndWhile_dropFinal {p : Char → Bool} {c : Char} (h : p c = true) (l : List Char) :
    dropEndWhile p (dropFinal c l) = dropEndWhile p l := by
  unfold dropFinal
  split
  · rename_i hlast
    obtain ⟨init, rfl⟩ := List.getLast?_eq_some_iff.1 hlast
    rw [List.dropLast_concat, dropEndWhile_append init (by simpa using h)]
  · rfl

theorem trimEnd_dropFinal_return (l : List Char) :
    trimEnd (String.ofList (dropFinal '\r' l)) = trimEnd (String.ofList l) := by
  unfold trimEnd
  rw [String.toList_ofList, String.toList_ofList, dropEndWhile_dropFinal (by decide)]

/-! ## Texts compared line by line -/

/-- Two texts with as many newlines, and what stands between the newlines is related in pairs. A
carriage return in front of a newline takes part in this. -/
inductive Linewise (R : List Char → List Char → Prop) : List Char → List Char → Prop
  | done : Linewise R [] []
  | last {l k : List Char} : '\n' ∉ l → '\n' ∉ k → l ≠ [] → k ≠ [] → R l k → Linewise R l k
  | line {l k cs ds : List Char} : '\n' ∉ l → '\n' ∉ k → R l k → Linewise R cs ds →
      Linewise R (l ++ '\n' :: cs) (k ++ '\n' :: ds)

/-- What a final carriage return is no part of, and what related lines share, is the same all along
the lines of the two texts. -/
theorem Linewise.map_lines {α : Type} {R : List Char → List Char → Prop} {f : String → α}
    {text text' : String} (h : Linewise R text.toList text'.toList)
    (hreturn : ∀ l, f (String.ofList (dropFinal '\r' l)) = f (String.ofList l))
    (hrelated : ∀ l k, R l k → f (String.ofList l) = f (String.ofList k)) :
    (lines text).map f = (lines text').map f := by
  unfold lines
  rw [List.map_map, List.map_map]
  generalize text.toList = cs at h ⊢
  generalize text'.toList = ds at h ⊢
  induction h with
  | done => rfl
  | last hl hk hl' hk' hR =>
    rw [pieces_of_not_mem _ hl hl', pieces_of_not_mem _ hk hk']
    simp only [List.map_cons, List.map_nil, Function.comp_apply, dropEnding_of_not_mem hl,
      dropEnding_of_not_mem hk, hrelated _ _ hR]
  | line hl hk hR _ ih =>
    rw [pieces_append_newline _ _ hl, pieces_append_newline _ _ hk, List.map_cons, List.map_cons, ih]
    simp only [Function.comp_apply, dropEnding_append_newline, hreturn, hrelated _ _ hR]

end Accumulator.Text
