import Accumulator.Log
import Accumulator.Memory
import Accumulator.Text.Blank
import Accumulator.Text.Line

/-!
# Memory images

A memory image has one line per cell, each with a decimal integer that may have a sign, leading
zeros and blanks around it. It is written with the fewest digits. A text with a wrong number of
lines has just that error; otherwise every line that is no 16-bit integer is one.
-/

namespace Accumulator

structure ImageErrors where
  first : ImageError
  others : List ImageError
  deriving DecidableEq, Repr

def ImageErrors.toList (e : ImageErrors) : List ImageError := e.first :: e.others

namespace Memory

variable {size : Nat}

/-- The word that a line of a memory image stands for. -/
def wordOfLine? (line : String) : Option Word :=
  (Text.integer? (Text.trim line).toList).bind Word.ofInt?

def badLines (lines : List String) : List ImageError :=
  lines.zipIdx.filterMap fun (line, i) =>
    if (wordOfLine? line).isSome then none else some (.badNumber (i + 1) (Text.trim line))

/-- The memory in a text, or all its errors. Bad numbers are reported as they are met. -/
def parse (size : Nat) (text : String) : Logged (Except ImageErrors (Memory size)) :=
  let lines := Text.lines text
  if h : lines.length = size then
    match badLines lines with
    | [] =>
      ⟨.ok ⟨⟨(lines.map fun line => (wordOfLine? line).getD 0).toArray, by simp [h]⟩⟩, []⟩
    | e :: es => ⟨.error ⟨e, es⟩, (e :: es).map Event.refusedLine⟩
  else ⟨.error ⟨.wrongLineCount size lines.length, []⟩, []⟩

/-- The memory in a text, or its first error. -/
def ofText (size : Nat) (text : String) : Logged (Except ImageError (Memory size)) :=
  let r := parse size text
  ⟨r.value.mapError ImageErrors.first, r.log⟩

/-- The memory in a text, or a memory of zeros if the text has a wrong number of lines. A bad
number is still an error. -/
def ofTextLenient (size : Nat) (text : String) : Logged (Except ImageError (Memory size)) :=
  let r := parse size text
  match r.value with
  | .ok m => ⟨.ok m, r.log⟩
  | .error e =>
    match e.first with
    | .wrongLineCount expected _ => ⟨.ok (zeroed size), r.log ++ [.zeroedMemory expected]⟩
    | first => ⟨.error first, r.log⟩

def toText (m : Memory size) : String :=
  String.ofList (m.cells.toList.flatMap fun v => v.toInt.repr.toList ++ ['\n'])

/-- The report of the cells that do not hold zero. -/
def listing (m : Memory size) : Log :=
  m.nonzero.map fun (i, v) => .cell i v

end Memory

end Accumulator
