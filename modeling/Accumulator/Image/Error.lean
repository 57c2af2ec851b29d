/-!
# Errors of images

An image is a text that holds a program or a memory, one word per line. Its errors name the line,
counted from 1.
-/

namespace Accumulator

inductive ImageError where
  /-- A line of a memory image is not a 16-bit integer; `text` is the line without blanks. -/
  | badNumber (line : Nat) (text : String)
  /-- A line of a program image is not an 8-bit binary word. -/
  | badInstruction (line : Nat) (text : String)
  /-- A memory image does not have one line per cell. -/
  | wrongLineCount (expected found : Nat)
  deriving DecidableEq, Repr

namespace ImageError

/-- The number of the line; for a wrong number of lines, how many there are. -/
def line : ImageError → Nat
  | badNumber line _ => line
  | badInstruction line _ => line
  | wrongLineCount _ found => found

def reason : ImageError → String
  | badNumber _ _ => "failed to parse number"
  | badInstruction _ _ => "failed to parse instruction word"
  | wrongLineCount expected found =>
    "size is not " ++ expected.repr ++ " (found " ++ found.repr ++ " lines)"

/-- What the line holds instead of a word, where a line is to blame. -/
def detail : ImageError → String
  | badNumber _ text => " - `" ++ text ++ "` is not a 16-bit integer"
  | badInstruction _ text => " - `" ++ text ++ "` is not an 8-bit binary word"
  | wrongLineCount _ _ => ""

def message (e : ImageError) : String :=
  "error [ln: " ++ e.line.repr ++ "]: " ++ e.reason ++ e.detail

end ImageError

end Accumulator
