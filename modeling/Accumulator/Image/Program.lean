import Accumulator.Log
import Accumulator.Program
import Accumulator.Text.Blank
import Accumulator.Text.Line

/-!
# Program images

A program image has one instruction word per line, in eight binary digits. Blank characters at
the end of a line do not count, and neither do blank lines at the end of the text. A last line
`debug` is not part of the program: it asks for trace lines. A line that begins with the opcode
of `STOP` stops the program whatever follows. Any other line is kept as malformed and reported.
-/

namespace Accumulator

structure LoadedProgram where
  program : Program
  tracing : Bool
  deriving DecidableEq, Repr

def Slot.ofLine (line : String) : Slot :=
  match Text.bits? 8 line.toList with
  | some word => encoded word
  | none =>
    if line.toList.take 4 = ['1', '1', '1', '1'] then encoded (Instruction.encode ⟨.stop, 0⟩)
    else malformed line

/-- The malformed lines of a program, with the numbers that they have in its image. -/
def Program.malformedLines (p : Program) : List ImageError :=
  p.slots.toList.zipIdx.filterMap fun
    | (.encoded _, _) => none
    | (.malformed line, i) => some (.badInstruction (i + 1) line)

namespace LoadedProgram

/-- The last line of an image that asks for trace lines. -/
def tracingMark : String := "debug"

/-- The lines of an image without blanks at their ends and without blank lines at the end. -/
def significantLines (text : String) : List String :=
  Text.dropEndWhile (· = "") ((Text.lines text).map Text.trimEnd)

/-- The lines of an image that hold its program. -/
def programLines (text : String) : List String :=
  if (significantLines text).getLast? = some tracingMark then (significantLines text).dropLast
  else significantLines text

/-- The image in a text. No text is refused; malformed lines are reported. -/
def parse (text : String) : Logged LoadedProgram :=
  let program : Program := ⟨((programLines text).map Slot.ofLine).toArray⟩
  { value :=
      { program := program
        tracing := (significantLines text).getLast? = some tracingMark }
    log := program.malformedLines.map Event.malformedLine }

end LoadedProgram

end Accumulator
