import Accumulator.Directory
import Accumulator.Image.Memory
import Accumulator.Image.Program

/-!
# Image files

Images are kept in files of UTF-8 text. A file is given by its path, for messages, and by its
bytes, or by nothing if it cannot be read.
-/

namespace Accumulator

inductive FileError where
  | unreadableProgram (path : String)
  | unreadableMemory (path : String)
  | invalidMemory (path : String) (cause : ImageError)
  | unwritableMemory (path : String)
  deriving DecidableEq, Repr

namespace FileError

def message : FileError → String
  | unreadableProgram path => "Failed to read program image " ++ path
  | unreadableMemory path => "Failed to read memory image " ++ path
  | invalidMemory path _ => "Invalid memory image " ++ path
  | unwritableMemory path => "Failed to write memory image " ++ path

/-- The error in the text of the file that is behind the error. -/
def cause? : FileError → Option ImageError
  | invalidMemory _ cause => some cause
  | _ => none

end FileError

/-- The text of a file, if it could be read and is UTF-8. -/
def textOfFile? (bytes : Option ByteArray) : Option String :=
  bytes.bind String.fromUTF8?

def LoadedProgram.ofFile (path : String) (bytes : Option ByteArray) :
    Logged (Except FileError LoadedProgram) :=
  match textOfFile? bytes with
  | none => ⟨.error (.unreadableProgram path), []⟩
  | some text => ⟨.ok (parse text).value, (parse text).log⟩

/-- The memory in a file, or a memory of zeros if the file has a wrong number of lines. -/
def Memory.ofFile (size : Nat) (path : String) (bytes : Option ByteArray) :
    Logged (Except FileError (Memory size)) :=
  match textOfFile? bytes with
  | none => ⟨.error (.unreadableMemory path), []⟩
  | some text =>
    ⟨(ofTextLenient size text).value.mapError (.invalidMemory path),
      (ofTextLenient size text).log⟩

def Memory.save {size : Nat} (m : Memory size) (d : Directory) (path : String) :
    Except FileError Directory :=
  match d.write path m.toText with
  | some d => .ok d
  | none => .error (.unwritableMemory path)

end Accumulator
