import Accumulator.Outcome
import Accumulator.Text.Binary

/-!
# Programs

A program is a sequence of slots, addressed from zero. A slot holds an instruction word or, if it
was read from a line that is no such word, that line: it does no harm unless it is fetched.
-/

namespace Accumulator

inductive Slot where
  | encoded (word : Byte)
  | malformed (line : String)
  deriving DecidableEq, Repr

namespace Slot

/-- The opcode of the slot in binary digits; of a malformed line, up to four characters. -/
def opcodePart : Slot → String
  | encoded word => String.ofList (Text.digits (word.extractLsb' 4 4))
  | malformed line => String.ofList (line.toList.take 4)

/-- Tells whether the slot begins with four binary digits. -/
def opcodeReadable (s : Slot) : Bool :=
  (Text.bits? 4 s.opcodePart.toList).isSome

/-- The instruction in the slot, or the fault of fetching a malformed line. -/
def decode (s : Slot) : Except Fault Instruction :=
  match s with
  | encoded word => .ok (.decode word)
  | malformed line =>
    .error (if s.opcodeReadable then .unreadableWord line else .unreadableOpcode s.opcodePart)

@[simp]
theorem decode_encoded (word : Byte) : (encoded word).decode = .ok (.decode word) := rfl

end Slot

structure Program where
  slots : Array Slot
  deriving DecidableEq, Repr

namespace Program

def empty : Program := ⟨#[]⟩

def ofWords (words : List Byte) : Program := ⟨(words.map Slot.encoded).toArray⟩

def size (p : Program) : Nat := p.slots.size

/-- The slot at an address; there is none at a negative address or behind the last slot. -/
def fetch (p : Program) (address : Int) : Option Slot :=
  if address < 0 then none else p.slots[address.toNat]?

def instruction? (p : Program) (address : Int) : Option (Except Fault Instruction) :=
  (p.fetch address).map Slot.decode

theorem fetch_eq_none_iff {p : Program} {address : Int} :
    p.fetch address = none ↔ address < 0 ∨ (p.size : Int) ≤ address := by
  unfold fetch size
  split
  · simp only [true_iff]
    omega
  · rw [Array.getElem?_eq_none_iff]
    omega

theorem fetch_natCast (p : Program) (n : Nat) : p.fetch n = p.slots[n]? := by
  unfold fetch
  rw [if_neg (by omega), Int.toNat_natCast]

end Program

end Accumulator
