import Accumulator.Opcode

/-!
# Instructions

An instruction is an opcode with an operand field. In a program it takes one byte: the opcode in
the high four bits and the operand in the low four. `encode_decode` says that every byte is an
instruction, `decode_encode` that writing an instruction keeps the low four bits of its operand.
An immediate operand is signed: the values from 4 on stand for numbers from -4 on.
-/

namespace Accumulator

structure Instruction where
  opcode : Opcode
  operand : Byte
  deriving DecidableEq, Repr

def leastImmediate : Int := -4

def greatestImmediate : Int := 3

/-- The number that an operand field stands for when it is read as signed, checked or not. -/
def signedOperand (field : Byte) : Int :=
  if greatestImmediate < field.toNat then field.toNat - 8 else field.toNat

/-- The value of an immediate operand, if it is in range. -/
def immediate? (field : Byte) : Option Word :=
  if leastImmediate ≤ signedOperand field ∧ signedOperand field ≤ greatestImmediate then
    Word.ofInt? (signedOperand field)
  else none

namespace Instruction

/-- The instruction as one byte. Only the low four bits of the operand are kept. -/
def encode (i : Instruction) : Byte :=
  i.opcode.code ++ i.operand.setWidth 4

/-- The instruction that a byte stands for. -/
def decode (w : Byte) : Instruction where
  opcode := .ofCode (w.extractLsb' 4 4)
  operand := (w.setWidth 4).setWidth 8

/-- The instruction as it stands in listings. The operand is left out where it is not read and
signed where it is an immediate. -/
def render (i : Instruction) : String :=
  match i.opcode.operandKind with
  | .control => i.opcode.mnemonic
  | .immediate => i.opcode.mnemonic ++ " " ++ (signedOperand i.operand).repr
  | .register | .shift | .memory => i.opcode.mnemonic ++ " " ++ i.operand.toNat.repr

@[simp]
theorem encode_decode (w : Byte) : (decode w).encode = w := by
  simp only [encode, decode, Opcode.code_ofCode]
  revert w
  decide

theorem opcode_decode_encode (i : Instruction) : (decode i.encode).opcode = i.opcode := by
  have h : i.encode.extractLsb' 4 4 = i.opcode.code := by
    simp only [encode]
    generalize i.opcode.code = c
    generalize i.operand.setWidth 4 = f
    revert c f
    decide
  simp only [decode, h, Opcode.ofCode_code]

theorem operand_decode_encode (i : Instruction) :
    (decode i.encode).operand = (i.operand.setWidth 4).setWidth 8 := by
  have h : i.encode.setWidth 4 = i.operand.setWidth 4 := by
    simp only [encode]
    generalize i.opcode.code = c
    generalize i.operand.setWidth 4 = f
    revert c f
    decide
  simp only [decode, h]

theorem decode_encode {i : Instruction} (h : i.operand.toNat < 16) : decode i.encode = i := by
  have ho : (i.operand.setWidth 4).setWidth 8 = i.operand := by
    apply BitVec.eq_of_toNat_eq
    simp only [BitVec.toNat_setWidth]
    omega
  obtain ⟨op, field⟩ := i
  rw [show decode (encode ⟨op, field⟩) = ⟨(decode (encode ⟨op, field⟩)).opcode,
    (decode (encode ⟨op, field⟩)).operand⟩ from rfl, opcode_decode_encode,
    operand_decode_encode, ho]

/-- Every operand field of a program fits in four bits. -/
theorem operand_decode_lt (w : Byte) : (decode w).operand.toNat < 16 := by
  simp only [decode, BitVec.toNat_setWidth]
  omega

end Instruction

/-- A field is a valid immediate exactly if it is at most 11. -/
theorem immediate?_isSome_iff (field : Byte) :
    (immediate? field).isSome = true ↔ field.toNat ≤ 11 := by
  revert field
  decide

end Accumulator
