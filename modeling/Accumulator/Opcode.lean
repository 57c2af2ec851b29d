import Accumulator.Word

/-!
# The sixteen opcodes

The opcode table: one row per opcode with its mnemonic, the kind of its operand and a short
description. The four bits of an opcode are its place in the table, and `ofCode_code` and
`code_ofCode` say that they name it uniquely.
-/

namespace Accumulator

inductive OperandKind where
  /-- The number of a register. -/
  | register
  /-- The number of a register that holds a shift amount. -/
  | shift
  /-- The number of a register that holds a memory address. -/
  | memory
  /-- A small signed number. -/
  | immediate
  /-- Not read at all. -/
  | control
  deriving DecidableEq, Repr

inductive Opcode where
  | sar | add | mov | nand | sll | srl | load | stor
  | sub | mlt | bslt | movi | addi | spc | b | stop
  deriving DecidableEq, Repr

namespace Opcode

structure Row where
  mnemonic : String
  operandKind : OperandKind
  description : String

/-- The opcode table. In the descriptions `ra` is the active register, `rs` the operand and `rp`
the branch target. -/
def row : Opcode → Row
  | sar => ⟨"SAR", .register, "select ra"⟩
  | add => ⟨"ADD", .register, "ra = ra + rs"⟩
  | mov => ⟨"MOV", .register, "ra = rs"⟩
  | nand => ⟨"NAND", .register, "ra = ~(ra&rs)"⟩
  | sll => ⟨"SLL", .shift, "ra = ra << rs"⟩
  | srl => ⟨"SRL", .shift, "ra = ra >> rs"⟩
  | load => ⟨"LOAD", .memory, "ra = mem[rs]"⟩
  | stor => ⟨"STOR", .memory, "mem[rs] = ra"⟩
  | sub => ⟨"SUB", .register, "ra = ra - rs"⟩
  | mlt => ⟨"MLT", .register, "ra = ra * rs"⟩
  | bslt => ⟨"BSLT", .register, "ra<rs ->PC=rp"⟩
  | movi => ⟨"MOVI", .immediate, "ra = imm"⟩
  | addi => ⟨"ADDI", .immediate, "ra = ra + imm"⟩
  | spc => ⟨"SPC", .register, "rp = PC + rs"⟩
  | b => ⟨"B", .control, "PC = rp"⟩
  | stop => ⟨"STOP", .control, "stop running"⟩

def mnemonic (op : Opcode) : String := op.row.mnemonic

def operandKind (op : Opcode) : OperandKind := op.row.operandKind

def description (op : Opcode) : String := op.row.description

def all : Vector Opcode 16 :=
  #v[sar, add, mov, nand, sll, srl, load, stor, sub, mlt, bslt, movi, addi, spc, b, stop]

/-- The four bits that name the opcode. -/
def code : Opcode → BitVec 4
  | sar => 0b0000
  | add => 0b0001
  | mov => 0b0010
  | nand => 0b0011
  | sll => 0b0100
  | srl => 0b0101
  | load => 0b0110
  | stor => 0b0111
  | sub => 0b1000
  | mlt => 0b1001
  | bslt => 0b1010
  | movi => 0b1011
  | addi => 0b1100
  | spc => 0b1101
  | b => 0b1110
  | stop => 0b1111

/-- The opcode that four bits name. -/
def ofCode (c : BitVec 4) : Opcode := all[c.toFin]

/-- The opcode with a given mnemonic, if there is one. -/
def ofMnemonic? (name : String) : Option Opcode :=
  all.toList.find? (·.mnemonic = name)

@[simp]
theorem ofCode_code (op : Opcode) : ofCode op.code = op := by
  cases op <;> rfl

@[simp]
theorem code_ofCode (c : BitVec 4) : (ofCode c).code = c := by
  revert c
  decide

@[simp]
theorem ofMnemonic?_mnemonic (op : Opcode) : ofMnemonic? op.mnemonic = some op := by
  cases op <;> decide

theorem mnemonic_injective {op op' : Opcode} (h : op.mnemonic = op'.mnemonic) : op = op' := by
  rw [← Option.some_inj, ← ofMnemonic?_mnemonic op, h, ofMnemonic?_mnemonic]

end Opcode

structure UnknownOpcode where
  number : Byte
  deriving DecidableEq, Repr

def UnknownOpcode.message (e : UnknownOpcode) : String :=
  "No discriminant in enum `Instruction` matches the value `" ++ e.number.toNat.repr ++ "`"

/-- The opcode with a given number; the numbers from 16 on have none. -/
def Opcode.ofNumber (n : Byte) : Except UnknownOpcode Opcode :=
  if n.toNat < 16 then .ok (ofCode (n.setWidth 4)) else .error ⟨n⟩

end Accumulator
