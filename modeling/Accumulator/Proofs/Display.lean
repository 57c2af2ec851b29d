import Accumulator.Log

/-!
# What is printed

The texts of the log, written out field by field and apart from the functions that make them. An
instruction shows its mnemonic and the number that its operand stands for; the registers show their values as
signed numbers, the number of the active one and the branch target; a fault shows what it is about.
-/

namespace Accumulator

/-- The log as it is printed: the level and the text of each event. -/
def Log.lines (log : Log) : List (Level × String) := log.map fun e => (e.level, e.message)

theorem Log.lines_append (log₁ log₂ : Log) :
    Log.lines (log₁ ++ log₂) = Log.lines log₁ ++ Log.lines log₂ :=
  List.map_append

theorem signedOperand_eq (field : Byte) :
    signedOperand field = if field.toNat ≤ 3 then (field.toNat : Int) else field.toNat - 8 := by
  unfold signedOperand greatestImmediate
  split <;> split <;> omega

namespace Instruction

/-- The number that stands behind the mnemonic, if there is one. An immediate is shown as a number from
-4 on, other operands as they are. -/
def shownOperand (i : Instruction) : Option Int :=
  match i.opcode with
  | .b | .stop => none
  | .movi | .addi =>
    some (if i.operand.toNat ≤ 3 then (i.operand.toNat : Int) else i.operand.toNat - 8)
  | _ => some i.operand.toNat

def shown (i : Instruction) : String :=
  match i.shownOperand with
  | none => i.opcode.mnemonic
  | some z => i.opcode.mnemonic ++ " " ++ z.repr

theorem render_eq (i : Instruction) : i.render = i.shown := by
  obtain ⟨op, field⟩ := i
  cases op with
  | movi | addi =>
    simp only [render, shown, shownOperand, ← signedOperand_eq]
    rfl
  | _ => rfl

end Instruction

theorem Registers.toList_general (r : Registers) :
    r.general.toList = (List.finRange 8).map r.get := by
  apply List.ext_getElem
  · simp
  · intro i _ _
    rw [Vector.getElem_toList, List.getElem_map, List.getElem_finRange]
    rfl

/-- The values of the registers from register 0 on, the number of the active one and the branch
target. -/
def Registers.shown (r : Registers) : String :=
  "reg. file = [" ++ ", ".intercalate ((List.finRange 8).map fun i => (r.get i).toInt.repr) ++
    "]  Ra = " ++ r.active.val.repr ++ ", Rp = " ++ r.target.repr

theorem Registers.render_eq (r : Registers) : r.render = r.shown := by
  unfold render shown
  rw [toList_general, List.map_map]
  rfl

/-- What is told of a fault. A refused operand is told as it is, also where it stands for a negative
number. -/
def Fault.shown : Fault → String
  | unreadableOpcode opcode => "instruction '" ++ opcode ++ "' not recognized"
  | unreadableWord line => "malformed instruction word '" ++ line ++ "'"
  | invalidOperand i =>
    "operand out of range for '" ++ i.opcode.mnemonic ++ " " ++ i.operand.toNat.repr ++ "'"
  | limitExceeded limit => "instruction count limit of " ++ limit.repr ++ " exceeded"

theorem Fault.message_eq (f : Fault) : f.message = f.shown := by
  cases f <;> rfl

end Accumulator
