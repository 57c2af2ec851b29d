import Accumulator.Proofs.Effects
import Accumulator.Proofs.History

/-!
# What memory recalls

A cell holds what the most recent `STOR` to its address has stored, and a `LOAD` gets just that.
Whether a retirement stores to a cell is told from the registers that it found, so addresses may be
computed in any way and name the same cell in many. An instruction that fails retires nothing, and
leaves no trace in memory.
-/

namespace Accumulator

variable {size : Nat}

/-- The retirement is one of a `STOR` to the cell. -/
def Retirement.storesTo (a : Fin size) (r : Retirement size) : Bool :=
  r.isOf .stor && r.before.registers.operand? r.instruction.operand = some (a : Int)

theorem Retirement.storesTo_iff {a : Fin size} {r : Retirement size} :
    r.storesTo a = true ↔
      r.instruction.opcode = .stor ∧
        r.before.registers.operand? r.instruction.operand = some (a : Int) := by
  simp [storesTo]

/-- What a cell holds after the retirements `rs`: the value in the active register when the latest
of them that stores to the cell did so, or else what the cell held before. -/
def recalled (initial : Memory size) (rs : List (Retirement size)) (a : Fin size) : Word :=
  match latest? (·.storesTo a) rs with
  | some s => s.before.registers.accumulator
  | none => initial.read a

namespace Retirement.Proper

variable {r : Retirement size} {a : Fin size}

theorem read_of_storesTo (h : r.Proper) (hr : r.storesTo a) :
    r.after.memory.read a = r.before.registers.accumulator := by
  obtain ⟨after, he, hafter⟩ := h
  rw [storesTo_iff] at hr
  obtain ⟨b, hb, hmemory⟩ := Core.memory_of_stor he hr.1
  have hcell : b = a := by
    rw [hr.2, Option.some_inj] at hb
    omega
  rw [hafter]
  show after.memory.read a = _
  rw [hmemory, Memory.read_write, if_pos hcell]

theorem read_of_not_storesTo (h : r.Proper) (hr : ¬r.storesTo a) :
    r.after.memory.read a = r.before.memory.read a := by
  obtain ⟨after, he, hafter⟩ := h
  rw [hafter]
  show after.memory.read a = _
  by_cases hop : r.instruction.opcode = .stor
  · obtain ⟨b, hb, hmemory⟩ := Core.memory_of_stor he hop
    -- A store to another cell: the operand would give the cell away.
    have hcell : b ≠ a := by
      rintro rfl
      exact hr (storesTo_iff.2 ⟨hop, hb⟩)
    rw [hmemory, Memory.read_write, if_neg hcell]
  · rw [Core.memory_of_ne_stor he hop]

theorem accumulator_of_load (h : r.Proper) (hop : r.instruction.opcode = .load) :
    ∃ a : Fin size, r.before.registers.operand? r.instruction.operand = some (a : Int) ∧
      r.after.registers.accumulator = r.before.memory.read a := by
  obtain ⟨after, he, hafter⟩ := h
  rw [hafter]
  exact (Core.accumulator_of_load he hop :)

end Retirement.Proper

namespace Core.Path

variable {p : Program} {c d : Core size} {rs : List (Retirement size)}

theorem read_eq_recalled (h : Path p c rs d) (a : Fin size) :
    d.memory.read a = recalled c.memory rs a := by
  rw [h.eq_latest (fun e => e.memory.read a) (·.storesTo a)
    fun _ hr hkind => hr.read_of_not_storesTo hkind]
  unfold recalled
  cases hlatest : latest? (·.storesTo a) rs with
  | none => rfl
  | some s =>
    have hstores := kind_of_latest? hlatest
    exact (h.proper_of_mem (mem_of_latest? hlatest)).read_of_storesTo hstores

theorem memory_of_forall_ne_stor (h : Path p c rs d)
    (hnone : ∀ r ∈ rs, r.instruction.opcode ≠ .stor) : d.memory = c.memory := by
  apply Memory.ext_read
  intro a
  have hlatest : latest? (·.storesTo a) rs = none := by
    rw [latest?_eq_none_iff]
    intro r hr hstores
    exact hnone r hr (Retirement.storesTo_iff.1 hstores).1
  rw [h.read_eq_recalled, recalled, hlatest]

end Core.Path

namespace Machine

/-- A `LOAD` leaves in the active register what the latest `STOR` to its address before it in the
run has stored there, or what the cell held when the run began. At the end of the run, however it
ends, every cell holds what the latest `STOR` to it has stored; a run without a `STOR` leaves the
memory as it was. -/
theorem memory_recalls_latest_store (p : Program) (m : Machine size) :
    (∀ earlier r later, m.history p = earlier ++ r :: later → r.instruction.opcode = .load →
      ∃ a : Fin size, r.before.registers.operand? r.instruction.operand = some (a : Int) ∧
        r.after.registers.accumulator = recalled m.memory earlier a) ∧
    (∀ a, (m.run p).machine.memory.read a = recalled m.memory (m.history p) a) ∧
    ((∀ r ∈ m.history p, r.instruction.opcode ≠ .stor) →
      (m.run p).machine.memory = m.memory) := by
  have hpath := path_history p m
  refine ⟨?_, hpath.read_eq_recalled, hpath.memory_of_forall_ne_stor⟩
  intro earlier r later h hop
  rw [h] at hpath
  obtain ⟨a, ha, hload⟩ := (hpath.proper_of_mem (by simp)).accumulator_of_load hop
  refine ⟨a, ha, ?_⟩
  rw [hload]
  exact hpath.before.read_eq_recalled a

/-- The register that holds the address is the one that is stored, and the run ends with a store
that fails. -/
theorem memory_recalls_store_of_own_address :
    let p := Program.ofWords [0b10110001, 0b01110000, 0b00000001, 0b01100000, 0b01111000]
    let m := fresh ⟨false, 5⟩ (Memory.zeroed 4)
    let load : Retirement 4 :=
      ⟨⟨.load, 0⟩, (m.steps p 3).machine.toCore, (m.steps p 4).machine.toCore⟩
    m.history p = m.retirements p 3 ++ load :: [] ∧ load.instruction.opcode = .load ∧
      (∃ a : Fin 4, load.before.registers.operand? load.instruction.operand = some (a : Int) ∧
        load.after.registers.accumulator = recalled m.memory (m.retirements p 3) a) ∧
      (m.run p).machine.memory.read 1 = recalled m.memory (m.history p) 1 ∧
      (m.run p).machine.memory.read 1 = 1 := by
  intro p m load
  have hhistory : m.history p = m.retirements p 3 ++ load :: [] := by decide +kernel
  obtain ⟨hload, hfinal, -⟩ := memory_recalls_latest_store p m
  exact ⟨hhistory, rfl, hload _ load [] hhistory rfl, hfinal 1, by decide +kernel⟩

end Machine

end Accumulator
