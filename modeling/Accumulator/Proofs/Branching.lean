import Accumulator.Proofs.Effects
import Accumulator.Proofs.History

/-!
# Where branches land

A branch goes to the address behind the branch target, and the target was staged by the most recent
`SPC`, however long ago: nothing in between moves it (`Core.Path.target_of_latest`). So a run that
has not retired an `SPC` yet branches to address 1.
-/

namespace Accumulator

variable {size : Nat}

theorem Retirement.Proper.target_of_spc {r : Retirement size} (h : r.Proper)
    (hop : r.instruction.opcode = .spc) :
    ∃ k, r.before.registers.operand? r.instruction.operand = some k ∧
      r.after.registers.target = r.before.pc + k := by
  obtain ⟨after, he, hafter⟩ := h
  rw [hafter]
  exact (Core.target_of_spc he hop :)

theorem Retirement.Proper.target_of_ne_spc {r : Retirement size} (h : r.Proper)
    (hop : r.instruction.opcode ≠ .spc) :
    r.after.registers.target = r.before.registers.target := by
  obtain ⟨after, he, hafter⟩ := h
  rw [hafter]
  exact (Core.target_of_ne_spc he hop :)

namespace Core.Path

variable {p : Program} {c d : Core size} {rs : List (Retirement size)}

theorem target_eq (h : Path p c rs d) :
    d.registers.target =
      match latest? (·.isOf .spc) rs with
      | some s => s.after.registers.target
      | none => c.registers.target :=
  h.eq_latest (fun e => e.registers.target) (·.isOf .spc) fun _ hr hop =>
    hr.target_of_ne_spc fun h => hop (Retirement.isOf_iff.2 h)

/-- The branch target is the one that the latest `SPC` has staged. -/
theorem target_of_latest (h : Path p c rs d) {s : Retirement size}
    (hs : latest? (·.isOf .spc) rs = some s) :
    ∃ k, s.before.registers.operand? s.instruction.operand = some k ∧
      d.registers.target = s.before.pc + k := by
  have hspc : s.instruction.opcode = .spc := by simpa using kind_of_latest? hs
  rw [h.target_eq, hs]
  exact (h.proper_of_mem (mem_of_latest? hs)).target_of_spc hspc

theorem target_of_forall_ne_spc (h : Path p c rs d)
    (hnone : ∀ r ∈ rs, r.instruction.opcode ≠ .spc) :
    d.registers.target = c.registers.target := by
  have hlatest : latest? (·.isOf .spc) rs = none := by
    simpa [latest?_eq_none_iff] using hnone
  rw [h.target_eq, hlatest]

end Core.Path

namespace Machine

/-- The next fetch is at the address behind an instruction, unless that is a branch that is taken.
Then it is at the address behind the sum that the latest `SPC` of the run has formed, of its own
address and its operand, or at address 1 if there is no `SPC` before. Only `SPC` moves the branch
target. -/
theorem branches_land_behind_latest_target (p : Program) (config : Config) (memory : Memory size)
    {earlier later : List (Retirement size)} {r : Retirement size}
    (h : (fresh config memory).history p = earlier ++ r :: later) :
    let next := ((fresh config memory).steps p (earlier.length + 1)).machine.pc
    (¬r.before.Branches r.instruction → next = r.before.pc + 1) ∧
    (r.before.Branches r.instruction →
      ((∀ s ∈ earlier, s.instruction.opcode ≠ .spc) → next = 1) ∧
      ∀ s, latest? (·.isOf .spc) earlier = some s →
        ∃ k, s.before.registers.operand? s.instruction.operand = some k ∧
          next = s.before.pc + k + 1) ∧
    (r.instruction.opcode ≠ .spc → r.after.registers.target = r.before.registers.target) := by
  intro next
  have hpath := h ▸ path_history p (fresh config memory)
  have hproper : r.Proper := hpath.proper_of_mem (by simp)
  have ⟨after, he, hafter⟩ := hproper
  have hnext : next = after.pc + 1 := by
    show Core.pc _ = _
    rw [toCore_steps_of_retirements (m := fresh config memory) h, hafter]
    rfl
  refine ⟨?_, ?_, hproper.target_of_ne_spc⟩
  · intro hb
    rw [hnext, Core.pc_of_not_branches he hb]
  · intro hb
    rw [hnext, Core.pc_of_branches he hb]
    constructor
    · intro hnone
      rw [hpath.before.target_of_forall_ne_spc hnone]
      rfl
    · intro s hs
      obtain ⟨k, hk, htarget⟩ := hpath.before.target_of_latest hs
      exact ⟨k, hk, by rw [htarget]⟩

/-- A loop in which the register that held the offset is overwritten before the branch. -/
theorem branch_lands_behind_overwritten_offset :
    let p := Program.ofWords [0b10110110, 0b11010000, 0b10110011, 0b11100000]
    let m := fresh ⟨false, 3⟩ (Memory.zeroed 2)
    let spc : Retirement 2 :=
      ⟨⟨.spc, 0⟩, (m.steps p 1).machine.toCore, (m.steps p 2).machine.toCore⟩
    let b : Retirement 2 := ⟨⟨.b, 0⟩, (m.steps p 3).machine.toCore, (m.steps p 4).machine.toCore⟩
    m.history p = m.retirements p 3 ++ b :: [] ∧ b.before.Branches b.instruction ∧
      latest? (·.isOf .spc) (m.retirements p 3) = some spc ∧
      ∃ k, spc.before.registers.operand? 0 = some k ∧
        (m.steps p 4).machine.pc = spc.before.pc + k + 1 := by
  intro p m spc b
  have hhistory : m.history p = m.retirements p 3 ++ b :: [] := by decide +kernel
  have hlatest : latest? (·.isOf .spc) (m.retirements p 3) = some spc := by decide +kernel
  obtain ⟨-, hbranch, -⟩ :=
    branches_land_behind_latest_target p ⟨false, 3⟩ (Memory.zeroed 2) hhistory
  obtain ⟨k, hk, hnext⟩ := (hbranch (.inl rfl)).2 spc hlatest
  refine ⟨hhistory, .inl rfl, hlatest, k, hk, ?_⟩
  have hlength : (m.retirements p 3).length + 1 = 4 := by decide +kernel
  rw [hlength] at hnext
  exact hnext

end Machine

end Accumulator
