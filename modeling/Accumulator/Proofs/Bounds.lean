import Accumulator.Proofs.Accounting
import Accumulator.Proofs.Effects

/-!
# Where addresses can go

The program counter and the branch target depend on each other: `SPC` adds a register to the one to
get the other, and a branch copies it back. What keeps both near the program is that only an
instruction within the program is ever carried out (`Bounded.step`). `Visits` collects the machines
that a sequence of calls goes through, and `Visits.preserves` carries an invariant to all of them.
-/

namespace Accumulator

namespace Core

variable {size : Nat} {c after : Core size} {i : Instruction}

/-- Only `SPC` moves the branch target: to its own address and a register on top. -/
theorem target_of_execute (h : c.execute i = .ok after) :
    after.registers.target = c.registers.target ∨
      ∃ r, after.registers.target = c.pc + (c.registers.get r).toInt := by
  by_cases hop : i.opcode = .spc
  · obtain ⟨k, hk, htarget⟩ := target_of_spc h hop
    obtain ⟨r, -, rfl⟩ := Registers.operand?_eq_some_iff.1 hk
    exact .inr ⟨r, htarget⟩
  · exact .inl (target_of_ne_spc h hop)

/-- An instruction leaves the program counter or puts it at the branch target. -/
theorem pc_of_execute (h : c.execute i = .ok after) :
    after.pc = c.pc ∨ after.pc = c.registers.target := by
  by_cases hb : c.Branches i
  · exact .inr (pc_of_branches h hb)
  · exact .inl (pc_of_not_branches h hb)

/-! ## The bounds -/

/-- The branch target and the program counter are no further from the program than a register
reaches. -/
structure Bounded (p : Program) (c : Core size) : Prop where
  target_ge : -32768 ≤ c.registers.target
  target_le : c.registers.target ≤ p.size + 32766
  pc_ge : -32767 ≤ c.pc
  pc_le : c.pc ≤ p.size + 32767

/-- An address within the program and a register on top make a branch target in bounds. -/
theorem add_register_bounds {p : Program} {a : Int} (ha : 0 ≤ a ∧ a < p.size) (v : Word) :
    -32768 ≤ a + v.toInt ∧ a + v.toInt ≤ p.size + 32766 := by
  have hv := Word.toInt_bounds v
  simp only [Word.least, Word.greatest] at hv
  omega

namespace Bounded

variable {p : Program}

theorem of_cleared (p : Program) (memory : Memory size) :
    Bounded p { Core.cleared size with memory := memory } where
  target_ge := show (-32768 : Int) ≤ 0 by omega
  target_le := show (0 : Int) ≤ p.size + 32766 by omega
  pc_ge := show (-32767 : Int) ≤ 0 by omega
  pc_le := show (0 : Int) ≤ p.size + 32767 by omega

/-- Whatever retires within the program leaves the bounds in place. -/
theorem advance_of_retires (h : Bounded p c) (hf : c.fate p = .retires i after) :
    Bounded p after.advance := by
  have hmem := pc_mem_of_retires hf
  have he := (fate_eq_retires_iff.1 hf).2.2
  have htarget : -32768 ≤ after.registers.target ∧ after.registers.target ≤ p.size + 32766 := by
    rcases target_of_execute he with ht | ⟨r, ht⟩
    · rw [ht]
      exact ⟨h.target_ge, h.target_le⟩
    · rw [ht]
      exact add_register_bounds hmem (c.registers.get r)
  have hpc : -32767 ≤ after.pc + 1 ∧ after.pc + 1 ≤ p.size + 32767 := by
    rcases pc_of_execute he with hp | hp
    · rw [hp]
      omega
    · -- The bounds of the old target are one off those of the program counter.
      have hge := h.target_ge
      have hle := h.target_le
      rw [hp]
      omega
  exact ⟨htarget.1, htarget.2, hpc.1, hpc.2⟩

end Bounded

end Core

namespace Machine

variable {size : Nat} {p : Program} {m : Machine size}

theorem bounded_step (h : m.toCore.Bounded p) : (m.step p).machine.toCore.Bounded p := by
  rcases toCore_step p m with hcore | ⟨i, after, hf, hcore⟩
  · rw [hcore]
    exact h
  · rw [hcore]
    exact h.advance_of_retires hf

/-! ## Sequences of calls -/

/-- What can be asked of a machine: one step, or a run to its end. -/
inductive Call where
  | step
  | run
  deriving DecidableEq, Repr

/-- The machines that a sequence of calls goes through. Those in the middle of a run are reached
from its start by steps. -/
inductive Visits (p : Program) : Machine size → List Call → Machine size → Prop
  | here (m : Machine size) (calls : List Call) : Visits p m calls m
  | inRun (m : Machine size) (n : Nat) (calls : List Call) :
      Visits p m (.run :: calls) (m.restart.steps p n).machine
  | afterStep {m d : Machine size} {calls : List Call} :
      Visits p (m.step p).machine calls d → Visits p m (.step :: calls) d
  | afterRun {m d : Machine size} {calls : List Call} :
      Visits p (m.run p).machine calls d → Visits p m (.run :: calls) d

/-- What a step and a restart preserve holds wherever calls lead. -/
theorem Visits.preserves {P : Machine size → Prop} {d : Machine size} {calls : List Call}
    (h : Visits p m calls d) (step : ∀ m : Machine size, P m → P (m.step p).machine)
    (restart : ∀ m : Machine size, P m → P m.restart) (hm : P m) : P d := by
  induction h with
  | here => exact hm
  | inRun m n => exact steps_preserves p step (restart m hm) n
  | afterStep _ ih => exact ih (step _ hm)
  | afterRun _ ih => exact ih (resume_preserves p step (restart _ hm))

end Machine

end Accumulator
