import Accumulator.Proofs.Branching
import Accumulator.Proofs.Recall
import Accumulator.Proofs.Record
import Accumulator.Proofs.Refusal

/-!
# What a run leaves alone

Each part of the core has its own instructions, and what retires changes no other part
(`Retirement.Framed`). Over a whole run, the active register is the one that the latest `SAR` has chosen
(`Core.Path.active_of_latest`). As the active register is the only one to be assigned to, a register that
is neither active at the beginning nor ever chosen keeps its value, whatever the run computes.
-/

namespace Accumulator

variable {size : Nat}

/-- The retirement changes only what is its instruction's to change. -/
structure Retirement.Framed (r : Retirement size) : Prop where
  general : ∀ j, j ≠ r.before.registers.active →
    r.after.registers.get j = r.before.registers.get j
  active : r.instruction.opcode ≠ .sar → r.after.registers.active = r.before.registers.active
  target : r.instruction.opcode ≠ .spc → r.after.registers.target = r.before.registers.target
  /-- A cell changes only if a `STOR` retires and the register that its operand names holds the
  address of the cell. -/
  memory : ∀ a, ¬r.storesTo a → r.after.memory.read a = r.before.memory.read a
  pc : ¬r.before.Branches r.instruction → r.after.pc = r.before.pc + 1

namespace Retirement.Proper

variable {r : Retirement size}

theorem active_of_sar (h : r.Proper) (hop : r.instruction.opcode = .sar) :
    r.instruction.operand.toNat = r.after.registers.active := by
  obtain ⟨after, he, hafter⟩ := h
  rw [hafter]
  exact (Core.active_of_sar he hop :)

theorem framed (h : r.Proper) : r.Framed := by
  have ⟨after, he, hafter⟩ := h
  refine ⟨fun j hj => ?_, fun hop => ?_, fun hop => h.target_of_ne_spc hop,
    fun _ ha => h.read_of_not_storesTo ha, fun hb => ?_⟩
  all_goals rw [hafter]
  · exact (Core.get_of_ne_active he hj :)
  · exact (Core.active_of_ne_sar he hop :)
  · show after.pc + 1 = _
    rw [Core.pc_of_not_branches he hb]

end Retirement.Proper

namespace Core

/-- What the registers of the core `d` owe to the retirements `rs` that lead to it from `c`. -/
structure Framed (c : Core size) (rs : List (Retirement size)) (d : Core size) : Prop where
  active_of_latest : ∀ s, latest? (·.isOf .sar) rs = some s →
    s.instruction.operand.toNat = d.registers.active
  active_of_forall_ne_sar : (∀ s ∈ rs, s.instruction.opcode ≠ .sar) →
    d.registers.active = c.registers.active
  /-- A register that is neither active at the beginning nor chosen by a `SAR` keeps its value. -/
  general : ∀ j, j ≠ c.registers.active →
    (∀ s ∈ rs, s.instruction.opcode = .sar → s.instruction.operand.toNat ≠ j) →
    d.registers.get j = c.registers.get j

namespace Path

variable {p : Program} {c d : Core size} {rs : List (Retirement size)}

theorem active_eq (h : Path p c rs d) :
    d.registers.active =
      match latest? (·.isOf .sar) rs with
      | some s => s.after.registers.active
      | none => c.registers.active :=
  h.eq_latest (fun e => e.registers.active) (·.isOf .sar) fun _ hr hop =>
    hr.framed.active fun h => hop (Retirement.isOf_iff.2 h)

theorem active_of_latest (h : Path p c rs d) {s : Retirement size}
    (hs : latest? (·.isOf .sar) rs = some s) :
    s.instruction.operand.toNat = d.registers.active := by
  have hsar : s.instruction.opcode = .sar := by simpa using kind_of_latest? hs
  rw [h.active_eq, hs]
  exact (h.proper_of_mem (mem_of_latest? hs)).active_of_sar hsar

theorem active_of_forall_ne_sar (h : Path p c rs d)
    (hnone : ∀ s ∈ rs, s.instruction.opcode ≠ .sar) : d.registers.active = c.registers.active := by
  have hlatest : latest? (·.isOf .sar) rs = none := by
    simpa [latest?_eq_none_iff] using hnone
  rw [h.active_eq, hlatest]

/-- A register that is never chosen is not active in front of any retirement, so none assigns to it. -/
theorem get_of_forall_ne (h : Path p c rs d) {j : Fin 8} (hj : j ≠ c.registers.active)
    (hnever : ∀ s ∈ rs, s.instruction.opcode = .sar → s.instruction.operand.toNat ≠ j) :
    d.registers.get j = c.registers.get j := by
  induction h with
  | nil => rfl
  | @cons c after d i rs hf _ ih =>
    have hproper : (⟨i, c, after.advance⟩ : Retirement size).Proper :=
      ⟨after, (fate_eq_retires_iff.1 hf).2.2, rfl⟩
    have hnext : j ≠ after.advance.registers.active := by
      intro hactive
      by_cases hop : i.opcode = .sar
      · have hoperand := hproper.active_of_sar hop
        exact hnever _ List.mem_cons_self hop (hoperand.trans (congrArg Fin.val hactive.symm))
      · exact hj (hactive.trans (hproper.framed.active hop))
    rw [ih hnext fun s hs => hnever s (List.mem_cons_of_mem _ hs)]
    exact hproper.framed.general j hj

theorem framed (h : Path p c rs d) : Framed c rs d :=
  ⟨fun _ => h.active_of_latest, h.active_of_forall_ne_sar, fun _ => h.get_of_forall_ne⟩

end Path

end Core

namespace Machine

/-- To carry out an instruction outside a program is no part of a run: nothing is booked. -/
theorem execute_eq (m : Machine size) (i : Instruction) :
    (m.execute i).machine = { m with toCore := (m.execute i).machine.toCore } := by
  cases h : m.toCore.execute i with
  | ok c => rw [execute_of_ok h]
  | error f => rw [execute_of_error h]

/-- Of the general registers, an instruction that retires in a run changes at most the one that is active
in front of it; the active register is changed only by `SAR`, the branch target only by `SPC`, the memory
only by `STOR` in the cell that its operand names, and only a branch that is taken does not lead to the
next address. So at every point of a run the active register is the operand of the latest `SAR`, or the
first one if there is none, and a register that has never been active keeps its value. What is carried
out outside a program changes no part of the bookkeeping. -/
theorem instructions_change_their_own_part (p : Program) (m : Machine size) :
    (∀ (k : Nat) s, (m.history p)[k]? = some s →
      (m.restart.steps p k).machine.toCore = s.before ∧
      (m.restart.steps p (k + 1)).machine.toCore = s.after ∧ s.Framed) ∧
    (∀ k, Core.Framed m.toCore (m.restart.retirements p k) (m.restart.steps p k).machine.toCore) ∧
    Core.Framed m.toCore (m.history p) (m.run p).machine.toCore ∧
    ∀ i, let d := (m.execute i).machine
      d.retired = m.retired ∧ d.status = m.status ∧ d.config = m.config ∧ d.lastTrace = m.lastTrace := by
  refine ⟨fun k s hs => ?_, fun k => (path_steps p m.restart k).framed, (path_history p m).framed,
    fun i => ?_⟩
  · obtain ⟨-, hbefore, hafter⟩ := steps_of_history hs
    exact ⟨hbefore, hafter, ((path_history p m).proper_of_mem (List.mem_of_getElem? hs)).framed⟩
  · rw [execute_eq]
    exact ⟨rfl, rfl, rfl, rfl⟩

/-- Register 1 is an operand of `ADD` and of `STOR`, but it is never active. -/
theorem instructions_change_their_own_part_not_the_operand :
    let p := Program.ofWords [0b00010001, 0b00000010, 0b00100000, 0b01110001]
    let core : Core 4 := ⟨⟨#v[4, 1, 7, 0, 0, 0, 0, 0], 0, 0⟩, 0, .zeroed 4⟩
    let m : Machine 4 := ⟨core, 0, .running, ⟨false, 4⟩, none⟩
    let core' (k : Nat) := (m.restart.steps p k).machine.toCore
    let sar : Retirement 4 := ⟨⟨.sar, 2⟩, core' 1, core' 2⟩
    let stor : Retirement 4 := ⟨⟨.stor, 1⟩, core' 3, core' 4⟩
    (m.history p)[3]? = some stor ∧ stor.Framed ∧
      (¬stor.storesTo 0 ∧ stor.after.memory.read 0 = stor.before.memory.read 0) ∧
      stor.after.memory.read 1 = 5 ∧
      latest? (·.isOf .sar) (m.history p) = some sar ∧ (m.run p).machine.registers.active = 2 ∧
      (∀ s ∈ m.history p, s.instruction.opcode = .sar → s.instruction.operand.toNat ≠ 1) ∧
      (m.run p).machine.registers.get 1 = 1 := by
  intro p core m core' sar stor
  obtain ⟨hretired, -, hrun, -⟩ := instructions_change_their_own_part p m
  have hstor : (m.history p)[3]? = some stor := by decide +kernel
  have hlatest : latest? (·.isOf .sar) (m.history p) = some sar := by decide +kernel
  have hnever : ∀ s ∈ m.history p, s.instruction.opcode = .sar → s.instruction.operand.toNat ≠ 1 := by
    decide +kernel
  have hcell : ¬stor.storesTo 0 := by decide +kernel
  have hframed : stor.Framed := (hretired 3 stor hstor).2.2
  refine ⟨hstor, hframed, ⟨hcell, hframed.memory 0 hcell⟩, by decide +kernel, hlatest, ?_, hnever, ?_⟩
  · exact Fin.ext (hrun.active_of_latest sar hlatest).symm
  · exact hrun.general 1 (by decide) hnever

end Machine

end Accumulator
