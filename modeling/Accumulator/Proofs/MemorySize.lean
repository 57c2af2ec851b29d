import Accumulator.Proofs.Operands
import Accumulator.Proofs.Translation

/-!
# Larger memories

The number of cells is only ever compared with an address. With further cells behind a memory, every
access that was let through still is, and is to the same cell (`execute_widened`). So a run that is not
ended by an access to memory is the same run with the larger memory, and leaves the further cells alone.
-/

namespace Accumulator

variable {size size' : Nat}

namespace Memory

/-- The memory `base` with the cells of `m` in place of its first ones. -/
def overlay (m : Memory size) (base : Memory size') : Memory size' :=
  ⟨Vector.ofFn fun a => if h : a.val < size then m.read ⟨a, h⟩ else base.read a⟩

variable {m : Memory size} {base : Memory size'}

theorem read_overlay (m : Memory size) (base : Memory size') (a : Fin size') :
    (m.overlay base).read a = if h : a.val < size then m.read ⟨a, h⟩ else base.read a :=
  Vector.getElem_ofFn ..

theorem read_overlay_castLE (hle : size ≤ size') (m : Memory size) (base : Memory size') (a : Fin size) :
    (m.overlay base).read (a.castLE hle) = m.read a := by
  rw [read_overlay]
  exact dif_pos a.isLt

theorem read_overlay_of_le {a : Fin size'} (h : size ≤ a) : (m.overlay base).read a = base.read a := by
  rw [read_overlay]
  exact dif_neg (Nat.not_lt.2 h)

theorem overlay_write (hle : size ≤ size') (a : Fin size) (v : Word) :
    (m.write a v).overlay base = (m.overlay base).write (a.castLE hle) v := by
  refine ext_read fun b => ?_
  simp only [read_write, read_overlay, Fin.ext_iff, Fin.val_castLE]
  split
  · rfl
  · rename_i hb
    rw [if_neg (by omega)]

/-- A memory that agrees with the cells put in place is left as it is. -/
theorem overlay_eq_self (hle : size ≤ size')
    (h : ∀ a : Fin size, base.read (a.castLE hle) = m.read a) : m.overlay base = base := by
  refine ext_read fun b => ?_
  rw [read_overlay]
  split
  · rename_i hb
    exact (h ⟨b, hb⟩).symm
  · rfl

end Memory

/-! ## Instructions -/

namespace Translation

/-- Further cells, those of `base`, behind the memory. Registers and instructions stay. -/
def widened (base : Memory size') : Translation size size' where
  registers := id
  memory m := m.overlay base
  instruction := id
  opcode_instruction _ := rfl

variable {base : Memory size'} {p : Program} {c : Core size} {i : Instruction}

theorem fault_widened (f : Fault) : (widened base : Translation size size').fault f = f := by
  cases f <;> rfl

theorem outcome_widened (o : Outcome) : (widened base : Translation size size').outcome o = o := by
  cases o with
  | halted => rfl
  | faulted f => exact congrArg Outcome.faulted (fault_widened f)

theorem log_widened (log : Log) : (widened base : Translation size size').log log = log := by
  refine (List.map_congr_left fun e _ => ?_).trans (List.map_id log)
  cases e with
  | faulted f => exact congrArg Event.faulted (fault_widened f)
  | _ => rfl

theorem cell?_widened (hle : size ≤ size') {field : Byte} {a : Fin size} (h : c.cell? field = some a) :
    ((widened base).core c).cell? field = some (a.castLE hle) := by
  rw [Core.cell?_eq_some_iff] at h ⊢
  exact h

/-- An instruction has the same effect with a larger memory, unless it is an access that the smaller
memory refuses. -/
theorem execute_widened (hle : size ≤ size')
    (h : i.opcode = .load ∨ i.opcode = .stor → c.execute i ≠ .error (.invalidOperand i)) :
    ((widened base).core c).execute i = (widened base).result (c.execute i) := by
  obtain ⟨op, field⟩ := i
  have hcell : op = .load ∨ op = .stor →
      ((widened base).core c).cell? field = (c.cell? field).map (Fin.castLE hle) := by
    intro hop
    cases ha : c.cell? field with
    | some a => exact cell?_widened hle ha
    | none =>
      refine absurd ?_ (h hop)
      rw [Core.execute_eq]
      rcases hop with rfl | rfl <;> exact Core.withOperand_eq_error_iff.2 ⟨ha, rfl⟩
  have hkept {α : Type} (operand : Option α) : operand = operand.map id := Option.map_id'.symm
  rw [Core.execute_eq, Core.execute_eq c]
  cases op with
  | load =>
    refine withOperand_eq_result (t := widened base) (hcell (.inl rfl)) fun a => ?_
    exact congrArg (Core.setAccumulator _) (Memory.read_overlay_castLE hle ..)
  | stor =>
    refine withOperand_eq_result (t := widened base) (hcell (.inr rfl)) fun a => ?_
    exact congrArg (Core.mk _ _) (Memory.overlay_write hle ..).symm
  | bslt =>
    refine withOperand_eq_result (t := widened base) (hkept _) fun r => ?_
    rw [apply_ite (widened base).core]
    rfl
  | b | stop => rfl
  | _ => exact withOperand_eq_result (t := widened base) (hkept _) fun _ => rfl

theorem fate_widened (hle : size ≤ size')
    (h : ∀ i, i.opcode = .load ∨ i.opcode = .stor → c.fate p ≠ .ends (.faulted (.invalidOperand i))) :
    ((widened base).core c).fate p = (widened base).fate (c.fate p) := by
  refine fate_core ?_ fun i hi hstop => execute_widened hle fun hop he => h i hop ?_
  · cases p.instruction? c.pc with
    | none => rfl
    | some r =>
      cases r with
      | error f => exact congrArg (fun g => some (Except.error g)) (fault_widened f).symm
      | ok i => rfl
  · exact Core.fate_eq_ends_iff.2 (.inr (.inr (.inr ⟨i, _, hi, hstop, he, rfl⟩)))

end Translation

/-! ## Runs -/

/-- The machine with another memory. -/
def Machine.withMemory (m : Machine size) (memory : Memory size') : Machine size' :=
  m.withCore ⟨m.registers, m.pc, memory⟩

namespace Machine

variable {p : Program} {m : Machine size} {base : Memory size'}

theorem machine_widened (m : Machine size) :
    (Translation.widened base).machine m = m.withMemory (m.memory.overlay base) := by
  have hstatus : (Translation.widened base : Translation size size').status m.status = m.status := by
    cases m.status with
    | running => rfl
    | ended o => exact congrArg Status.ended (Translation.outcome_widened o)
  have htrace : m.lastTrace.map (Translation.widened base : Translation size size').entry = m.lastTrace :=
    Option.map_id'
  unfold Translation.machine withMemory withCore
  rw [hstatus, htrace]
  rfl

/-- The run is not ended by an access to memory. -/
def AccessesInRange (p : Program) (m : Machine size) : Prop :=
  ∀ i, i.opcode = .load ∨ i.opcode = .stor → (m.resume p).outcome ≠ .faulted (.invalidOperand i)

theorem AccessesInRange.fate_ne (h : AccessesInRange p m) (hs : m.status = .running) {i : Instruction}
    (hop : i.opcode = .load ∨ i.opcode = .stor) :
    m.toCore.fate p ≠ .ends (.faulted (.invalidOperand i)) := by
  intro hf
  have hlast : (m.step p).outcome = .ended (.faulted (.invalidOperand i)) := by
    rw [step_of_ends hs hf]
  exact h i hop (congrArg Reply.outcome (resume_of_ended hlast))

theorem AccessesInRange.step (h : AccessesInRange p m) (hr : (m.step p).outcome = .running) :
    AccessesInRange p (m.step p).machine := by
  intro i hop
  have hrest := h i hop
  rw [resume_of_running hr] at hrest
  exact hrest

/-- A run that no access ends is the same with a larger memory. It works on the first cells only. -/
theorem run_withMemory (hle : size ≤ size')
    (hagree : ∀ a : Fin size, base.read (a.castLE hle) = m.memory.read a)
    (haccess : AccessesInRange p m.restart) :
    (m.withMemory base).run p =
      { outcome := (m.run p).outcome
        machine := (m.run p).machine.withMemory ((m.run p).machine.memory.overlay base)
        log := (m.run p).log } := by
  have hcore : (Translation.widened base).core m.toCore = ⟨m.registers, m.pc, base⟩ :=
    congrArg (Core.mk _ _) (Memory.overlay_eq_self hle hagree)
  have hrun : (m.withCore ((Translation.widened base).core m.toCore)).run p =
      (Translation.widened base).reply (m.run p) := by
    refine Translation.run_withCore (P := fun d => d.status = .running ∧ AccessesInRange p d) ?_ ?_
      ⟨rfl, haccess⟩
    · rintro d ⟨hs, h⟩
      exact Translation.fate_widened hle fun i => h.fate_ne hs
    · rintro d ⟨-, h⟩ hr
      exact ⟨(status_step p d).trans hr, h.step hr⟩
  rw [hcore] at hrun
  rw [withMemory, hrun, Translation.reply, Translation.outcome_widened, machine_widened,
    Translation.log_widened]

/-- Nothing depends on the number of cells but which addresses are refused. If a run is not ended by a
`LOAD` or `STOR` that is refused, it is the same run with any larger memory that holds the same in its
first cells: it ends in the same way, with the same processor, and reports the same; in the end the first
cells hold the same again, and all others what they held. -/
theorem memory_size_is_only_a_bound (hle : size ≤ size') (p : Program) (m : Machine size)
    (memory' : Memory size') (hagree : ∀ a : Fin size, memory'.read (a.castLE hle) = m.memory.read a)
    (haccess : ∀ i, i.opcode = .load ∨ i.opcode = .stor →
      (m.run p).outcome ≠ .faulted (.invalidOperand i)) :
    let r := m.run p
    let r' := (m.withMemory memory').run p
    r'.outcome = r.outcome ∧ r'.log = r.log ∧
      r'.machine = r.machine.withMemory r'.machine.memory ∧
      (∀ a : Fin size, r'.machine.memory.read (a.castLE hle) = r.machine.memory.read a) ∧
      ∀ a : Fin size', size ≤ a → r'.machine.memory.read a = memory'.read a := by
  intro r r'
  have hrun : r' = ⟨r.outcome, r.machine.withMemory (r.machine.memory.overlay memory'), r.log⟩ :=
    run_withMemory hle hagree haccess
  rw [hrun]
  exact ⟨rfl, rfl, rfl, Memory.read_overlay_castLE hle _ _, fun _ => Memory.read_overlay_of_le⟩

/-- The last cell of four is read and written again, with two more cells behind it. -/
theorem memory_size_is_only_a_bound_at_the_last_cell :
    let p := Program.ofWords [0b10110011, 0b00000001, 0b01100000, 0b11000001, 0b01110000]
    let m := fresh ⟨true, 8⟩ (⟨#v[0, 0, 0, 7]⟩ : Memory 4)
    let memory' : Memory 6 := ⟨#v[0, 0, 0, 7, 5, 6]⟩
    (∀ a : Fin 4, memory'.read (a.castLE (by decide)) = m.memory.read a) ∧
      (m.run p).outcome = .halted .endOfProgram ∧
      ((m.withMemory memory').run p).outcome = .halted .endOfProgram ∧
      ((m.withMemory memory').run p).log = (m.run p).log ∧
      ((m.withMemory memory').run p).machine.memory.read 3 = 8 ∧
      ((m.withMemory memory').run p).machine.memory.read 4 = 5 := by
  intro p m memory'
  have hagree : ∀ a : Fin 4, memory'.read (a.castLE (by decide)) = m.memory.read a := by decide
  have hend : (m.run p).outcome = .halted .endOfProgram := by decide +kernel
  obtain ⟨houtcome, hlog, -, hfirst, hbehind⟩ :=
    memory_size_is_only_a_bound (by decide) p m memory' hagree (by simp [hend])
  refine ⟨hagree, hend, houtcome.trans hend, hlog, ?_, hbehind 4 (by decide)⟩
  refine (hfirst 3).trans ?_
  decide +kernel

end Machine

end Accumulator
