import Accumulator.Proofs.Tracing
import Accumulator.Proofs.Unfetched

/-!
# Programs that are moved

All addresses that a machine forms come from its program counter. So a program can stand behind
other slots: a machine whose program counter and branch target are moved on by as many addresses
runs it there as it was run before (`resume_relocated`). Only addresses in reports are moved along,
and without tracing there are none. The run must not fetch in front of its program, where the other
slots would be.
-/

namespace Accumulator

/-- In a program behind another one, each slot is found as many addresses further on as the other
one has slots. -/
theorem Program.fetch_append_of_nonneg (before p : Program) {address : Int} (h : 0 ≤ address) :
    (before ++ p).fetch (address + before.size) = p.fetch address := by
  obtain ⟨i, rfl⟩ := Int.eq_ofNat_of_zero_le h
  rw [← Int.natCast_add, fetch_natCast, fetch_natCast]
  show (before.slots ++ p.slots)[i + before.slots.size]? = p.slots[i]?
  rw [Array.getElem?_append_right (by omega), Nat.add_sub_cancel]

variable {size : Nat}

/-! ## Cores -/

/-- The registers with the branch target moved on by `d` addresses. -/
def Registers.relocated (r : Registers) (d : Int) : Registers := { r with target := r.target + d }

namespace Core

variable {p : Program} {c : Core size}

/-- The core with its program counter and its branch target moved on by `d` addresses. -/
def relocated (c : Core size) (d : Int) : Core size :=
  { c with registers := c.registers.relocated d, pc := c.pc + d }

theorem advance_relocated (c : Core size) (d : Int) :
    (c.relocated d).advance = c.advance.relocated d := by
  unfold advance relocated
  simp only [Int.add_right_comm]

theorem setTarget_relocated (c : Core size) (d address : Int) :
    (c.relocated d).setTarget (address + d) = (c.setTarget address).relocated d := rfl

theorem execute_relocated (c : Core size) (d : Int) (i : Instruction) :
    (c.relocated d).execute i = (c.execute i).map fun after => after.relocated d := by
  obtain ⟨op, field⟩ := i
  rw [execute_eq, execute_eq c]
  cases op with
  | bslt =>
    refine withOperand_eq_map fun r => ?_
    rw [apply_ite (fun after : Core size => after.relocated d)]
    rfl
  | spc =>
    refine withOperand_eq_map fun r => ?_
    -- `SPC` reads the program counter, and its sum is moved along with it.
    rw [← setTarget_relocated, Int.add_right_comm]
    rfl
  | b | stop => rfl
  | _ => exact withOperand_eq_map fun _ => rfl

end Core

def Fate.relocated (d : Int) : Fate size → Fate size
  | ends o => ends o
  | retires i after => retires i (after.relocated d)

theorem Core.fate_relocated (before : Program) {p : Program} {c : Core size} (h : 0 ≤ c.pc) :
    (c.relocated before.size).fate (before ++ p) = (c.fate p).relocated before.size := by
  have hslot : (before ++ p).instruction? (c.relocated before.size).pc = p.instruction? c.pc :=
    congrArg (Option.map Slot.decode) (Program.fetch_append_of_nonneg before p h)
  unfold fate
  rw [hslot]
  cases p.instruction? c.pc with
  | none => rfl
  | some r =>
    cases r with
    | error f => rfl
    | ok i =>
      dsimp only
      rw [execute_relocated]
      split
      · rfl
      · cases c.execute i <;> rfl

/-! ## Reports -/

def TraceEntry.relocated (t : TraceEntry) (d : Int) : TraceEntry :=
  { t with registers := t.registers.relocated d, pc := t.pc + d }

/-- The event with the addresses that it shows moved on by `d`. Only a trace line shows any. -/
def Event.relocated (d : Int) : Event → Event
  | traced t => .traced (t.relocated d)
  | e => e

def Log.relocated (log : Log) (d : Int) : Log := log.map (Event.relocated d)

theorem Log.relocated_append (log₁ log₂ : Log) (d : Int) :
    Log.relocated (log₁ ++ log₂) d = log₁.relocated d ++ log₂.relocated d :=
  List.map_append

theorem Log.relocated_withoutTraces (log : Log) (d : Int) :
    (Log.withoutTraces log).relocated d = log.withoutTraces := by
  refine (List.map_congr_left fun e he => ?_).trans (List.map_id _)
  have hno := (List.mem_filter.1 he).2
  cases e with
  | traced => cases hno
  | _ => rfl

/-- The machine with all its addresses moved on by `d`, that of its last trace line included. -/
def Machine.relocated (m : Machine size) (d : Int) : Machine size :=
  { m with
    toCore := m.toCore.relocated d
    lastTrace := m.lastTrace.map fun t => t.relocated d }

def Reply.relocated {α : Type} (r : Reply size α) (d : Int) : Reply size α :=
  ⟨r.outcome, r.machine.relocated d, r.log.relocated d⟩

namespace Machine

variable {p : Program} {m : Machine size} {d : Int}

/-! ## Steps and runs -/

theorem retiredTo_relocated (m : Machine size) (i : Instruction) (after : Core size) (d : Int) :
    (m.relocated d).retiredTo i (after.relocated d) = (m.retiredTo i after).relocated d := by
  unfold retiredTo relocated
  rw [Core.advance_relocated]
  cases m.config.tracing with
  | false => rfl
  | true =>
    show Machine.mk _ _ _ _ (some ⟨i, after.registers.relocated d, after.pc + d + 1⟩) = _
    rw [Int.add_right_comm]
    rfl

theorem retirementNotice_relocated (m : Machine size) (i : Instruction) (d : Int) :
    (m.relocated d).retirementNotice i = Log.relocated (m.retirementNotice i) d := by
  unfold retirementNotice relocated
  cases m.lastTrace <;> rfl

theorem relocated_notice (o : Outcome) (d : Int) : Log.relocated o.notice d = o.notice := by
  rcases o with (_ | _) | _ <;> rfl

theorem relocated_closing (n : Nat) (o : Outcome) (d : Int) :
    Log.relocated (closing n o) d = closing n o := by
  cases o <;> rfl

theorem step_relocated (before : Program) (h : 0 ≤ m.pc) :
    (m.relocated before.size).step (before ++ p) = (m.step p).relocated before.size := by
  have hfate : (m.relocated before.size).toCore.fate (before ++ p) =
      (m.toCore.fate p).relocated before.size := Core.fate_relocated before h
  refine step_cases (motive := fun r => (m.relocated before.size).step (before ++ p) =
    r.relocated before.size) p m ?_ ?_ ?_ ?_
  · intro o hs
    rw [step_of_ended (m := m.relocated before.size) hs]
    rfl
  · intro o hs hf
    rw [hf] at hfate
    rw [step_of_ends (m := m.relocated before.size) hs hfate, Reply.relocated, relocated_notice]
    rfl
  · intro i after hs hf hl
    rw [hf] at hfate
    rw [step_of_retires (m := m.relocated before.size) hs hfate hl, retiredTo_relocated,
      retirementNotice_relocated]
    rfl
  · intro i after hs hf hl
    rw [hf] at hfate
    rw [step_of_retires_beyond (m := m.relocated before.size) hs hfate hl, retiredTo_relocated,
      retirementNotice_relocated, Reply.relocated, Log.relocated_append]
    rfl

/-- A run behind other slots is the run of the program with all addresses moved on, if it does not
fetch in front of its program. -/
theorem resume_relocated (before : Program) (hs : m.status = .running)
    (h : ∀ address, Fetches p m address → 0 ≤ address) :
    (m.relocated before.size).resume (before ++ p) = (m.resume p).relocated before.size := by
  refine resume_commutes_of (f := fun m => m.relocated before.size)
    (g := fun log => log.relocated before.size)
    (P := fun m => m.status = .running ∧ ∀ address, Fetches p m address → 0 ≤ address)
    ?_ ?_ ?_ ?_ ⟨hs, h⟩
  · rintro m ⟨hs, h⟩
    exact step_relocated before (h m.pc (fetches_pc hs))
  · rintro m ⟨-, h⟩ hr
    exact ⟨(status_step p m).trans hr, fun address ha => h address (fetches_of_step ha)⟩
  · exact fun log₁ log₂ => Log.relocated_append log₁ log₂ _
  · exact fun m o => relocated_closing m.retired o _

/-- Without tracing, a run leaves no trace line. -/
theorem quiet_run (h : m.config.tracing = false) : (m.run p).quiet = m.run p := by
  rw [← run_quiet, ← run_of_lastTrace p m none]
  congr 1
  show _ = { m with config := m.config, lastTrace := none }
  rw [show m.config = { m.config with tracing := false } by rw [← h]]
  rfl

/-- Code can be moved. Behind the slots of `before`, from a program counter and a branch target that
are moved on by as many addresses, a program runs as it does alone, if there it never fetches at a
negative address. All that is different is that the addresses at the end and in the trace lines are
moved on. Without tracing, outcome, count, status, general and active registers, memory and log are
the same, and program counter and branch target are moved on. -/
theorem code_is_relocatable (before p : Program) (m : Machine size)
    (hfetch : ∀ address, Fetches p m.restart address → 0 ≤ address) :
    let d : Int := before.size
    let r := m.run p
    let r' := { m with toCore := m.toCore.relocated d }.run (before ++ p)
    r' = r.relocated d ∧
    (m.config.tracing = false →
      r' = ⟨r.outcome, { r.machine with toCore := r.machine.toCore.relocated d }, r.log⟩) := by
  intro d r r'
  have hrelocated : r' = r.relocated d := calc
    r' = { m.relocated d with lastTrace := m.lastTrace }.run (before ++ p) := rfl
    _ = (m.relocated d).run (before ++ p) := run_of_lastTrace ..
    _ = r.relocated d := resume_relocated before rfl hfetch
  refine ⟨hrelocated, fun htracing => ?_⟩
  have hquiet : r.quiet = r := quiet_run htracing
  rw [hrelocated, ← hquiet]
  unfold Reply.relocated
  rw [show r.quiet.log = r.log.withoutTraces from rfl, Log.relocated_withoutTraces]
  rfl

/-- A loop that is gone through twice, behind two slots of which one is malformed. -/
theorem code_is_relocatable_behind_a_malformed_line :
    let before : Program := ⟨#[.malformed "x", .encoded 0b11110000]⟩
    let p := Program.ofWords
      [0b00000010, 0b10110010, 0b00000000, 0b11010001, 0b11000001, 0b10100010]
    let m := fresh Config.standard (Memory.zeroed 4)
    let moved := { m with toCore := m.toCore.relocated 2 }
    (∀ address, Fetches p m.restart address → 0 ≤ address) ∧
      (moved.run (before ++ p)).outcome = .halted .endOfProgram ∧
      (moved.run (before ++ p)).machine.pc = 8 ∧ (moved.run (before ++ p)).machine.retired = 8 ∧
      (moved.run (before ++ p)).log = (m.run p).log := by
  intro before p m moved
  have hfirst : FirstHalt p m.restart 9 := ⟨by decide, by decide +kernel, by decide +kernel⟩
  obtain ⟨o, hend⟩ := firstHalt_iff.1 hfirst
  have hpcs : ∀ k, k < 9 → 0 ≤ (m.restart.steps p k).machine.pc := by decide +kernel
  have hfetch : ∀ address, Fetches p m.restart address → 0 ≤ address := by
    intro address h
    obtain ⟨k, hk, rfl⟩ := exists_lt_of_fetches hend h
    exact hpcs k hk
  have hmoved : moved.run (before ++ p) = _ := (code_is_relocatable before p m hfetch).2 rfl
  refine ⟨hfetch, ?_, ?_, ?_, ?_⟩
  · rw [hmoved]
    show (m.run p).outcome = _
    decide +kernel
  · rw [hmoved]
    show (m.run p).machine.pc + 2 = 8
    decide +kernel
  · rw [hmoved]
    show (m.run p).machine.retired = 8
    decide +kernel
  · rw [hmoved]

end Machine

end Accumulator
