import Accumulator.Proofs.Display
import Accumulator.Proofs.History
import Accumulator.Proofs.Reports

/-!
# The log of a run as its record

The log of a run is made of its history: what is reported of each retirement, in order, and then of the
end of the run (`log_resume`). What is reported of a retirement can be read off it, so that nothing is
told before the instruction has its effect and nothing is told twice. `Retirement.lines` and
`Outcome.finalLines` write out what is printed of a retirement and of the end. `Machine.Traces` says when
a step leaves a trace line behind, and that this is the line that it reports.
-/

namespace Accumulator

variable {size : Nat}

/-! ## What is reported of a history -/

namespace Retirement

/-- The trace line of the retirement: the instruction, the registers right after it and the address
of the next fetch. -/
def entry (r : Retirement size) : TraceEntry := ⟨r.instruction, r.after.registers, r.after.pc⟩

/-- What is reported of the retirement, as the `count`-th of its run. -/
def notice (tracing : Bool) (count : Nat) (r : Retirement size) : Log :=
  .retired count r.instruction :: if tracing then [.traced r.entry] else []

/-- What is printed of the retirement, as the `count`-th of its run: its number and the instruction, and
below that the trace line with the instruction, the registers right after it and the address of the next
fetch. -/
def lines (tracing : Bool) (count : Nat) (r : Retirement size) : List (Level × String) :=
  (.debug, "[" ++ count.repr ++ "] " ++ r.instruction.shown) ::
    if tracing then
      [(.info, r.instruction.shown ++ " \t| " ++ r.instruction.opcode.description ++ "\t| " ++
        r.after.registers.shown ++ ",\t PC = " ++ r.after.pc.repr)]
    else []

theorem lines_notice (tracing : Bool) (count : Nat) (r : Retirement size) :
    Log.lines (r.notice tracing count) = r.lines tracing count := by
  unfold notice lines
  rw [← r.instruction.render_eq, ← r.after.registers.render_eq]
  cases tracing <;> rfl

end Retirement

/-- What is reported of retirements that follow on `count` others. -/
def noticesFrom (tracing : Bool) (count : Nat) (rs : List (Retirement size)) : Log :=
  (rs.zipIdx (count + 1)).flatMap fun (r, k) => r.notice tracing k

theorem noticesFrom_cons (tracing : Bool) (count : Nat) (r : Retirement size)
    (rs : List (Retirement size)) :
    noticesFrom tracing count (r :: rs) =
      r.notice tracing (count + 1) ++ noticesFrom tracing (count + 1) rs := rfl

namespace Outcome

/-- What is reported of the end of a run that retired `count` instructions. -/
def finale (count : Nat) : Outcome → Log
  | halted .stop => [.stopReached, .terminated .stop count]
  | halted .endOfProgram => [.terminated .endOfProgram count]
  | faulted f => [.faulted f]

/-- What is printed of the end of a run that retired `count` instructions. -/
def finalLines (count : Nat) : Outcome → List (Level × String)
  | halted .stop =>
    [(.info, "STOP instruction reached."),
      (.debug, "Program terminated (Stop) after " ++ count.repr ++ " instructions")]
  | halted .endOfProgram =>
    [(.debug, "Program terminated (EndOfProgram) after " ++ count.repr ++ " instructions")]
  | faulted f => [(.error, "ERROR: " ++ f.shown ++ ". Ending execution.")]

theorem finale_eq (count : Nat) (o : Outcome) :
    o.finale count = o.notice ++ Machine.closing count o := by
  rcases o with (_ | _) | _ <;> rfl

theorem lines_finale (count : Nat) (o : Outcome) :
    Log.lines (o.finale count) = o.finalLines count := by
  have hstop : "Program terminated (" ++ Halt.stop.name ++ ") after " =
      "Program terminated (Stop) after " := by
    decide +kernel
  have hend : "Program terminated (" ++ Halt.endOfProgram.name ++ ") after " =
      "Program terminated (EndOfProgram) after " := by
    decide +kernel
  rcases o with (_ | _) | f
  · rw [finalLines, ← hstop]
    rfl
  · rw [finalLines, ← hend]
    rfl
  · rw [finalLines, ← f.message_eq]
    rfl

end Outcome

namespace Core.Path

variable {p : Program} {c d : Core size} {rs : List (Retirement size)}

/-- What retires is the instruction that stands at the program counter in front of it. -/
theorem instruction?_of_mem (h : Path p c rs d) {r : Retirement size} (hr : r ∈ rs) :
    p.instruction? r.before.pc = some (.ok r.instruction) := by
  induction h with
  | nil => cases hr
  | cons hf _ ih =>
    rcases List.mem_cons.1 hr with rfl | hr
    · exact (fate_eq_retires_iff.1 hf).1
    · exact ih hr

end Core.Path

namespace Machine

variable {p : Program} {m : Machine size}

/-! ## The log of a run -/

theorem retirementNotice_retiredTo (m : Machine size) (i : Instruction) (after : Core size) :
    (m.retiredTo i after).retirementNotice i =
      Retirement.notice m.config.tracing (m.retired + 1) ⟨i, m.toCore, after.advance⟩ := by
  unfold retirementNotice Retirement.notice retiredTo
  cases m.config.tracing <;> rfl

/-- The log of a run tells its retirements, counted on from those before, and then its end. -/
theorem EndsIn.log_resume {n k : Nat} {o : Outcome} (h : EndsIn p m n o) (hs : m.status = .running)
    (hk : n ≤ k) :
    (m.resume p).log =
      noticesFrom m.config.tracing m.retired (m.retirements p k) ++
        o.finale (m.resume p).machine.retired := by
  induction h generalizing k with
  | @last m o ho =>
    obtain ⟨k, rfl⟩ : ∃ j, k = j + 1 := ⟨k - 1, by omega⟩
    have hend : (m.step p).machine.status = .ended o := (status_step p m).trans ho
    rw [resume_of_ended ho, retirements_succ, retirements_of_ended hend, List.append_nil,
      retirement?_of_running hs, Outcome.finale_eq, ← List.append_assoc]
    cases hf : m.toCore.fate p with
    | ends o' =>
      rw [step_of_ends hs hf] at ho ⊢
      cases ho
      rfl
    | retires i after =>
      by_cases hl : m.retired < m.config.limit
      · rw [step_of_retires hs hf hl] at ho
        cases ho
      · rw [step_of_retires_beyond hs hf (by omega)] at ho ⊢
        cases ho
        simp only [retirementNotice_retiredTo]
        simp [noticesFrom, Outcome.notice]
  | @later m n o hr _ ih =>
    obtain ⟨k, rfl⟩ : ∃ j, k = j + 1 := ⟨k - 1, by omega⟩
    obtain ⟨i, after, hf, hl⟩ := retires_of_running hr
    have hstep := step_of_retires hs hf hl
    rw [resume_of_running hr, ih ((status_step p m).trans hr) (show n ≤ k by omega), retirements_succ,
      retirement?_of_running hs, hf, hstep]
    simp only [retirementNotice_retiredTo, Option.toList_some, List.singleton_append,
      noticesFrom_cons, List.append_assoc]
    rfl

theorem log_run (p : Program) (m : Machine size) :
    (m.run p).log =
      noticesFrom m.config.tracing 0 (m.history p) ++
        (m.run p).outcome.finale (m.run p).machine.retired := by
  obtain ⟨n, o, h, hn⟩ := exists_endsIn p m.restart
  have hrem : m.restart.remaining = m.config.limit + 1 := rfl
  have hlog := h.log_resume rfl (show n ≤ m.config.limit + 1 by omega)
  have ho : (m.run p).outcome = o := congrArg Reply.outcome h.resume_eq
  rw [ho]
  exact hlog

theorem lines_noticesFrom (tracing : Bool) (count : Nat) (rs : List (Retirement size)) :
    Log.lines (noticesFrom tracing count rs) =
      (rs.zipIdx (count + 1)).flatMap fun (r, k) => r.lines tracing k := by
  simp only [noticesFrom, Log.lines, List.map_flatMap]
  congr 1
  funext (r, k)
  exact r.lines_notice tracing k

/-! ## The place of a retirement in a run -/

/-- What retires next does so from the core as it is. -/
theorem toCore_of_retirements {n : Nat} {r : Retirement size} {later : List (Retirement size)}
    (h : m.retirements p n = r :: later) : m.toCore = r.before := by
  have hpath := path_steps p m n
  rw [h] at hpath
  cases hpath
  rfl

/-- The `k`-th step starts from the core in front of the `k`-th retirement. -/
theorem toCore_steps_of_retirements_before {n : Nat} {earlier later : List (Retirement size)}
    {r : Retirement size} (h : m.retirements p n = earlier ++ r :: later) :
    (m.steps p earlier.length).machine.toCore = r.before := by
  induction earlier generalizing m n with
  | nil => exact toCore_of_retirements h
  | cons s earlier ih =>
    obtain ⟨-, k, hk⟩ := toCore_step_of_retirements h
    exact ih hk.symm

theorem steps_of_history {k : Nat} {r : Retirement size} (h : (m.history p)[k]? = some r) :
    p.instruction? r.before.pc = some (.ok r.instruction) ∧
      (m.restart.steps p k).machine.toCore = r.before ∧
      (m.restart.steps p (k + 1)).machine.toCore = r.after := by
  obtain ⟨hk, rfl⟩ := List.getElem?_eq_some_iff.1 h
  have hsplit : m.restart.retirements p (m.config.limit + 1) =
      (m.history p).take k ++ (m.history p)[k] :: (m.history p).drop (k + 1) := by
    rw [List.getElem_cons_drop, List.take_append_drop]
    rfl
  have hlength : ((m.history p).take k).length = k := List.length_take_of_le (by omega)
  have hbefore := toCore_steps_of_retirements_before hsplit
  have hafter := toCore_steps_of_retirements hsplit
  rw [hlength] at hbefore hafter
  exact ⟨(path_history p m).instruction?_of_mem (List.getElem_mem hk), hbefore, hafter⟩

/-! ## The trace line of a step -/

/-- The reply to a step leaves a trace line exactly if tracing is on and the step retired an
instruction. The line shows that instruction and the machine after the step, and it is the one that
the step reported. -/
structure Traces (p : Program) (m : Machine size) (r : Reply size Status) : Prop where
  isSome_iff : r.machine.lastTrace.isSome = true ↔
    m.config.tracing = true ∧ r.machine.retired = m.retired + 1
  shows : ∀ t, r.machine.lastTrace = some t →
    p.instruction? m.pc = some (.ok t.instruction) ∧ t.registers = r.machine.registers ∧
      t.pc = r.machine.pc
  reported_iff : ∀ t, .traced t ∈ r.log ↔ r.machine.lastTrace = some t

theorem traced_not_mem_notice (t : TraceEntry) (o : Outcome) : .traced t ∉ o.notice := by
  rcases o with (_ | _) | _ <;> simp [Outcome.notice]

theorem traced_mem_retirementNotice {t : TraceEntry} (m : Machine size) (i : Instruction) :
    .traced t ∈ m.retirementNotice i ↔ m.lastTrace = some t := by
  simp [retirementNotice, eq_comm]

/-- A step that retires an instruction traces it, whether or not the limit lets the run go on. -/
theorem traces_retiredTo {i : Instruction} {after : Core size} (hf : m.toCore.fate p = .retires i after)
    (status outcome : Status) (faults : Log) (hfaults : ∀ t, .traced t ∉ faults) :
    Traces p m
      { outcome := outcome
        machine := { m.retiredTo i after with status := status }
        log := (m.retiredTo i after).retirementNotice i ++ faults } where
  isSome_iff := by
    cases h : m.config.tracing <;> simp [retiredTo, h]
  shows t ht := by
    cases h : m.config.tracing with
    | false => simp [retiredTo, h] at ht
    | true =>
      simp only [retiredTo, h, if_true, Option.some_inj] at ht
      subst ht
      exact ⟨(Core.fate_eq_retires_iff.1 hf).1, rfl, rfl⟩
  reported_iff t := by
    rw [List.mem_append, traced_mem_retirementNotice]
    simp [hfaults t]

theorem traces_step (hs : m.status = .running) : Traces p m (m.step p) := by
  refine step_cases (motive := Traces p m) p m ?_ ?_ ?_ ?_
  · intro o ho
    rw [hs] at ho
    cases ho
  · intro o _ _
    exact ⟨by simp [endedWith], nofun, fun t => by simp [endedWith, traced_not_mem_notice]⟩
  · intro i after _ hf _
    have htraces := traces_retiredTo hf m.status .running [] (by simp)
    rw [List.append_nil] at htraces
    exact htraces
  · intro i after _ hf _
    exact traces_retiredTo hf _ _ _ (by simp)

/-- The log of a run is its record. It tells each retirement of the run in order, as the first, the
second and so on up to the count of the run: the instruction, and right behind it, if tracing is on,
its trace line. Then it tells how the run ended, and the printed lines show all of this. The
retirements are those of the run: the `k`-th is that of the instruction in front of which the first `k`
steps come to rest, and the next step leads to the core that its trace line shows. Whatever a step of a
running machine does, it leaves behind the trace line that it reported. -/
theorem log_records_run (p : Program) (m : Machine size) :
    let r := m.run p
    let n := r.machine.retired
    r.log = noticesFrom m.config.tracing 0 (m.history p) ++ r.outcome.finale n ∧
    Log.lines r.log =
      ((m.history p).zipIdx 1).flatMap (fun (s, k) => s.lines m.config.tracing k) ++
        r.outcome.finalLines n ∧
    (m.history p).length = n ∧
    (∀ (k : Nat) s, (m.history p)[k]? = some s →
      p.instruction? s.before.pc = some (.ok s.instruction) ∧
      (m.restart.steps p k).machine.toCore = s.before ∧
      (m.restart.steps p (k + 1)).machine.toCore = s.after) ∧
    ∀ d : Machine size, d.status = .running → Traces p d (d.step p) := by
  intro r n
  have hlog : r.log = noticesFrom m.config.tracing 0 (m.history p) ++ r.outcome.finale n :=
    log_run p m
  refine ⟨hlog, ?_, length_history p m, fun k s => steps_of_history, fun d => traces_step⟩
  rw [hlog, Log.lines_append, lines_noticesFrom, Outcome.lines_finale]

/-- The second instruction is a branch and is one too many for the limit: its trace line shows where
the branch leads, and the fault follows. -/
theorem log_records_run_cut_at_a_branch :
    let p := Program.ofWords [0b10110111, 0b11100000]
    let m := fresh ⟨true, 1⟩ (Memory.zeroed 4)
    let d := (m.step p).machine
    d.status = .running ∧ Traces p d (d.step p) ∧
      (d.step p).machine.lastTrace = some ⟨⟨.b, 0⟩, (d.step p).machine.registers, 1⟩ ∧
      (m.history p).map Retirement.instruction = [⟨.movi, 7⟩, ⟨.b, 0⟩] ∧
      Log.lines (m.run p).log =
        [(.debug, "[1] MOVI -1"),
          (.info, "MOVI -1 \t| ra = imm\t| " ++
            "reg. file = [-1, 0, 0, 0, 0, 0, 0, 0]  Ra = 0, Rp = 0,\t PC = 1"),
          (.debug, "[2] B"),
          (.info, "B \t| PC = rp\t| " ++
            "reg. file = [-1, 0, 0, 0, 0, 0, 0, 0]  Ra = 0, Rp = 0,\t PC = 1"),
          (.error, "ERROR: instruction count limit of 1 exceeded. Ending execution.")] := by
  intro p m d
  obtain ⟨-, hlines, -, -, htraces⟩ := log_records_run p m
  have hs : d.status = .running := by decide
  refine ⟨hs, htraces d hs, by decide, by decide +kernel, ?_⟩
  rw [hlines]
  decide +kernel

end Machine

end Accumulator
