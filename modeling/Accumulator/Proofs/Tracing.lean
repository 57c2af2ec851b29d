import Accumulator.Proofs.Invocation

/-!
# Tracing only observes

`Machine.quiet` takes tracing away from a machine, and `Reply.quiet` takes the trace lines away from
what it answers. A machine cannot tell the difference: whatever is asked of it, the quiet machine
answers the same, quietly (`performAll_quiet`). Two machines that differ only in tracing have one
quiet machine, so that facts about two machines need no second induction. At the command line the two
flags reach no further than the machine's tracing and the level of the log.
-/

namespace Accumulator

def Event.isTrace : Event → Bool
  | traced _ => true
  | _ => false

/-- The log without its trace lines. -/
def Log.withoutTraces (log : Log) : Log := log.filter fun e => !e.isTrace

theorem Log.withoutTraces_append (log₁ log₂ : Log) :
    Log.withoutTraces (log₁ ++ log₂) = Log.withoutTraces log₁ ++ Log.withoutTraces log₂ :=
  List.filter_append ..

theorem Log.withoutTraces_eq_self {log : Log} (h : ∀ e ∈ log, e.isOfMachine false = true) :
    log.withoutTraces = log := by
  refine List.filter_eq_self.2 fun e he => ?_
  cases e with
  | traced => exact h _ he
  | _ => rfl

variable {size : Nat}

/-- The machine with tracing off and no trace line kept. -/
def Machine.quiet (m : Machine size) : Machine size :=
  { m with config := { m.config with tracing := false }, lastTrace := none }

/-- The reply without anything of tracing. -/
def Reply.quiet {α : Type} (r : Reply size α) : Reply size α :=
  ⟨r.outcome, r.machine.quiet, r.log.withoutTraces⟩

/-- Two replies that are the same but for tracing differ in nothing else. -/
theorem Reply.eq_of_quiet {α : Type} {r r' : Reply size α} (h : r'.quiet = r.quiet) :
    r'.outcome = r.outcome ∧ r'.machine.toCore = r.machine.toCore ∧
      r'.machine.retired = r.machine.retired ∧ r'.machine.status = r.machine.status ∧
      Log.withoutTraces r'.log = Log.withoutTraces r.log := by
  have hmachine : r'.machine.quiet = r.machine.quiet := congrArg Reply.machine h
  exact ⟨(congrArg Reply.outcome h :), (congrArg Machine.toCore hmachine :),
    (congrArg Machine.retired hmachine :), (congrArg Machine.status hmachine :),
    (congrArg Reply.log h :)⟩

namespace Machine

variable {p : Program} {m : Machine size}

/-! ## Steps and runs -/

theorem retiredTo_quiet (m : Machine size) (i : Instruction) (after : Core size) :
    m.quiet.retiredTo i after = (m.retiredTo i after).quiet := rfl

theorem retirementNotice_quiet (m : Machine size) (i : Instruction) :
    m.quiet.retirementNotice i = Log.withoutTraces (m.retirementNotice i) := by
  unfold retirementNotice
  cases h : m.lastTrace <;> rfl

theorem withoutTraces_notice (o : Outcome) : Log.withoutTraces o.notice = o.notice := by
  rcases o with (_ | _) | _ <;> rfl

theorem step_quiet (p : Program) (m : Machine size) : m.quiet.step p = (m.step p).quiet := by
  refine step_cases (motive := fun r => m.quiet.step p = r.quiet) p m ?_ ?_ ?_ ?_
  · intro o hs
    rw [step_of_ended (m := m.quiet) hs]
    rfl
  · intro o hs hf
    rw [step_of_ends (m := m.quiet) hs hf, Reply.quiet, withoutTraces_notice]
    rfl
  · intro i after hs hf hl
    rw [step_of_retires (m := m.quiet) hs hf hl, retiredTo_quiet, retirementNotice_quiet]
    rfl
  · intro i after hs hf hl
    rw [step_of_retires_beyond (m := m.quiet) hs hf hl, retiredTo_quiet, retirementNotice_quiet,
      Reply.quiet, Log.withoutTraces_append]
    rfl

theorem withoutTraces_closing (n : Nat) (o : Outcome) :
    Log.withoutTraces (closing n o) = closing n o := by
  cases o <;> rfl

theorem resume_quiet (p : Program) (m : Machine size) :
    m.quiet.resume p = (m.resume p).quiet :=
  resume_commutes (step_quiet p) Log.withoutTraces_append (fun m => withoutTraces_closing m.retired) m

theorem run_quiet (p : Program) (m : Machine size) : m.quiet.run p = (m.run p).quiet :=
  resume_quiet p m.restart

theorem execute_quiet (m : Machine size) (i : Instruction) :
    m.quiet.execute i = (m.execute i).quiet := by
  have hcore : m.quiet.toCore = m.toCore := rfl
  unfold execute
  rw [hcore]
  cases Core.handle i m.toCore <;> rfl

/-! ## Sequences of actions -/

/-- What a machine can be asked to do: a step, a run to the end, or an instruction outside any
program. -/
inductive Action where
  | step
  | run
  | execute (i : Instruction)
  deriving DecidableEq, Repr

/-- What comes of an action. -/
inductive Answer where
  | stepped (status : Status)
  | ran (outcome : Outcome)
  | executed (result : Except Fault Unit)

def perform (p : Program) (m : Machine size) : Action → Reply size Answer
  | .step => ⟨.stepped (m.step p).outcome, (m.step p).machine, (m.step p).log⟩
  | .run => ⟨.ran (m.run p).outcome, (m.run p).machine, (m.run p).log⟩
  | .execute i => ⟨.executed (m.execute i).outcome, (m.execute i).machine, (m.execute i).log⟩

/-- Performs actions one after the other, and keeps their answers. -/
def performAll (p : Program) (m : Machine size) : List Action → Reply size (List Answer)
  | [] => ⟨[], m, []⟩
  | a :: actions =>
    let first := m.perform p a
    let rest := first.machine.performAll p actions
    ⟨first.outcome :: rest.outcome, rest.machine, first.log ++ rest.log⟩

theorem perform_quiet (p : Program) (m : Machine size) (a : Action) :
    m.quiet.perform p a = (m.perform p a).quiet := by
  cases a with
  | step =>
    rw [perform, step_quiet]
    rfl
  | run =>
    rw [perform, run_quiet]
    rfl
  | execute i =>
    rw [perform, execute_quiet]
    rfl

theorem performAll_quiet (p : Program) (m : Machine size) (actions : List Action) :
    m.quiet.performAll p actions = (m.performAll p actions).quiet := by
  induction actions generalizing m with
  | nil => rfl
  | cons a actions ih =>
    simp only [performAll, perform_quiet, Reply.quiet, Log.withoutTraces_append, ih]

theorem config_perform (p : Program) (m : Machine size) (a : Action) :
    (m.perform p a).machine.config = m.config := by
  cases a with
  | step => exact config_step p m
  | run => exact config_resume p m.restart
  | execute i =>
    show (m.execute i).machine.config = m.config
    unfold execute
    split <;> rfl

theorem reports_performAll {actions : List Action} {e : Event}
    (h : e ∈ (m.performAll p actions).log) : e.isOfMachine m.config.tracing = true := by
  induction actions generalizing m with
  | nil => cases h
  | cons a actions ih =>
    rcases List.mem_append.1 h with h | h
    · cases a with
      | step => exact reports_step h
      | run => exact reports_run h
      | execute i =>
        change e ∈ (m.execute i).log at h
        unfold execute at h
        split at h <;> cases h
    · rw [← config_perform p m a]
      exact ih h

/-- A machine that differs at most in tracing and in the last trace line answers everything in the
same way and comes to the same core, count and status. If it does not trace, it reports what the other
one reports, without the trace lines. -/
theorem performAll_of_tracing (p : Program) (m : Machine size) (tracing : Bool)
    (lastTrace : Option TraceEntry) (actions : List Action) :
    let other : Machine size :=
      { m with config := { m.config with tracing := tracing }, lastTrace := lastTrace }
    let r := m.performAll p actions
    let r' := other.performAll p actions
    r'.outcome = r.outcome ∧ r'.machine.toCore = r.machine.toCore ∧
      r'.machine.retired = r.machine.retired ∧ r'.machine.status = r.machine.status ∧
      (tracing = false → r'.log = Log.withoutTraces r.log) := by
  intro other r r'
  have hquiet : r'.quiet = r.quiet :=
    (performAll_quiet p other actions).symm.trans (performAll_quiet p m actions)
  obtain ⟨houtcome, hcore, hretired, hstatus, hlog⟩ := Reply.eq_of_quiet hquiet
  refine ⟨houtcome, hcore, hretired, hstatus, ?_⟩
  rintro rfl
  have hself : Log.withoutTraces r'.log = r'.log :=
    Log.withoutTraces_eq_self fun e he => reports_performAll (m := other) he
  exact hself.symm.trans hlog

end Machine

/-! ## The flags of the command line -/

namespace CommandLine

/-- Of what is kept at level debug, exactly the events of that level are left out at level info. -/
theorem kept_info {libraries : Libraries} (h : libraries.KeepsBySeverity) (log : Log) :
    Log.kept (libraries.keeps .info) log =
      (Log.kept (libraries.keeps .debug) log).filter fun e => e.level ≠ .debug := by
  unfold Log.kept
  rw [List.filter_filter]
  refine List.filter_congr fun e _ => ?_
  rw [Bool.eq_iff_iff, Bool.and_eq_true, h, h, decide_eq_true_iff]
  cases e.level <;> decide

/-- The flags have no part in how the run of an invocation ends and what it leaves in memory. -/
theorem run_of_flags (o o' : Options) (text : String) (m : Memory Memory.standardSize) :
    (o'.run text m).outcome = (o.run text m).outcome ∧
      (o'.run text m).machine.memory = (o.run text m).machine.memory := by
  let image := (LoadedProgram.parse text).value
  let start := fun o : Options =>
    Machine.fresh ⟨o.debug || image.tracing, Config.standardLimit⟩ m
  have hquiet : ((start o').run image.program).quiet = ((start o).run image.program).quiet :=
    (Machine.run_quiet image.program (start o')).symm.trans
      (Machine.run_quiet image.program (start o))
  obtain ⟨houtcome, hcore, -⟩ := Reply.eq_of_quiet hquiet
  exact ⟨houtcome, congrArg Core.memory hcore⟩

theorem log_execute_of_verbose (o : Options) (libraries : Libraries)
    (program memory : Option ByteArray) :
    ∃ full, ∀ verbose, ({ o with verbose := verbose }.execute libraries program memory).report.log =
      Log.kept (libraries.keeps (Options.level { o with verbose := verbose })) full := by
  unfold Options.execute LoadedProgram.ofFile
  cases textOfFile? program with
  | none => exact ⟨[], fun _ => rfl⟩
  | some text =>
    cases hcells : Memory.ofFile Memory.standardSize o.memory memory with
    | mk value log =>
      simp only [hcells]
      cases value with
      | error e =>
        dsimp only
        exact ⟨_, fun _ => rfl⟩
      | ok m =>
        have hmachine : ∀ verbose, Options.machine { o with verbose := verbose }
            (LoadedProgram.parse text).value m = o.machine (LoadedProgram.parse text).value m :=
          fun _ => rfl
        simp only [hmachine]
        exact ⟨_, fun _ => rfl⟩

end CommandLine

namespace Directory

open CommandLine

variable {d : Directory} {libraries : Libraries} {arguments arguments' : List String}
  {o o' : Options}

/-- The files of an invocation are refused, or both are loaded. -/
theorem not_loaded_or_loaded (d : Directory) (o : Options) :
    (d.text? o.program = none ∨ d.text? o.memory = none ∨
        ∃ text, d.text? o.memory = some text ∧ Memory.Refused Memory.standardSize text) ∨
      ∃ ptext mtext m log, d.text? o.program = some ptext ∧ d.text? o.memory = some mtext ∧
        Memory.ofTextLenient Memory.standardSize mtext = ⟨.ok m, log⟩ := by
  cases hprogram : d.text? o.program with
  | none => exact .inl (.inl rfl)
  | some ptext =>
    cases hmemory : d.text? o.memory with
    | none => exact .inl (.inr (.inl rfl))
    | some mtext =>
      by_cases hrefused : Memory.Refused Memory.standardSize mtext
      · exact .inl (.inr (.inr ⟨mtext, rfl, hrefused⟩))
      · obtain ⟨m, hm⟩ := Memory.exists_takenFrom hrefused
        obtain ⟨log, hload⟩ := Memory.ofTextLenient_of_takenFrom hm
        exact .inr ⟨ptext, mtext, m, log, rfl, rfl, hload⟩

theorem invoke_of_flags (hcall : libraries.parse arguments = .ok (.run o))
    (hcall' : libraries.parse arguments' = .ok (.run o'))
    (hprogram : o'.program = o.program) (hmemory : o'.memory = o.memory) :
    (d.invoke libraries arguments').1.status = (d.invoke libraries arguments).1.status ∧
      (d.invoke libraries arguments').2 = (d.invoke libraries arguments).2 := by
  rcases not_loaded_or_loaded d o with hnot | ⟨ptext, mtext, m, log, hp, hm, hload⟩
  · obtain ⟨hstatus, hafter⟩ := invoke_of_not_loaded hcall hnot
    rw [← hprogram, ← hmemory] at hnot
    obtain ⟨hstatus', hafter'⟩ := invoke_of_not_loaded hcall' hnot
    rw [hstatus, hstatus', hafter, hafter']
    exact ⟨rfl, rfl⟩
  · obtain ⟨hreport, hwrite⟩ := invoke_of_loaded hcall hp hm hload
    rw [← hprogram] at hp
    rw [← hmemory] at hm
    obtain ⟨hreport', hwrite'⟩ := invoke_of_loaded hcall' hp hm hload
    obtain ⟨houtcome, hend⟩ := run_of_flags o o' ptext m
    rw [houtcome] at hreport'
    rw [hmemory, hend, hwrite] at hwrite'
    rw [hreport, hreport']
    exact ⟨rfl, (Option.some_inj.1 hwrite').symm⟩

theorem log_invoke (hcall : libraries.parse arguments = .ok (.run o)) :
    (d.invoke libraries arguments).1.log =
      (o.execute libraries (d.read o.program) (d.read o.memory)).report.log := by
  rw [invoke_of_run hcall]
  unfold execute
  dsimp only
  split
  · rfl
  · split <;> rfl

theorem log_invoke_of_not_verbose (hlog : libraries.KeepsBySeverity)
    (hcall : libraries.parse arguments = .ok (.run o))
    (hcall' : libraries.parse arguments' = .ok (.run o')) (hprogram : o'.program = o.program)
    (hmemory : o'.memory = o.memory) (hdebug : o'.debug = o.debug) (hverbose : o.verbose = true)
    (hquiet : o'.verbose = false) :
    (d.invoke libraries arguments').1.log =
      (d.invoke libraries arguments).1.log.filter fun e => e.level ≠ .debug := by
  obtain ⟨program, memory, debug, _⟩ := o
  obtain ⟨_, _, _, _⟩ := o'
  cases hprogram
  cases hmemory
  cases hdebug
  cases hverbose
  cases hquiet
  obtain ⟨full, hfull⟩ := log_execute_of_verbose ⟨program, memory, debug, true⟩
    libraries (d.read program) (d.read memory)
  rw [log_invoke hcall, log_invoke hcall']
  show _ = List.filter _ _
  rw [hfull true, hfull false]
  exact kept_info hlog full

/-- Tracing can be seen in the trace lines only. A machine that differs at most in tracing and in the
last trace line gives the same answers to any sequence of actions and comes to the same core, count
and status; if it does not trace, it reports what the other one reports, without the trace lines. At
the command line, however arguments are read, status and files are the same with any flags; and if the
log keeps events by severity, what is reported without `--verbose` is what is reported with it, without
the events of level debug. -/
theorem tracing_only_observes {size : Nat} (p : Program) (m : Machine size) (tracing : Bool)
    (lastTrace : Option TraceEntry) (actions : List Machine.Action) (d : Directory)
    (hcall : libraries.parse arguments = .ok (.run o))
    (hcall' : libraries.parse arguments' = .ok (.run o'))
    (hprogram : o'.program = o.program) (hmemory : o'.memory = o.memory) :
    (let other : Machine size :=
        { m with config := { m.config with tracing := tracing }, lastTrace := lastTrace }
      let r := m.performAll p actions
      let r' := other.performAll p actions
      r'.outcome = r.outcome ∧ r'.machine.toCore = r.machine.toCore ∧
        r'.machine.retired = r.machine.retired ∧ r'.machine.status = r.machine.status ∧
        (tracing = false → r'.log = Log.withoutTraces r.log)) ∧
    (d.invoke libraries arguments').1.status = (d.invoke libraries arguments).1.status ∧
    (d.invoke libraries arguments').2 = (d.invoke libraries arguments).2 ∧
    (libraries.KeepsBySeverity → o'.debug = o.debug → o.verbose = true → o'.verbose = false →
      (d.invoke libraries arguments').1.log =
        (d.invoke libraries arguments).1.log.filter fun e => e.level ≠ .debug) := by
  obtain ⟨hstatus, hafter⟩ := invoke_of_flags (d := d) hcall hcall' hprogram hmemory
  refine ⟨Machine.performAll_of_tracing p m tracing lastTrace actions, hstatus, hafter, ?_⟩
  intro hlog hdebug hverbose hquiet
  exact log_invoke_of_not_verbose hlog hcall hcall' hprogram hmemory hdebug hverbose hquiet

/-- A machine that traces leaves a trace line before its fault and one in its second run; at the
command line the image itself asks for trace lines. -/
theorem tracing_only_observes_reruns :
    let p := Program.ofWords [0b10110001, 0b11001101]
    let m := Machine.fresh ⟨true, 3⟩ (Memory.zeroed 4)
    let other := Machine.fresh ⟨false, 3⟩ (Memory.zeroed 4)
    let actions : List Machine.Action := [.step, .execute ⟨.b, 0⟩, .run, .step]
    let d : Directory := .flat [("p", "10110001\n11001101\ndebug\n".toUTF8), ("m", "".toUTF8)]
    let libraries := Libraries.standard
    libraries.KeepsBySeverity ∧
      libraries.parse ["--verbose", "p", "m"] = .ok (.run ⟨"p", "m", false, true⟩) ∧
      libraries.parse ["p", "m"] = .ok (.run ⟨"p", "m", false, false⟩) ∧
      (other.performAll p actions).log = Log.withoutTraces (m.performAll p actions).log ∧
      (other.performAll p actions).machine.toCore = (m.performAll p actions).machine.toCore ∧
      (m.performAll p actions).log.length = (other.performAll p actions).log.length + 2 ∧
      (d.invoke libraries ["p", "m"]).2 = (d.invoke libraries ["--verbose", "p", "m"]).2 ∧
      (d.invoke libraries ["p", "m"]).1.log =
        (d.invoke libraries ["--verbose", "p", "m"]).1.log.filter fun e => e.level ≠ .debug := by
  intro p m other actions d libraries
  have hverbose : libraries.parse ["--verbose", "p", "m"] =
      .ok (.run ⟨"p", "m", false, true⟩) := by rfl
  have hplain : libraries.parse ["p", "m"] = .ok (.run ⟨"p", "m", false, false⟩) := by rfl
  obtain ⟨⟨-, hcore, -, -, hlog⟩, -, hafter, hfilter⟩ :=
    tracing_only_observes p m false none actions d hverbose hplain rfl rfl
  exact ⟨keepsBySeverity_standard, hverbose, hplain, hlog rfl, hcore, by decide +kernel, hafter,
    hfilter keepsBySeverity_standard rfl rfl rfl⟩

end Directory

end Accumulator
