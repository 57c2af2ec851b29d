import Accumulator.CommandLine
import Accumulator.Proofs.MemoryGrammar
import Accumulator.Proofs.Reports

/-!
# What invocations do to files

An invocation either refuses its files, and then changes none, or runs its program and writes the
memory back, however the run ended. What it writes is read back cell by cell
(`Directory.invoke_of_image`), so that a chain of invocations on one memory file works on cells alone:
`Directory.chain` says what becomes of the cells, without a file or a text of memory in between, and
`Directory.invokeAll_eq_chain` that this is what becomes of the memory file. All of this holds however
arguments are read, whichever events the log keeps and wherever the file system places its files.
-/

namespace Accumulator

/-- The bytes of a file are the encoding of the text that they are read as. -/
theorem textOfFile?_eq_some_iff {bytes : Option ByteArray} {text : String} :
    textOfFile? bytes = some text ↔ bytes = some text.toUTF8 := by
  unfold textOfFile?
  rw [Option.bind_eq_some_iff]
  constructor
  · rintro ⟨b, rfl, h⟩
    unfold String.fromUTF8? at h
    split at h
    · cases h
      rfl
    · cases h
  · rintro rfl
    exact ⟨_, rfl, dif_pos text.isValidUTF8⟩

/-! ## Paths and files -/

namespace Directory

variable {d e : Directory} {path other third text : String}

/-- The two paths lead to one file. -/
def SameFile (d : Directory) (path other : String) : Prop :=
  ∃ place, d.place? path = some place ∧ d.place? other = some place

theorem sameFile_congr (h : e.place? = d.place?) :
    e.SameFile path other ↔ d.SameFile path other := by
  unfold SameFile
  rw [h]

theorem SameFile.trans (h : d.SameFile path other) (h' : d.SameFile other third) :
    d.SameFile path third := by
  obtain ⟨place, hpath, hother⟩ := h
  obtain ⟨place', hother', hthird⟩ := h'
  rw [hother, Option.some_inj] at hother'
  subst hother'
  exact ⟨place, hpath, hthird⟩

/-- The text of the file at a path, if it can be read. -/
def text? (d : Directory) (path : String) : Option String := textOfFile? (d.read path)

theorem text?_eq_some_iff : d.text? path = some text ↔ d.read path = some text.toUTF8 :=
  textOfFile?_eq_some_iff

theorem sameFile_self_of_text? (h : d.text? path = some text) : d.SameFile path path := by
  cases hplace : d.place? path with
  | none =>
    rw [text?, read, hplace] at h
    cases h
  | some place => exact ⟨place, hplace, hplace⟩

theorem text?_of_sameFile (h : d.SameFile path other) : d.text? path = d.text? other := by
  obtain ⟨place, hpath, hother⟩ := h
  rw [text?, text?, read, read, hpath, hother]

theorem exists_write (h : d.SameFile path path) (text : String) :
    ∃ e, d.write path text = some e := by
  obtain ⟨place, hplace, -⟩ := h
  exact ⟨d.put place text.toUTF8, by rw [write, hplace, Option.map_some]⟩

theorem read_of_write (h : d.write path text = some e) : e.read path = some text.toUTF8 := by
  rw [read_write h, if_pos rfl]

theorem read_of_write_of_not_sameFile (h : d.write path text = some e)
    (hne : ¬d.SameFile other path) : e.read other = d.read other := by
  rw [read_write h]
  split
  · rename_i heq
    -- The write succeeded, so both paths would lead to the place of one file.
    obtain ⟨place, hplace, -⟩ := Option.map_eq_some_iff.1 h
    exact absurd ⟨place, heq.trans hplace, hplace⟩ hne
  · rfl

end Directory

namespace CommandLine

variable {o : Options} {program memory : Option ByteArray}

/-- The run of an invocation: of the program in a text, from a fresh machine with a given memory and
the standard limit. -/
def Options.run (o : Options) (program : String) (m : Memory Memory.standardSize) :
    Reply Memory.standardSize Outcome :=
  let image := (LoadedProgram.parse program).value
  (Machine.fresh ⟨o.debug || image.tracing, Config.standardLimit⟩ m).run image.program

/-! ## Loading and running -/

/-- An invocation with a file that it cannot load neither runs nor writes. -/
theorem execute_of_not_loaded (libraries : Libraries)
    (h : textOfFile? program = none ∨ textOfFile? memory = none ∨
      ∃ text, textOfFile? memory = some text ∧ Memory.Refused Memory.standardSize text) :
    (o.execute libraries program memory).report.status = .failure ∧
      (o.execute libraries program memory).memory = none := by
  unfold Options.execute LoadedProgram.ofFile
  cases hprogram : textOfFile? program with
  | none => exact ⟨rfl, rfl⟩
  | some text =>
    rcases h with h | h | ⟨mtext, hm, hrefused⟩
    · rw [hprogram] at h
      cases h
    · simp [Memory.ofFile, h]
    · obtain ⟨e, log, he⟩ := Memory.ofTextLenient_of_refused hrefused
      have hfile : Memory.ofFile Memory.standardSize o.memory memory =
          ⟨.error (.invalidMemory o.memory e), log⟩ := by
        simp only [Memory.ofFile, hm, he]
        rfl
      simp [hfile]

theorem execute_of_loaded (libraries : Libraries) {ptext mtext : String}
    {m : Memory Memory.standardSize} {log : Log}
    (hprogram : textOfFile? program = some ptext) (hmemory : textOfFile? memory = some mtext)
    (hload : Memory.ofTextLenient Memory.standardSize mtext = ⟨.ok m, log⟩) :
    o.execute libraries program memory =
      { report :=
          { status := .ofOutcome (o.run ptext m).outcome
            log := Log.kept (libraries.keeps o.level)
              ((LoadedProgram.parse ptext).log ++ log ++ m.listing ++ (o.run ptext m).log)
            error := none }
        memory := some (o.run ptext m).machine.memory } := by
  unfold Options.execute LoadedProgram.ofFile Memory.ofFile
  simp only [hprogram, hmemory, hload]
  rfl

/-- What an invocation comes to that finds the memory `m` in its file: its report, and the memory that
its run has ended with. There is nothing to report of the memory file. An unreadable program leaves
the memory as it is. -/
def Options.link (o : Options) (libraries : Libraries) (program : Option String)
    (m : Memory Memory.standardSize) : Report × Memory Memory.standardSize :=
  match program with
  | none => (⟨.failure, [], some (.unreadableProgram o.program)⟩, m)
  | some text =>
    ({ status := .ofOutcome (o.run text m).outcome
       log := Log.kept (libraries.keeps o.level)
         ((LoadedProgram.parse text).log ++ m.listing ++ (o.run text m).log)
       error := none },
      (o.run text m).machine.memory)

theorem zeroedMemory_not_mem_link (o : Options) (libraries : Libraries) (program : Option String)
    (m : Memory Memory.standardSize) (n : Nat) :
    Event.zeroedMemory n ∉ (o.link libraries program m).1.log := by
  cases program with
  | none => exact List.not_mem_nil
  | some text =>
    intro h
    simp only [Options.link, Log.mem_kept, List.mem_append] at h
    rcases h.1 with (hparse | hlisting) | hrun
    · simp [LoadedProgram.parse] at hparse
    · simp [Memory.listing] at hlisting
    · cases Machine.reports_run hrun

theorem code_ofOutcome_eq_zero_iff {outcome : Outcome} :
    (ExitStatus.ofOutcome outcome).code = 0 ↔ ∃ h, outcome = .halted h := by
  cases outcome <;> simp [ExitStatus.ofOutcome, ExitStatus.code]

theorem code_ofOutcome_eq_one_iff {outcome : Outcome} :
    (ExitStatus.ofOutcome outcome).code = 1 ↔ ∃ f, outcome = .faulted f := by
  cases outcome <;> simp [ExitStatus.ofOutcome, ExitStatus.code]

end CommandLine

namespace Directory

open CommandLine

variable {d e : Directory} {libraries : Libraries} {arguments : List String} {o : Options}

/-! ## One invocation -/

theorem execute_of_no_memory
    (h : (o.execute libraries (d.read o.program) (d.read o.memory)).memory = none) :
    d.execute libraries o = ((o.execute libraries (d.read o.program) (d.read o.memory)).report, d) := by
  unfold execute
  simp only [h]

theorem execute_of_memory {m : Memory Memory.standardSize}
    (h : (o.execute libraries (d.read o.program) (d.read o.memory)).memory = some m)
    (hwrite : d.write o.memory m.toText = some e) :
    d.execute libraries o = ((o.execute libraries (d.read o.program) (d.read o.memory)).report, e) := by
  unfold execute
  simp only [h, Memory.save, hwrite]

theorem invoke_of_run (hcall : libraries.parse arguments = .ok (.run o)) :
    d.invoke libraries arguments = d.execute libraries o := by
  rw [invoke, hcall]

/-- An invocation changes what files hold, not where they are. -/
theorem place?_invoke (d : Directory) (libraries : Libraries) (arguments : List String) :
    (d.invoke libraries arguments).2.place? = d.place? := by
  unfold invoke execute Memory.save
  cases libraries.parse arguments with
  | error => rfl
  | ok request =>
    cases request with
    | help => rfl
    | run o =>
      dsimp only
      split
      · rfl
      · rename_i m _
        cases hwrite : d.write o.memory m.toText with
        | none => rfl
        | some e => exact place?_of_write hwrite

theorem sameFile_invoke {path other : String} :
    (d.invoke libraries arguments).2.SameFile path other ↔ d.SameFile path other :=
  sameFile_congr (place?_invoke d libraries arguments)

theorem invoke_of_not_loaded (hcall : libraries.parse arguments = .ok (.run o))
    (h : d.text? o.program = none ∨ d.text? o.memory = none ∨
      ∃ text, d.text? o.memory = some text ∧ Memory.Refused Memory.standardSize text) :
    (d.invoke libraries arguments).1.status = .failure ∧ (d.invoke libraries arguments).2 = d := by
  obtain ⟨hstatus, hmemory⟩ := execute_of_not_loaded (o := o) libraries h
  rw [invoke_of_run hcall, execute_of_no_memory hmemory]
  exact ⟨hstatus, rfl⟩

/-- An invocation that loads its files runs the program and writes the memory back. -/
theorem invoke_of_loaded {ptext mtext : String} {m : Memory Memory.standardSize} {log : Log}
    (hcall : libraries.parse arguments = .ok (.run o))
    (hprogram : d.text? o.program = some ptext) (hmemory : d.text? o.memory = some mtext)
    (hload : Memory.ofTextLenient Memory.standardSize mtext = ⟨.ok m, log⟩) :
    (d.invoke libraries arguments).1 =
        { status := .ofOutcome (o.run ptext m).outcome
          log := Log.kept (libraries.keeps o.level)
            ((LoadedProgram.parse ptext).log ++ log ++ m.listing ++ (o.run ptext m).log)
          error := none } ∧
      d.write o.memory (o.run ptext m).machine.memory.toText = some (d.invoke libraries arguments).2 := by
  obtain ⟨e, he⟩ :=
    exists_write (sameFile_self_of_text? hmemory) (o.run ptext m).machine.memory.toText
  have hexecute := execute_of_loaded (o := o) libraries hprogram hmemory hload
  rw [invoke_of_run hcall, execute_of_memory (by rw [hexecute]) he, hexecute]
  exact ⟨rfl, he⟩

/-- An invocation that finds an image of `m` in its memory file leaves an image there of what its run
has made of `m`, and changes no other file. -/
theorem invoke_of_image {m : Memory Memory.standardSize}
    (hcall : libraries.parse arguments = .ok (.run o)) (hm : d.text? o.memory = some m.toText) :
    (d.invoke libraries arguments).1 = (o.link libraries (d.text? o.program) m).1 ∧
      (d.invoke libraries arguments).2.text? o.memory =
        some (o.link libraries (d.text? o.program) m).2.toText ∧
      ∀ path, ¬d.SameFile path o.memory → (d.invoke libraries arguments).2.read path = d.read path := by
  cases hprogram : d.text? o.program with
  | none =>
    have hexecute : o.execute libraries (d.read o.program) (d.read o.memory) =
        ⟨⟨.failure, [], some (.unreadableProgram o.program)⟩, none⟩ := by
      change textOfFile? (d.read o.program) = none at hprogram
      simp only [Options.execute, LoadedProgram.ofFile, hprogram]
      rfl
    rw [invoke_of_run hcall, execute_of_no_memory (by rw [hexecute]), hexecute]
    exact ⟨rfl, hm, fun _ _ => rfl⟩
  | some text =>
    have hload := Memory.ofTextLenient_of_heldBy (Memory.heldBy_toText m)
    obtain ⟨hreport, hwrite⟩ := invoke_of_loaded hcall hprogram hm hload
    refine ⟨?_, ?_, fun path hne => read_of_write_of_not_sameFile hwrite hne⟩
    · rw [hreport, List.append_nil]
      rfl
    · exact text?_eq_some_iff.2 (read_of_write hwrite)

/-! ## Chains of invocations -/

/-- Carries out invocations one after the other, and keeps their reports. -/
def invokeAll (d : Directory) (libraries : Libraries) : List (List String) → List Report × Directory
  | [] => ([], d)
  | arguments :: calls =>
    let first := d.invoke libraries arguments
    let rest := first.2.invokeAll libraries calls
    (first.1 :: rest.1, rest.2)

/-- What becomes of a memory when the programs of invocations run on it one after the other, each on
what the one before has left. The directory only provides the programs. -/
def chain (d : Directory) (libraries : Libraries) (m : Memory Memory.standardSize) :
    List Options → List Report × Memory Memory.standardSize
  | [] => ([], m)
  | o :: os =>
    let first := o.link libraries (d.text? o.program) m
    let rest := d.chain libraries first.2 os
    (first.1 :: rest.1, rest.2)

theorem chain_congr {os : List Options} (h : ∀ o ∈ os, d.text? o.program = e.text? o.program)
    (m : Memory Memory.standardSize) : d.chain libraries m os = e.chain libraries m os := by
  induction os generalizing m with
  | nil => rfl
  | cons o os ih =>
    simp only [chain, h o List.mem_cons_self, ih fun o ho => h o (List.mem_cons_of_mem _ ho)]

/-- Invocations on one memory file that holds an image of `m` work on cells alone. -/
theorem invokeAll_eq_chain {path : String} {m : Memory Memory.standardSize}
    {calls : List (List String)} {os : List Options}
    (hcalls : calls.map libraries.parse = os.map fun o => .ok (.run o))
    (hpaths : ∀ o ∈ os, d.SameFile o.memory path ∧ ¬d.SameFile o.program path)
    (hm : d.text? path = some m.toText) :
    (d.invokeAll libraries calls).1 = (d.chain libraries m os).1 ∧
      (d.invokeAll libraries calls).2.text? path = some (d.chain libraries m os).2.toText := by
  induction os generalizing d m calls with
  | nil =>
    rw [List.map_eq_nil_iff.1 hcalls]
    exact ⟨rfl, hm⟩
  | cons o os ih =>
    obtain ⟨arguments, rest, rfl, hcall, hrest⟩ := List.map_eq_cons_iff.1 hcalls
    obtain ⟨hmemory, hprogram⟩ := hpaths o List.mem_cons_self
    have hos := fun o' ho' => hpaths o' (List.mem_cons_of_mem o ho')
    rw [← text?_of_sameFile hmemory] at hm
    obtain ⟨hreport, hafter, hothers⟩ := invoke_of_image hcall hm
    rw [text?_of_sameFile (sameFile_invoke.2 hmemory)] at hafter
    -- The program files are none of the memory file, so the rest of the chain finds them as they are.
    have hprograms : ∀ o' ∈ os,
        (d.invoke libraries arguments).2.text? o'.program = d.text? o'.program := by
      intro o' ho'
      have hne := fun hsame => (hos o' ho').2 (SameFile.trans hsame hmemory)
      rw [text?, text?, hothers _ hne]
    obtain ⟨hreports, hend⟩ := ih hrest (by simpa only [sameFile_invoke] using hos) hafter
    rw [chain_congr hprograms] at hreports hend
    refine ⟨?_, hend⟩
    show (d.invoke libraries arguments).1 :: _ = _
    rw [hreport, hreports]
    rfl

theorem zeroedMemory_not_mem_chain {m : Memory Memory.standardSize} {os : List Options}
    {r : Report} (h : r ∈ (d.chain libraries m os).1) (n : Nat) : Event.zeroedMemory n ∉ r.log := by
  induction os generalizing m with
  | nil => cases h
  | cons o os ih =>
    rcases List.mem_cons.1 h with rfl | h
    · exact zeroedMemory_not_mem_link o libraries _ m n
    · exact ih h

/-! ## The contract of the command line -/

/-- If a file cannot be read or the memory file is refused, the exit status is 1 and no file changes.
Otherwise the program is run on the memory that the memory file stands for; the memory file is then
the image of the memory at the end of the run, whether that is a halt (status 0) or a fault (status
1), and the program file stays. Further invocations on the memory file each start from the cells that
the one before has ended with, and none of them warns of a wrong number of lines. -/
theorem invocation_saves_final_memory (d : Directory) (libraries : Libraries) {arguments : List String}
    {o : Options} (hcall : libraries.parse arguments = .ok (.run o))
    (hpaths : ¬d.SameFile o.program o.memory) :
    let report := (d.invoke libraries arguments).1
    let after := (d.invoke libraries arguments).2
    ((d.text? o.program = none ∨ d.text? o.memory = none ∨
        ∃ memory, d.text? o.memory = some memory ∧
          Memory.Refused Memory.standardSize memory) →
      report.status.code = 1 ∧ after = d) ∧
    ∀ program memory, d.text? o.program = some program → d.text? o.memory = some memory →
      ¬Memory.Refused Memory.standardSize memory →
      ∃ m : Memory Memory.standardSize, m.TakenFrom memory ∧
        let run := o.run program m
        after.read o.program = d.read o.program ∧
        after.read o.memory = some run.machine.memory.toText.toUTF8 ∧
        (report.status.code = 0 ↔ ∃ h, run.outcome = .halted h) ∧
        (report.status.code = 1 ↔ ∃ f, run.outcome = .faulted f) ∧
        ∀ (calls : List (List String)) (os : List Options),
          calls.map libraries.parse = os.map (fun o => .ok (.run o)) →
          (∀ o' ∈ os, d.SameFile o'.memory o.memory ∧ ¬d.SameFile o'.program o.memory) →
          let chain := d.chain libraries run.machine.memory os
          (after.invokeAll libraries calls).1 = chain.1 ∧
          (after.invokeAll libraries calls).2.read o.memory = some chain.2.toText.toUTF8 ∧
          ∀ r ∈ (after.invokeAll libraries calls).1, ∀ n, Event.zeroedMemory n ∉ r.log := by
  intro report after
  constructor
  · intro h
    obtain ⟨hstatus, hafter⟩ := invoke_of_not_loaded hcall h
    exact ⟨congrArg ExitStatus.code hstatus, hafter⟩
  · intro program memory hprogram hmemory hrefused
    obtain ⟨m, hm⟩ := Memory.exists_takenFrom hrefused
    obtain ⟨log, hload⟩ := Memory.ofTextLenient_of_takenFrom hm
    obtain ⟨hreport, hwrite⟩ := invoke_of_loaded hcall hprogram hmemory hload
    have hstatus : report.status = .ofOutcome (o.run program m).outcome :=
      congrArg Report.status hreport
    refine ⟨m, hm, ?_⟩
    intro run
    refine ⟨read_of_write_of_not_sameFile hwrite hpaths, read_of_write hwrite, ?_, ?_, ?_⟩
    · rw [hstatus]
      exact code_ofOutcome_eq_zero_iff
    · rw [hstatus]
      exact code_ofOutcome_eq_one_iff
    · intro calls os hcalls hos chain
      have himage := text?_eq_some_iff.2 (read_of_write hwrite)
      obtain ⟨hreports, hend⟩ :=
        invokeAll_eq_chain hcalls (by simpa only [sameFile_invoke] using hos) himage
      have hprograms : ∀ o' ∈ os, after.text? o'.program = d.text? o'.program := by
        intro o' ho'
        rw [text?, text?, read_of_write_of_not_sameFile hwrite (hos o' ho').2]
      rw [chain_congr hprograms] at hreports hend
      refine ⟨hreports, text?_eq_some_iff.1 hend, ?_⟩
      intro r hr n
      rw [hreports] at hr
      exact zeroedMemory_not_mem_chain hr n

/-- The memory file is empty, the program stores before it faults, and a second invocation of the same
program finds what the first one has stored. -/
theorem invocation_saves_final_memory_of_a_fault :
    let program := "10110001\n01110000\n11001101\n"
    let d : Directory := .flat [("p", program.toUTF8), ("m", "".toUTF8)]
    let o : Options := ⟨"p", "./m", false, true⟩
    let stored := (Memory.zeroed Memory.standardSize).write ⟨1, by decide⟩ 1
    let report := (d.invoke .standard ["--verbose", "p", "./m"]).1
    let after := (d.invoke .standard ["--verbose", "p", "./m"]).2
    Libraries.standard.parse ["--verbose", "p", "./m"] = .ok (.run o) ∧
      ¬d.SameFile o.program o.memory ∧
      d.text? o.program = some program ∧ d.text? o.memory = some "" ∧
      ¬Memory.Refused Memory.standardSize "" ∧
      report.status.code = 1 ∧
      after.read "./m" = some stored.toText.toUTF8 ∧
      (after.invokeAll .standard [["p", "m"]]).1 =
        (d.chain .standard stored [⟨"p", "m", false, false⟩]).1 := by
  intro program d o stored report after
  have hcall : Libraries.standard.parse ["--verbose", "p", "./m"] = .ok (.run o) := by rfl
  have hpaths : ¬d.SameFile o.program o.memory := by
    rintro ⟨place, hprogram, hmemory⟩
    have hp : fileName? o.program = some "p" := by decide +kernel
    have hm : fileName? o.memory = some "m" := by decide +kernel
    change fileName? o.program = some place at hprogram
    change fileName? o.memory = some place at hmemory
    rw [hp, Option.some_inj] at hprogram
    subst hprogram
    rw [hm] at hmemory
    exact absurd hmemory (by decide)
  have hprogram : d.text? o.program = some program := text?_eq_some_iff.2 (by decide +kernel)
  have hmemory : d.text? o.memory = some "" := text?_eq_some_iff.2 (by decide +kernel)
  -- The empty text has no lines, so it writes no memory and stands for zeros.
  have hlines : (Text.lines "").length ≠ Memory.standardSize := by decide +kernel
  have hrefused : ¬Memory.Refused Memory.standardSize "" := fun h => hlines h.1
  obtain ⟨m, hm, -, hafter, -, hstatus, hchain⟩ :=
    (invocation_saves_final_memory d .standard hcall hpaths).2 program "" hprogram hmemory hrefused
  have hzeroed : m = Memory.zeroed Memory.standardSize := by
    rcases hm with hwritten | ⟨-, hzero⟩
    · exact absurd hwritten.1 hlines
    · exact Memory.ext_read fun i => (hzero i).trans (Memory.read_zeroed i).symm
  subst hzeroed
  have hstored : (o.run program (Memory.zeroed Memory.standardSize)).machine.memory = stored := by
    decide +kernel
  rw [hstored] at hafter hchain
  have hfault : (o.run program (Memory.zeroed Memory.standardSize)).outcome =
      .faulted (.invalidOperand ⟨.addi, 13⟩) := by
    decide +kernel
  have hagain : ∀ o' ∈ [Options.mk "p" "m" false false],
      d.SameFile o'.memory o.memory ∧ ¬d.SameFile o'.program o.memory := by
    intro o' ho'
    cases List.mem_singleton.1 ho'
    exact ⟨⟨"m", by decide +kernel, by decide +kernel⟩, hpaths⟩
  have hreports := (hchain [["p", "m"]] _ rfl hagain).1
  exact ⟨hcall, hpaths, hprogram, hmemory, hrefused, hstatus.2 ⟨_, hfault⟩, hafter, hreports⟩

end Directory

end Accumulator
