import Accumulator.Proofs.Fate

/-!
# Steps and runs

A run and repeated steps are two ways to drive a machine. `EndsIn p m n o` says that of repeated
steps the `n`-th is the first that does not go on, and that it ends the run with `o`; every machine
has such an `n` (`exists_endsIn`). The run is then the first `n` steps (`EndsIn.resume_eq`), and
further steps change nothing (`EndsIn.steps_of_le`).
-/

namespace Accumulator

/-- The errors among the events of a log. -/
def Log.errors (log : Log) : Log := log.filter fun e => e.level = .error

theorem Log.errors_append (log₁ log₂ : Log) :
    Log.errors (log₁ ++ log₂) = Log.errors log₁ ++ Log.errors log₂ :=
  List.filter_append ..

namespace Machine

variable {size : Nat} {p : Program} {m : Machine size}

/-! ## Repeated steps -/

theorem steps_succ (p : Program) (m : Machine size) (n : Nat) :
    m.steps p (n + 1) =
      { outcome := ((m.step p).machine.steps p n).outcome.or (some (m.step p).outcome)
        machine := ((m.step p).machine.steps p n).machine
        log := (m.step p).log ++ ((m.step p).machine.steps p n).log } := rfl

theorem steps_add (p : Program) (m : Machine size) (a b : Nat) :
    m.steps p (a + b) =
      { outcome := ((m.steps p a).machine.steps p b).outcome.or (m.steps p a).outcome
        machine := ((m.steps p a).machine.steps p b).machine
        log := (m.steps p a).log ++ ((m.steps p a).machine.steps p b).log } := by
  induction a generalizing m with
  | zero => simp
  | succ a ih =>
    rw [show a + 1 + b = a + b + 1 by omega, steps_succ, ih, steps_succ p m a]
    simp only [List.append_assoc, Option.or_assoc]

theorem machine_steps_one (p : Program) (m : Machine size) :
    (m.steps p 1).machine = (m.step p).machine := rfl

theorem steps_of_ended {o : Outcome} (hs : m.status = .ended o) (n : Nat) :
    m.steps p n = ⟨if n = 0 then none else some (.ended o), m, []⟩ := by
  induction n with
  | zero => rfl
  | succ n ih =>
    rw [steps_succ, step_of_ended hs]
    simp only [ih, List.append_nil]
    by_cases hn : n = 0
    · simp [hn]
    · simp [hn]

/-- What every step preserves, any number of steps preserves. -/
theorem steps_preserves {P : Machine size → Prop} (p : Program)
    (step : ∀ m : Machine size, P m → P (m.step p).machine) (hm : P m) (n : Nat) :
    P (m.steps p n).machine := by
  induction n generalizing m with
  | zero => exact hm
  | succ n ih => exact ih (step m hm)

theorem config_steps (p : Program) (m : Machine size) (n : Nat) :
    (m.steps p n).machine.config = m.config :=
  steps_preserves (P := fun d => d.config = m.config) p (fun d hd => (config_step p d).trans hd) rfl n

/-! ## The end of a run -/

/-- The `n`-th of repeated steps is the first that does not go on. It ends the run with `o`. -/
inductive EndsIn (p : Program) : Machine size → Nat → Outcome → Prop
  | last {m : Machine size} {o : Outcome} :
      (m.step p).outcome = .ended o → EndsIn p m 1 o
  | later {m : Machine size} {n : Nat} {o : Outcome} :
      (m.step p).outcome = .running → EndsIn p (m.step p).machine n o → EndsIn p m (n + 1) o

/-- An induction along a run: to its last step, and back over each step that goes on. -/
theorem run_induction {motive : Machine size → Prop} (p : Program)
    (last : ∀ m o, (m.step p).outcome = .ended o → motive m)
    (later : ∀ m, (m.step p).outcome = .running → motive (m.step p).machine → motive m)
    (m : Machine size) : motive m := by
  -- What the limit leaves gets smaller with every step that goes on.
  generalize hn : m.remaining = n
  induction n using Nat.strongRecOn generalizing m with
  | ind n ih =>
    cases h : (m.step p).outcome with
    | ended o => exact last m o h
    | running => exact later m h (ih _ (hn ▸ remaining_step_lt h) _ rfl)

/-- Every run ends, and each step but the last takes one from what the limit leaves. -/
theorem exists_endsIn (p : Program) (m : Machine size) :
    ∃ n o, EndsIn p m n o ∧ n ≤ max 1 m.remaining := by
  induction m using run_induction p with
  | last m o h => exact ⟨1, o, .last h, by omega⟩
  | later m h ih =>
    obtain ⟨n, o, hn, hle⟩ := ih
    obtain ⟨hr, hl, hc⟩ := retired_step_of_running h
    refine ⟨n + 1, o, .later h hn, ?_⟩
    -- A step that goes on was within the limit, so the machine had at least two steps left.
    unfold remaining at hle ⊢
    rw [hr, hc] at hle
    omega

namespace EndsIn

variable {n : Nat} {o : Outcome}

theorem pos (h : EndsIn p m n o) : 0 < n := by
  cases h <;> omega

theorem outcome_steps (h : EndsIn p m n o) : (m.steps p n).outcome = some (.ended o) := by
  induction h with
  | last ho =>
    show some _ = _
    rw [ho]
  | later _ _ ih =>
    rw [steps_succ, ih]
    rfl

theorem outcome_steps_of_lt (h : EndsIn p m n o) {k : Nat} (hpos : 0 < k) (hk : k < n) :
    (m.steps p k).outcome = some .running := by
  induction h generalizing k with
  | last => omega
  | later hr _ ih =>
    obtain ⟨j, rfl⟩ : ∃ j, k = j + 1 := ⟨k - 1, by omega⟩
    rw [steps_succ, hr]
    by_cases hj : j = 0
    · subst hj
      rfl
    · rw [ih (by omega) (by omega)]
      rfl

theorem status_steps (h : EndsIn p m n o) : (m.steps p n).machine.status = .ended o := by
  induction h with
  | last ho => rw [machine_steps_one, status_step, ho]
  | later _ _ ih => exact ih

/-- A run is the steps up to its end, with its closing reported on top. -/
theorem resume_eq (h : EndsIn p m n o) :
    m.resume p =
      { outcome := o
        machine := (m.steps p n).machine
        log := (m.steps p n).log ++ closing (m.steps p n).machine.retired o } := by
  induction h with
  | last ho =>
    rw [resume_of_ended ho, steps_succ]
    simp
  | later hr _ ih =>
    rw [resume_of_running hr, ih, steps_succ]
    simp

/-- Steps beyond the end change nothing. -/
theorem steps_of_le (h : EndsIn p m n o) {k : Nat} (hk : n ≤ k) : m.steps p k = m.steps p n := by
  obtain ⟨d, rfl⟩ := Nat.exists_eq_add_of_le hk
  rw [steps_add, steps_of_ended h.status_steps, h.outcome_steps]
  by_cases hd : d = 0
  · simp [hd, ← h.outcome_steps]
  · simp [hd, ← h.outcome_steps]

/-- The outcomes of the steps alone tell where a run ends. -/
theorem of_steps {n : Nat} {m : Machine size}
    (hbefore : ∀ k, 0 < k → k < n → (m.steps p k).outcome = some .running)
    (hend : (m.steps p n).outcome = some (.ended o)) : EndsIn p m n o := by
  induction n generalizing m with
  | zero => cases hend
  | succ n ih =>
    by_cases hn : n = 0
    · subst hn
      exact .last (Option.some_inj.1 hend)
    · have hfirst : (m.step p).outcome = .running :=
        Option.some_inj.1 (hbefore 1 (by omega) (by omega))
      -- The outcome of later steps is that of the tail, as the tail has a step of its own.
      have htail : ∀ k, 0 < k →
          (m.steps p (k + 1)).outcome = ((m.step p).machine.steps p k).outcome := by
        intro k hk
        obtain ⟨j, rfl⟩ : ∃ j, k = j + 1 := ⟨k - 1, by omega⟩
        rw [steps_succ, steps_succ]
        simp
      refine .later hfirst (ih (fun k hpos hk => ?_) ?_)
      · rw [← htail k hpos]
        exact hbefore (k + 1) (by omega) (by omega)
      · rw [← htail n (by omega)]
        exact hend

end EndsIn

theorem status_resume (p : Program) (m : Machine size) :
    (m.resume p).machine.status = .ended (m.resume p).outcome := by
  obtain ⟨n, o, h, -⟩ := exists_endsIn p m
  rw [h.resume_eq]
  exact h.status_steps

/-- What every step preserves, a run preserves. -/
theorem resume_preserves {P : Machine size → Prop} (p : Program)
    (step : ∀ m : Machine size, P m → P (m.step p).machine) (hm : P m) :
    P (m.resume p).machine := by
  obtain ⟨n, o, h, -⟩ := exists_endsIn p m
  rw [h.resume_eq]
  exact steps_preserves p step hm n

theorem config_resume (p : Program) (m : Machine size) :
    (m.resume p).machine.config = m.config :=
  resume_preserves (P := fun d => d.config = m.config) p
    (fun d hd => (config_step p d).trans hd) rfl

/-- A change of machines and logs that commutes with the steps of a run commutes with the run, if it
leaves the closing of a run. That the steps are those of the run is up to `P`, which holds of the
machine as long as it goes on. -/
theorem resume_commutes_of {q : Program} {f : Machine size → Machine size} {g : Log → Log}
    {P : Machine size → Prop}
    (hstep : ∀ m, P m →
      (f m).step q = ⟨(m.step p).outcome, f (m.step p).machine, g (m.step p).log⟩)
    (hlater : ∀ m, P m → (m.step p).outcome = .running → P (m.step p).machine)
    (happend : ∀ log₁ log₂, g (log₁ ++ log₂) = g log₁ ++ g log₂)
    (hclosing : ∀ m o, g (closing m.retired o) = closing (f m).retired o) (hm : P m) :
    (f m).resume q = ⟨(m.resume p).outcome, f (m.resume p).machine, g (m.resume p).log⟩ := by
  induction m using run_induction p with
  | last m o ho =>
    have hlast : ((f m).step q).outcome = .ended o := by
      rw [hstep m hm]
      exact ho
    rw [resume_of_ended ho, resume_of_ended hlast, hstep m hm]
    simp only [happend, hclosing]
  | later m hr ih =>
    have hgoes : ((f m).step q).outcome = .running := by
      rw [hstep m hm]
      exact hr
    rw [resume_of_running hr, resume_of_running hgoes, hstep m hm]
    simp only [happend, ih (hlater m hm hr)]

/-- A change of machines and logs that commutes with every step commutes with every run, if it leaves
the closing of a run. -/
theorem resume_commutes {q : Program} {f : Machine size → Machine size} {g : Log → Log}
    (hstep : ∀ m, (f m).step q = ⟨(m.step p).outcome, f (m.step p).machine, g (m.step p).log⟩)
    (happend : ∀ log₁ log₂, g (log₁ ++ log₂) = g log₁ ++ g log₂)
    (hclosing : ∀ m o, g (closing m.retired o) = closing (f m).retired o) (m : Machine size) :
    (f m).resume q = ⟨(m.resume p).outcome, f (m.resume p).machine, g (m.resume p).log⟩ :=
  resume_commutes_of (P := fun _ => True) (fun m _ => hstep m) (fun _ _ _ => trivial) happend hclosing
    trivial

/-! ## The last trace line does not count -/

theorem step_of_lastTrace (hs : m.status = .running) (lastTrace : Option TraceEntry) :
    { m with lastTrace := lastTrace }.step p = m.step p := by
  refine step_cases (motive := fun r => { m with lastTrace := lastTrace }.step p = r) p m
    ?_ ?_ ?_ ?_
  · intro o ho
    rw [hs] at ho
    cases ho
  · intro o hs hf
    exact step_of_ends (m := { m with lastTrace := lastTrace }) hs hf
  · intro i after hs hf hl
    exact step_of_retires (m := { m with lastTrace := lastTrace }) hs hf hl
  · intro i after hs hf hl
    exact step_of_retires_beyond (m := { m with lastTrace := lastTrace }) hs hf hl

theorem run_of_lastTrace (p : Program) (m : Machine size) (lastTrace : Option TraceEntry) :
    { m with lastTrace := lastTrace }.run p = m.run p := by
  have hstep := step_of_lastTrace (p := p) (m := m.restart) rfl lastTrace
  unfold run
  show { m.restart with lastTrace := lastTrace }.resume p = m.restart.resume p
  cases h : (m.restart.step p).outcome with
  | running => rw [resume_of_running h, resume_of_running (hstep ▸ h), hstep]
  | ended o => rw [resume_of_ended h, resume_of_ended (hstep ▸ h), hstep]

/-! ## Errors reported -/

/-- The errors that a run with this outcome reports. -/
def errorsOf : Outcome → Log
  | .halted _ => []
  | .faulted f => [.faulted f]

theorem errors_retirementNotice (m : Machine size) (i : Instruction) :
    Log.errors (m.retirementNotice i) = [] := by
  unfold retirementNotice
  cases m.lastTrace <;> rfl

/-- What a step of a running machine reports as an error. -/
theorem errors_step (hs : m.status = .running) :
    Log.errors (m.step p).log =
      match (m.step p).outcome with
      | .running => []
      | .ended o => errorsOf o := by
  refine step_cases (motive := fun r => Log.errors r.log =
    match r.outcome with
    | .running => []
    | .ended o => errorsOf o) p m ?_ ?_ ?_ ?_
  · intro o ho
    rw [hs] at ho
    cases ho
  · intro o _ _
    rcases o with (_ | _) | _ <;> rfl
  · intro i after _ _ _
    exact errors_retirementNotice _ i
  · intro i after _ _ _
    rw [Log.errors_append, errors_retirementNotice]
    rfl

/-- A run reports an error exactly if it ends with one, and then just that one. -/
theorem EndsIn.errors_steps {n : Nat} {o : Outcome} (h : EndsIn p m n o)
    (hs : m.status = .running) : Log.errors (m.steps p n).log = errorsOf o := by
  induction h with
  | last ho =>
    have herr := errors_step (p := p) hs
    rw [ho] at herr
    rw [steps_succ, steps_zero, List.append_nil]
    exact herr
  | later hr _ ih =>
    have herr := errors_step (p := p) hs
    rw [hr] at herr
    rw [steps_succ, Log.errors_append, herr, ih ((status_step _ _).trans hr), List.nil_append]

/-! ## Two ways to drive a machine -/

/-- Of repeated steps the `n`-th is the first that does not go on. -/
def FirstHalt (p : Program) (m : Machine size) (n : Nat) : Prop :=
  0 < n ∧ (m.steps p n).outcome ≠ some .running ∧
    ∀ k, k < n → 0 < k → (m.steps p k).outcome = some .running

theorem firstHalt_iff {n : Nat} : FirstHalt p m n ↔ ∃ o, EndsIn p m n o := by
  constructor
  · rintro ⟨hpos, hhalt, hbefore⟩
    obtain ⟨j, rfl⟩ : ∃ j, n = j + 1 := ⟨n - 1, by omega⟩
    cases ho : (m.steps p (j + 1)).outcome with
    | none =>
      rw [steps_succ] at ho
      simp at ho
    | some s =>
      cases s with
      | running => exact absurd ho hhalt
      | ended o => exact ⟨o, .of_steps (fun k hpos hk => hbefore k hk hpos) ho⟩
  · rintro ⟨o, h⟩
    refine ⟨h.pos, ?_, fun k hk hpos => h.outcome_steps_of_lt hpos hk⟩
    rw [h.outcome_steps]
    simp

theorem restart_eq_self (hs : m.status = .running) (hr : m.retired = 0) : m.restart = m := by
  show { m with retired := 0, status := .running } = m
  rw [← hs, ← hr]

/-- A run ends as the first step that does not go on, with the same machine. It reports what the
steps up to there report; if it ends normally, it reports on top that it has terminated, at level
debug, and no error, and if it ends with a fault, it reports nothing more, and that fault as its one
error. All further steps repeat that outcome, change nothing and report nothing. -/
theorem run_agrees_with_steps (hs : m.status = .running) (hr : m.retired = 0) :
    (∃ n, FirstHalt p m n) ∧
      ∀ n, FirstHalt p m n →
        (∀ o, (m.run p).outcome = o ↔ (m.steps p n).outcome = some (.ended o)) ∧
        (m.run p).machine = (m.steps p n).machine ∧
        (∀ h, (m.run p).outcome = .halted h →
          let termination := Event.terminated h (m.run p).machine.retired
          (m.run p).log = (m.steps p n).log ++ [termination] ∧ termination.level = .debug ∧
            Log.errors (m.run p).log = []) ∧
        (∀ f, (m.run p).outcome = .faulted f →
          (m.run p).log = (m.steps p n).log ∧ Log.errors (m.run p).log = [.faulted f]) ∧
        ∀ k, n ≤ k →
          m.steps p k = m.steps p n ∧
          (m.steps p k).machine.status = .ended (m.run p).outcome ∧
          ∀ f, (m.run p).outcome = .faulted f →
            Log.errors (m.steps p k).log = [.faulted f] := by
  constructor
  · obtain ⟨n, o, h, -⟩ := exists_endsIn p m
    exact ⟨n, firstHalt_iff.2 ⟨o, h⟩⟩
  · intro n hfirst
    obtain ⟨o, h⟩ := firstHalt_iff.1 hfirst
    have hrun : m.run p = _ := (congrArg (resume p) (restart_eq_self hs hr)).trans h.resume_eq
    have herrors := h.errors_steps hs
    rw [hrun]
    refine ⟨?_, rfl, ?_, ?_, ?_⟩
    · intro o'
      rw [h.outcome_steps]
      simp
    · rintro halt rfl
      refine ⟨rfl, rfl, ?_⟩
      show Log.errors ((m.steps p n).log ++ [.terminated halt _]) = []
      rw [Log.errors_append, herrors]
      rfl
    · rintro f rfl
      have hlog : (m.steps p n).log ++ closing (m.steps p n).machine.retired (.faulted f) =
          (m.steps p n).log := List.append_nil _
      exact ⟨hlog, (congrArg Log.errors hlog).trans herrors⟩
    · intro k hk
      rw [h.steps_of_le hk]
      refine ⟨rfl, h.status_steps, ?_⟩
      rintro f rfl
      exact herrors

/-- One instruction retires, and the next has an operand out of range. -/
theorem run_agrees_with_steps_to_a_fault :
    let p := Program.ofWords [0b10110001, 0b11001101]
    let m := fresh Config.standard (Memory.zeroed 4)
    m.status = .running ∧ m.retired = 0 ∧
      (m.run p).outcome = .faulted (.invalidOperand ⟨.addi, 13⟩) ∧
      (m.run p).machine = (m.steps p 2).machine ∧
      (m.run p).log = [.retired 1 ⟨.movi, 1⟩, .faulted (.invalidOperand ⟨.addi, 13⟩)] ∧
      (∀ k, 2 ≤ k → Log.errors (m.steps p k).log = [.faulted (.invalidOperand ⟨.addi, 13⟩)]) := by
  intro p m
  obtain ⟨-, hrun⟩ := run_agrees_with_steps (p := p) (m := m) rfl rfl
  have hfirst : FirstHalt p m 2 := by
    refine ⟨by decide, by decide, ?_⟩
    decide
  obtain ⟨ho, hm, -, hlog, hlater⟩ := hrun 2 hfirst
  have hfault : (m.run p).outcome = .faulted (.invalidOperand ⟨.addi, 13⟩) :=
    (ho _).2 (by decide)
  refine ⟨rfl, rfl, hfault, hm, ?_, fun k hk => (hlater k hk).2.2 _ hfault⟩
  rw [(hlog _ hfault).1]
  rfl

end Machine

end Accumulator
