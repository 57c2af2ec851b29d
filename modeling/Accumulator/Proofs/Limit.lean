import Accumulator.Proofs.Accounting

/-!
# The limit only cuts runs off

Two facts about runs of one machine under different limits. A run that is not cut off is the same
under every greater limit (`resume_withLimit`). A run that is cut off stands in the middle of every
run under a greater limit (`resume_of_cut`), and as the count and the limit can be moved together
without effect (`resume_postponed`), the rest of that run is a run of its own.
-/

namespace Accumulator

/-- The outcome with another number for the limit, where the limit cut the run off. -/
def Outcome.atLimit (limit : Nat) : Outcome → Outcome
  | .faulted (.limitExceeded _) => .faulted (.limitExceeded limit)
  | o => o

/-- The status with another number for the limit, where the limit cut the run off. -/
def Status.atLimit (limit : Nat) : Status → Status
  | .running => .running
  | .ended o => .ended (o.atLimit limit)

theorem Outcome.atLimit_of_not_isCut {o : Outcome} (h : o.isCut = false) (limit : Nat) :
    o.atLimit limit = o := by
  rcases o with h | (_ | _ | _ | _)
  · rfl
  · rfl
  · rfl
  · rfl
  · cases h

namespace Machine

variable {size : Nat} {p : Program} {m : Machine size}

/-- The machine with another limit. -/
def withLimit (m : Machine size) (limit : Nat) : Machine size :=
  { m with config := { m.config with limit := limit } }

/-! ## A run that is not cut off -/

theorem step_withLimit {limit : Nat} (hle : m.config.limit ≤ limit)
    (hcut : ∀ o, (m.step p).outcome = .ended o → o.isCut = false) :
    (m.withLimit limit).step p =
      { m.step p with machine := (m.step p).machine.withLimit limit } := by
  revert hcut
  refine step_cases (motive := fun r => (∀ o, r.outcome = .ended o → o.isCut = false) →
    (m.withLimit limit).step p = { r with machine := r.machine.withLimit limit }) p m ?_ ?_ ?_ ?_
  · intro o hs _
    rw [step_of_ended (m := m.withLimit limit) hs]
  · intro o hs hf _
    rw [step_of_ends (m := m.withLimit limit) hs hf]
    rfl
  · intro i after hs hf hl _
    rw [step_of_retires (m := m.withLimit limit) hs hf (Nat.lt_of_lt_of_le hl hle)]
    rfl
  · intro i after _ _ _ hcut
    cases hcut _ rfl

theorem not_isCut_of_running (hr : (m.step p).outcome = .running) :
    ∀ o, (m.step p).outcome = .ended o → o.isCut = false := by
  intro o ho
  rw [hr] at ho
  cases ho

/-- A run that is not cut off is the same under a greater limit. -/
theorem resume_withLimit {limit : Nat} (hle : m.config.limit ≤ limit)
    (hcut : (m.resume p).outcome.isCut = false) :
    (m.withLimit limit).resume p =
      { m.resume p with machine := (m.resume p).machine.withLimit limit } := by
  induction m using run_induction p with
  | last m o ho =>
    rw [resume_of_ended ho] at hcut ⊢
    have hnot : ∀ o', (m.step p).outcome = .ended o' → o'.isCut = false := by
      intro o' ho'
      rw [ho] at ho'
      cases ho'
      exact hcut
    have hstep := step_withLimit hle hnot
    have hlast : ((m.withLimit limit).step p).outcome = .ended o := by rw [hstep, ho]
    rw [resume_of_ended hlast, hstep]
    rfl
  | later m hr ih =>
    rw [resume_of_running hr] at hcut ⊢
    have hstep := step_withLimit hle (not_isCut_of_running hr)
    have hlater : ((m.withLimit limit).step p).outcome = .running := by rw [hstep, hr]
    rw [resume_of_running hlater, hstep]
    have hlimit : (m.step p).machine.config.limit ≤ limit := by
      rw [config_step]
      exact hle
    simp only [ih hlimit hcut]

/-! ## A run that is cut off -/

/-- The machine running again, with another limit and the count that it has. -/
def reopened (m : Machine size) (limit : Nat) : Machine size :=
  { m.withLimit limit with status := .running }

/-- Where the limit cuts a run off, a greater limit lets the step go on, to the machine that the
cut leaves, reopened. -/
theorem step_withLimit_of_cut {limit : Nat} {o : Outcome} (hacc : m.Accounted)
    (hs : m.status = .running) (hlt : m.config.limit < limit)
    (ho : (m.step p).outcome = .ended o) (hcut : o.isCut = true) :
    ((m.withLimit limit).step p).outcome = .running ∧
      ((m.withLimit limit).step p).machine = (m.step p).machine.reopened limit := by
  cases hf : m.toCore.fate p with
  | ends o' =>
    rw [step_of_ends hs hf] at ho
    cases ho
    rw [Core.isCut_of_ends hf] at hcut
    cases hcut
  | retires i after =>
    by_cases hl : m.retired < m.config.limit
    · rw [step_of_retires hs hf hl] at ho
      cases ho
    · have hwithin : m.retired < limit := Nat.lt_of_le_of_lt (hacc.of_running hs) hlt
      rw [step_of_retires_beyond hs hf (by omega),
        step_of_retires (m := m.withLimit limit) hs hf hwithin]
      refine ⟨rfl, ?_⟩
      show _ = { (m.withLimit limit).retiredTo i after with status := .running }
      rw [← hs]
      rfl

/-- A run that is cut off is the beginning of the run under a greater limit. -/
theorem resume_of_cut {limit : Nat} (hacc : m.Accounted) (hs : m.status = .running)
    (hlt : m.config.limit < limit) (hcut : (m.resume p).outcome.isCut = true) :
    ((m.withLimit limit).resume p).outcome =
        (((m.resume p).machine.reopened limit).resume p).outcome ∧
      ((m.withLimit limit).resume p).machine =
        (((m.resume p).machine.reopened limit).resume p).machine := by
  -- Both runs go through the same machines up to the step that the smaller limit ends.
  induction m using run_induction p with
  | last m o ho =>
    rw [resume_of_ended ho] at hcut ⊢
    obtain ⟨hr, hm⟩ := step_withLimit_of_cut hacc hs hlt ho hcut
    rw [resume_of_running hr, hm]
    exact ⟨rfl, rfl⟩
  | later m hr ih =>
    rw [resume_of_running hr] at hcut ⊢
    have hstep := step_withLimit (Nat.le_of_lt hlt) (not_isCut_of_running hr)
    have hlater : ((m.withLimit limit).step p).outcome = .running := by rw [hstep, hr]
    rw [resume_of_running hlater, hstep]
    have hlimit : (m.step p).machine.config.limit < limit := by
      rw [config_step]
      exact hlt
    exact ih hacc.step ((status_step p m).trans hr) hlimit hcut

/-- A cut leaves the count beyond the limit by one. -/
theorem retired_of_isCut (hacc : m.Accounted) (hcut : (m.resume p).outcome.isCut = true) :
    (m.resume p).machine.retired = m.config.limit + 1 := by
  have hend := status_resume p m
  rw [← config_resume p m]
  exact (hacc.resume.retired_eq_iff hend).2 (hacc.resume.eq_limitExceeded_of_isCut hend hcut)

/-! ## The count and the limit moved together -/

/-- The machine with `d` more instructions behind it, and so many more allowed. -/
def postponed (m : Machine size) (d : Nat) : Machine size :=
  { m.withLimit (m.config.limit + d) with
    retired := m.retired + d
    status := m.status.atLimit (m.config.limit + d) }

theorem endedWith_postponed {o : Outcome} (ho : o.isCut = false) (d : Nat) :
    (m.postponed d).endedWith o = (m.endedWith o).postponed d := by
  unfold endedWith postponed withLimit
  show Machine.mk _ _ _ _ _ = Machine.mk _ _ (.ended (o.atLimit (m.config.limit + d))) _ _
  rw [Outcome.atLimit_of_not_isCut ho]

theorem retiredTo_postponed (m : Machine size) (i : Instruction) (after : Core size) (d : Nat) :
    (m.postponed d).retiredTo i after = (m.retiredTo i after).postponed d := by
  unfold postponed retiredTo withLimit
  rw [Nat.add_right_comm]

theorem step_postponed (p : Program) (m : Machine size) (d : Nat) :
    ((m.postponed d).step p).outcome = (m.step p).outcome.atLimit (m.config.limit + d) ∧
      ((m.postponed d).step p).machine = (m.step p).machine.postponed d := by
  have hstatus : (m.postponed d).status = m.status.atLimit (m.config.limit + d) := rfl
  refine step_cases (motive := fun r =>
    ((m.postponed d).step p).outcome = r.outcome.atLimit (m.config.limit + d) ∧
      ((m.postponed d).step p).machine = r.machine.postponed d) p m ?_ ?_ ?_ ?_
  · intro o hs
    rw [hs] at hstatus
    rw [step_of_ended hstatus]
    exact ⟨rfl, rfl⟩
  · intro o hs hf
    rw [hs] at hstatus
    have ho := Core.isCut_of_ends hf
    rw [step_of_ends (m := m.postponed d) hstatus hf]
    refine ⟨?_, endedWith_postponed ho d⟩
    show Status.ended o = .ended (o.atLimit (m.config.limit + d))
    rw [Outcome.atLimit_of_not_isCut ho]
  · intro i after hs hf hl
    rw [hs] at hstatus
    have hdl : (m.postponed d).retired < (m.postponed d).config.limit := Nat.add_lt_add_right hl d
    rw [step_of_retires (m := m.postponed d) hstatus hf hdl]
    exact ⟨rfl, retiredTo_postponed m i after d⟩
  · intro i after hs hf hl
    rw [hs] at hstatus
    have hdl : (m.postponed d).config.limit ≤ (m.postponed d).retired := Nat.add_le_add_right hl d
    rw [step_of_retires_beyond (m := m.postponed d) hstatus hf hdl, retiredTo_postponed]
    exact ⟨rfl, rfl⟩

/-- A run does not depend on the count and the limit but on what is between them. -/
theorem resume_postponed (p : Program) (m : Machine size) (d : Nat) :
    ((m.postponed d).resume p).outcome = (m.resume p).outcome.atLimit (m.config.limit + d) ∧
      ((m.postponed d).resume p).machine = (m.resume p).machine.postponed d := by
  induction m using run_induction p with
  | last m o ho =>
    obtain ⟨hout, hmach⟩ := step_postponed p m d
    rw [ho] at hout
    rw [resume_of_ended ho, resume_of_ended hout]
    exact ⟨rfl, hmach⟩
  | later m hr ih =>
    obtain ⟨hout, hmach⟩ := step_postponed p m d
    rw [hr] at hout
    rw [resume_of_running hr, resume_of_running hout, hmach]
    -- The limit is not the step's to change, so the two outcomes name the same number.
    rw [config_step] at ih
    exact ih

/-! ## Whole runs -/

/-- A run that the limit `L` does not cut off is the same under every greater limit. One that it
cuts off can be taken up with the limit `M`, and then comes to where a single run with the limit
`L + M + 1` comes to: the instruction that was cut off counts as one of the three summands. -/
theorem limit_only_cuts_runs_off (p : Program) (m : Machine size) (L M : Nat) :
    (((m.withLimit L).run p).outcome.isCut = false →
      ∀ L', L ≤ L' →
        (m.withLimit L').run p =
          { (m.withLimit L).run p with
            machine := ((m.withLimit L).run p).machine.withLimit L' }) ∧
    (((m.withLimit L).run p).outcome.isCut = true →
      let second := (((m.withLimit L).run p).machine.withLimit M).run p
      let single := (m.withLimit (L + M + 1)).run p
      single.machine.toCore = second.machine.toCore ∧
      single.machine.lastTrace = second.machine.lastTrace ∧
      single.outcome = second.outcome.atLimit (L + M + 1) ∧
      single.machine.retired = L + 1 + second.machine.retired) := by
  constructor
  · intro hcut L' hle
    exact resume_withLimit (m := (m.withLimit L).restart) hle hcut
  · intro hcut second single
    have hacc := Accounted.restart (m.withLimit L)
    have hlt : (m.withLimit L).restart.config.limit < L + M + 1 := by
      show L < L + M + 1
      omega
    obtain ⟨hout, hmach⟩ := resume_of_cut hacc rfl hlt hcut
    -- The cut leaves `L + 1` as the count, so to reopen it is to postpone a restart by as much.
    have hreopened : ((m.withLimit L).run p).machine.reopened (L + M + 1) =
        (((m.withLimit L).run p).machine.withLimit M).restart.postponed (L + 1) := by
      have hcount := retired_of_isCut hacc hcut
      show _ = { ((m.withLimit L).run p).machine.withLimit (M + (L + 1)) with
        retired := 0 + (L + 1), status := .running }
      rw [show L + M + 1 = M + (L + 1) by omega, Nat.zero_add]
      change ((m.withLimit L).run p).machine.retired = L + 1 at hcount
      rw [← hcount]
      rfl
    obtain ⟨hpout, hpmach⟩ := resume_postponed p
      (((m.withLimit L).run p).machine.withLimit M).restart (L + 1)
    have hmachine : single.machine = second.machine.postponed (L + 1) :=
      hmach.trans ((congrArg (fun d => (d.resume p).machine) hreopened).trans hpmach)
    have houtcome : single.outcome = second.outcome.atLimit (M + (L + 1)) :=
      hout.trans ((congrArg (fun d => (d.resume p).outcome) hreopened).trans hpout)
    rw [hmachine, houtcome]
    refine ⟨rfl, rfl, ?_, ?_⟩
    · rw [show L + M + 1 = M + (L + 1) by omega]
    · show second.machine.retired + (L + 1) = _
      omega

/-- Three times around a loop of three instructions: 14 retire, and then the run stops. -/
theorem limit_only_cuts_runs_off_before_a_stop :
    let p := Program.ofWords [0b00000001, 0b10110011, 0b00000010, 0b10110000, 0b11010010,
      0b00000000, 0b11000001, 0b10100001, 0b11110000]
    let m := fresh Config.standard (Memory.zeroed 2)
    ((m.withLimit 14).run p).outcome.isCut = false ∧
      (∀ L', 14 ≤ L' → ((m.withLimit L').run p).outcome = .halted .stop) ∧
      ((m.withLimit 13).run p).outcome.isCut = true ∧
      ((m.withLimit 14).run p).machine.retired =
        14 + ((((m.withLimit 13).run p).machine.withLimit 0).run p).machine.retired := by
  intro p m
  have hrun : ((m.withLimit 14).run p).outcome = .halted .stop := by decide +kernel
  have hcut : ((m.withLimit 13).run p).outcome.isCut = true := by decide +kernel
  have hlong := (limit_only_cuts_runs_off p m 14 0).1 (by rw [hrun]; rfl)
  have hshort := (limit_only_cuts_runs_off p m 13 0).2 hcut
  refine ⟨by rw [hrun]; rfl, fun L' hle => ?_, hcut, hshort.2.2.2⟩
  rw [hlong L' hle]
  exact hrun

end Machine

end Accumulator
