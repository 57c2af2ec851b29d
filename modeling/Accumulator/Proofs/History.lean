import Accumulator.Proofs.Accounting

/-!
# Histories

The history of a run is the list of what it retired. The cores in between are in it, so that
`Core.Path` can say what a history is without the bookkeeping of a machine: each retirement starts
where the one before it ended. `path_history` says that the history of a run leads from its first
core to its last. What the core owes to the past is said with `latest?`, the most recent retirement
of a kind: `Core.Path.eq_latest` finds there what only retirements of that kind can change.
-/

namespace Accumulator

variable {size : Nat}

/-! ## The latest of a kind -/

/-- The retirement is one of an instruction with the opcode. -/
def Retirement.isOf (op : Opcode) (r : Retirement size) : Bool := r.instruction.opcode = op

@[simp]
theorem Retirement.isOf_iff {op : Opcode} {r : Retirement size} :
    r.isOf op = true ↔ r.instruction.opcode = op :=
  decide_eq_true_iff

/-- The most recent of the retirements that are of a kind. -/
def latest? (kind : Retirement size → Bool) (rs : List (Retirement size)) :
    Option (Retirement size) :=
  rs.reverse.find? kind

section Latest

variable {kind : Retirement size → Bool} {rs : List (Retirement size)} {s : Retirement size}

theorem latest?_cons (kind : Retirement size → Bool) (r : Retirement size)
    (rs : List (Retirement size)) :
    latest? kind (r :: rs) = (latest? kind rs).or (if kind r then some r else none) := by
  rw [latest?, List.reverse_cons, List.find?_append, List.find?_singleton]
  rfl

theorem latest?_eq_none_iff : latest? kind rs = none ↔ ∀ r ∈ rs, ¬kind r := by
  simp [latest?]

theorem mem_of_latest? (h : latest? kind rs = some s) : s ∈ rs :=
  List.mem_reverse.1 (List.mem_of_find?_eq_some h)

theorem kind_of_latest? (h : latest? kind rs = some s) : kind s = true :=
  List.find?_some h

end Latest

/-! ## Paths -/

/-- The retirement leads to the core that its instruction makes of the one before, advanced. -/
def Retirement.Proper (r : Retirement size) : Prop :=
  ∃ after, r.before.execute r.instruction = .ok after ∧ r.after = after.advance

namespace Core

variable {p : Program} {c d : Core size} {rs : List (Retirement size)}

/-- The core `c` comes to `d` when the instructions of `rs` retire, one after the other. -/
inductive Path (p : Program) : Core size → List (Retirement size) → Core size → Prop
  | nil (c : Core size) : Path p c [] c
  | cons {c after d : Core size} {i : Instruction} {rs : List (Retirement size)} :
      c.fate p = .retires i after → Path p after.advance rs d →
      Path p c (⟨i, c, after.advance⟩ :: rs) d

namespace Path

theorem proper_of_mem (h : Path p c rs d) {r : Retirement size} (hr : r ∈ rs) : r.Proper := by
  induction h with
  | nil => cases hr
  | cons hf _ ih =>
    rcases List.mem_cons.1 hr with rfl | hr
    · exact ⟨_, (fate_eq_retires_iff.1 hf).2.2, rfl⟩
    · exact ih hr

theorem append {e : Core size} {rs' : List (Retirement size)} (h : Path p c rs d)
    (h' : Path p d rs' e) : Path p c (rs ++ rs') e := by
  induction h with
  | nil => exact h'
  | cons hf _ ih => exact .cons hf (ih h')

/-- Two paths that begin at one core do not part. -/
theorem eq_of_length {d' : Core size} {rs' : List (Retirement size)} (h : Path p c rs d)
    (h' : Path p c rs' d') (hlength : rs.length = rs'.length) : rs = rs' ∧ d = d' := by
  induction h generalizing rs' with
  | nil =>
    cases h' with
    | nil => exact ⟨rfl, rfl⟩
    | cons => cases hlength
  | cons hf _ ih =>
    cases h' with
    | nil => cases hlength
    | cons hf' hrest' =>
      rw [hf] at hf'
      cases hf'
      obtain ⟨rfl, rfl⟩ := ih hrest' (Nat.succ.inj hlength)
      exact ⟨rfl, rfl⟩

/-- A path can be cut in front of each of its retirements. -/
theorem before {earlier later : List (Retirement size)} {r : Retirement size}
    (h : Path p c (earlier ++ r :: later) d) : Path p c earlier r.before := by
  induction earlier generalizing c with
  | nil =>
    cases h
    exact .nil c
  | cons s earlier ih =>
    cases h with
    | cons hf hrest => exact .cons hf (ih hrest)

/-- A part of the core that only retirements of one kind change is as the latest of them left it,
or as it was at the start of the path if there is none. -/
theorem eq_latest {α : Type} (part : Core size → α) (kind : Retirement size → Bool)
    (hkeep : ∀ r : Retirement size, r.Proper → ¬kind r → part r.after = part r.before)
    (h : Path p c rs d) :
    part d =
      match latest? kind rs with
      | some s => part s.after
      | none => part c := by
  induction h with
  | nil => rfl
  | @cons c after d i rs hf _ ih =>
    rw [ih, latest?_cons]
    -- The first retirement counts only if no later one is of the kind.
    cases latest? kind rs with
    | some s => rfl
    | none =>
      rw [Option.none_or]
      by_cases hkind : kind ⟨i, c, after.advance⟩
      · rw [if_pos hkind]
      · rw [if_neg hkind]
        exact hkeep ⟨i, c, after.advance⟩ ⟨after, (fate_eq_retires_iff.1 hf).2.2, rfl⟩ hkind

end Path

end Core

namespace Machine

variable {p : Program} {m : Machine size}

/-! ## Retirements of steps -/

/-- A step that retires nothing leaves the core and the run ended. One that retires an instruction
takes the core from where the retirement begins to where it ends. -/
theorem retirement?_cases (p : Program) (m : Machine size) :
    (m.retirement? p = none ∧ (m.step p).machine.toCore = m.toCore ∧
      ∃ o, (m.step p).machine.status = .ended o) ∨
    ∃ i after, m.toCore.fate p = .retires i after ∧
      m.retirement? p = some ⟨i, m.toCore, after.advance⟩ ∧
      (m.step p).machine.toCore = after.advance := by
  refine step_cases (motive := fun r =>
    (m.retirement? p = none ∧ r.machine.toCore = m.toCore ∧ ∃ o, r.machine.status = .ended o) ∨
    ∃ i after, m.toCore.fate p = .retires i after ∧
      m.retirement? p = some ⟨i, m.toCore, after.advance⟩ ∧
      r.machine.toCore = after.advance) p m ?_ ?_ ?_ ?_
  · intro o hs
    exact .inl ⟨retirement?_of_ended hs, rfl, o, hs⟩
  · intro o hs hf
    refine .inl ⟨?_, rfl, o, rfl⟩
    rw [retirement?_of_running hs, hf]
  · intro i after hs hf _
    refine .inr ⟨i, after, hf, ?_, rfl⟩
    rw [retirement?_of_running hs, hf]
  · intro i after hs hf _
    refine .inr ⟨i, after, hf, ?_, rfl⟩
    rw [retirement?_of_running hs, hf]

theorem retirements_succ (p : Program) (m : Machine size) (n : Nat) :
    m.retirements p (n + 1) =
      (m.retirement? p).toList ++ (m.step p).machine.retirements p n := rfl

theorem retirements_of_ended {o : Outcome} (hs : m.status = .ended o) (n : Nat) :
    m.retirements p n = [] := by
  induction n with
  | zero => rfl
  | succ n ih =>
    rw [retirements_succ, retirement?_of_ended hs, step_of_ended hs, ih]
    rfl

/-- Steps follow the path of what they retire. -/
theorem path_steps (p : Program) (m : Machine size) (n : Nat) :
    Core.Path p m.toCore (m.retirements p n) (m.steps p n).machine.toCore := by
  induction n generalizing m with
  | zero => exact .nil m.toCore
  | succ n ih =>
    have hrest := ih (m.step p).machine
    rw [retirements_succ, machine_steps_succ]
    rcases retirement?_cases p m with ⟨hnone, hcore, -⟩ | ⟨i, after, hf, hsome, hcore⟩
    · rw [hnone]
      rw [hcore] at hrest
      exact hrest
    · rw [hsome]
      rw [hcore] at hrest
      exact .cons hf hrest

/-- What retires first is retired by the first step. -/
theorem toCore_step_of_retirements {n : Nat} {r : Retirement size}
    {later : List (Retirement size)} (h : m.retirements p n = r :: later) :
    (m.step p).machine.toCore = r.after ∧ ∃ k, later = (m.step p).machine.retirements p k := by
  cases n with
  | zero => cases h
  | succ k =>
    rw [retirements_succ] at h
    rcases retirement?_cases p m with ⟨hnone, -, o, hs⟩ | ⟨i, after, -, hsome, hcore⟩
    · rw [hnone, retirements_of_ended hs] at h
      cases h
    · rw [hsome] at h
      cases h
      exact ⟨hcore, k, rfl⟩

/-- Retirements and steps keep pace: what retires as the `k`-th is retired by the `k`-th step. -/
theorem toCore_steps_of_retirements {n : Nat} {earlier later : List (Retirement size)}
    {r : Retirement size} (h : m.retirements p n = earlier ++ r :: later) :
    (m.steps p (earlier.length + 1)).machine.toCore = r.after := by
  induction earlier generalizing m n with
  | nil => exact (toCore_step_of_retirements h).1
  | cons s earlier ih =>
    obtain ⟨-, k, hk⟩ := toCore_step_of_retirements h
    exact ih hk.symm

/-! ## The history of a run -/

/-- What a run retires, in order. The steps that the limit leaves room for contain the run, and
those beyond its end retire nothing. -/
def history (p : Program) (m : Machine size) : List (Retirement size) :=
  m.restart.retirements p (m.config.limit + 1)

theorem machine_run (p : Program) (m : Machine size) :
    (m.run p).machine = (m.restart.steps p (m.config.limit + 1)).machine := by
  obtain ⟨n, o, h, hn⟩ := exists_endsIn p m.restart
  have hle : n ≤ m.config.limit + 1 := by
    have hrem : m.restart.remaining = m.config.limit + 1 := rfl
    omega
  rw [h.steps_of_le hle]
  show (m.restart.resume p).machine = _
  rw [h.resume_eq]

theorem path_history (p : Program) (m : Machine size) :
    Core.Path p m.toCore (m.history p) (m.run p).machine.toCore := by
  rw [machine_run]
  exact path_steps p m.restart _

/-- A run counts all of its history, and nothing else. -/
theorem length_history (p : Program) (m : Machine size) :
    (m.history p).length = (m.run p).machine.retired := by
  rw [machine_run, retired_steps]
  exact (Nat.zero_add _).symm

end Machine

end Accumulator
