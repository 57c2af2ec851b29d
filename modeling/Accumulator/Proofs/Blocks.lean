import Accumulator.Proofs.Effects
import Accumulator.Proofs.History

/-!
# Straight-line code

A block is a list of instructions that are carried out one after the other. As long as they are plain
(they leave the program counter and the branch target alone), what a block does depends on the
registers and the memory only, not on where its words stand (`execute_goTo`). Where a program holds
the words of a block, the machine goes through them in order (`path_of_block`), and as long as the
limit lets it, it does so in as many steps (`follows_of_path`).
-/

namespace Accumulator

variable {size : Nat}

/-! ## The words of a block -/

namespace Program

variable {p : Program} {start : Int} {word : Byte} {words words' : List Byte}

/-- The program holds the words one behind the other, the first of them at the address `start`. -/
def Holds (p : Program) (start : Int) (words : List Byte) : Prop :=
  ∀ (i : Nat) (h : i < words.length), p.fetch (start + i) = some (.encoded words[i])

instance (p : Program) (start : Int) (words : List Byte) : Decidable (p.Holds start words) :=
  inferInstanceAs (Decidable (∀ (i : Nat) (_ : i < words.length), _))

theorem holds_cons_iff :
    p.Holds start (word :: words) ↔
      p.fetch start = some (.encoded word) ∧ p.Holds (start + 1) words := by
  constructor
  · intro h
    refine ⟨?_, fun i hi => ?_⟩
    · simpa using h 0 (Nat.zero_lt_succ _)
    · have hnext := h (i + 1) (Nat.succ_lt_succ hi)
      rwa [Int.natCast_succ, Int.add_comm (i : Int) 1, ← Int.add_assoc] at hnext
  · rintro ⟨hfirst, hrest⟩ i hi
    cases i with
    | zero => simpa using hfirst
    | succ i =>
      have hnext := hrest i (Nat.lt_of_succ_lt_succ hi)
      rwa [Int.add_assoc, Int.add_comm 1, ← Int.natCast_succ] at hnext

theorem holds_append_iff :
    p.Holds start (words ++ words') ↔
      p.Holds start words ∧ p.Holds (start + words.length) words' := by
  induction words generalizing start with
  | nil => simp [Holds]
  | cons word words ih =>
    rw [List.cons_append, holds_cons_iff, holds_cons_iff, ih, and_assoc, List.length_cons,
      Int.natCast_succ, Int.add_comm (words.length : Int) 1, Int.add_assoc]

theorem instruction?_of_fetch {address : Int} (h : p.fetch address = some (.encoded word)) :
    p.instruction? address = some (.ok (.decode word)) := by
  rw [instruction?, h]
  rfl

end Program

/-- The opcode leaves the program counter and the branch target alone, and does not stop the run. -/
def Opcode.Plain (op : Opcode) : Prop := op ≠ .spc ∧ op ≠ .b ∧ op ≠ .bslt ∧ op ≠ .stop

instance (op : Opcode) : Decidable op.Plain := inferInstanceAs (Decidable (_ ∧ _))

namespace Core

variable {p : Program} {c d : Core size} {i : Instruction} {is : List Instruction}

/-! ## What a block does -/

/-- Carries out instructions one after the other, each on the core that the one before it leaves, up to
the first that fails. The program counter is not moved on. -/
def block (c : Core size) (is : List Instruction) : Except Fault (Core size) := is.foldlM execute c

theorem block_cons_eq_ok_iff :
    c.block (i :: is) = .ok d ↔ ∃ after, c.execute i = .ok after ∧ after.block is = .ok d := by
  unfold block
  rw [List.foldlM_cons]
  cases c.execute i with
  | error f => simp [bind, Except.bind]
  | ok after => simp [bind, Except.bind]

/-- The core with its program counter at an address. -/
def goTo (c : Core size) (address : Int) : Core size := { c with pc := address }

/-- A plain instruction does the same wherever it stands. -/
theorem execute_goTo (h : i.opcode.Plain) (c : Core size) (address : Int) :
    (c.goTo address).execute i = (c.execute i).map fun after => after.goTo address := by
  obtain ⟨op, field⟩ := i
  obtain ⟨hspc, hb, hbslt, hstop⟩ := h
  rw [execute_eq, execute_eq c]
  cases op with
  | spc => exact absurd rfl hspc
  | b => exact absurd rfl hb
  | bslt => exact absurd rfl hbslt
  | stop => exact absurd rfl hstop
  | _ => exact withOperand_eq_map fun _ => rfl

theorem target_of_block (hplain : ∀ i ∈ is, i.opcode.Plain) (h : c.block is = .ok d) :
    d.registers.target = c.registers.target := by
  induction is generalizing c with
  | nil =>
    cases h
    rfl
  | cons i is ih =>
    obtain ⟨after, hi, his⟩ := block_cons_eq_ok_iff.1 h
    rw [ih (fun j hj => hplain j (List.mem_cons_of_mem i hj)) his,
      target_of_ne_spc hi (hplain i List.mem_cons_self).1]

/-- What a fetched instruction that is no `STOP` comes to is up to its operand. -/
theorem fate_of_fetch {word : Byte} (hfetch : p.fetch c.pc = some (.encoded word))
    (hstop : (Instruction.decode word).opcode ≠ .stop) :
    c.fate p =
      match c.execute (.decode word) with
      | .error f => .ends (.faulted f)
      | .ok after => .retires (.decode word) after := by
  unfold fate
  rw [Program.instruction?_of_fetch hfetch]
  exact if_neg hstop

/-! ## Paths through a block -/

/-- All retirements of a path are of instructions at addresses from `first` on and before `last`. -/
def Within (first last : Int) (rs : List (Retirement size)) : Prop :=
  ∀ r ∈ rs, first ≤ r.before.pc ∧ r.before.pc < last

theorem within_nil (first last : Int) : Within first last ([] : List (Retirement size)) :=
  fun _ hr => absurd hr List.not_mem_nil

theorem Within.append {first last : Int} {rs rs' : List (Retirement size)}
    (h : Within first last rs) (h' : Within first last rs') : Within first last (rs ++ rs') := by
  intro r hr
  rcases List.mem_append.1 hr with hr | hr
  · exact h r hr
  · exact h' r hr

/-- Where a program holds the words of a block of plain instructions, they retire one after the other
and do what the block does. -/
theorem path_of_block {start : Int} {words : List Byte} (hwords : p.Holds start words)
    (hplain : ∀ word ∈ words, (Instruction.decode word).opcode.Plain)
    (h : c.block (words.map .decode) = .ok d) :
    ∃ rs, rs.length = words.length ∧ Within start (start + words.length) rs ∧
      Path p (c.goTo start) rs (d.goTo (start + words.length)) := by
  induction words generalizing c start with
  | nil =>
    cases h
    refine ⟨[], rfl, within_nil _ _, ?_⟩
    rw [List.length_nil, Int.natCast_zero, Int.add_zero]
    exact .nil _
  | cons word words ih =>
    obtain ⟨after, hi, his⟩ := block_cons_eq_ok_iff.1 h
    obtain ⟨hfetch, hrest⟩ := Program.holds_cons_iff.1 hwords
    have hword := hplain word List.mem_cons_self
    obtain ⟨rs, hlength, hwithin, hpath⟩ :=
      ih hrest (fun w hw => hplain w (List.mem_cons_of_mem word hw)) his
    have hfate : (c.goTo start).fate p = .retires (.decode word) (after.goTo start) := by
      rw [fate_of_fetch hfetch hword.2.2.2, execute_goTo hword, hi]
      rfl
    have hend : start + 1 + (words.length : Int) = start + (word :: words).length := by
      rw [List.length_cons, Int.natCast_succ]
      omega
    rw [hend] at hwithin hpath
    refine ⟨⟨.decode word, c.goTo start, (after.goTo start).advance⟩ :: rs,
      congrArg Nat.succ hlength, ?_, .cons hfate hpath⟩
    intro r hr
    rcases List.mem_cons.1 hr with rfl | hr
    · show start ≤ start ∧ start < _
      omega
    · have hbounds := hwithin r hr
      omega

end Core

/-! ## Steps along a path -/

namespace Machine

variable {p : Program} {m : Machine size} {d : Core size} {rs : List (Retirement size)}

/-- What becomes of a machine that retires `rs`, with steps that all go on. -/
structure Follows (p : Program) (m : Machine size) (rs : List (Retirement size)) (d : Core size) :
    Prop where
  outcome : ∀ k, 0 < k → k ≤ rs.length → (m.steps p k).outcome = some .running
  before : ∀ (k : Nat) (h : k < rs.length), (m.steps p k).machine.toCore = rs[k].before
  toCore : (m.steps p rs.length).machine.toCore = d
  retired : (m.steps p rs.length).machine.retired = m.retired + rs.length
  status : (m.steps p rs.length).machine.status = .running

/-- A running machine follows every path of its core that the limit lets it go to the end. -/
theorem follows_of_path (h : Core.Path p m.toCore rs d) (hs : m.status = .running)
    (hl : 0 < rs.length → m.retired + rs.length ≤ m.config.limit) : Follows p m rs d := by
  generalize hc : m.toCore = c at h
  induction h generalizing m with
  | nil c =>
    -- There is no step to speak of.
    refine ⟨fun k hpos hk => absurd hk (Nat.not_le_of_lt hpos), fun k hk => absurd hk (Nat.not_lt_zero k),
      hc, rfl, hs⟩
  | @cons c after d i rs hf _ ih =>
    subst hc
    have hlimit := hl (Nat.zero_lt_succ _)
    rw [List.length_cons] at hlimit
    have hstep := step_of_retires hs hf (by omega)
    have hrest : Follows p (m.step p).machine rs d := by
      rw [hstep]
      refine ih hs (fun _ => ?_) rfl
      show m.retired + 1 + rs.length ≤ m.config.limit
      omega
    refine ⟨fun k hpos hk => ?_, fun k hk => ?_, hrest.toCore, ?_, hrest.status⟩
    · obtain ⟨j, rfl⟩ : ∃ j, k = j + 1 := ⟨k - 1, by omega⟩
      rw [steps_succ]
      by_cases hj : j = 0
      · rw [hj, steps_zero, Option.none_or, hstep]
      · rw [hrest.outcome j (by omega) (by simpa using hk)]
        rfl
    · cases k with
      | zero => rfl
      | succ k => exact hrest.before k (Nat.lt_of_succ_lt_succ hk)
    · show ((m.step p).machine.steps p rs.length).machine.retired = _
      rw [hrest.retired, hstep]
      show m.retired + 1 + rs.length = m.retired + (rs.length + 1)
      omega

/-- If the core at the end of the path calls for the end of the run, the next step ends it. -/
theorem Follows.ends {o : Outcome} (h : Follows p m rs d) (hf : d.fate p = .ends o) :
    FirstHalt p m (rs.length + 1) ∧
      (m.steps p (rs.length + 1)).outcome = some (.ended o) ∧
      (m.steps p (rs.length + 1)).machine = (m.steps p rs.length).machine.endedWith o := by
  have hlast := step_of_ends h.status (h.toCore ▸ hf)
  have houtcome : (m.steps p (rs.length + 1)).outcome = some (.ended o) := by
    rw [steps_add, steps_succ, hlast]
    rfl
  refine ⟨⟨Nat.succ_pos _, ?_, ?_⟩, houtcome, ?_⟩
  · rw [houtcome]
    exact nofun
  · exact fun k hk hpos => h.outcome k hpos (Nat.le_of_lt_succ hk)
  · rw [steps_add, machine_steps_one, hlast]

end Machine

end Accumulator
