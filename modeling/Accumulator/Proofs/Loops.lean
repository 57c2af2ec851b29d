import Accumulator.Proofs.Blocks

/-!
# Loops

A body of plain instructions with a `BSLT` behind it is a loop if the branch target is the address in
front of the body: the branch that is taken leads to the address behind the target, where the body
begins. `DoWhile` is the structured loop that this stands for. It knows no addresses; it carries out
the body as a block, and again as long as the accumulator is less than a register.
`loops_run_as_written` says that the machine does what the structured loop does, and in how many
steps. The induction is on the rounds of the loop (`path_of_rounds`).
-/

namespace Accumulator

variable {size : Nat}

/-! ## The structured loop -/

/-- The accumulator is less than register `t`. -/
def Core.Below (c : Core size) (t : Fin 8) : Prop :=
  c.registers.accumulator.toInt < (c.registers.get t).toInt

instance (c : Core size) (t : Fin 8) : Decidable (c.Below t) := inferInstanceAs (Decidable (_ < _))

/-- How a loop ends: behind a whole body, or with the instruction of the body that has the number
`place` and fails on the core `c`. -/
inductive LoopEnd (size : Nat) where
  | done (c : Core size)
  | stuck (place : Nat) (fault : Fault) (c : Core size)
  deriving DecidableEq, Repr

section Structured

variable (body : List Instruction) (t : Fin 8)

/-- From the core `c`, the body is carried out `k` times, each time with the accumulator less than
register `t` behind it, so that the loop begins another iteration, with the core `d`. -/
inductive Rounds : Nat → (c d : Core size) → Prop
  | none (c : Core size) : Rounds 0 c c
  | more {k : Nat} {c d e : Core size} :
      c.block body = .ok d → d.Below t → Rounds k d e → Rounds (k + 1) c e

/-- The loop `do body while the accumulator is less than register t`, from the core `c`: it ends in
its `k`-th iteration. -/
inductive DoWhile (c : Core size) : Nat → LoopEnd size → Prop
  | done {k : Nat} {d e : Core size} :
      Rounds body t k c d → d.block body = .ok e → ¬e.Below t → DoWhile c (k + 1) (.done e)
  | stuck {k place : Nat} {d e : Core size} {i : Instruction} {f : Fault} :
      Rounds body t k c d → d.block (body.take place) = .ok e → body[place]? = some i →
      e.execute i = .error f → DoWhile c (k + 1) (.stuck place f e)

end Structured

/-! ## The loop in a program -/

/-- From the address `start` on, the program holds the words of a body of plain instructions, and
behind them `BSLT` with register `t`. -/
structure Program.LoopsAt (p : Program) (start : Int) (body : List Byte) (test : Byte) (t : Fin 8) :
    Prop where
  words : p.Holds start (body ++ [test])
  plain : ∀ word ∈ body, (Instruction.decode word).opcode.Plain
  opcode : (Instruction.decode test).opcode = .bslt
  register : registerNumber? (Instruction.decode test).operand = some t

namespace Program.LoopsAt

variable {p : Program} {start : Int} {body : List Byte} {test : Byte} {t : Fin 8}

theorem holds_body (h : p.LoopsAt start body test t) : p.Holds start body :=
  (holds_append_iff.1 h.words).1

theorem fetch_test (h : p.LoopsAt start body test t) :
    p.fetch (start + body.length) = some (.encoded test) :=
  (holds_cons_iff.1 (holds_append_iff.1 h.words).2).1

theorem plain_map (h : p.LoopsAt start body test t) :
    ∀ i ∈ body.map Instruction.decode, i.opcode.Plain := by
  intro i hi
  obtain ⟨word, hword, rfl⟩ := List.mem_map.1 hi
  exact h.plain word hword

end Program.LoopsAt

namespace Core

variable {p : Program} {start : Int} {body : List Byte} {test : Byte} {t : Fin 8} {c d e : Core size}

/-- The branch behind the body is taken exactly if the loop goes on. -/
theorem fate_of_test (hcode : p.LoopsAt start body test t) (c : Core size) :
    (c.goTo (start + body.length)).fate p =
      .retires (.decode test)
        (if c.Below t then (c.goTo (start + body.length)).branch
          else c.goTo (start + body.length)) := by
  have hfetch : p.fetch (c.goTo (start + body.length)).pc = some (.encoded test) := hcode.fetch_test
  have hop := hcode.opcode
  have hregister := hcode.register
  have hexecute : (c.goTo (start + body.length)).execute (.decode test) =
      .ok (if c.Below t then (c.goTo (start + body.length)).branch
        else c.goTo (start + body.length)) := by
    rw [execute_eq, hop]
    exact withOperand_of_some hregister
  rw [fate_of_fetch hfetch (by rw [hop]; decide), hexecute]

/-- One iteration of the loop: the body and the branch. -/
theorem path_of_iteration (hcode : p.LoopsAt start body test t)
    (htarget : c.registers.target + 1 = start) (h : c.block (body.map .decode) = .ok d) :
    ∃ rs, rs.length = body.length + 1 ∧ Within start (start + body.length + 1) rs ∧
      Path p (c.goTo start) rs
        (d.goTo (if d.Below t then start else start + body.length + 1)) := by
  obtain ⟨rs, hlength, hwithin, hpath⟩ := path_of_block hcode.holds_body hcode.plain h
  have hd : d.registers.target + 1 = start := by
    rw [target_of_block hcode.plain_map h]
    exact htarget
  have htest := fate_of_test hcode d
  refine ⟨rs ++ [⟨.decode test, d.goTo (start + body.length), _⟩], ?_, ?_,
    hpath.append (.cons htest ?_)⟩
  · rw [List.length_append, hlength]
    rfl
  · intro r hr
    rcases List.mem_append.1 hr with hr | hr
    · have hbounds := hwithin r hr
      omega
    · rw [List.mem_singleton.1 hr]
      show start ≤ start + body.length ∧ start + body.length < _
      omega
  · split
    · have hback : (d.goTo (start + body.length)).branch.advance = d.goTo start := by
        show { d with pc := d.registers.target + 1 } = { d with pc := start }
        rw [hd]
      rw [hback]
      exact .nil _
    · exact .nil _

theorem target_of_rounds {k : Nat} (hcode : p.LoopsAt start body test t)
    (h : Rounds (body.map .decode) t k c d) : d.registers.target = c.registers.target := by
  induction h with
  | none => rfl
  | more hblock _ _ ih => rw [ih, target_of_block hcode.plain_map hblock]

/-- As many rounds as the loop makes, the machine makes. -/
theorem path_of_rounds {k : Nat} (hcode : p.LoopsAt start body test t)
    (htarget : c.registers.target + 1 = start) (h : Rounds (body.map .decode) t k c d) :
    ∃ rs, rs.length = k * (body.length + 1) ∧ Within start (start + body.length + 1) rs ∧
      Path p (c.goTo start) rs (d.goTo start) := by
  induction h with
  | none c => exact ⟨[], (Nat.zero_mul _).symm, within_nil _ _, .nil _⟩
  | @more k c d e hblock hbelow _ ih =>
    obtain ⟨rs, hlength, hwithin, hpath⟩ := path_of_iteration hcode htarget hblock
    rw [if_pos hbelow] at hpath
    obtain ⟨rs', hlength', hwithin', hpath'⟩ :=
      ih (by rw [target_of_block hcode.plain_map hblock]; exact htarget)
    refine ⟨rs ++ rs', ?_, hwithin.append hwithin', hpath.append hpath'⟩
    rw [List.length_append, hlength, hlength', Nat.succ_mul, Nat.add_comm]

/-- A loop that is done has made the machine go to the address behind its branch. -/
theorem path_of_done {k : Nat} (hcode : p.LoopsAt start body test t)
    (htarget : c.registers.target + 1 = start)
    (h : DoWhile (body.map .decode) t c k (.done d)) :
    ∃ rs, rs.length = k * (body.length + 1) ∧ Within start (start + body.length + 1) rs ∧
      Path p (c.goTo start) rs (d.goTo (start + body.length + 1)) := by
  cases h with
  | @done k b _ hrounds hblock hexit =>
    obtain ⟨rs, hlength, hwithin, hpath⟩ := path_of_rounds hcode htarget hrounds
    obtain ⟨rs', hlength', hwithin', hpath'⟩ := path_of_iteration hcode
      ((target_of_rounds hcode hrounds).symm ▸ htarget) hblock
    rw [if_neg hexit] at hpath'
    refine ⟨rs ++ rs', ?_, hwithin.append hwithin', hpath.append hpath'⟩
    rw [List.length_append, hlength, hlength', Nat.succ_mul]

/-- Where a word of the body fails, the machine comes to that word when the words in front of it have
retired, and the run ends there. -/
theorem path_of_stuck {k place : Nat} {f : Fault} (hcode : p.LoopsAt start body test t)
    (htarget : c.registers.target + 1 = start)
    (h : DoWhile (body.map .decode) t c k (.stuck place f d)) :
    (∃ rs, rs.length = (k - 1) * (body.length + 1) + place ∧
      Path p (c.goTo start) rs (d.goTo (start + place))) ∧
      (d.goTo (start + place)).fate p = .ends (.faulted f) := by
  cases h with
  | @stuck k _ b _ i _ hrounds hblock hi hf =>
    obtain ⟨hplace, rfl⟩ := List.getElem?_eq_some_iff.1 hi
    rw [List.length_map] at hplace
    rw [List.getElem_map] at hf
    constructor
    · obtain ⟨rs, hlength, -, hpath⟩ := path_of_rounds hcode htarget hrounds
      -- The words in front of the one that fails are a block of their own.
      have htake : p.Holds start (body.take place) :=
        (Program.holds_append_iff.1 ((List.take_append_drop place body).symm ▸ hcode.holds_body)).1
      rw [← List.map_take] at hblock
      obtain ⟨rs', hlength', -, hpath'⟩ :=
        path_of_block htake (fun word hmem => hcode.plain word (List.mem_of_mem_take hmem)) hblock
      rw [List.length_take_of_le (Nat.le_of_lt hplace)] at hlength' hpath'
      refine ⟨rs ++ rs', ?_, hpath.append hpath'⟩
      rw [List.length_append, hlength, hlength', Nat.add_sub_cancel]
    · have hfetch : p.fetch (d.goTo (start + place)).pc = some (.encoded body[place]) :=
        hcode.holds_body place hplace
      have hword := hcode.plain _ (List.getElem_mem hplace)
      rw [fate_of_fetch hfetch hword.2.2.2, execute_goTo hword, hf]
      rfl

end Core

namespace Machine

variable {p : Program} {m : Machine size} {body : List Byte} {test : Byte} {t : Fin 8} {target : Int}

/-- A loop runs as it is written. The machine stands at the beginning of the body, with the branch
target in front of it. If the structured loop is done after `k` iterations and the limit leaves room
for them, the machine leaves the loop with the step `k * (n + 1)` and not earlier, for the address
behind the branch; all these steps go on, and registers and memory are those of the structured loop.
If in its `j`-th iteration the word with the number `i` fails, the run ends at that word with that
fault when `(j - 1) * (n + 1) + i` instructions have retired, with the registers and the memory that
the structured loop has come to. -/
theorem loops_run_as_written (hcode : p.LoopsAt (target + 1) body test t)
    (hs : m.status = .running) (hpc : m.pc = target + 1) (htarget : m.registers.target = target) :
    let n := body.length
    let loop := DoWhile (body.map .decode) t m.toCore
    (∀ k d, loop k (.done d) → m.retired + k * (n + 1) ≤ m.config.limit →
      (∀ s, 0 < s → s ≤ k * (n + 1) → (m.steps p s).outcome = some .running) ∧
      (∀ s, s < k * (n + 1) →
        target < (m.steps p s).machine.pc ∧ (m.steps p s).machine.pc < target + n + 2) ∧
      let m' := (m.steps p (k * (n + 1))).machine
      m'.pc = target + n + 2 ∧ m'.retired = m.retired + k * (n + 1) ∧
        m'.registers = d.registers ∧ m'.memory = d.memory) ∧
    (∀ j i f d, loop j (.stuck i f d) →
      let q := (j - 1) * (n + 1) + i
      (0 < q → m.retired + q ≤ m.config.limit) →
      FirstHalt p m (q + 1) ∧ (m.steps p (q + 1)).outcome = some (.ended (.faulted f)) ∧
      let m' := (m.steps p (q + 1)).machine
      m'.pc = target + 1 + i ∧ m'.retired = m.retired + q ∧
        m'.registers = d.registers ∧ m'.memory = d.memory) := by
  intro n loop
  have hback : m.toCore.registers.target + 1 = target + 1 := by rw [htarget]
  have hbegin : m.toCore.goTo (target + 1) = m.toCore := by rw [← hpc]; rfl
  constructor
  · intro k d h hl
    obtain ⟨rs, hlength, hwithin, hpath⟩ := Core.path_of_done hcode hback h
    rw [hbegin] at hpath
    have hfollows := follows_of_path hpath hs fun _ => hlength ▸ hl
    rw [← hlength]
    refine ⟨hfollows.outcome, fun s hlt => ?_, ?_, hfollows.retired, ?_, ?_⟩
    · have hbounds := hwithin _ (List.getElem_mem hlt)
      rw [hfollows.before s hlt]
      omega
    all_goals rw [hfollows.toCore]
    · show target + 1 + (n : Int) + 1 = _
      omega
    all_goals rfl
  · intro j i f d h q hl
    obtain ⟨⟨rs, hlength, hpath⟩, hfate⟩ := Core.path_of_stuck hcode hback h
    rw [hbegin] at hpath
    change rs.length = q at hlength
    rw [← hlength] at hl ⊢
    have hfollows := follows_of_path hpath hs hl
    obtain ⟨hfirst, houtcome, hmachine⟩ := hfollows.ends hfate
    have hcore : ((m.steps p (rs.length + 1)).machine).toCore = d.goTo (target + 1 + i) := by
      rw [hmachine]
      exact hfollows.toCore
    refine ⟨hfirst, houtcome, congrArg Core.pc hcore, ?_, ?_, ?_⟩
    · rw [hmachine]
      exact hfollows.retired
    all_goals rw [hcore]; rfl

/-- The loop counts register 0 up to 3 and stores each number at its own address. With four cells it
is done after three iterations; with three cells the `STOR` of the third one fails. -/
theorem loops_run_as_written_up_to_the_last_cell :
    let body : List Byte := [0b11000001, 0b01110000]
    let p := Program.ofWords [0b11010010, 0b11000001, 0b01110000, 0b10100001]
    let core (size : Nat) (count : Word) (memory : Memory size) : Core size :=
      ⟨⟨#v[count, 3, 0, 0, 0, 0, 0, 0], 0, 0⟩, 1, memory⟩
    let m (size : Nat) : Machine size := ⟨core size 0 (.zeroed size), 0, .running, ⟨false, 9⟩, none⟩
    let fault : Fault := .invalidOperand ⟨.stor, 0⟩
    p.LoopsAt (0 + 1) body 0b10100001 1 ∧
      (DoWhile (body.map .decode) 1 (m 4).toCore 3 (.done (core 4 3 ⟨#v[0, 1, 2, 3]⟩)) ∧
        ((m 4).steps p 9).machine.pc = 4 ∧ ((m 4).steps p 9).machine.retired = 9 ∧
        ((m 4).steps p 9).machine.memory = ⟨#v[0, 1, 2, 3]⟩) ∧
      DoWhile (body.map .decode) 1 (m 3).toCore 3 (.stuck 1 fault (core 3 3 ⟨#v[0, 1, 2]⟩)) ∧
        ((m 3).steps p (7 + 1)).outcome = some (.ended (.faulted fault)) ∧
        ((m 3).steps p (7 + 1)).machine.pc = 2 ∧ ((m 3).steps p (7 + 1)).machine.retired = 7 ∧
        ((m 3).steps p (7 + 1)).machine.memory = ⟨#v[0, 1, 2]⟩ := by
  intro body p core m fault
  have hcode : p.LoopsAt (0 + 1) body 0b10100001 1 :=
    ⟨by decide, by decide, by decide, by decide⟩
  obtain ⟨hdone, -⟩ := loops_run_as_written (m := m 4) hcode rfl rfl rfl
  obtain ⟨-, hstuck⟩ := loops_run_as_written (m := m 3) hcode rfl rfl rfl
  have hrounds (size : Nat) (c d e : Core size) (hc : c.block (body.map .decode) = .ok d)
      (hd : d.block (body.map .decode) = .ok e) (hbelow : d.Below 1 ∧ e.Below 1) :
      Rounds (body.map .decode) 1 2 c e :=
    .more hc hbelow.1 (.more hd hbelow.2 (.none e))
  have hloop : DoWhile (body.map .decode) 1 (m 4).toCore 3
      (.done (core 4 3 ⟨#v[0, 1, 2, 3]⟩)) :=
    .done (hrounds 4 _ (core 4 1 ⟨#v[0, 1, 0, 0]⟩) (core 4 2 ⟨#v[0, 1, 2, 0]⟩) rfl rfl (by decide))
      rfl (by decide)
  have hfails : DoWhile (body.map .decode) 1 (m 3).toCore 3
      (.stuck 1 fault (core 3 3 ⟨#v[0, 1, 2]⟩)) :=
    .stuck (hrounds 3 _ (core 3 1 ⟨#v[0, 1, 0]⟩) (core 3 2 ⟨#v[0, 1, 2]⟩) rfl rfl (by decide))
      rfl rfl rfl
  have hcount : 3 * (body.length + 1) = 9 := rfl
  have hcount' : (3 - 1) * (body.length + 1) + 1 = 7 := rfl
  have hdone := hdone 3 _ hloop (by decide)
  have hstuck := hstuck 3 1 _ _ hfails (by decide)
  rw [hcount] at hdone
  rw [hcount'] at hstuck
  obtain ⟨-, -, hpc, hretired, -, hmemory⟩ := hdone
  obtain ⟨-, houtcome, hpc', hretired', -, hmemory'⟩ := hstuck
  exact ⟨hcode, ⟨hloop, hpc, hretired, hmemory⟩, hfails, houtcome, hpc', hretired', hmemory'⟩

end Machine

end Accumulator
