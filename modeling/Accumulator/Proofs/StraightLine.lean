import Accumulator.Proofs.Blocks
import Accumulator.Proofs.PostMortem
import Accumulator.Proofs.WrittenProgram

/-!
# Programs without branches

Without branches and `STOP`, the words of a program are carried out in the order in which they stand.
Unlike the words of a block they may stage a branch target, and then it counts at which address they
stand: `Core.line` is the left fold of `execute` over the words, each at its own address. Where the fold
goes through, it gives a path (`path_of_line`), and a path determines the run that takes it
(`run_of_path`): the run ends where the path does, for what it finds there or for the limit.
-/

namespace Accumulator

variable {size : Nat}

/-- The opcode leads to the next address, whatever it finds, and does not stop the run. -/
def Opcode.Straight (op : Opcode) : Prop := op ≠ .b ∧ op ≠ .bslt ∧ op ≠ .stop

instance (op : Opcode) : Decidable op.Straight := inferInstanceAs (Decidable (_ ∧ _))

namespace Core

variable {p : Program} {c d after : Core size} {i : Instruction} {word : Byte} {words : List Byte}
  {start : Nat}

/-! ## The fold over a line of words -/

/-- Carries out words one after the other, each on the core that the one before it leaves, up to the
first that fails. The words stand at the addresses from `start` on, and the program counter is at each
word when it is carried out. -/
def lineFrom (start : Nat) (c : Core size) (words : List Byte) : Except Fault (Core size) :=
  (words.zipIdx start).foldlM (fun d word => (d.goTo word.2).execute (.decode word.1)) c

/-- Carries out all words of a program, from its first address on. -/
def line (c : Core size) (words : List Byte) : Except Fault (Core size) := c.lineFrom 0 words

theorem lineFrom_cons_of_ok (h : (c.goTo start).execute (.decode word) = .ok after) :
    c.lineFrom start (word :: words) = after.lineFrom (start + 1) words := by
  unfold lineFrom
  rw [List.zipIdx_cons, List.foldlM_cons, h]
  rfl

theorem lineFrom_cons_of_error {f : Fault} (h : (c.goTo start).execute (.decode word) = .error f) :
    c.lineFrom start (word :: words) = .error f := by
  unfold lineFrom
  rw [List.zipIdx_cons, List.foldlM_cons, h]
  rfl

/-- A line that does not go through has a first word that fails, on the core that the words in front
of it leave. -/
theorem exists_stuck_of_lineFrom {f : Fault} (h : c.lineFrom start words = .error f) :
    ∃ (n : Nat) (word : Byte) (d : Core size), words[n]? = some word ∧
      c.lineFrom start (words.take n) = .ok d ∧
      (d.goTo (start + n : Nat)).execute (.decode word) = .error f := by
  induction words generalizing c start with
  | nil => cases h
  | cons word words ih =>
    cases he : (c.goTo start).execute (.decode word) with
    | error f' =>
      rw [lineFrom_cons_of_error he] at h
      cases h
      exact ⟨0, word, c, rfl, rfl, he⟩
    | ok after =>
      rw [lineFrom_cons_of_ok he] at h
      obtain ⟨n, word', d, hword, hline, hstuck⟩ := ih h
      refine ⟨n + 1, word', d, hword, ?_, ?_⟩
      · rw [List.take_succ_cons, lineFrom_cons_of_ok he]
        exact hline
      · rw [← Nat.add_assoc, Nat.add_right_comm]
        exact hstuck

/-! ## Paths along a line -/

theorem not_branches_of_straight (h : i.opcode.Straight) : ¬c.Branches i := by
  rintro (hb | ⟨hbslt, -⟩)
  · exact h.1 hb
  · exact h.2.1 hbslt

/-- A straight instruction that is carried out leads to the next address. -/
theorem advance_of_straight {address : Int} (hi : i.opcode.Straight)
    (h : (c.goTo address).execute i = .ok after) : after.advance = after.goTo (address + 1) := by
  have hpc : after.pc = address := pc_of_not_branches h (not_branches_of_straight hi)
  unfold advance
  rw [hpc]
  rfl

/-- Where a program holds the words of a line, they retire one after the other, and do what the fold
does. -/
theorem path_of_lineFrom (hwords : p.Holds start words)
    (hstraight : ∀ word ∈ words, (Instruction.decode word).opcode.Straight)
    (h : c.lineFrom start words = .ok d) :
    ∃ rs, rs.map Retirement.instruction = words.map .decode ∧
      Path p (c.goTo start) rs (d.goTo (start + words.length : Nat)) := by
  induction words generalizing c start with
  | nil =>
    cases h
    exact ⟨[], rfl, .nil _⟩
  | cons word words ih =>
    obtain ⟨hfetch, hrest⟩ := Program.holds_cons_iff.1 hwords
    have hword := hstraight word List.mem_cons_self
    cases he : (c.goTo start).execute (.decode word) with
    | error f =>
      rw [lineFrom_cons_of_error he] at h
      cases h
    | ok after =>
      rw [lineFrom_cons_of_ok he] at h
      obtain ⟨rs, hinstructions, hpath⟩ :=
        ih hrest (fun w hw => hstraight w (List.mem_cons_of_mem word hw)) h
      have hfate : (c.goTo start).fate p = .retires (.decode word) after := by
        rw [fate_of_fetch hfetch hword.2.2, he]
      have hnext : after.advance = after.goTo (start + 1 : Nat) := advance_of_straight hword he
      have hend : start + 1 + words.length = start + (word :: words).length := by
        rw [List.length_cons, Nat.add_assoc, Nat.add_comm 1]
      rw [← hnext, hend] at hpath
      exact ⟨⟨.decode word, c.goTo start, after.advance⟩ :: rs,
        congrArg (List.cons (Instruction.decode word)) hinstructions, .cons hfate hpath⟩

end Core

namespace Machine

variable {p : Program} {m : Machine size} {d : Core size} {rs : List (Retirement size)}

/-! ## Runs along a path -/

/-- A path within the limit, to a core that calls for the end of the run. -/
theorem resume_of_path {o : Outcome} (h : Core.Path p m.toCore rs d) (hs : m.status = .running)
    (hl : m.retired + rs.length ≤ m.config.limit) (hf : d.fate p = .ends o) :
    (m.resume p).outcome = o ∧ (m.resume p).machine.toCore = d ∧
      (m.resume p).machine.retired = m.retired + rs.length := by
  generalize hc : m.toCore = c at h
  induction h generalizing m with
  | nil =>
    subst hc
    have hstep := step_of_ends hs hf
    rw [resume_of_ended (congrArg Reply.outcome hstep), hstep]
    exact ⟨rfl, rfl, rfl⟩
  | @cons c after d i rs hretires _ ih =>
    subst hc
    rw [List.length_cons] at hl ⊢
    have hstep := step_of_retires hs hretires (by omega)
    rw [resume_of_running (congrArg Reply.outcome hstep), hstep, Nat.add_comm rs.length,
      ← Nat.add_assoc]
    refine ih (m := m.retiredTo i after) hs ?_ hf rfl
    show m.retired + 1 + rs.length ≤ m.config.limit
    omega

/-- A path beyond the limit, by the last of its retirements. -/
theorem resume_of_path_beyond (h : Core.Path p m.toCore rs d) (hs : m.status = .running)
    (hwithin : m.retired ≤ m.config.limit) (hl : m.retired + rs.length = m.config.limit + 1) :
    (m.resume p).outcome = .faulted (.limitExceeded m.config.limit) ∧
      (m.resume p).machine.toCore = d ∧
      (m.resume p).machine.retired = m.retired + rs.length := by
  generalize hc : m.toCore = c at h
  induction h generalizing m with
  | nil =>
    rw [List.length_nil] at hl
    omega
  | @cons c after d i rs hretires hrest ih =>
    subst hc
    rw [List.length_cons] at hl ⊢
    by_cases hlast : rs.length = 0
    · -- The retirement that the limit does not let pass.
      have hstep := step_of_retires_beyond hs hretires (by omega)
      rw [List.length_eq_zero_iff] at hlast
      subst hlast
      cases hrest
      rw [resume_of_ended (congrArg Reply.outcome hstep), hstep]
      exact ⟨rfl, rfl, rfl⟩
    · have hstep := step_of_retires hs hretires (by omega)
      rw [resume_of_running (congrArg Reply.outcome hstep), hstep, Nat.add_comm rs.length,
        ← Nat.add_assoc]
      refine ih (m := m.retiredTo i after) hs ?_ ?_ rfl
      · show m.retired + 1 ≤ m.config.limit
        omega
      · show m.retired + 1 + rs.length = m.config.limit + 1
        omega

/-- A run takes every path that the limit lets it take, and ends with it if the path comes to a core that
calls for the end of the run or takes the run beyond the limit. -/
theorem run_of_path {o : Outcome} (h : Core.Path p m.toCore rs d)
    (hend : (rs.length ≤ m.config.limit ∧ d.fate p = .ends o) ∨
      (rs.length = m.config.limit + 1 ∧ o = .faulted (.limitExceeded m.config.limit))) :
    (m.run p).outcome = o ∧ (m.run p).machine.toCore = d ∧ m.history p = rs := by
  have hrun : (m.run p).outcome = o ∧ (m.run p).machine.toCore = d ∧
      (m.run p).machine.retired = 0 + rs.length := by
    rcases hend with ⟨hl, hf⟩ | ⟨hl, rfl⟩
    · exact resume_of_path (m := m.restart) h rfl (by rwa [← Nat.zero_add rs.length] at hl) hf
    · exact resume_of_path_beyond (m := m.restart) h rfl (Nat.zero_le _)
        (by rwa [← Nat.zero_add rs.length] at hl)
  obtain ⟨houtcome, hcore, hretired⟩ := hrun
  have hlength : (m.history p).length = rs.length := by
    rw [length_history, hretired, Nat.zero_add]
  exact ⟨houtcome, hcore, ((path_history p m).eq_of_length h hlength).1⟩

/-! ## Straight-line programs -/

variable {words : List Byte}

/-- Where the fold over the first words of a program goes through, these are what retires, if then the run
comes to its end or is cut off. -/
theorem run_of_line (hstraight : ∀ word ∈ words, (Instruction.decode word).opcode.Straight)
    (hpc : m.pc = 0) {k : Nat} {o : Outcome} (hk : k ≤ words.length)
    (hline : m.toCore.line (words.take k) = .ok d)
    (hend : (k ≤ m.config.limit ∧ (d.goTo k).fate (.ofWords words) = .ends o) ∨
      (k = m.config.limit + 1 ∧ o = .faulted (.limitExceeded m.config.limit))) :
    let r := m.run (.ofWords words)
    r.outcome = o ∧ r.machine.retired = k ∧ r.machine.toCore = d.goTo k ∧
      (m.history (.ofWords words)).map Retirement.instruction =
        (words.take r.machine.retired).map .decode := by
  intro r
  have hlength : (words.take k).length = k := List.length_take_of_le hk
  have hstart : m.toCore.goTo (0 : Nat) = m.toCore := by
    show { m.toCore with pc := 0 } = m.toCore
    rw [← hpc]
  have hholds : (Program.ofWords words).Holds (0 : Nat) (words.take k) := by
    intro i hi
    rw [hlength] at hi
    rw [Int.natCast_zero, Int.zero_add, List.getElem_take]
    exact Program.fetch_ofWords (Nat.lt_of_lt_of_le hi hk)
  obtain ⟨rs, hinstructions, hpath⟩ := Core.path_of_lineFrom hholds
    (fun word hword => hstraight word (List.mem_of_mem_take hword)) hline
  rw [hstart, hlength, Nat.zero_add] at hpath
  have hcount : rs.length = k := by
    rw [← List.length_map Retirement.instruction, hinstructions, List.length_map, hlength]
  obtain ⟨houtcome, hcore, hhistory⟩ := run_of_path hpath (by rw [hcount]; exact hend)
  have hretired : r.machine.retired = k := by rw [← length_history, hhistory, hcount]
  refine ⟨houtcome, hretired, hcore, ?_⟩
  rw [hretired, hhistory, hinstructions]

/-- If the fold over the words that the limit lets the run come to fails, the run ends at the word that
fails. -/
theorem run_of_stuck_line (hstraight : ∀ word ∈ words, (Instruction.decode word).opcode.Straight)
    (hpc : m.pc = 0) {f : Fault} (h : m.toCore.line (words.take (m.config.limit + 1)) = .error f) :
    let r := m.run (.ofWords words)
    ∃ (i : Nat) (word : Byte) (d : Core size), i ≤ m.config.limit ∧ words[i]? = some word ∧
      m.toCore.line (words.take i) = .ok d ∧ (d.goTo i).execute (.decode word) = .error f ∧
      r.outcome = .faulted f ∧ r.machine.retired = i ∧ r.machine.toCore = d.goTo i ∧
      (m.history (.ofWords words)).map Retirement.instruction =
        (words.take r.machine.retired).map .decode := by
  intro r
  obtain ⟨i, word, d, hword, hline, he⟩ := Core.exists_stuck_of_lineFrom h
  rw [List.getElem?_take, Option.ite_none_right_eq_some] at hword
  obtain ⟨hi, hword⟩ := hword
  rw [List.take_take, Nat.min_eq_left (Nat.le_of_lt hi)] at hline
  rw [Nat.zero_add] at he
  obtain ⟨hmem, hget⟩ := List.getElem?_eq_some_iff.1 hword
  have hfetch : (Program.ofWords words).fetch (d.goTo i).pc = some (.encoded word) :=
    hget ▸ Program.fetch_ofWords hmem
  have hfate : (d.goTo i).fate (.ofWords words) = .ends (.faulted f) := by
    rw [Core.fate_of_fetch hfetch (hstraight word (List.mem_of_getElem? hword)).2.2, he]
  exact ⟨i, word, d, Nat.le_of_lt_succ hi, hword, hline, he, run_of_line hstraight hpc
    (Nat.le_of_lt hmem) hline (.inl ⟨Nat.le_of_lt_succ hi, hfate⟩)⟩

/-- A program without branches and `STOP` computes the left fold of its instructions, each carried out at
its own address, over as many words as the limit lets retire and one more. If a word among them fails,
the run ends at the first that does, with its fault, and with what the fold over the words in front of it
has left. If none does, the run leaves the program behind its last word, or it is cut off with
`limit + 1` instructions retired. In each case the words in front of the program counter have retired, and
nothing else. -/
theorem straight_lines_are_folds
    (hstraight : ∀ word ∈ words, (Instruction.decode word).opcode.Straight) (hpc : m.pc = 0) :
    let p := Program.ofWords words
    let n := words.length
    let limit := m.config.limit
    let r := m.run p
    (∀ f, m.toCore.line (words.take (limit + 1)) = .error f →
      ∃ (i : Nat) (word : Byte) (d : Core size), i ≤ limit ∧ words[i]? = some word ∧
        m.toCore.line (words.take i) = .ok d ∧ (d.goTo i).execute (.decode word) = .error f ∧
        f = .invalidOperand (.decode word) ∧
        r.outcome = .faulted f ∧ r.machine.retired = i ∧ r.machine.toCore = d.goTo i) ∧
    (∀ d, m.toCore.line (words.take (limit + 1)) = .ok d →
      (n ≤ limit → r.outcome = .halted .endOfProgram ∧ r.machine.retired = n ∧
        r.machine.toCore = d.goTo n) ∧
      (limit < n → r.outcome = .faulted (.limitExceeded limit) ∧ r.machine.retired = limit + 1 ∧
        r.machine.toCore = d.goTo (limit + 1 : Nat))) ∧
    (m.history p).map Retirement.instruction =
      (words.take r.machine.retired).map Instruction.decode := by
  intro p n limit r
  cases hfold : m.toCore.line (words.take (limit + 1)) with
  | error f =>
    obtain ⟨i, word, d, hi, hword, hline, he, houtcome, hretired, hcore, hhistory⟩ :=
      run_of_stuck_line hstraight hpc hfold
    refine ⟨?_, by simp, hhistory⟩
    rintro _ ⟨⟩
    exact ⟨i, word, d, hi, hword, hline, he, Core.eq_invalidOperand_of_execute he, houtcome, hretired,
      hcore⟩
  | ok d =>
    by_cases hle : n ≤ limit
    · rw [List.take_of_length_le (Nat.le_succ_of_le hle), ← List.take_length (l := words)] at hfold
      have hfate : (d.goTo n).fate p = .ends (.halted .endOfProgram) := by
        rw [Core.fate_eq_endOfProgram_iff, Program.size_ofWords]
        exact fun hmem => Int.lt_irrefl _ hmem.2
      obtain ⟨houtcome, hretired, hcore, hhistory⟩ :=
        run_of_line hstraight hpc (Nat.le_refl n) hfold (.inl ⟨hle, hfate⟩)
      refine ⟨by simp, ?_, hhistory⟩
      rintro _ ⟨⟩
      exact ⟨fun _ => ⟨houtcome, hretired, hcore⟩, fun hlt => absurd hle (Nat.not_le_of_lt hlt)⟩
    · obtain ⟨houtcome, hretired, hcore, hhistory⟩ :=
        run_of_line hstraight hpc (Nat.lt_of_not_le hle) hfold (.inr ⟨rfl, rfl⟩)
      refine ⟨by simp, ?_, hhistory⟩
      rintro _ ⟨⟩
      exact ⟨fun h => absurd h hle, fun _ => ⟨houtcome, hretired, hcore⟩⟩

/-- `SPC` adds its own address to register 0, and the word behind the `STOR` names no register. With the
limit 3, that word is the last one that the limit lets the run come to; with the limit 2, the `STOR` is
the one that is too many. -/
theorem straight_lines_are_folds_up_to_the_limit :
    let words : List Byte := [0b10110010, 0b11010000, 0b01110000, 0b01011001]
    let p := Program.ofWords words
    let m (limit : Nat) := fresh ⟨false, limit⟩ (Memory.zeroed 4)
    let fault : Fault := .invalidOperand ⟨.srl, 9⟩
    let d : Core 4 := ⟨⟨#v[2, 0, 0, 0, 0, 0, 0, 0], 0, 3⟩, 2, ⟨#v[0, 0, 2, 0]⟩⟩
    (∀ word ∈ words, (Instruction.decode word).opcode.Straight) ∧ (∀ limit, (m limit).pc = 0) ∧
      ((m 3).toCore.line (words.take 4) = .error fault ∧ ((m 3).run p).outcome = .faulted fault) ∧
      (m 2).toCore.line (words.take 3) = .ok d ∧
        ((m 2).run p).outcome = .faulted (.limitExceeded 2) ∧
        ((m 2).run p).machine.retired = 3 ∧ ((m 2).run p).machine.toCore = d.goTo 3 := by
  intro words p m fault d
  have hstraight : ∀ word ∈ words, (Instruction.decode word).opcode.Straight := by decide
  have hfails : (m 3).toCore.line (words.take 4) = .error fault := rfl
  have hline : (m 2).toCore.line (words.take 3) = .ok d := rfl
  obtain ⟨hstuck, -, -⟩ := straight_lines_are_folds (m := m 3) hstraight rfl
  obtain ⟨-, hcut, -⟩ := straight_lines_are_folds (m := m 2) hstraight rfl
  obtain ⟨_, _, _, -, -, -, -, -, houtcome, -, -⟩ := hstuck fault hfails
  exact ⟨hstraight, fun _ => rfl, ⟨hfails, houtcome⟩, hline, (hcut d hline).2 (by decide)⟩

end Machine

end Accumulator
