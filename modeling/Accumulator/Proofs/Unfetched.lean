import Accumulator.Proofs.Fetching

/-!
# Only what is fetched counts

A program is seen through its fetches alone: `resume_congr` compares the run of a program with that of
any other that holds the same at the addresses fetched. Two ways to change a program leave those
addresses alone. `Program.edit` changes slots in their places, and the appended program only adds slots
behind the last one, which a run that does not leave its program never fetches
(`mem_of_fetches`).
-/

namespace Accumulator

namespace Program

variable {p q : Program} {address : Int}

/-- The program with the slots of another one behind its own. -/
instance : Append Program := ⟨fun p q => ⟨p.slots ++ q.slots⟩⟩

theorem fetch_append_of_lt (h : address < p.size) : (p ++ q).fetch address = p.fetch address := by
  rcases Int.lt_or_le address 0 with hneg | hnonneg
  · rw [fetch_eq_none_iff.2 (.inl hneg), fetch_eq_none_iff.2 (.inl hneg)]
  · obtain ⟨i, rfl⟩ := Int.eq_ofNat_of_zero_le hnonneg
    rw [fetch_natCast, fetch_natCast]
    exact Array.getElem?_append_left (by simpa [size] using h)

/-- The program with each slot changed as `f` says for its address. -/
def edit (p : Program) (f : Nat → Slot → Slot) : Program := ⟨p.slots.mapIdx f⟩

theorem fetch_map (p : Program) (f : Slot → Slot) (address : Int) :
    (⟨p.slots.map f⟩ : Program).fetch address = (p.fetch address).map f := by
  unfold fetch
  split
  · rfl
  · rw [Array.getElem?_map]

theorem fetch_edit (p : Program) (f : Nat → Slot → Slot) (address : Int) :
    (p.edit f).fetch address = (p.fetch address).map (f address.toNat) := by
  unfold fetch edit
  split
  · rfl
  · rw [Array.getElem?_mapIdx]

end Program

namespace Machine

variable {size : Nat} {p q : Program} {m : Machine size} {address : Int}

/-! ## The addresses of a run -/

/-- A running machine fetches at its program counter. -/
theorem fetches_pc (hs : m.status = .running) : Fetches p m m.pc :=
  ⟨m.toCore, ⟨0, hs, rfl⟩, rfl⟩

theorem fetches_of_step (h : Fetches p (m.step p).machine address) : Fetches p m address := by
  obtain ⟨c, ⟨n, hn, hc⟩, hpc⟩ := h
  exact ⟨c, ⟨n + 1, hn, hc⟩, hpc⟩

/-- Nothing is fetched from the end of the run on. -/
theorem exists_lt_of_fetches {n : Nat} {o : Outcome} (hend : EndsIn p m n o)
    (h : Fetches p m address) : ∃ k, k < n ∧ (m.steps p k).machine.pc = address := by
  obtain ⟨c, ⟨k, hk, hc⟩, hpc⟩ := h
  refine ⟨k, ?_, hc ▸ hpc⟩
  rcases Nat.lt_or_ge k n with hlt | hge
  · exact hlt
  · rw [hend.steps_of_le hge, hend.status_steps] at hk
    cases hk

/-- A run that does not leave its program fetches in it only. -/
theorem mem_of_fetches (hs : m.status = .running)
    (ho : (m.resume p).outcome ≠ .halted .endOfProgram) (h : Fetches p m address) :
    0 ≤ address ∧ address < p.size := by
  obtain ⟨c, hc, rfl⟩ := h
  by_cases hmem : 0 ≤ c.pc ∧ c.pc < p.size
  · exact hmem
  · have hleft := (outcome_resume_eq_iff hs rfl).2 ⟨c, hc, Core.fate_eq_endOfProgram_iff.2 hmem⟩
    exact absurd hleft ho

/-! ## Runs of two programs -/

/-- A run goes the same way in a program that holds the same at every address that it fetches. -/
theorem resume_congr (hs : m.status = .running)
    (h : ∀ address, Fetches p m address → q.fetch address = p.fetch address) :
    m.resume q = m.resume p := by
  induction m using run_induction p with
  | last m o ho =>
    have hstep : m.step q = m.step p := step_congr (h m.pc (fetches_pc hs))
    rw [resume_of_ended ho, resume_of_ended (hstep ▸ ho), hstep]
  | later m hr ih =>
    have hstep : m.step q = m.step p := step_congr (h m.pc (fetches_pc hs))
    have hrest := ih ((status_step p m).trans hr) fun a ha => h a (fetches_of_step ha)
    rw [resume_of_running hr, resume_of_running (hstep ▸ hr), hstep, hrest]

/-- A run depends on its program through the slots that it fetches, and on nothing else. Slots that it
does not fetch can be changed, and slots can be added behind a program that the run does not leave,
without any effect on how the run ends, on the machine at its end and on what it reports. -/
theorem only_fetched_slots_matter (p : Program) (m : Machine size) :
    (∀ q : Program, (∀ address, Fetches p m.restart address → q.fetch address = p.fetch address) →
      m.run q = m.run p) ∧
    (∀ f : Nat → Slot → Slot,
      (∀ (i : Nat) slot, Fetches p m.restart i → p.fetch i = some slot → f i slot = slot) →
      m.run (p.edit f) = m.run p) ∧
    ∀ behind : Program, (m.run p).outcome ≠ .halted .endOfProgram →
      m.run (p ++ behind) = m.run p := by
  refine ⟨fun q h => resume_congr rfl h, fun f h => resume_congr rfl ?_,
    fun behind ho => resume_congr rfl ?_⟩
  · intro address hfetches
    rw [Program.fetch_edit]
    cases hslot : p.fetch address with
    | none => rfl
    | some slot =>
      have hmem : ¬(address < 0 ∨ (p.size : Int) ≤ address) := by
        simp [← Program.fetch_eq_none_iff, hslot]
      obtain ⟨i, rfl⟩ := Int.eq_ofNat_of_zero_le (show 0 ≤ address by omega)
      rw [Option.map_some, Int.toNat_natCast, h i slot hfetches hslot]
  · intro address hfetches
    exact Program.fetch_append_of_lt (mem_of_fetches rfl ho hfetches).2

/-- A branch leads around a malformed line: nothing depends on that line, nor on lines behind the
`STOP` that the run comes to. -/
theorem only_fetched_slots_matter_around_a_malformed_line :
    let p : Program := ⟨#[.encoded 0b10110010, .encoded 0b11010000, .encoded 0b11100000,
      .malformed "skipped", .encoded 0b11110000]⟩
    let q : Program := ⟨#[.encoded 0b10110010, .encoded 0b11010000, .encoded 0b11100000,
      .malformed "", .encoded 0b11110000, .malformed "x"]⟩
    let m := fresh Config.standard (Memory.zeroed 4)
    (m.run p).outcome = .halted .stop ∧ (m.run p).machine.retired = 3 ∧
      (∀ address, Fetches p m.restart address → q.fetch address = p.fetch address) ∧
      m.run q = m.run p ∧
      m.run (p.edit fun i slot => if i = 3 then .malformed "1010" else slot) = m.run p ∧
      m.run (p ++ q) = m.run p := by
  intro p q m
  have hfirst : FirstHalt p m.restart 4 := ⟨by decide, by decide, by decide⟩
  obtain ⟨o, hend⟩ := firstHalt_iff.1 hfirst
  have hpcs : ∀ k, k < 4 → let pc := (m.restart.steps p k).machine.pc
      pc = 0 ∨ pc = 1 ∨ pc = 2 ∨ pc = 4 := by decide
  have haddresses : ∀ address, Fetches p m.restart address →
      address = 0 ∨ address = 1 ∨ address = 2 ∨ address = 4 := by
    intro address h
    obtain ⟨k, hk, rfl⟩ := exists_lt_of_fetches hend h
    exact hpcs k hk
  obtain ⟨hcongr, hedit, happend⟩ := only_fetched_slots_matter p m
  have hstop : (m.run p).outcome = .halted .stop := by decide +kernel
  have hagree : ∀ address, Fetches p m.restart address → q.fetch address = p.fetch address := by
    intro address h
    rcases haddresses address h with rfl | rfl | rfl | rfl <;> rfl
  refine ⟨hstop, by decide +kernel, hagree, hcongr q hagree, hedit _ ?_, happend q ?_⟩
  · intro i slot h _
    have hne : i ≠ 3 := by
      have hi := haddresses i h
      omega
    exact if_neg hne
  · rw [hstop]
    decide

end Machine

end Accumulator
