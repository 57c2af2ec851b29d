import Accumulator.Proofs.MemoryImage
import Accumulator.Proofs.SameEffect

/-!
# What a trace line tells

All numbers in a trace line can be read off its text, since every field ends with a delimiter that it does
not contain (`Text.append_cons_inj`). Of the instruction, a line tells the canonical form and nothing more
(`Instruction.render_eq_iff`), and so it leaves open only what has no effect.
-/

namespace Accumulator

namespace Text

variable {c : Char} {l l' k k' : List Char}

/-! ## Fields and delimiters -/

theorem takeWhile_append_cons (h : c ∉ l) : (l ++ c :: k).takeWhile (· ≠ c) = l := by
  rw [List.takeWhile_append_of_pos, List.takeWhile_cons_of_neg (by simp), List.append_nil]
  intro d hd
  simpa using fun e : d = c => h (e ▸ hd)

/-- A delimiter that a field does not contain tells where the field ends. -/
theorem append_cons_inj (h : c ∉ l) (h' : c ∉ l') :
    l ++ c :: k = l' ++ c :: k' ↔ l = l' ∧ k = k' := by
  constructor
  · intro heq
    have hfield : l = l' := by
      rw [← takeWhile_append_cons (k := k) h, heq, takeWhile_append_cons h']
    rw [hfield, List.append_right_inj, List.cons_inj_right] at heq
    exact ⟨hfield, heq⟩
  · rintro ⟨rfl, rfl⟩
    rfl

theorem not_mem_repr (hdigit : c.isDigit = false) (hminus : c ≠ '-') (z : Int) :
    c ∉ z.repr.toList := by
  intro hc
  rcases isDigit_or_minus_of_mem_repr hc with h | h
  · rw [hdigit] at h
    cases h
  · exact hminus h

theorem repr_append_cons_inj (hdigit : c.isDigit = false) (hminus : c ≠ '-') {z z' : Int} :
    z.repr.toList ++ c :: k = z'.repr.toList ++ c :: k' ↔ z = z' ∧ k = k' := by
  rw [append_cons_inj (not_mem_repr hdigit hminus z) (not_mem_repr hdigit hminus z'),
    toList_repr_inj]

/-- The numbers as they stand in a list, without the brackets around it. -/
def listed (zs : List Int) : List Char := (", ".intercalate (zs.map Int.repr)).toList

theorem listed_singleton (z : Int) : listed [z] = z.repr.toList := by
  simp [listed]

theorem listed_cons_cons (z w : Int) (zs : List Int) :
    listed (z :: w :: zs) = z.repr.toList ++ ',' :: ' ' :: listed (w :: zs) := by
  simp [listed, String.toList_intercalate]

/-- The bracket behind a list tells where it ends, and the commas in it tell its numbers. -/
theorem listed_append_cons_inj {zs zs' : List Int} (hlength : zs.length = zs'.length) :
    listed zs ++ ']' :: k = listed zs' ++ ']' :: k' ↔ zs = zs' ∧ k = k' := by
  induction zs generalizing zs' with
  | nil =>
    obtain rfl := List.length_eq_zero_iff.1 hlength.symm
    simp
  | cons z zs ih =>
    obtain ⟨z', zs', rfl⟩ := List.exists_cons_of_length_eq_add_one hlength.symm
    have hlength := Nat.succ.inj hlength
    cases zs with
    | nil =>
      obtain rfl := List.length_eq_zero_iff.1 hlength.symm
      rw [listed_singleton, listed_singleton, repr_append_cons_inj (by decide) (by decide)]
      simp
    | cons w zs =>
      obtain ⟨w', zs', rfl⟩ := List.exists_cons_of_length_eq_add_one hlength.symm
      simp only [listed_cons_cons, List.append_assoc, List.cons_append]
      rw [repr_append_cons_inj (by decide) (by decide), List.cons_inj_right, ih hlength]
      simp [and_assoc]

end Text

/-! ## Instructions in listings -/

theorem Opcode.not_mem_mnemonic {c : Char} (h : c.isUpper = false) (op : Opcode) :
    c ∉ op.mnemonic.toList := by
  intro hc
  have hupper : op.mnemonic.toList.all Char.isUpper = true := by
    cases op <;> decide
  rw [List.all_eq_true.1 hupper c hc] at h
  cases h

namespace Instruction

variable {i i' : Instruction}

/-- In front of a further blank, the mnemonic ends with a blank whether a number follows or not. -/
theorem toList_render_append (i : Instruction) :
    i.render.toList ++ [' '] = i.opcode.mnemonic.toList ++ ' ' ::
      match i.shownOperand with
      | none => []
      | some z => z.repr.toList ++ [' '] := by
  rw [render_eq, shown]
  cases i.shownOperand <;> simp

theorem tab_not_mem_render (i : Instruction) : '\t' ∉ i.render.toList := by
  have hmnemonic := i.opcode.not_mem_mnemonic (c := '\t') (by decide)
  have hnumber (z : Int) := Text.not_mem_repr (c := '\t') (by decide) (by decide) z
  rw [render_eq, shown]
  cases i.shownOperand <;> simp [hmnemonic, hnumber]

/-- A listing tells the mnemonic and the number behind it. -/
theorem render_eq_iff_shownOperand :
    i.render = i'.render ↔ i.opcode = i'.opcode ∧ i.shownOperand = i'.shownOperand := by
  constructor
  · intro h
    have hblank : ∀ op : Opcode, ' ' ∉ op.mnemonic.toList := Opcode.not_mem_mnemonic (by decide)
    have htext : i.render.toList ++ [' '] = i'.render.toList ++ [' '] := by rw [h]
    rw [toList_render_append, toList_render_append, Text.append_cons_inj (hblank _) (hblank _)] at htext
    obtain ⟨hmnemonic, hnumber⟩ := htext
    refine ⟨Opcode.mnemonic_injective (String.toList_inj.1 hmnemonic), ?_⟩
    cases hz : i.shownOperand with
    | none =>
      cases hz' : i'.shownOperand with
      | none => rfl
      | some z' => simp [hz, hz'] at hnumber
    | some z =>
      cases hz' : i'.shownOperand with
      | none => simp [hz, hz'] at hnumber
      | some z' =>
        simp only [hz, hz', List.append_left_inj, Text.toList_repr_inj] at hnumber
        rw [hnumber]
  · rintro ⟨hop, hshown⟩
    rw [render_eq, render_eq, shown, hop, hshown, ← shown]

theorem opcode_eq_of_render_eq (h : i.render = i'.render) : i.opcode = i'.opcode :=
  (render_eq_iff_shownOperand.1 h).1

/-- A listing tells the canonical form of an instruction, and nothing more. -/
theorem render_eq_iff : i.render = i'.render ↔ i.canonical = i'.canonical := by
  constructor
  · intro h
    obtain ⟨hop, hshown⟩ := render_eq_iff_shownOperand.1 h
    obtain ⟨op, field⟩ := i
    obtain ⟨_, field'⟩ := i'
    cases hop
    cases op with
    | b | stop => rfl
    | movi | addi =>
      have hnumber : signedOperand field = signedOperand field' := by
        rw [signedOperand_eq, signedOperand_eq]
        exact Option.some.inj hshown
      exact congrArg (Instruction.mk _) (leastField_eq_of_signedOperand_eq hnumber)
    | _ =>
      have hnumber : field.toNat = field'.toNat := Int.ofNat.inj (Option.some.inj hshown)
      rw [BitVec.eq_of_toNat_eq hnumber]
  · intro h
    rw [← render_canonical i, h, render_canonical]

end Instruction

/-! ## Trace lines -/

namespace TraceEntry

/-- The trace line with any number in the place of that of the active register. -/
def renderAs (t : TraceEntry) (active : Nat) : String :=
  t.instruction.render ++ " \t| " ++ t.instruction.opcode.description ++ "\t| " ++
    ("reg. file = [" ++ ", ".intercalate (t.registers.general.toList.map fun w => w.toInt.repr) ++
      "]  Ra = " ++ active.repr ++ ", Rp = " ++ t.registers.target.repr) ++ ",\t PC = " ++ t.pc.repr

theorem renderAs_active (t : TraceEntry) : t.renderAs t.registers.active = t.render := rfl

/-- The fields of a trace line, each with the delimiter behind it. -/
theorem toList_renderAs (t : TraceEntry) (n : Nat) :
    (t.renderAs n).toList = (t.instruction.render.toList ++ [' ']) ++ '\t' ::
      (("| " ++ t.instruction.opcode.description ++ "\t| reg. file = [").toList ++
      (Text.listed (t.registers.general.toList.map BitVec.toInt) ++ ']' ::
      ("  Ra = ".toList ++ ((n : Int).repr.toList ++ ',' ::
      (" Rp = ".toList ++ (t.registers.target.repr.toList ++ ',' ::
      ("\t PC = ".toList ++ t.pc.repr.toList))))))) := by
  simp only [renderAs, Text.listed, List.map_map, String.toList_append, List.append_assoc]
  rfl

/-- Every part of a trace line can be read off its text, the instruction as far as it is listed. -/
theorem renderAs_eq_iff (t t' : TraceEntry) (n n' : Nat) : t.renderAs n = t'.renderAs n' ↔
    t.instruction.render = t'.instruction.render ∧ t.registers.general = t'.registers.general ∧
      n = n' ∧ t.registers.target = t'.registers.target ∧ t.pc = t'.pc := by
  have htab (i : Instruction) : '\t' ∉ i.render.toList ++ [' '] := by
    simp [i.tab_not_mem_render]
  rw [← String.toList_inj, toList_renderAs, toList_renderAs, Text.append_cons_inj (htab _) (htab _),
    List.append_left_inj, String.toList_inj]
  refine and_congr_right fun hrender => ?_
  -- The opcodes are now the same, and with them the descriptions, which need no delimiter.
  rw [Instruction.opcode_eq_of_render_eq hrender, List.append_right_inj,
    Text.listed_append_cons_inj (by simp), List.append_right_inj,
    Text.repr_append_cons_inj (by decide) (by decide), List.append_right_inj,
    Text.repr_append_cons_inj (by decide) (by decide), List.append_right_inj, Text.toList_repr_inj,
    List.map_inj_right, Vector.toList_inj, Int.natCast_inj]
  exact fun _ _ => BitVec.eq_of_toInt_eq

/-- Trace lines are unambiguous. Two of them read alike exactly if they show the same registers, the same
program counter and the same opcode, and their instructions have the same effect from every state. The
operand itself need not be the same: it is left out where it is not read, and of an immediate only the
number is shown. All this holds also with any other numbers in the place of that of the active register. -/
theorem lines_are_unambiguous (t t' : TraceEntry) :
    (t.render = t'.render ↔
      t.registers = t'.registers ∧ t.pc = t'.pc ∧
        t.instruction.opcode = t'.instruction.opcode ∧ t.instruction.SameEffect t'.instruction) ∧
    ∀ n n' : Nat, t.renderAs n = t'.renderAs n' ↔
      (t.instruction.opcode = t'.instruction.opcode ∧ t.instruction.SameEffect t'.instruction) ∧
        t.registers.general = t'.registers.general ∧ n = n' ∧
        t.registers.target = t'.registers.target ∧ t.pc = t'.pc := by
  have hline (n n' : Nat) := (renderAs_eq_iff t t' n n').trans
    (and_congr_left' (Instruction.render_eq_iff.trans Instruction.canonical_eq_iff))
  refine ⟨?_, hline⟩
  rw [← renderAs_active t, ← renderAs_active t', hline]
  constructor
  · rintro ⟨⟨hop, heffect⟩, hgeneral, hactive, htarget, hpc⟩
    have hget (i : Fin 8) : t.registers.get i = t'.registers.get i := congrArg (·[i]) hgeneral
    have hregisters := Registers.ext_get hget (Fin.ext hactive) htarget
    exact ⟨hregisters, hpc, hop, heffect⟩
  · rintro ⟨hregisters, hpc, hop, heffect⟩
    refine ⟨⟨hop, heffect⟩, ?_, ?_, ?_, hpc⟩
    all_goals rw [hregisters]

example (r : Registers) (pc : Int) :
    (⟨⟨.movi, 8⟩, r, pc⟩ : TraceEntry).render = (⟨⟨.movi, 0⟩, r, pc⟩ : TraceEntry).render := rfl

end TraceEntry

end Accumulator
