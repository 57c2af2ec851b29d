import Accumulator.Word

/-!
# Memory

A memory has a fixed number of cells, each of one word. An address is a word, read as a signed
number: it names a cell exactly if it is neither negative nor beyond the last cell
(`cellAt?_eq_some_iff`). `read_write` says what a cell holds after a write.
-/

namespace Accumulator

structure Memory (size : Nat) where
  cells : Vector Word size
  deriving DecidableEq, Repr

namespace Memory

variable {size : Nat}

/-- The number of cells of the memory that a program is run with from the command line. -/
def standardSize : Nat := 128

def zeroed (size : Nat) : Memory size := ⟨Vector.replicate size 0⟩

/-- The cell that an address names, if there is one. -/
def cellAt? (size : Nat) (address : Word) : Option (Fin size) :=
  if h : 0 ≤ address.toInt ∧ address.toInt < size then some ⟨address.toInt.toNat, by omega⟩
  else none

def read (m : Memory size) (i : Fin size) : Word := m.cells[i]

def write (m : Memory size) (i : Fin size) (v : Word) : Memory size := ⟨m.cells.set i v⟩

/-- The cells that do not hold zero, with their numbers, in order. -/
def nonzero (m : Memory size) : List (Fin size × Word) :=
  ((List.finRange size).map fun i => (i, m.read i)).filter fun (_, v) => v ≠ 0

theorem cellAt?_eq_some_iff {address : Word} {i : Fin size} :
    cellAt? size address = some i ↔ address.toInt = i.val := by
  unfold cellAt?
  split
  · rw [Option.some_inj, Fin.ext_iff]
    dsimp only
    omega
  · rename_i h
    constructor
    · intro hi
      cases hi
    · intro hi
      exact absurd ⟨by omega, by omega⟩ h

theorem ext_read {m n : Memory size} (h : ∀ i, m.read i = n.read i) : m = n := by
  cases m
  cases n
  congr 1
  exact Vector.ext fun i hi => h ⟨i, hi⟩

@[simp]
theorem read_zeroed (i : Fin size) : (zeroed size).read i = 0 := by
  simp [read, zeroed]

theorem read_write (m : Memory size) (i j : Fin size) (v : Word) :
    (m.write i v).read j = if i = j then v else m.read j := by
  simp only [read, write, Fin.getElem_fin, Vector.getElem_set, Fin.ext_iff]

end Memory

end Accumulator
