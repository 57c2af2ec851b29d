import Accumulator.Word

/-!
# The register file

Eight general registers, of which one is active and serves as the accumulator, and the branch
target. Writing goes to the active register only; `get_setAccumulator` says what a general
register holds after it.
-/

namespace Accumulator

structure Registers where
  general : Vector Word 8
  /-- The number of the active register. -/
  active : Fin 8
  /-- The branch target: a branch goes to the address behind it. -/
  target : Int
  deriving DecidableEq, Repr

namespace Registers

/-- All registers zero and register 0 active. -/
def cleared : Registers where
  general := Vector.replicate 8 0
  active := 0
  target := 0

def get (r : Registers) (i : Fin 8) : Word := r.general[i]

def accumulator (r : Registers) : Word := r.get r.active

def set (r : Registers) (i : Fin 8) (v : Word) : Registers :=
  { r with general := r.general.set i v }

def setAccumulator (r : Registers) (v : Word) : Registers := r.set r.active v

def render (r : Registers) : String :=
  "reg. file = [" ++ ", ".intercalate (r.general.toList.map fun w => w.toInt.repr) ++ "]  Ra = " ++
    r.active.val.repr ++ ", Rp = " ++ r.target.repr

theorem ext_get {r s : Registers} (general : ∀ i, r.get i = s.get i)
    (active : r.active = s.active) (target : r.target = s.target) : r = s := by
  cases r
  cases s
  cases active
  cases target
  congr 1
  exact Vector.ext fun i hi => general ⟨i, hi⟩

theorem get_set (r : Registers) (i j : Fin 8) (v : Word) :
    (r.set i v).get j = if i = j then v else r.get j := by
  simp only [get, set, Fin.getElem_fin, Vector.getElem_set, Fin.ext_iff]

theorem get_setAccumulator (r : Registers) (j : Fin 8) (v : Word) :
    (r.setAccumulator v).get j = if r.active = j then v else r.get j :=
  r.get_set r.active j v

@[simp]
theorem active_setAccumulator (r : Registers) (v : Word) :
    (r.setAccumulator v).active = r.active := rfl

@[simp]
theorem target_setAccumulator (r : Registers) (v : Word) :
    (r.setAccumulator v).target = r.target := rfl

@[simp]
theorem accumulator_setAccumulator (r : Registers) (v : Word) :
    (r.setAccumulator v).accumulator = v := by
  simp [accumulator, get_setAccumulator]

end Registers

end Accumulator
