/-!
# Directories

The files that can be reached, each kept under its place. Which place a path leads to, if it leads to
any, is up to the file system: folders, links and the working directory are all in `place?`, and a
folder that is missing has no places in it. Paths that lead to one place are one file, and `read_write`
says what a write changes. `Directory.flat` is a working directory without folders.
-/

namespace Accumulator

/-- Takes leading `./` off a path, and further slashes behind one. -/
def dropHere : Bool → List Char → List Char
  | true, '/' :: cs => dropHere true cs
  | _, '.' :: '/' :: cs => dropHere true cs
  | _, cs => cs

/-- The name of the file in the current directory that a path leads to, if it leads to one. -/
def fileName? (path : String) : Option String :=
  let name := dropHere false path.toList
  if name = [] ∨ name = ['.'] ∨ name = ['.', '.'] ∨ '/' ∈ name then none
  else some (String.ofList name)

structure Directory where
  /-- The place of the file at a path, if there can be one. -/
  place? : String → Option String
  /-- The files, by their places. -/
  files : List (String × ByteArray)

namespace Directory

/-- A directory without folders in it, where a file is placed by its name. A path that leads out of
the directory leads to nothing. -/
def flat (files : List (String × ByteArray)) : Directory := ⟨fileName?, files⟩

def find? (d : Directory) (place : String) : Option ByteArray :=
  d.files.lookup place

/-- The directory with `bytes` as the file at `place`, instead of one that was there before. -/
def put (d : Directory) (place : String) (bytes : ByteArray) : Directory :=
  { d with files := (place, bytes) :: d.files.filter fun f => f.1 ≠ place }

def read (d : Directory) (path : String) : Option ByteArray :=
  (d.place? path).bind d.find?

/-- Writes a text to the file at a path, if there can be one. -/
def write (d : Directory) (path text : String) : Option Directory :=
  (d.place? path).map fun place => d.put place text.toUTF8

theorem find?_put (d : Directory) (place other : String) (bytes : ByteArray) :
    (d.put place bytes).find? other = if other = place then some bytes else d.find? other := by
  unfold put find?
  rw [List.lookup_cons]
  split
  · rename_i h
    rw [if_pos (beq_iff_eq.1 h)]
  · rename_i h
    have hne : ¬other = place := fun e => by simp [e] at h
    rw [if_neg hne]
    induction d.files with
    | nil => rfl
    | cons f fs ih =>
      rw [List.filter_cons]
      split
      · rw [List.lookup_cons, List.lookup_cons, ih]
      · rename_i hf
        have hf : f.1 = place := by simpa using hf
        rw [List.lookup_cons, ih, beq_eq_false_iff_ne.2 (hf ▸ hne)]

theorem place?_of_write {d e : Directory} {path text : String} (h : d.write path text = some e) :
    e.place? = d.place? := by
  obtain ⟨place, -, rfl⟩ := Option.map_eq_some_iff.1 h
  rfl

theorem read_write {d e : Directory} {path text : String} (h : d.write path text = some e)
    (other : String) :
    e.read other =
      if d.place? other = d.place? path then some text.toUTF8 else d.read other := by
  rw [read, place?_of_write h]
  obtain ⟨place, hplace, rfl⟩ := Option.map_eq_some_iff.1 h
  rw [read, hplace]
  cases d.place? other with
  | none => simp
  | some o => simp [find?_put]

end Directory

end Accumulator
