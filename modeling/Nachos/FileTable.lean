import Nachos.FileCalls

/-!
# The file table of a process

The ten entries of a `PCB`'s `fileTable` (`threads/pcb.cc`): the constructor
opens `stdin` and `stdout` into entries 0 and 1 (`Opening.stdin`,
`Opening.stdout`), `PCB::Open` takes the first
null entry from 2 on, `PCB::Close` deletes an entry's `OpenFile`, whose
destructor closes the descriptor of the host, and the loop at the end of the
destructor deletes what is left.

What the host answers to an `open` is part of the call (`Opening`): a
descriptor, or none. `OpenFile::OpenFile` copies the name with `strncpy` and
without its terminator, so the name that is read back runs on into what the
heap block held before.
-/

namespace Nachos

/-- An `open` of the host: the descriptor, and the text that stands in the
heap behind the copy of the name. -/
structure Opening where
  fd : Option Nat
  tail : String

/-- `FileSystem::Open(name, type)`. -/
def Opening.file (o : Opening) (name : String) (type : Int) : Option OpenFile :=
  o.fd.map fun fd =>
    { file := fd, type := type, currentOffset := 0, filename := name ++ o.tail }

/-- Entry 0 of a new table. -/
def Opening.stdin (o : Opening) : Option OpenFile := o.file "stdin" 2

/-- Entry 1 of a new table. -/
def Opening.stdout (o : Opening) : Option OpenFile := o.file "stdout" 3

abbrev FileTable := Nat → Option OpenFile

namespace FileTable

/-- The entries are 0 to 9. -/
def size : Nat := 10

/-- `FindFreeSlot`. -/
def findFreeSlot (t : FileTable) : Option Nat :=
  (List.range' 2 8).find? fun i => (t i).isNone

/-- The test of `Open`: an entry has this name. -/
def hasName (t : FileTable) (name : String) : Bool :=
  (List.range size).any fun i => (t i).any fun f => f.filename == name

/-- `PCB::Open`: the result, and the entry it fills. With a type other than 0
and 1 nothing is opened. -/
def openFile (t : FileTable) (name : String) (type : Int) (o : Opening) :
    Int × Option (Nat × OpenFile) :=
  if t.hasName name then (-1, none)
  else match t.findFreeSlot with
    | none => (-1, none)
    | some freeSlot =>
        if type = 0 ∨ type = 1 then
          match o.file name type with
          | some f => (freeSlot, some (freeSlot, f))
          | none => (-1, none)
        else if type = 2 then (0, none)
        else (1, none)

/-- `PCB::Close`: the result, and the entry it deletes. -/
def close (t : FileTable) (id : Int) : Int × Option (Nat × OpenFile) :=
  if 0 ≤ id ∧ id ≤ 9 then
    match t id.toNat with
    | some f => (0, some (id.toNat, f))
    | none => (-1, none)
  else (-1, none)

variable {t : FileTable}

theorem findFreeSlot_some {i : Nat} (h : t.findFreeSlot = some i) :
    2 ≤ i ∧ i < size ∧ t i = none := by
  have hmem := List.mem_range'.mp (List.mem_of_find?_eq_some h)
  have hnone := List.find?_some h
  simp only [Option.isNone_iff_eq_none] at hnone
  rw [size]
  exact ⟨by omega, by omega, hnone⟩

/-- `Open` fills a null entry with the file it got from the host. -/
theorem openFile_some {name : String} {type : Int} {o : Opening} {r : Int} {i : Nat} {f : OpenFile}
    (h : t.openFile name type o = (r, some (i, f))) :
    i < size ∧ t i = none ∧ o.fd = some f.file := by
  unfold openFile at h
  split at h
  next => cases h
  next =>
      split at h
      next => cases h
      next slot hslot =>
          split at h
          next =>
              split at h
              next g hg =>
                  obtain ⟨-, rfl, rfl⟩ : r = _ ∧ slot = i ∧ g = f := by
                    simpa [eq_comm] using h
                  obtain ⟨-, hlt, hnone⟩ := findFreeSlot_some hslot
                  obtain ⟨fd, hfd, rfl⟩ := Option.map_eq_some_iff.mp hg
                  exact ⟨hlt, hnone, hfd⟩
              next => cases h
          next => split at h <;> cases h

theorem close_some {id : Int} {r : Int} {i : Nat} {f : OpenFile}
    (h : t.close id = (r, some (i, f))) : i < size ∧ t i = some f := by
  unfold close at h
  split at h
  next hid =>
      split at h
      next g hg =>
          obtain ⟨-, rfl, rfl⟩ : r = 0 ∧ id.toNat = i ∧ g = f := by simpa [eq_comm] using h
          rw [size]
          exact ⟨by omega, hg⟩
      next => cases h
  next => cases h

end FileTable

end Nachos
