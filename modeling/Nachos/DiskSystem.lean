import Nachos.FileIsolation
import Nachos.FileStore

/-!
# The file system with its open files

Everything a program can do with the file system on the disk: `Create`,
`Open`, `Remove` and `List` of `filesys/filesys.cc`, and `Read`, `Write`,
`ReadAt`, `WriteAt`, `Seek` and `Length` of `filesys/openfile.cc` on the
objects that `Open` has returned, which are told apart by the order they were
opened in. `close` is the deletion of an object. `remount` is the end of
Nachos and the next start of it on the same disk: the objects are gone, and
`FileSystem::FileSystem(FALSE)` opens the two files of the system again. Its
last block, on "stdin" and "stdout", is left out (see `FileSystem`).

`List` prints the names as C strings. The tenth byte of a name is never
written, so the string of a name of nine characters ends wherever a zero
comes; a string that does not end in the table is `none`.

A call is `Legal` when it keeps to what the code takes for granted: the size
of a new file is at most `MaxFileSize`, an object is used while it and its
file exist, positions are not negative and the end of a request is an `int`,
and names are listed when none has nine characters.
-/

namespace Nachos

namespace DiskFS

open CInt ByteMemory Run

/-- An `OpenFile` with its `seekPosition`. -/
structure OpenObject extends Opened where
  seekPosition : Int

/-- The file system and the objects, `none` for one that was deleted. -/
structure Mounted where
  fs : State
  objects : List (Option OpenObject)

inductive DiskCall where
  | create (name : List UInt8) (initialSize : Int) (heap : Heap)
  | open (name : List UInt8) (heap : Heap)
  | remove (name : List UInt8) (heap : Heap)
  | readAt (file : Nat) (numBytes position : Int)
  | writeAt (file : Nat) (junk «from» : Memory) (numBytes position : Int)
  | read (file : Nat) (numBytes : Int)
  | write (file : Nat) (junk «from» : Memory) (numBytes : Int)
  | seek (file : Nat) (position : Int)
  | length (file : Nat)
  | close (file : Nat)
  | list (heap : Heap)
  | remount (heap : Heap)

abbrev DiskAnswer := FileStore.Answer (List UInt8) UInt8

/-! ## Listing -/

namespace Directory

/-- The string from byte `a` of the table on. -/
def stringAt (t : Directory) (a : Nat) : Option (List UInt8) :=
  if (0 : UInt8) ∈ ByteMemory.read t a (200 - a) then some (cstr (ByteMemory.read t a (200 - a)))
  else none

/-- `Directory::List`: the lines it prints. -/
def list (t : Directory) : Option (List (List UInt8)) :=
  ((List.range 10).filter t.inUse).mapM fun i => t.stringAt (20 * i + 8)

end Directory

/-- `FileSystem::List`. -/
def list (s : State) (heap : Heap) : Option (List (List UInt8)) :=
  ((Directory.new (heap 0)).fetchFrom s.disk s.directoryFile).bind Directory.list

/-! ## Starting again -/

/-- The opening of the two files in `FileSystem::FileSystem(FALSE)`. -/
def mount (d : Disk) (heap : Heap) : Option State :=
  (FileHeader.fetchFrom (heap 0) d 0).bind fun freeMapFile =>
    (FileHeader.fetchFrom (heap 1) d 1).map fun directoryFile => ⟨d, freeMapFile, directoryFile⟩

/-! ## Calls -/

namespace Mounted

/-- The object with that number. -/
def object (m : Mounted) (file : Nat) : Option OpenObject := (m.objects[file]?).join

def setObject (m : Mounted) (file : Nat) (o : OpenObject) : Mounted :=
  { m with objects := m.objects.set file (some o) }

/-- The objects after a `Remove` that returned true. -/
def retire (name : List UInt8) (objects : List (Option OpenObject)) : List (Option OpenObject) :=
  objects.map fun o => o.map fun o => { o with stale := o.stale || key o.name == key name }

/-- The number of bytes is the result of a call. -/
def answer (n : Int) : DiskAnswer := .count n.toNat

def step (m : Mounted) : DiskCall → Option (DiskAnswer × Mounted)
  | .create name initialSize heap =>
      (DiskFS.create m.fs name initialSize heap).map fun r => (.ok r.1, { m with fs := r.2 })
  | .open name heap =>
      (openFile m.fs name heap).map fun
        | some hdr =>
            (.handle (some m.objects.length),
              { m with objects := m.objects ++ [some ⟨⟨hdr, name, false⟩, 0⟩] })
        | none => (.handle none, m)
  | .remove name heap =>
      (DiskFS.remove m.fs name heap).map fun r =>
        (.ok r.1, ⟨r.2, if r.1 then retire name m.objects else m.objects⟩)
  | .readAt file numBytes position =>
      (m.object file).bind fun o =>
        (DiskFS.readAt m.fs.disk o.hdr numBytes position).map fun bytes => (.data bytes, m)
  | .writeAt file junk data numBytes position =>
      (m.object file).bind fun o =>
        (DiskFS.writeAt m.fs.disk o.hdr junk data numBytes position).map fun r =>
          (answer r.1, { m with fs := { m.fs with disk := r.2 } })
  | .read file numBytes =>
      (m.object file).bind fun o =>
        (DiskFS.readAt m.fs.disk o.hdr numBytes o.seekPosition).map fun bytes =>
          (.data bytes,
            m.setObject file { o with seekPosition := wrap32 (o.seekPosition + bytes.length) })
  | .write file junk data numBytes =>
      (m.object file).bind fun o =>
        (DiskFS.writeAt m.fs.disk o.hdr junk data numBytes o.seekPosition).map fun r =>
          (answer r.1,
            setObject { m with fs := { m.fs with disk := r.2 } } file
              { o with seekPosition := wrap32 (o.seekPosition + r.1) })
  | .seek file position =>
      (m.object file).map fun o => (.done, m.setObject file { o with seekPosition := position })
  | .length file => (m.object file).map fun o => (answer o.hdr.numBytes, m)
  | .close file =>
      (m.object file).map fun _ => (.done, { m with objects := m.objects.set file none })
  | .list heap => (DiskFS.list m.fs heap).map fun names => (.names names, m)
  | .remount heap => (mount m.fs.disk heap).map fun fs => (.done, ⟨fs, []⟩)

/-- A request at `position` through that object keeps to the contract. -/
def Usable (m : Mounted) (file : Nat) (request : OpenObject → Int × Int) : Prop :=
  ∃ o ∈ m.object file, o.stale = false ∧ 0 ≤ (request o).2
    ∧ IsInt ((request o).2 + (request o).1)

def Legal (m : Mounted) : DiskCall → Prop
  | .create _ initialSize _ => 0 ≤ initialSize ∧ initialSize ≤ 3840
  | .open _ _ => True
  | .remove _ _ => True
  | .readAt file numBytes position => m.Usable file fun _ => (numBytes, position)
  | .writeAt file _ _ numBytes position => m.Usable file fun _ => (numBytes, position)
  | .read file numBytes => m.Usable file fun o => (numBytes, o.seekPosition)
  | .write file _ _ numBytes => m.Usable file fun o => (numBytes, o.seekPosition)
  | .seek file position => m.Usable file fun _ => (0, position)
  | .length file => m.Usable file fun _ => (0, 0)
  | .close file => (m.object file).isSome
  | .list _ => ∀ i < 10, ∀ e ∈ m.fs.entry i, e.2.length < 9
  | .remount _ => True

end Mounted

instance (m : Mounted) (file : Nat) (request : OpenObject → Int × Int) :
    Decidable (m.Usable file request) :=
  inferInstanceAs (Decidable (∃ o ∈ m.object file, _))

instance (m : Mounted) : (c : DiskCall) → Decidable (m.Legal c)
  | .create _ _ _ => inferInstanceAs (Decidable (_ ∧ _))
  | .open _ _ => inferInstanceAs (Decidable True)
  | .remove _ _ => inferInstanceAs (Decidable True)
  | .readAt _ _ _ => inferInstanceAs (Decidable (m.Usable _ _))
  | .writeAt _ _ _ _ _ => inferInstanceAs (Decidable (m.Usable _ _))
  | .read _ _ => inferInstanceAs (Decidable (m.Usable _ _))
  | .write _ _ _ _ => inferInstanceAs (Decidable (m.Usable _ _))
  | .seek _ _ => inferInstanceAs (Decidable (m.Usable _ _))
  | .length _ => inferInstanceAs (Decidable (m.Usable _ _))
  | .close _ => inferInstanceAs (Decidable (_ = true))
  | .list _ => inferInstanceAs (Decidable (∀ i < 10, _))
  | .remount _ => inferInstanceAs (Decidable True)

end DiskFS

end Nachos
