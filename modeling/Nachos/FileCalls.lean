import Nachos.HostFiles
import Nachos.Machine

/-!
# File system calls

`SC_Read`, `SC_Write` and `SC_Seek` of `userprog/exception.cc` from the
registers down to the host: `User2System` and `System2User` copy between the
program and a kernel buffer a byte at a time, `PCB::Read`, `Write` and
`Seek` work on the ten entries of `fileTable`, and an `OpenFile` of the stub
file system keeps a descriptor of the host with an offset of its own beside
the host's cursor.

The build is a 32-bit one, so a position in a host file is an `int`
(`offsetLimit`). Descriptors 0 and 1 are the console: `readString` takes
characters from its input up to a newline, leaving out those equal to `EOF`,
and a call that finds no more input waits. What `readString` stores behind
the buffer (its last store is at `idx + 1`) is not part of the buffer and
left out here; `ConsoleReaders` has it.

An access that raises an exception ends in `SysHalt`, and a failed assertion
in an abort; nothing of the process runs after either.
-/

namespace Nachos

open CInt ByteMemory Machine HostFiles

/-- How a call can fail to return. -/
inductive Trap where
  | halt
  | abort
  | wait
deriving DecidableEq

/-- The largest `off_t`. -/
def offsetLimit : Nat := 2147483647

/-! ## `OpenFile` of the stub file system -/

/-- `OpenFile`: `file` is the descriptor of the host. -/
structure OpenFile where
  file : Nat
  type : Int
  currentOffset : Int
  filename : String

/-- `Lseek`, with its assertion. -/
def lseek (h : Host) (fd : Nat) (offset : Int) (whence : Whence) : Except Trap Host :=
  match h.lseek offsetLimit fd offset whence with
  | some (_, h') => .ok h'
  | none => .error .abort

/-- `Tell`. -/
def tell (h : Host) (fd : Nat) : Int :=
  match h.lseek offsetLimit fd 0 .cur with
  | some (p, _) => p
  | none => -1

namespace OpenFile

/-- `GetCurrentPos`, which also corrects `currentOffset`. -/
def getCurrentPos (f : OpenFile) (h : Host) : Int × OpenFile :=
  (tell h f.file, { f with currentOffset := tell h f.file })

def seek (f : OpenFile) (h : Host) (pos : Int) : Except Trap (OpenFile × Host) := do
  let h ← lseek h f.file pos .set
  return ({ f with currentOffset := tell h f.file }, h)

/-- `Read` at `currentOffset`: the bytes, and the count, -1 on an error of the
host. -/
def read (f : OpenFile) (h : Host) (numBytes : Int) :
    Except Trap (List UInt8 × Int × OpenFile × Host) := do
  let h ← lseek h f.file f.currentOffset .set
  match h.read f.file numBytes with
  | some (bs, h) =>
      return (bs, bs.length, { f with currentOffset := wrap32 (f.currentOffset + bs.length) }, h)
  | none => return ([], -1, { f with currentOffset := wrap32 (f.currentOffset - 1) }, h)

/-- `Write` at `currentOffset`. `WriteFile` asserts that the host has written
as many bytes as asked for; a negative count is refused with -1. -/
def write (f : OpenFile) (h : Host) (buffer : List UInt8) (numBytes : Int) :
    Except Trap (OpenFile × Host) := do
  let h ← lseek h f.file f.currentOffset .set
  let f' : OpenFile := { f with currentOffset := wrap32 (f.currentOffset + numBytes) }
  if numBytes < 0 then
    if numBytes = -1 then return (f', h) else throw .abort
  else
    match h.write offsetLimit f.file (buffer.take numBytes.toNat) with
    | some h => return (f', h)
    | none => throw .abort

/-- `Length`, which puts the cursor back to `currentOffset`. -/
def length (f : OpenFile) (h : Host) : Except Trap (Int × Host) := do
  let h ← lseek h f.file 0 .fileEnd
  let len := tell h f.file
  let h ← lseek h f.file f.currentOffset .set
  return (len, h)

end OpenFile

/-! ## `PCB::Read`, `Write` and `Seek` -/

/-- The console as a process sees it. -/
structure Console where
  input : List UInt8
  output : List UInt8

/-- The files of one process: its `fileTable`, of ten entries, and what it
leads to. -/
structure Files where
  fileTable : Nat → Option OpenFile
  host : Host
  console : Console

namespace Files

def setFile (s : Files) (id : Int) (f : OpenFile) : Files :=
  { s with fileTable := Function.update s.fileTable id.toNat (some f) }

/-- The end of a transfer through `f` that began at `oldPos`: the way the
cursor has gone, and the files. -/
def moved (s : Files) (id oldPos : Int) (f : OpenFile) (h : Host) : Int × Files :=
  let (newPos, f) := f.getCurrentPos h
  (wrap32 (newPos - oldPos), { s.setFile id f with host := h })

/-- The loop of `readString`: at most `room` characters up to a newline. -/
def readLine : Nat → List UInt8 → Except Trap (List UInt8 × List UInt8)
  | 0, input => .ok ([], input)
  | _ + 1, [] => .error .wait
  | room + 1, ch :: input =>
      if ch = 255 then readLine (room + 1) input
      else if ch = 10 then .ok ([], input)
      else match readLine room input with
        | .ok (line, rest) => .ok (ch :: line, rest)
        | .error e => .error e

/-- `readString`: the buffer, the count and the rest of the input. -/
def readString (buffer : List UInt8) (length : Int) (input : List UInt8) :
    Except Trap (List UInt8 × Int × List UInt8) := do
  let (line, rest) ← readLine length.toNat input
  let cleared := List.replicate length.toNat 0 ++ buffer.drop length.toNat
  return ((line ++ cleared.drop line.length).set (line.length + 1) 0, line.length, rest)

/-- `PCB::Read`: the result, the buffer and the files. -/
def read (s : Files) (buffer : List UInt8) (size id : Int) :
    Except Trap (Int × List UInt8 × Files) :=
  if id < 0 ∨ 9 < id then .ok (-1, buffer, s)
  else if id = 1 then .ok (-1, buffer, s)
  else match s.fileTable id.toNat with
    | none => .ok (-1, buffer, s)
    | some f => do
        let (oldPos, f) := f.getCurrentPos s.host
        if id = 0 then
          let (buffer, actualSize, rest) ← readString buffer size s.console.input
          return (actualSize, buffer,
            { s.setFile id f with console := { s.console with input := rest } })
        else
          let (bs, numRead, f, h) ← f.read s.host size
          if 0 < numRead then
            let (count, s) := s.moved id oldPos f h
            return (count, bs ++ buffer.drop bs.length, s)
          else return (-2, buffer, { s.setFile id f with host := h })

/-- The characters the console branch of `PCB::Write` prints: up to a zero, a
newline or the end of the request. -/
def printed (buffer : List UInt8) (size : Int) : List UInt8 :=
  (buffer.takeWhile fun b => b ≠ 0 ∧ b ≠ 10).take size.toNat

/-- `PCB::Write`. -/
def write (s : Files) (buffer : List UInt8) (size id : Int) : Except Trap (Int × Files) :=
  if id < 0 ∨ 9 < id then .ok (-1, s)
  else if id = 0 then .ok (-1, s)
  else match s.fileTable id.toNat with
    | none => .ok (-1, s)
    | some f =>
        if f.type = 1 then .ok (-1, s)
        else do
          let (oldPos, f) := f.getCurrentPos s.host
          if id = 1 then
            let line := printed buffer size
            return (line.length, { s.setFile id f with
              console := { s.console with output := s.console.output ++ line ++ [10] } })
          else
            let (f, h) ← f.write s.host buffer size
            if 0 < size then return s.moved id oldPos f h
            else return (-1, { s.setFile id f with host := h })

/-- `PCB::Seek`. -/
def seek (s : Files) (position id : Int) : Except Trap (Int × Files) :=
  if id < 0 ∨ 9 < id then .ok (-1, s)
  else match s.fileTable id.toNat with
    | none => .ok (-1, s)
    | some f =>
        if id = 1 ∨ id = 0 then .ok (-1, s)
        else do
          let (position, h) ←
            if position = -1 then f.length s.host else pure (position, s.host)
          let (len, h) ← f.length h
          if len < position ∨ position < 0 then return (-1, { s with host := h })
          else
            let (f, h) ← f.seek h position
            return (position, { s.setFile id f with host := h })

end Files

/-! ## Between user memory and kernel buffers -/

/-- A process as a system call finds it. -/
structure Proc where
  pageTable : List TranslationEntry
  mainMemory : Memory
  files : Files

def Trap.of : Stop → Trap
  | .raise _ => .halt
  | .assert => .abort

/-- The loop of `User2System`, with the rest of the buffer as `memset` left
it: reading ends behind a zero. -/
def copyIn (pageTable : List TranslationEntry) (m : Memory) (addr : Int) :
    Nat → Except Trap (List UInt8 × List TranslationEntry)
  | 0 => .ok ([0], pageTable)
  | k + 1 =>
      match readMem pageTable m addr 1 with
      | .error e => .error (.of e)
      | .ok (oneChar, pageTable) =>
          if oneChar = 0 then .ok (List.replicate (k + 2) 0, pageTable)
          else match copyIn pageTable m (wrap32 (addr + 1)) k with
            | .ok (buffer, pageTable) =>
                .ok (UInt8.ofNat (u32 oneChar).toNat :: buffer, pageTable)
            | .error e => .error e

/-- `User2System`. Where `limit + 1` is negative, `new` is asked for a negative
count. -/
def user2System (pageTable : List TranslationEntry) (m : Memory) (virtAddr limit : Int) :
    Except Trap (List UInt8 × List TranslationEntry) :=
  if wrap32 (limit + 1) < 0 then .error .abort
  else if limit = -1 then .ok ([], pageTable)
  else copyIn pageTable m virtAddr limit.toNat

/-- The loop of `System2User` over the bytes to copy: the last one stored is
the first zero. -/
def copyOut (pageTable : List TranslationEntry) (m : Memory) (addr : Int) :
    List UInt8 → Except Trap (Memory × List TranslationEntry)
  | [] => .ok (m, pageTable)
  | b :: bs =>
      match writeMem pageTable m addr 1 (signedChar b) with
      | .error e => .error (.of e)
      | .ok (m, pageTable) =>
          if b = 0 then .ok (m, pageTable) else copyOut pageTable m (wrap32 (addr + 1)) bs

/-- `System2User`. -/
def system2User (pageTable : List TranslationEntry) (m : Memory) (virtAddr len : Int)
    (buffer : List UInt8) : Except Trap (Memory × List TranslationEntry) :=
  copyOut pageTable m virtAddr (buffer.take len.toNat)

namespace Proc

/-- `SC_Read`: the result in register 2, and the process. -/
def scRead (s : Proc) (virtAddr size id : Int) : Except Trap (Int × Proc) := do
  let (buffer, pageTable) ← user2System s.pageTable s.mainMemory virtAddr size
  let (res, buffer, files) ← s.files.read buffer size id
  if res ≠ -1 ∧ res ≠ -2 then
    let (m, pageTable) ← system2User pageTable s.mainMemory virtAddr res buffer
    return (res, ⟨pageTable, m, files⟩)
  else return (res, ⟨pageTable, s.mainMemory, files⟩)

/-- `SC_Write`. -/
def scWrite (s : Proc) (virtAddr size id : Int) : Except Trap (Int × Proc) := do
  let (buffer, pageTable) ← user2System s.pageTable s.mainMemory virtAddr size
  let (res, files) ← s.files.write buffer size id
  return (res, ⟨pageTable, s.mainMemory, files⟩)

/-- `SC_Seek`. -/
def scSeek (s : Proc) (position id : Int) : Except Trap (Int × Proc) := do
  let (res, files) ← s.files.seek position id
  return (res, { s with files := files })

end Proc

end Nachos
