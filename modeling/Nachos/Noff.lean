import Nachos.ByteWords
import Nachos.CInt

/-!
# Nachos object files

The file side of the loader. A host file is its bytes; `OpenFile::ReadAt`
seeks, with the assertion of `Lseek` that the position is not negative, and
reads as many of the bytes asked for as there are. `NoffHeader` of
`userprog/noff.h`, in the layout the build uses (`RDATA` defined), is
thirteen `int` words at the start of the file.

`Load` reads the header into an uninitialised local variable, so what a
file of less than 52 bytes does not fill is whatever the stack held:
`readHeader` takes that as an argument. The host is little-endian like the
format, so the two readings of the magic number that `Load` compares are
one, and `SwapHeader` is never called.

`ofBytes_encode` is the round trip: every header whose words are `int`s is
the header of some file.
-/

namespace Nachos

open CInt ByteMemory

/-- A host file. -/
abbrev File := List UInt8

namespace File

/-- The bytes from `position` on, `numBytes` of them if there are as many. -/
def bytes (file : File) (position numBytes : Int) : List UInt8 :=
  (file.drop position.toNat).take numBytes.toNat

/-- `OpenFile::ReadAt`; `none` is the failed assertion of `Lseek`. A negative
count is refused by the host and nothing is read. -/
def readAt (file : File) (numBytes position : Int) : Option (List UInt8) :=
  if position < 0 then none else some (file.bytes position numBytes)

theorem length_bytes_le (file : File) (position numBytes : Int) (h : 0 ≤ numBytes) :
    ((file.bytes position numBytes).length : Int) ≤ numBytes := by
  rw [bytes, List.length_take, List.length_drop]
  omega

theorem length_bytes {file : File} {position numBytes : Int} (hpos : 0 ≤ position)
    (hn : 0 ≤ numBytes) (hlen : position + numBytes ≤ file.length) :
    ((file.bytes position numBytes).length : Int) = numBytes := by
  rw [bytes, List.length_take, List.length_drop]
  omega

@[simp] theorem bytes_zero (file : File) (position : Int) : file.bytes position 0 = [] := by
  rw [bytes, Int.toNat_zero, List.take_zero]

theorem bytes_append (file : File) {position a b : Int} (hpos : 0 ≤ position) (ha : 0 ≤ a)
    (hb : 0 ≤ b) : file.bytes position a ++ file.bytes (position + a) b
      = file.bytes position (a + b) := by
  have hsum : (position + a).toNat = position.toNat + a.toNat := by omega
  have hlen : (a + b).toNat = a.toNat + b.toNat := by omega
  rw [bytes, bytes, bytes, hsum, hlen, List.take_add, List.drop_drop]

theorem getElem?_bytes {file : File} {position numBytes k : Int} (hpos : 0 ≤ position) (hk : 0 ≤ k)
    (hlt : k < numBytes) :
    (file.bytes position numBytes)[k.toNat]? = file[(position + k).toNat]? := by
  have hsum : (position + k).toNat = position.toNat + k.toNat := by omega
  rw [bytes, List.getElem?_take_of_lt (by omega), List.getElem?_drop, hsum]

end File

/-- `Segment` of `userprog/noff.h`. -/
structure Segment where
  virtualAddr : Int
  inFileAddr : Int
  size : Int
deriving DecidableEq

/-- `NoffHeader` of `userprog/noff.h`. -/
structure NoffHeader where
  noffMagic : Int
  code : Segment
  initData : Segment
  readonlyData : Segment
  uninitData : Segment
deriving DecidableEq

/-- `NOFFMAGIC`. -/
def noffMagic : Int := 0xbadfad

namespace NoffHeader

/-- The `i`-th `int` of a byte buffer. -/
def wordAt (bytes : List UInt8) (i : Nat) : Int := wrap32 (leNat ((bytes.drop (4 * i)).take 4))

/-- Three consecutive words as a segment. -/
def segmentAt (bytes : List UInt8) (i : Nat) : Segment :=
  ⟨wordAt bytes i, wordAt bytes (i + 1), wordAt bytes (i + 2)⟩

/-- The structure in a buffer of 52 bytes. -/
def ofBytes (bytes : List UInt8) : NoffHeader where
  noffMagic := wordAt bytes 0
  code := segmentAt bytes 1
  initData := segmentAt bytes 4
  readonlyData := segmentAt bytes 7
  uninitData := segmentAt bytes 10

/-- The words of the structure in order. -/
def words (h : NoffHeader) : List Int :=
  [h.noffMagic,
    h.code.virtualAddr, h.code.inFileAddr, h.code.size,
    h.initData.virtualAddr, h.initData.inFileAddr, h.initData.size,
    h.readonlyData.virtualAddr, h.readonlyData.inFileAddr, h.readonlyData.size,
    h.uninitData.virtualAddr, h.uninitData.inFileAddr, h.uninitData.size]

/-- The bytes of the structure. -/
def encode (h : NoffHeader) : List UInt8 :=
  (h.words.map fun w => (u32 w).toNat).flatMap (leBytes 4)

theorem length_encode (h : NoffHeader) : h.encode.length = 52 := by
  simp [encode, words]

theorem wordAt_encode (h : NoffHeader) (rest : List UInt8) (i : Nat) (hi : i < 13)
    (hw : ∀ w ∈ h.words, IsInt w) : wordAt (h.encode ++ rest) i = h.words.getD i 0 := by
  change i < h.words.length at hi
  have hlen : i < (h.words.map fun w => (u32 w).toNat).length := by rw [List.length_map]; exact hi
  have hget : (h.words.map fun w => (u32 w).toNat).getD i 0 = (u32 (h.words.getD i 0)).toNat := by
    rw [List.getD_eq_getElem _ _ hlen, List.getD_eq_getElem _ _ hi, List.getElem_map]
  rw [wordAt, encode, take_drop_flatMap_leBytes 4 _ rest i hlen, hget, wrap32_leNat_leBytes]
  rw [List.getD_eq_getElem _ _ hi]
  exact hw _ (List.getElem_mem hi)

/-- Every header of `int` words is read back from a file that starts with
it. -/
theorem ofBytes_encode (h : NoffHeader) (rest : List UInt8) (hw : ∀ w ∈ h.words, IsInt w) :
    ofBytes (h.encode ++ rest) = h := by
  have hword := fun i hi => h.wordAt_encode rest i hi hw
  simp only [ofBytes, segmentAt]
  rw [hword 0 (by decide), hword 1 (by decide), hword 2 (by decide), hword 3 (by decide),
    hword 4 (by decide), hword 5 (by decide), hword 6 (by decide), hword 7 (by decide),
    hword 8 (by decide), hword 9 (by decide), hword 10 (by decide), hword 11 (by decide),
    hword 12 (by decide)]
  rfl

end NoffHeader

/-- What `executable->ReadAt((char *)&noffH, sizeof(noffH), 0)` leaves in
`noffH`, the variable having held the bytes `stack`. -/
def readHeader (stack : List UInt8) (file : File) : NoffHeader :=
  .ofBytes (file.take 52 ++ stack.drop (file.take 52).length)

theorem readHeader_encode (stack : List UInt8) (h : NoffHeader) (rest : List UInt8)
    (hw : ∀ w ∈ h.words, IsInt w) : readHeader stack (h.encode ++ rest) = h := by
  have htake : (h.encode ++ rest).take 52 = h.encode := by
    rw [← h.length_encode, List.take_left]
  rw [readHeader, htake]
  exact h.ofBytes_encode _ hw

end Nachos
