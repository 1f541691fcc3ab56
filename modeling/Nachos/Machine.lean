import Nachos.ByteMemory
import Nachos.CInt

/-!
# The machine's memory and address translation

`Machine::Translate`, `ReadMem` and `WriteMem` of `machine/translate.cc`,
for the machine the kernel builds: no translation buffer, a linear page
table, pages of `PageSize` = 128 bytes and `NumPhysPages` = 128 frames, so a
`mainMemory` of 16384 bytes. Addresses of the memory below count from the
start of `mainMemory`; an address outside `[0, 16384)` is memory of the
kernel itself.

The page table registers are one list: `pageTableSize` is its length, as
`AddrSpace::RestoreState` sets the two together. A call ends in an exception
for the user program, in a failed assertion, or with its result and the
table with the `use` and `dirty` bits set. Machine words are little-endian
and so is the host, which makes `WordToHost` and its relatives identities.

`translate_ok` says what a translation that succeeds has established, and
`offset_add_size` that an aligned access stays inside its page; the two give
`writeMem_of_not_inFrames` and `readMem_congr`: a store changes bytes in the
frames of its table only, and a load depends on no others.
-/

namespace Nachos

open CInt ByteMemory

/-- `TranslationEntry` of `machine/translate.h`. -/
structure TranslationEntry where
  virtualPage : Int
  physicalPage : Int
  valid : Bool
  readOnly : Bool
  use : Bool
  dirty : Bool
deriving DecidableEq

namespace Machine

/-- The exceptions a translation raises. -/
inductive ExceptionType where
  | addressError
  | pageFault
  | readOnly
  | busError
deriving DecidableEq

/-- How a memory access can end other than well. -/
inductive Stop where
  | raise (e : ExceptionType)
  | assert
deriving DecidableEq

/-- `(unsigned)virtAddr / PageSize`. -/
def vpn (virtAddr : Int) : Nat := (u32 virtAddr / 128).toNat

/-- `(unsigned)virtAddr % PageSize`. -/
def offset (virtAddr : Int) : Int := u32 virtAddr % 128

/-- The test `((size == 4) && (virtAddr & 0x3)) || ((size == 2) && (virtAddr & 0x1))`. -/
def misaligned (virtAddr : Int) (size : Nat) : Bool :=
  (size == 4 && virtAddr % 4 != 0) || (size == 2 && virtAddr % 2 != 0)

/-- `pageFrame`, the entry's frame as an unsigned number. -/
def pageFrame (e : TranslationEntry) : Int := u32 e.physicalPage

/-- The entry after an access. -/
def touch (writing : Bool) (e : TranslationEntry) : TranslationEntry :=
  { e with use := true, dirty := e.dirty || writing }

/-- `Machine::Translate`: the physical address, and the table with the bits
of the entry set. -/
def translate (pageTable : List TranslationEntry) (virtAddr : Int) (size : Nat) (writing : Bool) :
    Except Stop (Int × List TranslationEntry) :=
  if misaligned virtAddr size then .error (.raise .addressError)
  else match pageTable[vpn virtAddr]? with
    | none => .error (.raise .addressError)
    | some entry =>
        if !entry.valid then .error (.raise .pageFault)
        else if entry.readOnly && writing then .error (.raise .readOnly)
        else if 128 ≤ pageFrame entry then .error (.raise .busError)
        else if pageFrame entry * 128 + offset virtAddr + size ≤ 16384 then
          .ok (pageFrame entry * 128 + offset virtAddr,
            pageTable.set (vpn virtAddr) (touch writing entry))
        else .error .assert

/-- The `int` in a byte read as a `char`. -/
def signedChar (b : UInt8) : Int := if b.toNat < 128 then b.toNat else b.toNat - 256

/-- The value `ReadMem` puts together from `size` bytes; `none` is the
assertion of its `default` case. -/
def valueOf (m : Memory) (physicalAddress : Int) : Nat → Option Int
  | 1 => some (signedChar (m physicalAddress))
  | 2 => some (leNat (read m physicalAddress 2))
  | 4 => some (wrap32 (leNat (read m physicalAddress 4)))
  | _ => none

/-- `Machine::ReadMem`. -/
def readMem (pageTable : List TranslationEntry) (m : Memory) (addr : Int) (size : Nat) :
    Except Stop (Int × List TranslationEntry) :=
  match translate pageTable addr size false with
  | .error e => .error e
  | .ok (physicalAddress, pageTable') =>
      match valueOf m physicalAddress size with
      | some value => .ok (value, pageTable')
      | none => .error .assert

/-- `Machine::WriteMem`. -/
def writeMem (pageTable : List TranslationEntry) (m : Memory) (addr : Int) (size : Nat)
    (value : Int) : Except Stop (Memory × List TranslationEntry) :=
  match translate pageTable addr size true with
  | .error e => .error e
  | .ok (physicalAddress, pageTable') =>
      if size = 1 ∨ size = 2 ∨ size = 4 then
        .ok (write m physicalAddress (leBytes size (u32 value).toNat), pageTable')
      else .error .assert

/-- The byte a program finds at `virtAddr` through a page table. -/
def byteAt (pageTable : List TranslationEntry) (m : Memory) (virtAddr : Int) : Option UInt8 :=
  match translate pageTable virtAddr 1 false with
  | .error _ => none
  | .ok (physicalAddress, _) => some (m physicalAddress)

/-! ## What a translation establishes -/

theorem offset_bounds (a : Int) : 0 ≤ offset a ∧ offset a < 128 := by
  simp only [offset]
  omega

theorem translate_ok {pt pt' : List TranslationEntry} {a p : Int} {size : Nat} {w : Bool}
    (h : translate pt a size w = .ok (p, pt')) :
    ∃ e, pt[vpn a]? = some e ∧ pageFrame e < 128 ∧ p = pageFrame e * 128 + offset a
      ∧ pt' = pt.set (vpn a) (touch w e) ∧ misaligned a size = false := by
  unfold translate at h
  split at h
  next => cases h
  next hal =>
      cases hpt : pt[vpn a]? with
      | none => rw [hpt] at h; cases h
      | some e =>
          rw [hpt] at h
          simp only at h
          split at h
          next => cases h
          split at h
          next => cases h
          split at h
          next => cases h
          next hfr =>
              split at h
              next =>
                  obtain ⟨rfl, rfl⟩ := Prod.mk.injEq .. |>.mp (Except.ok.inj h)
                  exact ⟨e, rfl, by omega, rfl, rfl, by simpa using hal⟩
              next => cases h

/-- An access that goes through sets bits in the entry it used and nothing
else of the table. -/
theorem readMem_table {pt pt' : List TranslationEntry} {m : Memory} {a v : Int} {size : Nat}
    (h : readMem pt m a size = .ok (v, pt')) :
    ∃ i e, pt[i]? = some e ∧ pt' = pt.set i (touch false e) := by
  unfold readMem at h
  cases ht : translate pt a size false with
  | error e => rw [ht] at h; cases h
  | ok r =>
      obtain ⟨p, pt₁⟩ := r
      obtain ⟨e, he, -, -, hset, -⟩ := translate_ok ht
      rw [ht] at h
      simp only at h
      split at h
      next =>
          obtain ⟨-, rfl⟩ := Prod.mk.injEq .. |>.mp (Except.ok.inj h)
          exact ⟨_, e, he, hset⟩
      next => cases h

theorem writeMem_table {pt pt' : List TranslationEntry} {m m' : Memory} {a v : Int} {size : Nat}
    (h : writeMem pt m a size v = .ok (m', pt')) :
    ∃ i e, pt[i]? = some e ∧ pt' = pt.set i (touch true e) := by
  unfold writeMem at h
  cases ht : translate pt a size true with
  | error e => rw [ht] at h; cases h
  | ok r =>
      obtain ⟨p, pt₁⟩ := r
      obtain ⟨e, he, -, -, hset, -⟩ := translate_ok ht
      rw [ht] at h
      simp only at h
      split at h
      next =>
          obtain ⟨-, rfl⟩ := Prod.mk.injEq .. |>.mp (Except.ok.inj h)
          exact ⟨_, e, he, hset⟩
      next => cases h

/-- An aligned access of one, two or four bytes stays inside its page. -/
theorem offset_add_size {a : Int} {size : Nat} (hal : misaligned a size = false)
    (hs : size = 1 ∨ size = 2 ∨ size = 4) : offset a + size ≤ 128 := by
  have hoff := offset_bounds a
  rcases hs with rfl | rfl | rfl
  · omega
  · have h2 : a % 2 = 0 := by simpa [misaligned] using hal
    simp only [offset, u32] at *
    omega
  · have h4 : a % 4 = 0 := by simpa [misaligned] using hal
    simp only [offset, u32] at *
    omega

theorem valueOf_size {m : Memory} {p v : Int} {size : Nat} (h : valueOf m p size = some v) :
    size = 1 ∨ size = 2 ∨ size = 4 := by
  unfold valueOf at h
  split at h <;> simp at h ⊢

theorem valueOf_congr {m m' : Memory} {p : Int} {size : Nat}
    (h : ∀ x, p ≤ x → x < p + size → m' x = m x) : valueOf m' p size = valueOf m p size := by
  unfold valueOf
  split
  next => rw [h p le_rfl (by omega)]
  next => rw [read_congr h]
  next => rw [read_congr h]
  next => rfl

/-! ## Stores and the frames they reach -/

/-- The bytes of the frames of a page table. -/
def inFrames (pt : List TranslationEntry) (x : Int) : Prop := ∃ e ∈ pt, x / 128 = pageFrame e

/-- The bytes of an access that translates are in a frame of the table. -/
theorem inFrames_of_translate {pt pt' : List TranslationEntry} {a p x : Int} {size : Nat} {w : Bool}
    (h : translate pt a size w = .ok (p, pt')) (hs : size = 1 ∨ size = 2 ∨ size = 4)
    (hlo : p ≤ x) (hhi : x < p + size) : inFrames pt x := by
  obtain ⟨e, he, -, rfl, -, hal⟩ := translate_ok h
  have hoff := offset_bounds a
  have hsz := offset_add_size hal hs
  exact ⟨e, List.mem_of_getElem? he, by omega⟩

/-- A store changes only bytes of the table's frames. -/
theorem writeMem_of_not_inFrames {pt pt' : List TranslationEntry} {m m' : Memory} {a v x : Int}
    {size : Nat} (h : writeMem pt m a size v = .ok (m', pt')) (hx : ¬inFrames pt x) :
    m' x = m x := by
  unfold writeMem at h
  cases ht : translate pt a size true with
  | error e => rw [ht] at h; cases h
  | ok r =>
      obtain ⟨p, pt₁⟩ := r
      rw [ht] at h
      simp only at h
      split at h
      next hs =>
          obtain ⟨rfl, rfl⟩ := Prod.mk.injEq .. |>.mp (Except.ok.inj h)
          refine write_of_not_mem fun hin => hx ?_
          rw [length_leBytes] at hin
          exact inFrames_of_translate ht hs hin.1 hin.2
      next => cases h

/-- What a program reads depends only on the bytes of its own frames. -/
theorem readMem_congr {pt : List TranslationEntry} {m m' : Memory}
    (h : ∀ x, inFrames pt x → m' x = m x) (a : Int) (size : Nat) :
    readMem pt m' a size = readMem pt m a size := by
  unfold readMem
  cases ht : translate pt a size false with
  | error e => rfl
  | ok r =>
      obtain ⟨p, pt'⟩ := r
      have hval : valueOf m' p size = valueOf m p size := by
        by_cases hs : size = 1 ∨ size = 2 ∨ size = 4
        · exact valueOf_congr fun x hlo hhi => h x (inFrames_of_translate ht hs hlo hhi)
        · have hnone : ∀ m, valueOf m p size = none := by
            intro m
            cases hv : valueOf m p size with
            | none => rfl
            | some v => exact absurd (valueOf_size hv) hs
          rw [hnone, hnone]
      simp only [hval]

end Machine

end Nachos
