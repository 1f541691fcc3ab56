import Nachos.Bitmap
import Nachos.Machine
import Nachos.Noff

/-!
# Loading a program

`AddrSpace::Load` and its relatives of `userprog/addrspace.cc`, over the
frame bitmap `gPhysPageBitMap` and the machine's memory.

The three copying blocks of `Load` compute every argument of every `ReadAt`
call from the header alone, so they are modelled in two steps. `reads` is
the list of calls the loops make, in order, each with the index it applies
to `pageTable`, the offset in the page, the count and the file position;
`copy` carries them out. The arithmetic is the code's: sizes are `int`s, a
page count is an `int` turned `unsigned`, the running index `i` is
`unsigned`, so `i - 1` at `i = 0` is `4294967295`.

The destination of a call is `&mainMemory[code.virtualAddr]` plus the frame
and the offset: the header's virtual address is added to a physical one.
The virtual addresses of the other segments are not read at all.

A call of `Load` ends by returning `FALSE` or `TRUE`, at a failed assertion
(its own two, or that of `Lseek`), or with an index of `pageTable` that is
not below `numPages`, after which the program has no meaning. The result
records the regions of memory the copying wrote.
-/

namespace Nachos

open CInt ByteMemory Machine

/-- The frames: which are taken, and what they hold. -/
structure Frames where
  gPhysPageBitMap : Bitmap
  mainMemory : Memory

namespace AddrSpace

/-! ## The page table -/

/-- `size`, an unsigned sum with room for the user stack. -/
def size (noffH : NoffHeader) : Int :=
  u32 (noffH.code.size + noffH.readonlyData.size + noffH.initData.size + noffH.uninitData.size
    + 1024)

/-- `numPages = divRoundUp(size, PageSize)`. -/
def numPages (noffH : NoffHeader) : Nat := (divRoundUp (size noffH) 128).toNat

/-- `bzero` of a frame. -/
def bzero (m : Memory) (frame : Int) : Memory := write m (frame * 128) (List.replicate 128 0)

/-- The entry the loop of `Load` fills in. -/
def newEntry (i : Nat) (physicalPage : Int) : TranslationEntry :=
  ⟨i, physicalPage, true, false, false, false⟩

/-- One turn of the loop: the frame found, `-1` if there is none, zeroed. -/
def allocPage (k : Frames) : Int × Frames :=
  match k.gPhysPageBitMap.findAndSet with
  | (some f, b) => (f, ⟨b, bzero k.mainMemory f⟩)
  | (none, b) => (-1, ⟨b, bzero k.mainMemory (-1)⟩)

/-- The loop from page `i` on, `n` pages being left. -/
def allocate (i : Nat) : Nat → Frames → List TranslationEntry × Frames
  | 0, k => ([], k)
  | n + 1, k =>
      let (physicalPage, k₁) := allocPage k
      let (pageTable, k₂) := allocate (i + 1) n k₁
      (newEntry i physicalPage :: pageTable, k₂)

/-! ## The copying loops -/

/-- A call `ReadAt(&mainMemory[code.virtualAddr] + pageTable[index].physicalPage * PageSize +
offset, numBytes, position)`. -/
structure ReadCall where
  index : Nat
  offset : Int
  numBytes : Int
  position : Int
deriving DecidableEq

/-- `(n - 1) % PageSize + 1`. -/
def lastPageSize (n : Int) : Int := (wrap32 (n - 1)).tmod 128 + 1

/-- `divRoundUp(n, PageSize)` stored in an `unsigned int`. -/
def pageCount (n : Int) : Nat := (u32 (divRoundUp n 128)).toNat

/-- The page loop all three blocks have: `num` pages from index `i` on, the
last one holding `last` bytes. -/
def pageReads (i num : Nat) (last position : Int) : List ReadCall :=
  (List.range num).map fun j =>
    ⟨i + j, 0, if j + 1 < num then 128 else last, wrap32 (position + j * 128)⟩

/-- `firstDataPageSize` and `firstReadDataSize`: what still goes into the
page filled up to `offset`. -/
def firstSize (offset size : Int) : Int := min (128 - offset) size

/-- What is left for further pages. -/
def restSize (offset size : Int) : Int := wrap32 (size - firstSize offset size)

/-- The blocks of `initData` and `readonlyData`, which differ in how they
find `offset` and in the second half `more` of the test before the first
call. -/
def segmentReads (i : Nat) (more : Bool) (offset : Int) (segment : Segment) : List ReadCall :=
  (if offset ≠ 128 ∧ more then
    [⟨(u32 (i - 1)).toNat, offset, firstSize offset segment.size, segment.inFileAddr⟩] else [])
  ++ pageReads i (pageCount (restSize offset segment.size))
    (lastPageSize (restSize offset segment.size))
    (segment.inFileAddr + firstSize offset segment.size)

/-- The calls of the code block. -/
def codeReads (noffH : NoffHeader) : List ReadCall :=
  if 0 < noffH.code.size then
    pageReads 0 (pageCount noffH.code.size) (lastPageSize noffH.code.size) noffH.code.inFileAddr
  else []

/-- `i` after the code block. -/
def codePages (noffH : NoffHeader) : Nat :=
  if 0 < noffH.code.size then pageCount noffH.code.size else 0

/-- The calls of the `initData` block. -/
def initDataReads (noffH : NoffHeader) : List ReadCall :=
  if 0 < noffH.initData.size then
    segmentReads (codePages noffH) (decide (0 < pageCount noffH.code.size))
      (lastPageSize noffH.code.size) noffH.initData
  else []

/-- `i` after the `initData` block. -/
def dataPages (noffH : NoffHeader) : Nat :=
  codePages noffH +
    if 0 < noffH.initData.size then
      pageCount (restSize (lastPageSize noffH.code.size) noffH.initData.size)
    else 0

/-- `offset` of the `readonlyData` block. -/
def readonlyOffset (noffH : NoffHeader) : Int :=
  lastPageSize (wrap32 (noffH.code.size + noffH.initData.size))

/-- The calls of the `readonlyData` block. -/
def readonlyDataReads (noffH : NoffHeader) : List ReadCall :=
  if 0 < noffH.readonlyData.size then
    segmentReads (dataPages noffH) (decide (0 < dataPages noffH)) (readonlyOffset noffH)
      noffH.readonlyData
  else []

/-- Every `ReadAt` call of the copying part of `Load`. -/
def reads (noffH : NoffHeader) : List ReadCall :=
  codeReads noffH ++ initDataReads noffH ++ readonlyDataReads noffH

/-! ## `Load` -/

/-- How a call of `Load` ends. -/
inductive Outcome where
  | returnsFalse
  | returnsTrue
  | assertFails
  | wildIndex
deriving DecidableEq

/-- The state after copying: how it ended, the memory, and the regions
written, each an address and a length. -/
structure Copied where
  outcome : Outcome
  mainMemory : Memory
  writes : List (Int × Nat)

/-- The calls carried out in order. -/
def copy (virtualAddr : Int) (pageTable : List TranslationEntry) (file : File) :
    List ReadCall → Memory → Copied
  | [], m => ⟨.returnsTrue, m, []⟩
  | call :: calls, m =>
      match pageTable[call.index]? with
      | none => ⟨.wildIndex, m, []⟩
      | some entry =>
          match file.readAt call.numBytes call.position with
          | none => ⟨.assertFails, m, []⟩
          | some bytes =>
              let into := virtualAddr + entry.physicalPage * 128 + call.offset
              let rest := copy virtualAddr pageTable file calls (write m into bytes)
              { rest with writes := (into, bytes.length) :: rest.writes }

/-- What a call of `Load` leaves behind. -/
structure Loaded where
  outcome : Outcome
  frames : Frames
  pageTable : List TranslationEntry
  writes : List (Int × Nat)

/-- `Load` behind its checks: frames are taken and the segments copied. -/
def fill (file : File) (noffH : NoffHeader) (k : Frames) : Loaded :=
  let (pageTable, k₁) := allocate 0 (numPages noffH) k
  let copied := copy noffH.code.virtualAddr pageTable file (reads noffH) k₁.mainMemory
  ⟨copied.outcome, ⟨k₁.gPhysPageBitMap, copied.mainMemory⟩, pageTable, copied.writes⟩

/-- `AddrSpace::Load` on the file `executable` (`none` if it cannot be
opened), `stack` being what the local variable `noffH` held before. -/
def load (stack : List UInt8) (executable : Option File) (k : Frames) : Loaded :=
  match executable with
  | none => ⟨.returnsFalse, k, [], []⟩
  | some file =>
      let noffH := readHeader stack file
      if noffH.noffMagic ≠ noffMagic then ⟨.assertFails, k, [], []⟩
      else if 128 < numPages noffH then ⟨.assertFails, k, [], []⟩
      else if k.gPhysPageBitMap.numClear < numPages noffH then ⟨.returnsFalse, k, [], []⟩
      else fill file noffH k

/-- The three checks of `Load` on a file that opens. -/
structure Admitted (noffH : NoffHeader) (k : Frames) : Prop where
  magic : noffH.noffMagic = noffMagic
  pages : numPages noffH ≤ 128
  free : numPages noffH ≤ k.gPhysPageBitMap.numClear

theorem load_of_admitted {stack : List UInt8} {file : File} {k : Frames}
    (h : Admitted (readHeader stack file) k) :
    load stack (some file) k = fill file (readHeader stack file) k := by
  obtain ⟨hmagic, hpages, hfree⟩ := h
  simp only [load]
  rw [if_neg (by simpa using hmagic), if_neg (by omega), if_neg (by omega)]

/-- A call that gets past its checks passes them; any other leaves memory and
bitmap alone. -/
theorem admitted_or_unchanged (stack : List UInt8) (file : File) (k : Frames) :
    Admitted (readHeader stack file) k ∨
      (load stack (some file) k = ⟨.assertFails, k, [], []⟩
        ∨ load stack (some file) k = ⟨.returnsFalse, k, [], []⟩) := by
  simp only [load]
  split
  next => exact Or.inr (Or.inl rfl)
  next hmagic =>
      split
      next => exact Or.inr (Or.inl rfl)
      next hpages =>
          split
          next => exact Or.inr (Or.inr rfl)
          next hfree => exact Or.inl ⟨by simpa using hmagic, by omega, by omega⟩

theorem admitted_of_true {stack : List UInt8} {file : File} {k : Frames}
    (h : (load stack (some file) k).outcome = .returnsTrue) :
    Admitted (readHeader stack file) k := by
  rcases admitted_or_unchanged stack file k with had | hload | hload
  · exact had
  · rw [hload] at h
    cases h
  · rw [hload] at h
    cases h

/-! ## The frames a call takes -/

theorem bzero_of_mem {m : Memory} {f x : Int} (h : x / 128 = f) : bzero m f x = 0 := by
  rw [bzero, write_of_mem (by omega) (by rw [List.length_replicate]; omega),
    List.getD_eq_getElem?_getD, List.getElem?_replicate]
  split <;> rfl

theorem bzero_of_not_mem {m : Memory} {f x : Int} (h : x / 128 ≠ f) : bzero m f x = m x :=
  write_of_not_mem (by rw [List.length_replicate]; omega)

/-- With a frame left, one turn of the loop takes the least free one. -/
theorem allocPage_of_clear {k : Frames} (h : 0 < k.gPhysPageBitMap.numClear) :
    ∃ f : Nat, allocPage k = ((f : Int), ⟨k.gPhysPageBitMap.markBit f, bzero k.mainMemory f⟩)
      ∧ f < k.gPhysPageBitMap.numBits ∧ k.gPhysPageBitMap.testBit f = false
      ∧ ∀ j < f, k.gPhysPageBitMap.testBit j = true := by
  obtain ⟨f, hf, hlt, hclear, hleast⟩ := Bitmap.findAndSet_of_clear h
  exact ⟨f, by rw [allocPage, hf], hlt, hclear, hleast⟩

/-- The frame of an entry, as a bit of the map. -/
def frameOf (e : TranslationEntry) : Nat := e.physicalPage.toNat

/-- What the allocation loop does when enough frames are free: `n` entries
for pages `i`, `i + 1`, ..., each on a frame of its own that was free and is
now marked and zeroed; nothing else changes. -/
structure Allocated (i n : Nat) (k : Frames) (pt : List TranslationEntry) (k' : Frames) : Prop where
  length : pt.length = n
  entry : ∀ j e, pt[j]? = some e → e = newEntry (i + j) (frameOf e)
  bound : ∀ e ∈ pt, frameOf e < k.gPhysPageBitMap.numBits
  fresh : ∀ e ∈ pt, k.gPhysPageBitMap.testBit (frameOf e) = false
  distinct : (pt.map frameOf).Nodup
  numBits : k'.gPhysPageBitMap.numBits = k.gPhysPageBitMap.numBits
  marked : ∀ f, k'.gPhysPageBitMap.testBit f = true ↔
    k.gPhysPageBitMap.testBit f = true ∨ f ∈ pt.map frameOf
  zeroed : ∀ e ∈ pt, ∀ x : Int, x / 128 = frameOf e → k'.mainMemory x = 0
  kept : ∀ x : Int, (∀ e ∈ pt, x / 128 ≠ frameOf e) → k'.mainMemory x = k.mainMemory x

theorem allocated (i n : Nat) (k : Frames) (h : n ≤ k.gPhysPageBitMap.numClear) :
    Allocated i n k (allocate i n k).1 (allocate i n k).2 := by
  induction n generalizing i k with
  | zero =>
      exact ⟨rfl, nofun, nofun, nofun, List.nodup_nil, rfl, fun f => by simp [allocate], nofun,
        fun x _ => rfl⟩
  | succ n ih =>
      obtain ⟨f, hpage, hlt, hclear, -⟩ := allocPage_of_clear (k := k) (by omega)
      have hleft := Bitmap.numClear_markBit hlt hclear
      have hrest := ih (i + 1) ⟨k.gPhysPageBitMap.markBit f, bzero k.mainMemory f⟩
        (by simp only; omega)
      have hstep : allocate i (n + 1) k
          = (newEntry i f :: (allocate (i + 1) n ⟨k.gPhysPageBitMap.markBit f,
              bzero k.mainMemory f⟩).1,
            (allocate (i + 1) n ⟨k.gPhysPageBitMap.markBit f, bzero k.mainMemory f⟩).2) := by
        rw [allocate, hpage]
      rw [hstep]
      generalize allocate (i + 1) n ⟨k.gPhysPageBitMap.markBit f, bzero k.mainMemory f⟩ = r
        at hrest ⊢
      obtain ⟨pt, k'⟩ := r
      have hhead : frameOf (newEntry i f) = f := Int.toNat_natCast f
      have hother : ∀ e ∈ pt, frameOf e ≠ f ∧ k.gPhysPageBitMap.testBit (frameOf e) = false := by
        intro e he
        have := hrest.fresh e he
        rw [Bitmap.testBit_markBit hlt, Bool.or_eq_false_iff] at this
        exact ⟨by simpa using this.1, this.2⟩
      refine ⟨by rw [List.length_cons, hrest.length], ?_, ?_, ?_, ?_, hrest.numBits, ?_, ?_, ?_⟩
      · intro j e he
        cases j with
        | zero =>
            obtain rfl := Option.some.inj (he.symm.trans (List.getElem?_cons_zero ..))
            rw [hhead]
            rfl
        | succ j =>
            have := hrest.entry j e (by simpa using he)
            rw [show i + (j + 1) = i + 1 + j by omega]
            exact this
      · intro e he
        rcases List.mem_cons.mp he with rfl | he
        · rw [hhead]; exact hlt
        · exact hrest.bound e he
      · intro e he
        rcases List.mem_cons.mp he with rfl | he
        · rw [hhead]; exact hclear
        · exact (hother e he).2
      · refine List.nodup_cons.mpr ⟨?_, hrest.distinct⟩
        rw [hhead]
        intro hmem
        obtain ⟨e, he, hfe⟩ := List.mem_map.mp hmem
        exact (hother e he).1 hfe
      · intro g
        rw [hrest.marked, Bitmap.testBit_markBit hlt, List.map_cons, hhead, List.mem_cons]
        simp only [Bool.or_eq_true, decide_eq_true_eq]
        tauto
      · intro e he x hx
        rcases List.mem_cons.mp he with rfl | he
        · rw [hhead] at hx
          by_cases hin : ∃ e ∈ pt, x / 128 = frameOf e
          · obtain ⟨e, he, hxe⟩ := hin
            exact hrest.zeroed e he x hxe
          · rw [hrest.kept x (fun e he hxe => hin ⟨e, he, hxe⟩)]
            exact bzero_of_mem hx
        · exact hrest.zeroed e he x hx
      · intro x hx
        rw [hrest.kept x (fun e he => hx e (List.mem_cons_of_mem _ he))]
        refine bzero_of_not_mem ?_
        have := hx _ List.mem_cons_self
        rwa [hhead] at this

/-- The frame of an entry as the code and as the machine see it. -/
theorem Allocated.pageFrame_eq {i n : Nat} {k k' : Frames} {pt : List TranslationEntry}
    (ha : Allocated i n k pt k') (hbits : k.gPhysPageBitMap.numBits = 128) {e : TranslationEntry}
    (he : e ∈ pt) : e.physicalPage = frameOf e ∧ pageFrame e = frameOf e ∧ frameOf e < 128 := by
  obtain ⟨j, hj⟩ := List.mem_iff_getElem?.mp he
  have hpage : e.physicalPage = frameOf e :=
    congrArg TranslationEntry.physicalPage (ha.entry j e hj)
  have hlt : frameOf e < 128 := by
    have := ha.bound e he
    omega
  refine ⟨hpage, ?_, hlt⟩
  rw [pageFrame, hpage]
  exact u32_of_bounds (by omega) (by omega)

end AddrSpace

end Nachos
