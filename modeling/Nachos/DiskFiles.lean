import Nachos.ByteWords

/-!
# Files on the disk

The lower half of the file system of the build without `FILESYS_STUB`:
`SynchDisk::ReadSector` and `WriteSector`, `FileHeader` of
`filesys/filehdr.cc` and `OpenFile::ReadAt` and `WriteAt` of
`filesys/openfile.cc`.

The disk is its bytes, `SectorSize` = 128 to a sector and `NumSectors` =
1024 sectors one after the other, as `machine/disk.cc` keeps it in a host
file; a request for another sector fails its assertion. A `FileHeader` is
the 128 bytes of the object, which are also the bytes of its sector:
`numBytes`, `numSectors` and a table of `NumDirect` = 30 sector numbers. A
look outside these bytes, an array of a negative size or a copy that leaves
its buffer is `none`, like a failed assertion; an index below the table finds
the two numbers in front of it. What `new` leaves in a buffer is an argument
(`junk`).

`content d h` is the file as a sequence of bytes. `readAt_eq` and
`writeAt_eq` say what the two calls do for a header that is `Sound`: they
read and replace exactly the bytes asked for that the file has, and touch no
sector of another file.
-/

namespace Nachos

namespace DiskFS

open CInt ByteMemory

/-! ## Sectors -/

/-- The bytes of the disk. -/
abbrev Disk := Memory

/-- The assertion on the sector number of a request. -/
def InRange (sector : Int) : Prop := 0 ≤ sector ∧ sector < 1024

instance (sector : Int) : Decidable (InRange sector) := inferInstanceAs (Decidable (_ ∧ _))

/-- `SynchDisk::ReadSector`. -/
def readSector (d : Disk) (sector : Int) : Option (List UInt8) :=
  if InRange sector then some (read d (sector * 128) 128) else none

/-- `SynchDisk::WriteSector`. -/
def writeSector (d : Disk) (sector : Int) (data : List UInt8) : Option Disk :=
  if InRange sector then some (write d (sector * 128) data) else none

/-! ## File headers -/

/-- The bytes of a `FileHeader`. -/
abbrev FileHeader := Memory

namespace FileHeader

def numBytes (h : FileHeader) : Int := word h 0

def numSectors (h : FileHeader) : Int := word h 4

/-- `dataSectors[i]`; the two numbers in front of the table are `i = -2` and
`i = -1`. -/
def dataSector (h : FileHeader) (i : Int) : Int := word h (8 + 4 * i)

/-- `FileHeader::FetchFrom`. -/
def fetchFrom (h : FileHeader) (d : Disk) (sector : Int) : Option FileHeader :=
  (readSector d sector).map (write h 0)

/-- `FileHeader::WriteBack`. -/
def writeBack (h : FileHeader) (d : Disk) (sector : Int) : Option Disk :=
  writeSector d sector (read h 0 128)

/-- `FileHeader::ByteToSector`, which does not look whether the index is one
of the table: `none` is a look outside the object. -/
def byteToSector (h : FileHeader) (offset : Int) : Option Int :=
  if -2 ≤ offset.tdiv 128 ∧ offset.tdiv 128 < 30 then some (dataSector h (offset.tdiv 128))
  else none

/-- The sectors a header lists. -/
def sectors (h : FileHeader) : List Int :=
  (List.range (numSectors h).toNat).map fun i : Nat => dataSector h i

end FileHeader

/-- The bytes of the file, by offset. -/
def content (d : Disk) (h : FileHeader) : Memory := fun k =>
  d (h.dataSector (k / 128) * 128 + k % 128)

/-! ## Reading and writing -/

/-- What `ReadAt` and `WriteAt` make of a request before they touch the disk. -/
structure Span where
  numBytes : Int
  firstSector : Int
  lastSector : Int

namespace Span

def numSectors (r : Span) : Int := 1 + r.lastSector - r.firstSector

/-- The buffer can be allocated, and the copy to or from it stays in it. -/
def Fits (r : Span) (position : Int) : Prop :=
  0 < r.numSectors ∧ 0 ≤ position - r.firstSector * 128
    ∧ position - r.firstSector * 128 + r.numBytes ≤ r.numSectors * 128

instance (r : Span) (position : Int) : Decidable (r.Fits position) :=
  inferInstanceAs (Decidable (_ ∧ _))

end Span

/-- The clipping of a request at the end of the file. -/
def clip (fileLength numBytes position : Int) : Int :=
  if wrap32 (position + numBytes) > fileLength then wrap32 (fileLength - position) else numBytes

def span (fileLength numBytes position : Int) : Span where
  numBytes := clip fileLength numBytes position
  firstSector := position.tdiv 128
  lastSector :=
    (wrap32 (wrap32 (position + clip fileLength numBytes position) - 1)).tdiv 128

/-- The loop of `ReadAt`: the first `n` sectors from `firstSector` on. -/
def readSectors (d : Disk) (h : FileHeader) (firstSector : Int) : Nat → Option (List UInt8)
  | 0 => some []
  | n + 1 =>
      (readSectors d h firstSector n).bind fun buf =>
        (h.byteToSector ((firstSector + n) * 128)).bind fun sector =>
          (readSector d sector).map (buf ++ ·)

/-- `OpenFile::ReadAt`: the bytes it delivers, whose number it returns. -/
def readAt (d : Disk) (h : FileHeader) (numBytes position : Int) : Option (List UInt8) :=
  if numBytes ≤ 0 ∨ h.numBytes ≤ position then some []
  else
    let r := span h.numBytes numBytes position
    if r.Fits position then
      (readSectors d h r.firstSector r.numSectors.toNat).map fun buf =>
        (buf.drop (position - r.firstSector * 128).toNat).take r.numBytes.toNat
    else none

/-- The second loop of `WriteAt`. -/
def writeSectors (d : Disk) (h : FileHeader) (buf : Memory) (firstSector : Int) : Nat → Option Disk
  | 0 => some d
  | n + 1 =>
      (writeSectors d h buf firstSector n).bind fun d =>
        (h.byteToSector ((firstSector + n) * 128)).bind fun sector =>
          writeSector d sector (read buf (n * 128) 128)

/-- The sectors `WriteAt` reads because it replaces only part of them. -/
def prefill (d : Disk) (h : FileHeader) (junk : Memory) (r : Span) (position : Int) :
    Option Memory :=
  let firstAligned : Prop := position = r.firstSector * 128
  let lastAligned : Prop := wrap32 (position + r.numBytes) = (r.lastSector + 1) * 128
  let first :=
    if ¬firstAligned then (readAt d h 128 (r.firstSector * 128)).map (write junk 0) else some junk
  if ¬lastAligned ∧ (r.firstSector ≠ r.lastSector ∨ firstAligned) then
    first.bind fun buf => (readAt d h 128 (r.lastSector * 128)).map
      (write buf ((r.lastSector - r.firstSector) * 128))
  else first

/-- `OpenFile::WriteAt`: its result, and the disk. -/
def writeAt (d : Disk) (h : FileHeader) (junk data : Memory) (numBytes position : Int) :
    Option (Int × Disk) :=
  if numBytes ≤ 0 ∨ h.numBytes ≤ position then some (0, d)
  else
    let r := span h.numBytes numBytes position
    if r.Fits position then
      (prefill d h junk r position).bind fun buf =>
        (writeSectors d h
          (write buf (position - r.firstSector * 128) (read data 0 r.numBytes.toNat))
          r.firstSector r.numSectors.toNat).map fun d => (r.numBytes, d)
    else none

/-! ## Headers that describe a file -/

/-- The header of a file: its sectors are sectors of the disk, each listed
once, and hold the whole file. -/
structure Sound (h : FileHeader) : Prop where
  nonneg : 0 ≤ h.numBytes
  covers : h.numBytes ≤ 128 * h.numSectors
  direct : h.numSectors ≤ 30
  inRange : ∀ i, 0 ≤ i → i < h.numSectors → InRange (h.dataSector i)
  distinct : ∀ i j, 0 ≤ i → i < h.numSectors → 0 ≤ j → j < h.numSectors →
    h.dataSector i = h.dataSector j → i = j

theorem mem_sectors {h : FileHeader} {s : Int} :
    s ∈ h.sectors ↔ ∃ i, 0 ≤ i ∧ i < h.numSectors ∧ h.dataSector i = s := by
  rw [FileHeader.sectors, List.mem_map]
  constructor
  · rintro ⟨i, hi, rfl⟩
    have := List.mem_range.mp hi
    exact ⟨i, by omega, by omega, rfl⟩
  · rintro ⟨i, h0, hi, rfl⟩
    exact ⟨i.toNat, List.mem_range.mpr (by omega), by rw [Int.toNat_of_nonneg h0]⟩

section Specs

variable {d : Disk} {h : FileHeader}

theorem byteToSector_eq (hs : Sound h) {i : Int} (h0 : 0 ≤ i) (hi : i < h.numSectors) :
    h.byteToSector (i * 128) = some (h.dataSector i) := by
  have hdiv : (i * 128).tdiv 128 = i := by rw [Int.tdiv_eq_ediv_of_nonneg (by omega)]; omega
  have := hs.direct
  rw [FileHeader.byteToSector, hdiv, if_pos (by omega)]

/-- A sector of the file, read off its content. -/
theorem read_content (i : Int) :
    read (content d h) (i * 128) 128 = read d (h.dataSector i * 128) 128 := by
  refine List.map_congr_left fun t ht => ?_
  have hlt := List.mem_range.mp ht
  have hdiv : (i * 128 + t) / 128 = i := by omega
  have hmod : (i * 128 + t) % 128 = t := by omega
  simp only [content]
  rw [hdiv, hmod]

theorem readSectors_eq (hs : Sound h) {first : Int} (h0 : 0 ≤ first) (n : Nat)
    (hn : first + n ≤ h.numSectors) :
    readSectors d h first n = some (read (content d h) (first * 128) (n * 128)) := by
  induction n with
  | zero => rw [Nat.zero_mul]; rfl
  | succ n ih =>
      have hlast : first + n < h.numSectors := by omega
      have hplace : first * 128 + ((n * 128 : Nat) : Int) = (first + n) * 128 := by omega
      have hstep : read (content d h) (first * 128) ((n + 1) * 128)
          = read (content d h) (first * 128) (n * 128)
            ++ read d (h.dataSector (first + n) * 128) 128 := by
        rw [Nat.add_mul, Nat.one_mul, read_add, hplace, read_content]
      rw [hstep, readSectors, ih (by omega), Option.bind_some, byteToSector_eq hs (by omega) hlast,
        Option.bind_some, readSector, if_pos (hs.inRange _ (by omega) hlast), Option.map_some]

/-- The number of bytes a request comes to. -/
def transferred (h : FileHeader) (numBytes position : Int) : Int :=
  max 0 (min numBytes (h.numBytes - position))

theorem Sound.length_le (hs : Sound h) : h.numBytes ≤ 3840 := by
  have := hs.covers
  have := hs.direct
  omega

theorem clip_eq (hs : Sound h) {numBytes position : Int} (hp : 0 ≤ position)
    (hint : IsInt (position + numBytes)) (hn : 0 < numBytes) (hlt : position < h.numBytes) :
    clip h.numBytes numBytes position = transferred h numBytes position := by
  have hlen := hs.length_le
  have hwrap := wrap32_of_isInt hint
  rw [clip, transferred, hwrap]
  split
  next => rw [wrap32_of_bounds (by omega) (by omega)]; omega
  next => omega

/-- The sectors of a request that reaches into the file. -/
theorem span_eq (hs : Sound h) {numBytes position : Int} (hp : 0 ≤ position)
    (hint : IsInt (position + numBytes)) (hn : 0 < numBytes) (hlt : position < h.numBytes) :
    span h.numBytes numBytes position
      = ⟨transferred h numBytes position, position / 128,
          (position + transferred h numBytes position - 1) / 128⟩ := by
  have hlen := hs.length_le
  have hclip := clip_eq hs hp hint hn hlt
  have hm : 0 < transferred h numBytes position
      ∧ position + transferred h numBytes position ≤ h.numBytes := by
    rw [transferred]
    omega
  have hsum : wrap32 (position + transferred h numBytes position)
      = position + transferred h numBytes position := wrap32_of_bounds (by omega) (by omega)
  rw [span, hclip, hsum, wrap32_of_bounds (by omega) (by omega),
    Int.tdiv_eq_ediv_of_nonneg hp, Int.tdiv_eq_ediv_of_nonneg (by omega)]

theorem transferred_of_refused {numBytes position : Int}
    (hout : numBytes ≤ 0 ∨ h.numBytes ≤ position) : transferred h numBytes position = 0 := by
  rw [transferred]
  omega

theorem transferred_bounds {numBytes position : Int}
    (hin : ¬(numBytes ≤ 0 ∨ h.numBytes ≤ position)) :
    0 < transferred h numBytes position
      ∧ position + transferred h numBytes position ≤ h.numBytes := by
  rw [transferred]
  omega

/-- **`ReadAt`** delivers the bytes of the file that were asked for. -/
theorem readAt_eq (hs : Sound h) {numBytes position : Int} (hp : 0 ≤ position)
    (hint : IsInt (position + numBytes)) :
    readAt d h numBytes position
      = some (read (content d h) position (transferred h numBytes position).toNat) := by
  rw [readAt]
  split
  next hout =>
      rw [transferred_of_refused hout]
      rfl
  next hin =>
      have hlen := hs.length_le
      have hcov := hs.covers
      have hspan := span_eq hs hp hint (by omega) (by omega)
      have hm := transferred_bounds hin
      generalize transferred h numBytes position = m at hspan hm
      simp only [hspan, Span.Fits, Span.numSectors]
      rw [if_pos (by omega), readSectors_eq hs (by omega) _ (by omega), Option.map_some]
      refine congrArg some (List.ext_getElem ?_ fun i hi hi' => ?_)
      · simp only [List.length_take, List.length_drop, length_read]
        omega
      · rw [length_read] at hi'
        rw [List.getElem_take, List.getElem_drop, ← List.getD_eq_getElem _ 0,
          ← List.getD_eq_getElem _ 0, getD_read (by omega), getD_read hi']
        exact congrArg (content d h) (by omega)

/-- The loop of `WriteAt` puts the buffer into the sectors of the file. -/
theorem writeSectors_eq (hs : Sound h) (buf : Memory) {first : Int} (h0 : 0 ≤ first) (n : Nat)
    (hn : first + n ≤ h.numSectors) :
    ∃ d', writeSectors d h buf first n = some d'
      ∧ (∀ k, first * 128 ≤ k → k < (first + n) * 128 → content d' h k = buf (k - first * 128))
      ∧ (∀ k, 0 ≤ k → k < 128 * h.numSectors → ¬(first * 128 ≤ k ∧ k < (first + n) * 128) →
          content d' h k = content d h k)
      ∧ ∀ x, x / 128 ∉ h.sectors → d' x = d x := by
  induction n with
  | zero => exact ⟨d, rfl, fun k h1 h2 => by omega, fun _ _ _ _ => rfl, fun _ _ => rfl⟩
  | succ n ih =>
      obtain ⟨d₁, hd₁, hin, hout, hframe⟩ := ih (by omega)
      have hlast : first + n < h.numSectors := by omega
      have hmem : h.dataSector (first + n) ∈ h.sectors := mem_sectors.mpr ⟨_, by omega, hlast, rfl⟩
      refine ⟨write d₁ (h.dataSector (first + n) * 128) (read buf (n * 128) 128), ?_, ?_, ?_, ?_⟩
      · rw [writeSectors, hd₁, Option.bind_some, byteToSector_eq hs (by omega) hlast,
          Option.bind_some, writeSector, if_pos (hs.inRange _ (by omega) hlast)]
      · intro k h1 h2
        simp only [content]
        by_cases hk : k / 128 = first + n
        · rw [hk, write_read_of_mem (by omega) (by omega)]
          exact congrArg buf (by omega)
        · have hne : h.dataSector (k / 128) ≠ h.dataSector (first + n) := fun he =>
            hk (hs.distinct _ _ (by omega) (by omega) (by omega) hlast he)
          rw [write_read_of_not_mem (by omega)]
          exact hin k h1 (by omega)
      · intro k h1 h2 h3
        simp only [content]
        have hk : k / 128 ≠ first + n := by omega
        have hne : h.dataSector (k / 128) ≠ h.dataSector (first + n) := fun he =>
          hk (hs.distinct _ _ (by omega) (by omega) (by omega) hlast he)
        rw [write_read_of_not_mem (by omega)]
        exact hout k h1 h2 (by omega)
      · intro x hx
        have hne : x / 128 ≠ h.dataSector (first + n) := fun he => hx (he ▸ hmem)
        rw [write_read_of_not_mem (by omega)]
        exact hframe x hx

/-- The buffer before the new bytes are copied in: where a sector is replaced
in part, the rest of it is the file's. -/
theorem prefill_eq (hs : Sound h) (junk : Memory) {p m : Int} (hp : 0 ≤ p) (hm : 0 < m)
    (hlen : p + m ≤ h.numBytes) :
    ∃ buf, prefill d h junk ⟨m, p / 128, (p + m - 1) / 128⟩ p = some buf
      ∧ ∀ k, p / 128 * 128 ≤ k → k < ((p + m - 1) / 128 + 1) * 128 → k < h.numBytes →
          ¬(p ≤ k ∧ k < p + m) → buf (k - p / 128 * 128) = content d h k := by
  have hmax := hs.length_le
  have hwrap : wrap32 (p + m) = p + m := wrap32_of_bounds (by omega) (by omega)
  -- what reading one whole sector of the file delivers
  have hread : ∀ i, 0 ≤ i → i * 128 < h.numBytes →
      readAt d h 128 (i * 128)
        = some (read (content d h) (i * 128) (min 128 (h.numBytes - i * 128)).toNat) := by
    intro i h0 hi
    have hmin : transferred h 128 (i * 128) = min 128 (h.numBytes - i * 128) := by
      rw [transferred]
      omega
    rw [readAt_eq hs (by omega) ⟨by simp only [intMin]; omega, by simp only [intMax]; omega⟩, hmin]
  have hfirst := hread (p / 128) (by omega) (by omega)
  have hlast := hread ((p + m - 1) / 128) (by omega) (by omega)
  simp only [prefill, hwrap]
  by_cases ha : p = p / 128 * 128
  · rw [if_neg (not_not.mpr ha)]
    by_cases hb : p + m = ((p + m - 1) / 128 + 1) * 128
    · rw [if_neg fun hc => hc.1 hb]
      exact ⟨junk, rfl, fun k h1 h2 h3 h4 => by omega⟩
    · rw [if_pos ⟨hb, Or.inr ha⟩, Option.bind_some, hlast, Option.map_some]
      refine ⟨_, rfl, fun k h1 h2 h3 h4 => ?_⟩
      rw [write_read_of_mem (by omega) (by omega)]
      exact congrArg (content d h) (by omega)
  · rw [if_pos ha, hfirst, Option.map_some]
    by_cases hb : ¬p + m = ((p + m - 1) / 128 + 1) * 128 ∧ p / 128 ≠ (p + m - 1) / 128
    · rw [if_pos ⟨hb.1, Or.inl hb.2⟩, Option.bind_some, hlast, Option.map_some]
      refine ⟨_, rfl, fun k h1 h2 h3 h4 => ?_⟩
      by_cases hk : (p + m - 1) / 128 * 128 ≤ k
      · rw [write_read_of_mem (by omega) (by omega)]
        exact congrArg (content d h) (by omega)
      · rw [write_read_of_not_mem (by omega), write_read_of_mem (by omega) (by omega)]
        exact congrArg (content d h) (by omega)
    · rw [if_neg fun hc => hb ⟨hc.1, hc.2.resolve_right ha⟩]
      refine ⟨_, rfl, fun k h1 h2 h3 h4 => ?_⟩
      rw [write_read_of_mem (by omega) (by omega)]
      exact congrArg (content d h) (by omega)

/-- **`WriteAt`** replaces the bytes of the file that were asked for, and
touches no sector of another file. -/
theorem writeAt_eq (hs : Sound h) (junk data : Memory) {numBytes position : Int}
    (hp : 0 ≤ position) (hint : IsInt (position + numBytes)) :
    ∃ d', writeAt d h junk data numBytes position
        = some (transferred h numBytes position, d')
      ∧ (∀ k, 0 ≤ k → k < h.numBytes → content d' h k
          = if position ≤ k ∧ k < position + transferred h numBytes position
            then data (k - position) else content d h k)
      ∧ ∀ x, x / 128 ∉ h.sectors → d' x = d x := by
  rw [writeAt]
  split
  next hout =>
      rw [transferred_of_refused hout]
      exact ⟨d, rfl, fun k _ _ => by rw [if_neg (by omega)], fun _ _ => rfl⟩
  next hin =>
      have hlen := hs.length_le
      have hcov := hs.covers
      have hspan := span_eq hs hp hint (by omega) (by omega)
      have hm := transferred_bounds hin
      generalize transferred h numBytes position = m at hspan hm
      obtain ⟨buf, hbuf, hkept⟩ := prefill_eq (d := d) hs junk hp hm.1 hm.2
      obtain ⟨d', hd', hwritten, hrest, hframe⟩ := writeSectors_eq (d := d) hs
        (write buf (position - position / 128 * 128) (read data 0 m.toNat))
        (show 0 ≤ position / 128 by omega)
        (1 + (position + m - 1) / 128 - position / 128).toNat (by omega)
      refine ⟨d', ?_, fun k h0 hk => ?_, hframe⟩
      · simp only [hspan, Span.Fits, Span.numSectors]
        rw [if_pos (by omega), hbuf, Option.bind_some, hd', Option.map_some]
      · by_cases hsec : position / 128 * 128 ≤ k ∧ k < ((position + m - 1) / 128 + 1) * 128
        · rw [hwritten k hsec.1 (by omega)]
          by_cases hnew : position ≤ k ∧ k < position + m
          · rw [if_pos hnew, write_read_of_mem (by omega) (by omega)]
            exact congrArg data (by omega)
          · rw [if_neg hnew, write_read_of_not_mem (by omega)]
            exact hkept k hsec.1 hsec.2 hk hnew
        · rw [if_neg (by omega), hrest k h0 (by omega) (by omega)]

end Specs

end DiskFS

end Nachos
