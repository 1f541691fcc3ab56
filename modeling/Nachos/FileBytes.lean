import Nachos.DiskFiles

/-!
# Disk files as byte arrays

`ReadAt` and `WriteAt` look at the length in the header and at the table of
sectors, and nowhere at `numSectors`. What they do is therefore stated for
any header whose length is at most `MaxFileSize` and whose table lists, as
far as the length reaches, sectors of the disk that differ (`Describes`).

`DiskFiles` proves it for headers that are `Sound`, in which `numSectors` is
right as well. A header that describes a file becomes `Sound` when
`numSectors` is put right (`withNumSectors`), and neither call can tell the
difference unless its position is negative (`readAt_congr`, `writeAt_congr`).
-/

namespace Nachos

namespace DiskFS

open CInt ByteMemory

/-- `MaxFileSize`. -/
def maxFileSize : Int := 30 * 128

/-- How many sectors the length of a file needs. -/
def sectorsNeeded (h : FileHeader) : Int := (h.numBytes + 127) / 128

/-- The sectors of the file. -/
def fileSectors (h : FileHeader) : List Int :=
  (List.range (sectorsNeeded h).toNat).map fun i : Nat => h.dataSector i

/-- The header describes a file: its data sectors are sectors of the disk,
and differ. -/
structure Describes (h : FileHeader) : Prop where
  nonneg : 0 ≤ h.numBytes
  length : h.numBytes ≤ maxFileSize
  inRange : ∀ i, 0 ≤ i → i < sectorsNeeded h → InRange (h.dataSector i)
  distinct : ∀ i j, 0 ≤ i → i < sectorsNeeded h → 0 ≤ j → j < sectorsNeeded h →
    h.dataSector i = h.dataSector j → i = j

/-! ## What the calls read of a header -/

/-- The two headers have the same length and the same table. -/
structure Alike (h h' : FileHeader) : Prop where
  numBytes : h'.numBytes = h.numBytes
  dataSector : ∀ i, 0 ≤ i → h'.dataSector i = h.dataSector i

section Alike

variable {h h' : FileHeader} {d : Disk}

theorem Alike.byteToSector (ha : Alike h h') {i : Int} (hi : 0 ≤ i) :
    h'.byteToSector (i * 128) = h.byteToSector (i * 128) := by
  rw [FileHeader.byteToSector, FileHeader.byteToSector, Int.mul_tdiv_cancel i (by decide),
    ha.dataSector i hi]

theorem readSectors_congr (ha : Alike h h') {first : Int} (h0 : 0 ≤ first) (n : Nat) :
    readSectors d h' first n = readSectors d h first n := by
  induction n with
  | zero => rfl
  | succ n ih => rw [readSectors, readSectors, ih, ha.byteToSector (by omega)]

theorem readAt_congr (ha : Alike h h') (numBytes : Int) {position : Int} (hp : 0 ≤ position) :
    readAt d h' numBytes position = readAt d h numBytes position := by
  have hfirst : 0 ≤ (span h.numBytes numBytes position).firstSector :=
    Int.tdiv_nonneg hp (by decide)
  simp only [readAt, ha.numBytes, readSectors_congr ha hfirst]

theorem writeSectors_congr (ha : Alike h h') (buf : Memory) {first : Int} (h0 : 0 ≤ first)
    (n : Nat) : writeSectors d h' buf first n = writeSectors d h buf first n := by
  induction n with
  | zero => rfl
  | succ n ih => rw [writeSectors, writeSectors, ih, ha.byteToSector (by omega)]

theorem writeAt_congr (ha : Alike h h') (junk data : Memory) (numBytes : Int) {position : Int}
    (hp : 0 ≤ position) :
    writeAt d h' junk data numBytes position = writeAt d h junk data numBytes position := by
  have hfirst : 0 ≤ (span h.numBytes numBytes position).firstSector :=
    Int.tdiv_nonneg hp (by decide)
  simp only [writeAt, ha.numBytes]
  generalize span h.numBytes numBytes position = r at hfirst
  by_cases hfits : r.Fits position
  · have hlast : 0 ≤ r.lastSector * 128 := by
      have hnum := hfits.1
      rw [Span.numSectors] at hnum
      omega
    have hfirst' : 0 ≤ r.firstSector * 128 := by omega
    simp only [prefill, readAt_congr ha 128 hfirst', readAt_congr ha 128 hlast,
      writeSectors_congr ha _ hfirst]
  · simp only [if_neg hfits]

theorem content_congr (ha : Alike h h') {k : Int} (hk : 0 ≤ k) :
    content d h' k = content d h k := by
  rw [content, content, ha.dataSector _ (Int.ediv_nonneg hk (by decide))]

end Alike

/-! ## Putting `numSectors` right -/

/-- The header with the number of sectors that the length needs. -/
def withNumSectors (h : FileHeader) : FileHeader := setWord h 4 (sectorsNeeded h)

section

variable {h : FileHeader}

theorem alike_withNumSectors (h : FileHeader) : Alike h (withNumSectors h) := by
  refine ⟨word_setWord_of_disjoint (by omega), fun i hi => word_setWord_of_disjoint (by omega)⟩

theorem Describes.sectorsNeeded_bounds (hd : Describes h) :
    0 ≤ sectorsNeeded h ∧ sectorsNeeded h ≤ 30 ∧ h.numBytes ≤ 128 * sectorsNeeded h := by
  have hnonneg := hd.nonneg
  have hlength := hd.length
  simp only [maxFileSize, sectorsNeeded] at *
  omega

theorem Describes.numSectors (hd : Describes h) :
    (withNumSectors h).numSectors = sectorsNeeded h := by
  have hbounds := hd.sectorsNeeded_bounds
  refine word_setWord ?_
  simp only [IsInt, intMin, intMax]
  omega

theorem Describes.sound (hd : Describes h) : Sound (withNumSectors h) := by
  have hbounds := hd.sectorsNeeded_bounds
  have hnum := hd.numSectors
  have ha := alike_withNumSectors h
  refine ⟨?_, ?_, ?_, fun i h0 hi => ?_, fun i j h0 hi h0' hj heq => ?_⟩
  · rw [ha.numBytes]; exact hd.nonneg
  · rw [ha.numBytes, hnum]; exact hbounds.2.2
  · rw [hnum]; exact hbounds.2.1
  · rw [hnum] at hi
    rw [ha.dataSector i h0]
    exact hd.inRange i h0 hi
  · rw [hnum] at hi hj
    rw [ha.dataSector i h0, ha.dataSector j h0'] at heq
    exact hd.distinct i j h0 hi h0' hj heq

theorem Describes.sectors (hd : Describes h) : (withNumSectors h).sectors = fileSectors h := by
  rw [FileHeader.sectors, hd.numSectors]
  exact List.map_congr_left fun i _ => (alike_withNumSectors h).dataSector i (by omega)

end

/-! ## Reading and writing -/

/-- A request comes to the bytes asked for that the file has. `ReadAt`
delivers just these; `WriteAt` replaces just these, returns their number, and
leaves the other bytes of the file and the sectors of other files alone,
whatever was in its buffer. -/
theorem file_bytes (d : Disk) (h : FileHeader) (junk data : Memory) (numBytes position : Int)
    (hd : Describes h) (hp : 0 ≤ position) (hint : IsInt (position + numBytes)) :
    readAt d h numBytes position
        = some (read (content d h) position (transferred h numBytes position).toNat)
      ∧ ∃ d', writeAt d h junk data numBytes position = some (transferred h numBytes position, d')
        ∧ (∀ k, 0 ≤ k → k < h.numBytes → content d' h k =
            if position ≤ k ∧ k < position + transferred h numBytes position then
              data (k - position)
            else content d h k)
        ∧ ∀ x, x / 128 ∉ fileSectors h → d' x = d x := by
  have ha := alike_withNumSectors h
  have htransferred : transferred (withNumSectors h) numBytes position
      = transferred h numBytes position := by rw [transferred, transferred, ha.numBytes]
  constructor
  · rw [← readAt_congr ha numBytes hp, readAt_eq hd.sound hp hint, htransferred]
    refine congrArg some (List.map_congr_left fun i _ => content_congr ha ?_)
    omega
  · obtain ⟨d', hw, hbytes, hframe⟩ := writeAt_eq (d := d) hd.sound junk data hp hint
    rw [writeAt_congr ha junk data numBytes hp, htransferred] at hw
    refine ⟨d', hw, fun k h0 hk => ?_, fun x hx => hframe x (by rw [hd.sectors]; exact hx)⟩
    have hbyte := hbytes k h0 (by rw [ha.numBytes]; exact hk)
    rw [content_congr ha h0, content_congr ha h0, htransferred] at hbyte
    exact hbyte

/-- The header of a file of 300 bytes in the sectors 5, 9 and 7. -/
def shortFile : FileHeader := write (fun _ => 0) 0 ([300, 3, 5, 9, 7].flatMap (leBytes 4))

/-- 100 bytes written at 250 come to 50, in two sectors. -/
theorem file_bytes_shortFile :
    Describes shortFile ∧ IsInt (250 + 100)
      ∧ ∃ d', writeAt (fun _ => 0) shortFile (fun _ => 255) (fun _ => 1) 100 250 = some (50, d')
        ∧ content d' shortFile 249 = 0 ∧ content d' shortFile 250 = 1 ∧ d' (6 * 128) = 0 := by
  have hneeded : sectorsNeeded shortFile = 3 := by decide
  have hcases : ∀ i : Int, 0 ≤ i → i < sectorsNeeded shortFile → i = 0 ∨ i = 1 ∨ i = 2 := by
    intro i h0 hi
    omega
  have hd : Describes shortFile := by
    refine ⟨by decide, by decide, fun i h0 hi => ?_, fun i j h0 hi h0' hj => ?_⟩
    · rcases hcases i h0 hi with rfl | rfl | rfl <;> decide
    · rcases hcases i h0 hi with rfl | rfl | rfl <;> rcases hcases j h0' hj with rfl | rfl | rfl <;>
        decide
  obtain ⟨-, d', hw, hbytes, hframe⟩ := file_bytes (fun _ => 0) shortFile (fun _ => 255)
    (fun _ => 1) 100 250 hd (by decide) (by decide)
  have hm : transferred shortFile 100 250 = 50 := by decide
  rw [hm] at hw hbytes
  refine ⟨hd, by decide, d', hw, ?_, ?_, hframe _ (by decide)⟩
  · rw [hbytes 249 (by decide) (by decide), if_neg (by decide)]
    rfl
  · rw [hbytes 250 (by decide) (by decide), if_pos (by decide)]

end DiskFS

end Nachos
