import Nachos.Bitmap
import Nachos.DiskFiles

/-!
# The clipping of requests

`ReadAt` and `WriteAt` of `filesys/openfile.cc` cut a request off at the end
of the file before they compute its sectors and the size of their buffer.
The test for it adds two `int`s, and the size of the buffer is an `int`
product: `span` and `Span.bufferSize` say what they come to for every file
length and every request.

The sum is negative when the request ends beyond the largest `int`. Such a
request passes the test as it is, and its sectors go far beyond the table of
the header.
-/

namespace Nachos

namespace DiskFS

open CInt ByteMemory

/-- `numSectors * SectorSize`. -/
def Span.bufferSize (r : Span) : Int := wrap32 (r.numSectors * 128)

/-- The request is cut off at the end of the file, its sectors are sectors of
the file, and there is room for them. -/
structure Exact (fileLength numBytes position : Int) : Prop where
  transfer : (span fileLength numBytes position).numBytes = min numBytes (fileLength - position)
  first : 0 ≤ (span fileLength numBytes position).firstSector
  ordered : (span fileLength numBytes position).firstSector
    ≤ (span fileLength numBytes position).lastSector
  last : (span fileLength numBytes position).lastSector < divRoundUp fileLength 128
  buffer : 0 < (span fileLength numBytes position).bufferSize

section Requests

variable {fileLength numBytes position : Int}

/-- The clipping alone. -/
theorem clip_eq_min_iff (hlen : fileLength ≤ intMax) (hp : 0 ≤ position)
    (hlt : position < fileLength) (hn : 0 < numBytes) (hmax : numBytes ≤ intMax) :
    clip fileLength numBytes position = min numBytes (fileLength - position)
      ↔ position + numBytes ≤ intMax := by
  simp only [intMax] at hlen hmax ⊢
  rw [clip]
  constructor
  · intro heq
    by_contra hbig
    have hsum : wrap32 (position + numBytes) = position + numBytes - 4294967296 := by
      simp only [wrap32]
      omega
    rw [hsum, if_neg (by omega)] at heq
    omega
  · intro hle
    rw [wrap32_of_bounds (by omega) hle, wrap32_of_bounds (by omega) (by omega)]
    split <;> omega

/-- The sectors of a request that is clipped. -/
theorem span_of_clip (hlen : fileLength ≤ intMax) (hp : 0 ≤ position) (hlt : position < fileLength)
    (hn : 0 < numBytes)
    (hclip : clip fileLength numBytes position = min numBytes (fileLength - position)) :
    span fileLength numBytes position
      = ⟨min numBytes (fileLength - position), position / 128,
          (min (position + numBytes) fileLength - 1) / 128⟩ := by
  simp only [intMax] at hlen
  have hend : position + min numBytes (fileLength - position)
      = min (position + numBytes) fileLength := by omega
  have hsum : wrap32 (min (position + numBytes) fileLength)
      = min (position + numBytes) fileLength := wrap32_of_bounds (by omega) (by omega)
  rw [span, hclip, hend, hsum, wrap32_of_bounds (by omega) (by omega),
    Int.tdiv_eq_ediv_of_nonneg hp, Int.tdiv_eq_ediv_of_nonneg (by omega)]

/-- The size of the buffer is an `int` but for the whole range of sectors. -/
theorem bufferSize_pos_iff (m first last : Int) (h0 : 0 ≤ first) (hle : first ≤ last)
    (hlast : last ≤ 16777215) :
    0 < Span.bufferSize ⟨m, first, last⟩ ↔ ¬(first = 0 ∧ last = 16777215) := by
  simp only [Span.bufferSize, Span.numSectors, wrap32]
  omega

end Requests

/-- **Clipping is exact** for the requests that end within the `int`s and do
not need a buffer of 2^31 bytes. -/
theorem request_exact_iff (fileLength numBytes position : Int) (hlen : fileLength ≤ intMax)
    (hp : 0 ≤ position) (hlt : position < fileLength) (hn : 0 < numBytes)
    (hmax : numBytes ≤ intMax) :
    Exact fileLength numBytes position
      ↔ position + numBytes ≤ intMax
        ∧ (128 ≤ position ∨ min (position + numBytes) fileLength ≤ intMax - 127) := by
  have hiff := clip_eq_min_iff hlen hp hlt hn hmax
  have hspan := span_of_clip hlen hp hlt hn
  have hsectors := divRoundUp_of_nonneg (show 0 ≤ fileLength by omega) 128
  simp only [intMax] at hlen hmax hiff ⊢
  have hbuffer := bufferSize_pos_iff (min numBytes (fileLength - position)) (position / 128)
    ((min (position + numBytes) fileLength - 1) / 128) (by omega) (by omega) (by omega)
  constructor
  · intro he
    have hclip : clip fileLength numBytes position = min numBytes (fileLength - position) :=
      he.transfer
    have hpos := he.buffer
    rw [hspan hclip, hbuffer] at hpos
    exact ⟨hiff.mp hclip, by omega⟩
  · rintro ⟨hsum, hroom⟩
    have heq := hspan (hiff.mpr hsum)
    refine ⟨by rw [heq], ?_, ?_, ?_, ?_⟩
    · rw [heq]
      exact Int.ediv_nonneg hp (by decide)
    · rw [heq]
      exact Int.ediv_le_ediv (by decide) (by omega)
    · rw [heq, hsectors]
      dsimp only
      split <;> omega
    · rw [heq, hbuffer]
      omega

/-- A file of one byte more than a sector, read from its last byte on. -/
theorem request_exact_last : Exact 129 2147483519 128 :=
  (request_exact_iff 129 2147483519 128 (by decide) (by decide) (by decide) (by decide)
    (by decide)).mpr (by decide)

/-- The last byte of a file of two, and as much as can be asked for: nothing
is cut off, and the size of the buffer is negative. -/
theorem request_wraps :
    ¬Exact 2 2147483647 1
      ∧ span 2 2147483647 1 = ⟨2147483647, 0, 16777215⟩
      ∧ (span 2 2147483647 1).bufferSize = -2147483648 := by
  have hspan : span 2 2147483647 1 = ⟨2147483647, 0, 16777215⟩ := by
    simp [span, clip, wrap32]
  refine ⟨fun he => ?_, hspan, by rw [hspan]; decide⟩
  have htransfer := he.transfer
  rw [hspan] at htransfer
  exact absurd htransfer (by decide)

end DiskFS

end Nachos
