import Nachos.CoffImage
import Nachos.LoadPages

/-!
# From the object file to the running program

A user program goes through two translations: `coff2noff` writes a NOFF file
from the COFF file that the linker made, and `AddrSpace::Load` copies that file
into frames and fills in a page table. `CoffImage` is about the first and
`LoadPages` about the second; here they are put together. What a process finds at
an address is compared with what the section headers of the COFF file say is to
be there.

The loader uses no address of the header but that of the code. So the sections
have to lie as it puts them (`Linked`): `.text`, which there has to be, at 0, then
`.data`, then `.rdata`, then `.bss`, each where the one before it ends, and each
once; sizes and file positions are not negative. A program linked like this,
converted, and loaded while enough frames are free is in memory as the linker laid
it out, with zeros in `.bss` and on the stack.
-/

namespace Nachos

namespace Coff

open CInt ByteMemory Machine AddrSpace

/-- The bytes that the sections of a slot take. -/
def sizeOf (coff : File) (slot : Slot) : Int := total (named slot.name (sections coff))

/-- The bytes that `.bss` takes. -/
def bssSize (coff : File) : Int := total (named bssName (sections coff))

/-- The sections in the order in which the loader copies them, without gaps. -/
structure Linked (coff : File) : Prop where
  wellFormed : ∀ s ∈ sections coff, s.WellFormed
  once : EachOnce ((sections coff).map Scnhdr.shape)
  present : named Slot.code.name (sections coff) ≠ []
  text : ∀ s ∈ named Slot.code.name (sections coff), s.sPaddr = 0
  data : ∀ s ∈ named Slot.initData.name (sections coff), s.sPaddr = sizeOf coff .code
  rdata : ∀ s ∈ named Slot.readonlyData.name (sections coff),
    s.sPaddr = sizeOf coff .code + sizeOf coff .initData
  bss : ∀ s ∈ named bssName (sections coff),
    s.sPaddr = sizeOf coff .code + sizeOf coff .initData + sizeOf coff .readonlyData

/-- What the sections of a slot hold. -/
def contents (coff : File) (slot : Slot) : List UInt8 :=
  (named slot.name (sections coff)).flatMap fun s => coff.bytes s.sScnptr s.sSize

/-! ## The header that was written -/

theorem copyOne_noffMagic {coff : File} {c c' : Conversion} {s : Scnhdr} (hs : s.WellFormed)
    (h : copyOne coff c s = some c') : c'.noffH.noffMagic = c.noffH.noffMagic := by
  rcases copyOne_cases hs h with ⟨-, rfl⟩ | ⟨-, slot, -, hc⟩ | ⟨-, -, hc⟩
  · rfl
  · rw [hc.noffH]
    cases slot <;> rfl
  · rw [(addBss_eq_some hc).1]

theorem copyAll_noffMagic {coff : File} {ss : List Scnhdr} {c c' : Conversion}
    (hwf : ∀ s ∈ ss, s.WellFormed) (h : copyAll coff c ss = some c') :
    c'.noffH.noffMagic = c.noffH.noffMagic := by
  induction ss generalizing c with
  | nil =>
      obtain rfl := Option.some.inj h
      rfl
  | cons s ss ih =>
      obtain ⟨c₁, h₁, h⟩ := Option.bind_eq_some_iff.mp h
      rw [ih (fun t ht => hwf t (List.mem_cons_of_mem s ht)) h,
        copyOne_noffMagic (hwf s List.mem_cons_self) h₁]

/-- What the loader reads of a slot: its size, and its bytes. -/
structure Written (coff noff : File) (noffH : NoffHeader) : Prop where
  magic : noffH.noffMagic = noffMagic
  length : noff.length ≤ 2147483647
  size : ∀ slot, (segment noffH slot).size = sizeOf coff slot
  inFile : ∀ slot, (segment noffH slot).InFile noff
  bytes : ∀ slot, noff.bytes (segment noffH slot).inFileAddr (segment noffH slot).size
    = contents coff slot
  start : ∀ s ∈ named Slot.code.name (sections coff), noffH.code.virtualAddr = s.sPaddr
  bss : noffH.uninitData.size = bssSize coff

theorem written {stack stack' : List UInt8} {coff noff : File} (hl : Linked coff)
    (h : main stack coff = some noff) : Written coff noff (readHeader stack' noff) := by
  have hmax : total (named bssName (sections coff)) ≤ intMax := by
    rcases named_eq_nil_or_singleton hl.once bssName with hnil | ⟨s, hs, hone⟩
    · rw [hnil]
      decide
    · rw [hone, total, List.map_singleton, List.sum_singleton]
      exact (isInt_of_mem_sections hs).2.2
  obtain ⟨fdIn, c, hc, rfl⟩ := main_eq_some h
  have hi : Inv coff (sections coff) c :=
    (Inv.init coff stack fdIn).copyAll hl.wellFormed (fun _ => isInt_of_mem_sections) hmax hc
  have hlen : ((c.noffH.encode ++ c.fdOut).length : Int) = 52 + c.fdOut.length := by
    rw [List.length_append, NoffHeader.length_encode]
    omega
  rw [readHeader_encode stack' c.noffH c.fdOut hi.words]
  -- a slot has one section or none
  have hslot : ∀ slot, (named slot.name (sections coff) = [] ∧ (segment c.noffH slot).size = 0)
      ∨ ∃ s, named slot.name (sections coff) = [s] ∧ Describes coff c slot s := fun slot => by
    rcases named_eq_nil_or_singleton hl.once slot.name with hnil | ⟨s, -, hone⟩
    · exact Or.inl ⟨hnil, hi.empty slot hnil⟩
    · exact Or.inr ⟨s, hone, hi.last slot s (by rw [hone, List.getLast?_singleton])⟩
  refine ⟨copyAll_noffMagic hl.wellFormed hc, ?_, fun slot => ?_, fun slot hpos => ?_,
    fun slot => ?_, fun s hs => ?_, hi.bssSize⟩
  · have := hi.limit
    rw [intMax] at this
    omega
  · rcases hslot slot with ⟨hnil, hzero⟩ | ⟨s, hone, hd⟩
    · rw [sizeOf, hnil, hzero]
      rfl
    · rw [sizeOf, hone, hd.size, total, List.map_singleton, List.sum_singleton]
  · rcases hslot slot with ⟨-, hzero⟩ | ⟨s, -, hd⟩
    · omega
    · have hbehind := hd.behind
      have hbefore := hd.before
      rw [hd.size, hlen]
      exact ⟨by omega, hbefore⟩
  · rcases hslot slot with ⟨hnil, hzero⟩ | ⟨s, hone, hd⟩
    · rw [contents, hnil, hzero, File.bytes_zero]
      rfl
    · rw [contents, hone, hd.size, List.flatMap_singleton]
      exact hd.bytes
  · rcases hslot .code with ⟨hnil, -⟩ | ⟨t, hone, hd⟩
    · rw [hnil] at hs
      cases hs
    · rw [hone] at hs
      rw [List.mem_singleton.mp hs]
      exact hd.virtualAddr

/-! ## In memory -/

section Memory

variable {coff : File} (hl : Linked coff)

include hl

theorem sizeOf_nonneg (slot : Slot) : 0 ≤ sizeOf coff slot :=
  total_nonneg fun s hs => hl.wellFormed s (mem_named.mp hs).1

theorem bssSize_nonneg : 0 ≤ bssSize coff :=
  total_nonneg fun s hs => hl.wellFormed s (mem_named.mp hs).1

theorem sizeOf_code_pos : 0 < sizeOf coff .code :=
  total_pos (pos_of_mem_named hl.wellFormed) hl.present

end Memory

/-- Where the loader puts the bytes of a slot. -/
def base (coff : File) : Slot → Int
  | .code => 0
  | .initData => sizeOf coff .code
  | .readonlyData => sizeOf coff .code + sizeOf coff .initData

/-- The three slots one behind the other, as the loader copies them. -/
def allContents (coff : File) : List UInt8 :=
  contents coff .code ++ contents coff .initData ++ contents coff .readonlyData

/-- The sections and the user stack together. -/
def space (coff : File) : Int :=
  sizeOf coff .code + sizeOf coff .readonlyData + sizeOf coff .initData + bssSize coff + 1024

/-- What the loader makes of the file: the contents of the slots, then zeros. -/
theorem Written.load {stack : List UInt8} {coff noff : File} {k : Frames} (hl : Linked coff)
    (hw : Written coff noff (readHeader stack noff)) (hbits : k.gPhysPageBitMap.numBits = 128)
    (hfree : space coff ≤ 128 * k.gPhysPageBitMap.numClear) :
    ∃ r, AddrSpace.load stack (some noff) k = r ∧ r.outcome = .returnsTrue
      ∧ space coff ≤ 128 * r.pageTable.length
      ∧ ∀ a : Int, 0 ≤ a → a < 128 * r.pageTable.length →
        byteAt r.pageTable r.frames.mainMemory a = some ((allContents coff).getD a.toNat 0) := by
  generalize hnoffH : readHeader stack noff = noffH at hw
  have hcode : noffH.code.size = sizeOf coff .code := hw.size .code
  have hdata : noffH.initData.size = sizeOf coff .initData := hw.size .initData
  have hread : noffH.readonlyData.size = sizeOf coff .readonlyData := hw.size .readonlyData
  have hbss := hw.bss
  have hpos := sizeOf_code_pos hl
  have hdpos := sizeOf_nonneg hl .initData
  have hrpos := sizeOf_nonneg hl .readonlyData
  have hbpos := bssSize_nonneg hl
  have hclear : k.gPhysPageBitMap.numClear ≤ 128 := by
    rw [Bitmap.numClear_eq]
    omega
  rw [space] at hfree ⊢
  have hregular : Regular noffH := by
    refine ⟨?_, ?_, ?_, ?_, ?_⟩ <;> omega
  have hfits : Fits noffH k := hregular.fits (by omega)
  have hadmitted : Admitted noffH k := ⟨hw.magic, hfits.numPages_le hbits, hfits.free⟩
  obtain ⟨s, hs⟩ := List.exists_mem_of_ne_nil _ hl.present
  have hconc := fill_concatenates hbits hadmitted ((hw.start s hs).trans (hl.text s hs))
    (by omega) (by omega) (by omega)
    ⟨hw.length, hw.inFile .code, hw.inFile .initData, hw.inFile .readonlyData⟩ hfits
  have hbytes : segmentBytes noff noffH = allContents coff := by
    rw [allContents, ← hw.bytes .code, ← hw.bytes .initData, ← hw.bytes .readonlyData]
    rfl
  refine ⟨fill noff noffH k, hnoffH ▸ load_of_admitted (hnoffH ▸ hadmitted), hconc.returns, ?_, ?_⟩
  · have hpages := numPages_eq noffH
    rw [hregular.size_eq] at hpages
    rw [hconc.length]
    omega
  · intro a hlo hhi
    rw [hconc.length] at hhi
    rw [hconc.image a hlo hhi, hbytes]

end Coff

end Nachos
