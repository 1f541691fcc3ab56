import Nachos.LoadLayout

/-!
# How `Load` splits the segments over pages

The three blocks of `Load` each fill up the page the one before has begun,
then take whole pages, then a last part. For a header with a code segment at
address 0 the parts add up: whatever frames the bitmap hands out, the address
space read through the page table is the code, the initialised data and the
read-only data in one piece from address 0 on, then zeros, and each `ReadAt`
has its buffer inside one frame of the program (`load_concatenates`).

The sizes are those with room in the free frames (`Fits`). The size of the
uninitialised data only adds pages: no copying loop reads it, so the loops of
a header are those of the same header without it (`dropUninitData`).
-/

namespace Nachos

open CInt ByteMemory Machine

namespace AddrSpace

/-! ## What is asked for -/

/-- The address space has room for the segments, and the free frames for the
address space. -/
structure Fits (noffH : NoffHeader) (k : Frames) : Prop where
  room : noffH.code.size + noffH.initData.size + noffH.readonlyData.size ≤ 128 * numPages noffH
  free : numPages noffH ≤ k.gPhysPageBitMap.numClear

/-- Sizes that are not negative fit when all segments and the stack together
are no larger than the free frames. -/
theorem Regular.fits {noffH : NoffHeader} {k : Frames} (hr : Regular noffH)
    (htotal : noffH.code.size + noffH.readonlyData.size + noffH.initData.size
      + noffH.uninitData.size + 1024 ≤ 128 * k.gPhysPageBitMap.numClear) : Fits noffH k := by
  have hnum := numPages_eq noffH
  have hu := hr.uninitData
  rw [hr.size_eq] at hnum
  exact ⟨by omega, by omega⟩

/-- The bytes of the segments in the order `Load` copies them. -/
def segmentBytes (file : File) (noffH : NoffHeader) : List UInt8 :=
  file.bytes noffH.code.inFileAddr noffH.code.size
    ++ file.bytes noffH.initData.inFileAddr noffH.initData.size
    ++ file.bytes noffH.readonlyData.inFileAddr noffH.readonlyData.size

/-- The `numBytes` bytes of physical memory from `addr` on are in the frame
of one entry. -/
def InOneFrame (pt : List TranslationEntry) (addr numBytes : Int) : Prop :=
  ∃ e ∈ pt, 128 * (frameOf e : Int) ≤ addr ∧ addr + numBytes ≤ 128 * frameOf e + 128

/-- `Load` succeeds with the segments one behind the other and zeros behind
them, on frames that were free, each for one page; every call finds its entry
and keeps to one of the frames, with the buffer it passes and with the bytes
it stores. -/
structure Concatenated (noffH : NoffHeader) (file : File) (k : Frames) (r : Loaded) : Prop where
  returns : r.outcome = .returnsTrue
  length : r.pageTable.length = numPages noffH
  image : ∀ a : Int, 0 ≤ a → a < 128 * numPages noffH →
    byteAt r.pageTable r.frames.mainMemory a = some ((segmentBytes file noffH).getD a.toNat 0)
  fresh : ∀ e ∈ r.pageTable, k.gPhysPageBitMap.testBit (frameOf e) = false
  distinct : (r.pageTable.map frameOf).Nodup
  buffers : ∀ call ∈ reads noffH, ∃ e, r.pageTable[call.index]? = some e
    ∧ InOneFrame r.pageTable (noffH.code.virtualAddr + e.physicalPage * 128 + call.offset)
        call.numBytes
  writes : ∀ w ∈ r.writes, InOneFrame r.pageTable w.1 w.2

/-! ## The loops do not see the uninitialised data -/

/-- The header without its uninitialised data. -/
def dropUninitData (noffH : NoffHeader) : NoffHeader := { noffH with uninitData := ⟨0, 0, 0⟩ }

theorem reads_dropUninitData (noffH : NoffHeader) : reads (dropUninitData noffH) = reads noffH :=
  rfl

section

variable {noffH : NoffHeader} {k : Frames} (hbits : k.gPhysPageBitMap.numBits = 128)
  (hfits : Fits noffH k)

include hbits hfits

theorem Fits.numPages_le : numPages noffH ≤ 128 := by
  have hfree := hfits.free
  rw [Bitmap.numClear_eq] at hfree
  omega

theorem Fits.regular (hcode : 0 ≤ noffH.code.size) (hdata : 0 ≤ noffH.initData.size)
    (hread : 0 ≤ noffH.readonlyData.size) : Regular (dropUninitData noffH) := by
  have hpages := hfits.numPages_le hbits
  have hroom := hfits.room
  refine ⟨hcode, hdata, hread, le_rfl, ?_⟩
  simp only [dropUninitData]
  omega

end

theorem Readable.dropUninitData {file : File} {noffH : NoffHeader} (hf : Readable file noffH) :
    Readable file (dropUninitData noffH) :=
  ⟨hf.length, hf.code, hf.initData, hf.readonlyData⟩

/-! ## Where the bytes are stored -/

/-- A stored region is the beginning of the buffer of a call. -/
theorem call_of_mem_writes {pt : List TranslationEntry} {va : Int} {file : File}
    {calls : List ReadCall} {m : Memory} {w : Int × Nat} (hpos : ∀ call ∈ calls, 0 ≤ call.numBytes)
    (hw : w ∈ (copy va pt file calls m).writes) :
    ∃ call ∈ calls, ∃ e, pt[call.index]? = some e
      ∧ w.1 = va + e.physicalPage * 128 + call.offset ∧ w.2 ≤ call.numBytes := by
  induction calls generalizing m with
  | nil => cases hw
  | cons call calls ih =>
      rw [copy] at hw
      split at hw
      next => cases hw
      next e he =>
          split at hw
          next => cases hw
          next bytes hread =>
              rcases List.mem_cons.mp hw with rfl | hw
              · have hlen := file.length_bytes_le call.position call.numBytes
                  (hpos call List.mem_cons_self)
                rw [File.readAt] at hread
                split at hread
                next => cases hread
                next =>
                    obtain rfl := Option.some.inj hread
                    exact ⟨call, List.mem_cons_self, e, he, rfl, hlen⟩
              · obtain ⟨c, hc, hrest⟩ := ih (fun c hc => hpos c (List.mem_cons_of_mem _ hc)) hw
                exact ⟨c, List.mem_cons_of_mem _ hc, hrest⟩

/-- The buffer of a call that stays inside its page is in one frame. -/
theorem Allocated.inOneFrame {n : Nat} {k k' : Frames} {pt : List TranslationEntry}
    (ha : Allocated 0 n k pt k') {call : ReadCall} (hin : InPage n call) :
    ∃ e, pt[call.index]? = some e
      ∧ InOneFrame pt (0 + e.physicalPage * 128 + call.offset) call.numBytes := by
  obtain ⟨e, he, hnew, -⟩ := ha.getElem hin.index
  have hpage : e.physicalPage = frameOf e := congrArg TranslationEntry.physicalPage hnew
  have hlo := hin.offset
  have hhi := hin.fits
  exact ⟨e, he, e, List.mem_of_getElem? he, by omega, by omega⟩

/-! ## The whole address space -/

theorem fill_concatenates {noffH : NoffHeader} {file : File} {k : Frames}
    (hbits : k.gPhysPageBitMap.numBits = 128) (had : Admitted noffH k)
    (hva : noffH.code.virtualAddr = 0) (hcode : 0 < noffH.code.size)
    (hdata : 0 ≤ noffH.initData.size) (hread : 0 ≤ noffH.readonlyData.size)
    (hf : Readable file noffH) (hfits : Fits noffH k) :
    Concatenated noffH file k (fill file noffH k) := by
  have hr := hfits.regular hbits hcode.le hdata hread
  have hin : ∀ call ∈ reads noffH, InPage (numPages noffH) call :=
    fun call hcall => hr.inPage_of_room hfits.room hcall
  have hal := allocated 0 (numPages noffH) k had.free
  have hbuffers := fun call hcall => hal.inOneFrame (hin call hcall)
  obtain ⟨htrue, hbyte⟩ := fill_byteAt_of_inPage hin hf hva had hbits
  rw [fill_of_start file k hva] at htrue hbyte ⊢
  refine ⟨htrue, hal.length, ?_, hal.fresh, hal.distinct, ?_, ?_⟩
  · intro a hlo hhi
    have himage := image_reads hr hf.dropUninitData (fun hz => absurd hz hcode.ne') (fun _ => 0)
    rw [hbyte a hlo hhi, ← reads_dropUninitData, himage]
    exact congrArg some (write_zeros _ hlo)
  · rw [hva]
    exact hbuffers
  · intro w hw
    obtain ⟨call, hcall, e, he, haddr, hlen⟩ :=
      call_of_mem_writes (fun call hcall => (hin call hcall).numBytes) hw
    obtain ⟨e', he', f, hf, hlo, hhi⟩ := hbuffers call hcall
    obtain rfl := Option.some.inj (he.symm.trans he')
    exact ⟨f, hf, by omega, by omega⟩

/-- Whatever frames are free, a program with a code segment at address 0
whose segments fit finds them one behind the other and zeros behind them, and
no `ReadAt` leaves the frame it was given. -/
theorem load_concatenates (stack : List UInt8) (file : File) (k : Frames)
    (hbits : k.gPhysPageBitMap.numBits = 128)
    (hmagic : (readHeader stack file).noffMagic = noffMagic)
    (hva : (readHeader stack file).code.virtualAddr = 0)
    (hcode : 0 < (readHeader stack file).code.size)
    (hdata : 0 ≤ (readHeader stack file).initData.size)
    (hread : 0 ≤ (readHeader stack file).readonlyData.size)
    (hf : Readable file (readHeader stack file)) (hfits : Fits (readHeader stack file) k) :
    Concatenated (readHeader stack file) file k (load stack (some file) k) := by
  have had : Admitted (readHeader stack file) k := ⟨hmagic, hfits.numPages_le hbits, hfits.free⟩
  rw [load_of_admitted had]
  exact fill_concatenates hbits had hva hcode hdata hread hf hfits

/-- A machine where the frames with the numbers 1 and 2 are taken. -/
def usedFrames : Frames := ⟨((Bitmap.new 128).markBit 1).markBit 2, fun _ => 7⟩

/-- The segments end in the middle of a page each, and the stack takes the
pages behind them. -/
def splitHeader : NoffHeader where
  noffMagic := noffMagic
  code := ⟨0, 52, 200⟩
  initData := ⟨200, 252, 100⟩
  readonlyData := ⟨300, 352, 50⟩
  uninitData := ⟨350, 0, 30⟩

/-- Code of ones, initialised data of twos, read-only data of threes. -/
def splitFile : File :=
  splitHeader.encode ++ (List.replicate 200 1 ++ List.replicate 100 2 ++ List.replicate 50 3)

theorem load_concatenates_split :
    readHeader [] splitFile = splitHeader
      ∧ Concatenated splitHeader splitFile usedFrames (load [] (some splitFile) usedFrames) := by
  have hheader : readHeader [] splitFile = splitHeader :=
    readHeader_encode [] splitHeader _ (by decide)
  have hlen : splitFile.length = 402 := by decide +kernel
  have hread : Readable splitFile splitHeader := by
    refine ⟨by rw [hlen]; decide, fun _ => ?_, fun _ => ?_, fun _ => ?_⟩ <;> rw [hlen] <;> decide
  have hregular : Regular splitHeader := by decide
  have hclear : usedFrames.gPhysPageBitMap.numClear = 126 := by decide +kernel
  have hfits : Fits splitHeader usedFrames := hregular.fits (by rw [hclear]; decide)
  refine ⟨hheader, ?_⟩
  have hall := load_concatenates [] splitFile usedFrames rfl
  rw [hheader] at hall
  exact hall rfl rfl (by decide) (by decide) (by decide) hread hfits

end AddrSpace

end Nachos
